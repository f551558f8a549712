import GraceOS.Proc.Moves

/-!
# The calls of the subsystem as moves

`Allows K` asks the condition `K` of exactly those moves of a call that are its caller's choice,
and `step_moves` gives it back for all moves of the call. With no condition at all, the kernel is
sound after any calls whatever.
-/

namespace graceos.proc

open linkq machine

variable {K : Core → Move → Prop}

/-! ## Waiting -/

theorem wait_turn_moves (hK : Switches K) (hreap : Reaps K) {s : Kernel} (hs : s.core.Sound) {parent : Ptr}
    (hparent : s.current = some parent) {pid options : Nat}
    (h : (wait_turn s parent pid options).2 = .asleep → K s.core (.park parent .wait)) :
    Moves K s.core (wait_turn s parent pid options).1.core := by
  unfold wait_turn at h ⊢
  split
  · next zombie hfind =>
    have hzombie := List.find?_some hfind
    have hmem := List.mem_of_find?_eq_some hfind
    simp only [Bool.decide_and, Bool.and_eq_true, decide_eq_true_eq] at hzombie
    exact proc_destroy_moves hreap hs (listed_of_mem_children hmem) hzombie.2
  · next hnone =>
    rw [hnone] at h
    dsimp only at h ⊢
    split
    · exact .refl _
    · next hblock =>
      rw [if_neg hblock] at h
      -- the state is set before `sched_sleep` sets it once more
      have hcore : (park (s.modify parent fun q => { q with state := .wait }) parent .wait).core =
          s.core.apply (.park parent .wait) := by
        rw [core_park, core_set_state]
        simp [Core.apply]
      refine Moves.trans ?_ (schedule_moves hK _)
      refine .one (.park parent .wait) (.inr (.inl rfl)) (h rfl) ?_
      rw [← hcore]
      exact congrArg Kernel.core (on_current_some (by exact hparent))

theorem proc_wait_moves (hK : Switches K) (hreap : Reaps K) {s : Kernel} (hs : s.core.Sound) {pid options : Nat}
    (h : (proc_wait s pid options).2 = .asleep → ∀ c, s.current = some c →
      K s.core (.park c .wait)) : Moves K s.core (proc_wait s pid options).1.core := by
  unfold proc_wait at h ⊢
  split
  · exact .refl _
  · next parent hparent =>
    simp only [hparent] at h
    split
    · next hchildren =>
      rw [if_pos hchildren] at h
      have hcore : (s.modify parent fun q => { q with waiting_for := pid }).core = s.core :=
        core_modify rfl
      rw [← hcore] at hs ⊢
      exact wait_turn_moves hK hreap hs hparent fun hsleep => hcore ▸ h hsleep parent rfl
    · exact .refl _

theorem proc_wait_resume_moves (hK : Switches K) (hreap : Reaps K) {s : Kernel} (hs : s.core.Sound)
    {pid options : Nat}
    (h : (proc_wait_resume s pid options).2 = .asleep → ∀ c, s.current = some c →
      K s.core (.park c .wait)) : Moves K s.core (proc_wait_resume s pid options).1.core := by
  unfold proc_wait_resume at h ⊢
  split
  · exact .refl _
  · next parent hparent =>
    simp only [hparent] at h
    split
    · next hchildren =>
      rw [if_pos hchildren] at h
      exact wait_turn_moves hK hreap hs hparent fun hsleep => h hsleep parent rfl
    · exact .refl _

/-! ## Signals -/

/-- The move that a signal makes its target make meets `K`. -/
def AllowsSignal (K : Core → Move → Prop) (s : Kernel) (p : Ptr) (signal : Int) : Prop :=
  if signal = SIGSTOP then K s.core (.park p .blocked)
  else if signal = SIGCONT then (s.mem p).state = .blocked → K s.core (.ready p)
  else K s.core (.park p .zombie)

theorem deliver_moves (hK : Switches K) {s : Kernel} {p : Ptr} {signal : Int}
    (hlisted : s.core.Listed p) (h : AllowsSignal K s p signal) :
    Moves K s.core (deliver s p signal).core := by
  unfold AllowsSignal at h
  by_cases hstop : signal = SIGSTOP
  · subst hstop
    have hdeliver : deliver s p SIGSTOP = park s p .blocked := by
      simp [deliver, SIGSTOP, SIGKILL, SIGTERM]
    rw [hdeliver]
    exact park_moves (.inl rfl) (by simpa using h)
  · rw [if_neg hstop] at h
    by_cases hcont : signal = SIGCONT
    · subst hcont
      have hdeliver : deliver s p SIGCONT =
          if (s.mem p).state = .blocked then make_ready s p else s := by
        simp [deliver, SIGSTOP, SIGKILL, SIGTERM, SIGCONT]
      rw [hdeliver]
      split
      · next hblocked =>
        exact make_ready_moves hlisted (by simp [hblocked]) (by simpa [hblocked] using h)
      · exact .refl _
    · rw [if_neg hcont] at h
      have hdeliver : deliver s p signal = proc_terminate s p signal := by
        unfold deliver
        split
        · next hkill => rw [hkill]
        · split
          · next hterm => rw [hterm]
          · rfl
      rw [hdeliver]
      exact proc_terminate_moves hK h

/-- The move that `proc_kill` makes meets `K`. -/
def AllowsKill (K : Core → Move → Prop) (signal : Int) (s : Kernel) (pid : Nat) : Prop :=
  ∀ p, proc_find s pid = some p → may_signal s p → AllowsSignal K s p signal

theorem proc_kill_moves (hK : Switches K) {s : Kernel} {pid : Nat} {signal : Int}
    (h : AllowsKill K signal s pid) : Moves K s.core (proc_kill s pid signal).1.core := by
  unfold proc_kill
  split
  · exact .refl _
  · next p hfind =>
    split
    · next hmay => exact deliver_moves hK (listed_of_find hfind) (h p hfind hmay)
    · exact .refl _

/-! ## Jobs -/

/-- One turn of the loop of `job_kill_csid`. -/
def signal_next (signal : Int) (s : Kernel) (p : Ptr) : Kernel :=
  (proc_kill s (s.mem p).pid signal).1

theorem kill_each_eq (s : Kernel) (procs : List Ptr) (signal : Int) :
    (kill_each s procs signal).1 = machine.run (signal_next signal) s procs := by
  unfold kill_each
  -- the fold carries the worst result so far, which the kernel does not depend on
  have hfirst : s = (s, (0 : Int)).1 := rfl
  generalize (s, (0 : Int)) = start at hfirst ⊢
  subst hfirst
  induction procs generalizing start with
  | nil => rfl
  | cons p procs ih => exact ih _

theorem core_set_job (s : Kernel) (slot : Nat) (job : Job) : (s.set_job slot job).core = s.core :=
  rfl

/-- The signals that `job_kill_csid` sends all meet `P` when they are sent. -/
def SignalsGroup (P : Int → Kernel → Nat → Prop) (s : Kernel) (csid : Nat) (signal : Int) : Prop :=
  Along (signal_next signal) (fun s p => P signal s (s.mem p).pid) s (proc_get_csid_group s csid 64)

theorem job_kill_csid_moves (hK : Switches K) {s : Kernel} {csid : Nat} {signal : Int}
    (h : SignalsGroup (AllowsKill K) s csid signal) :
    Moves K s.core (job_kill_csid s csid signal).1.core := by
  have hkills := moves_run (fun s p hp => proc_kill_moves hK hp) h
  unfold job_kill_csid
  split
  · exact .refl _
  · next procs hprocs =>
    dsimp only
    split
    all_goals
      rw [kill_each_eq]
      exact hkills

/-- The signals that resuming a job sends all meet `P`. -/
def ResumesJob (P : Int → Kernel → Nat → Prop) (s : Kernel) (job_num : Int) : Prop :=
  ∀ slot, job_find_by_num s job_num = some slot → (s.jobs slot).state = .stopped →
    SignalsGroup P s (s.jobs slot).csid SIGCONT

theorem job_resume_moves (hK : Switches K) {s : Kernel} {job_num : Int}
    (h : ResumesJob (AllowsKill K) s job_num) : Moves K s.core (job_resume s job_num).1.core := by
  unfold job_resume
  split
  · exact .refl _
  · next slot hslot =>
    dsimp only
    rw [core_set_job]
    split
    · next hstopped => exact job_kill_csid_moves hK (h slot hslot hstopped)
    · exact .refl _

/-! ## All calls -/

/-- The condition `K` holds of the moves that a call makes by its caller's choice. -/
def Allows (K : Core → Move → Prop) (s : Kernel) : Op → Prop
  | .proc_create _ _ => Creates K
  | .proc_set_ready pid => ∀ p, proc_find s pid = some p → K s.core (.ready p)
  | .proc_set_blocked pid | .proc_invalidate pid =>
    ∀ p, proc_find s pid = some p → K s.core (.park p .blocked)
  | .proc_set_zombie pid _ | .proc_terminate pid _ =>
    ∀ p, proc_find s pid = some p → K s.core (.park p .zombie)
  | .proc_fork a => Creates K ∧ ∀ parent s' child, s.current = some parent →
    proc_create s (some parent) a = (s', some child) → K s'.core (.ready child)
  | .proc_vfork a => Creates K ∧ ∀ parent s' child, s.current = some parent →
    proc_create s (some parent) a = (s', some child) →
    K s'.core (.park parent .blocked) ∧ K (s'.core.apply (.park parent .blocked)) (.ready child)
  | .proc_exit _ => ∀ c, s.current = some c → (s.mem c).state ≠ .zombie →
    (s.mem c).state ≠ .dead → K s.core (.park c .zombie)
  | .proc_reap_zombies => Reaps K
  | .proc_wait pid options => Reaps K ∧ ((proc_wait s pid options).2 = .asleep →
    ∀ c, s.current = some c → K s.core (.park c .wait))
  | .proc_wait_resume pid options => Reaps K ∧ ((proc_wait_resume s pid options).2 = .asleep →
    ∀ c, s.current = some c → K s.core (.park c .wait))
  | .sched_yield => ∀ c, s.current = some c → K s.core (.yield c)
  | .sched_block => ∀ c, s.current = some c → K s.core (.park c .blocked)
  | .sched_sleep => ∀ c, s.current = some c → K s.core (.park c .wait)
  | .sched_unblock pid =>
    ∀ p, proc_find s pid = some p → (s.mem p).state = .blocked → K s.core (.ready p)
  | .sched_tick | .proc_check_sleepers =>
    ∀ c p, s.expired p → K c (.sleep p 0) ∧ K c (.ready p)
  | .sys_sleep ms => 0 < ms → ∀ c, s.current = some c →
    let time := s.boot_ticks + UInt64.ofInt ms
    K s.core (.sleep c time) ∧ K (s.core.apply (.sleep c time)) (.park c .blocked)
  | .proc_kill pid signal => AllowsKill K signal s pid
  | .job_kill_csid csid signal => SignalsGroup (AllowsKill K) s csid signal
  | .job_kill_num job_num signal => ∀ slot, job_find_by_num s job_num = some slot →
    SignalsGroup (AllowsKill K) s (s.jobs slot).csid signal
  | .job_fg job_num | .job_bg job_num => ResumesJob (AllowsKill K) s job_num
  | _ => True

theorem on_pid_moves {s : Kernel} {pid : Nat} {f : Ptr → Kernel}
    (hf : ∀ p, proc_find s pid = some p → Moves K s.core (f p).core) :
    Moves K s.core (s.on_pid pid f).core := by
  unfold Kernel.on_pid
  split
  · next p hp => exact hf p hp
  · exact .refl _

/-- A call makes legal moves, and those that its caller chooses are the ones `Allows` asks of. -/
theorem step_moves (hK : Switches K) {s : Kernel} (hs : s.core.Sound) {op : Op}
    (h : Allows K s op) : Moves K s.core (s.step op).core := by
  cases op with
  | proc_create parent a =>
    cases parent with
    | none => exact proc_create_moves h hs none a
    | some pid => exact on_pid_moves fun par _ => proc_create_moves h hs (some par) a
  | proc_set_ready pid =>
    refine on_pid_moves fun p hp => ?_
    unfold proc_set_ready
    split
    · exact .refl _
    · next halive =>
      exact make_ready_moves (listed_of_find hp) (fun hz => halive (.inl hz)) (h p hp)
  | proc_set_blocked pid => exact on_pid_moves fun p hp => park_moves (.inl rfl) (h p hp)
  | proc_set_zombie pid code => exact on_pid_moves fun p hp => proc_set_zombie_moves (h p hp)
  | proc_invalidate pid =>
    refine on_pid_moves fun p hp => ?_
    have hcore : (s.modify p fun q => { q with valid := false }).core = s.core := core_modify rfl
    rw [← hcore]
    exact park_moves (.inl rfl) (hcore.symm ▸ h p hp)
  | proc_fork a => exact proc_fork_moves h.1 hs h.2
  | proc_vfork a => exact proc_vfork_moves h.1 hs h.2
  | proc_exit code => exact proc_exit_moves hK h
  | proc_terminate pid signal => exact on_pid_moves fun p hp => proc_terminate_moves hK (h p hp)
  | proc_reap_zombies => exact proc_reap_zombies_moves h hs
  | proc_wait pid options => exact proc_wait_moves hK h.1 hs h.2
  | proc_wait_resume pid options => exact proc_wait_resume_moves hK h.1 hs h.2
  | proc_setuid pid uid =>
    refine on_pid_moves fun p _ => ?_
    refine .of_eq ?_
    unfold proc_setuid
    split
    · dsimp only
      exact core_modify rfl
    · rfl
  | proc_setsid =>
    refine .of_eq ?_
    simp only [Kernel.step, proc_setsid]
    split
    · rfl
    · split
      · rfl
      · dsimp only
        exact (core_modify rfl).trans rfl
  | schedule => exact schedule_moves hK s
  | sched_yield => exact sched_yield_moves hK h
  | sched_block => exact sched_block_moves hK h
  | sched_sleep => exact sched_sleep_moves hK h
  | sched_unblock pid =>
    exact on_pid_moves fun p hp => sched_unblock_moves (listed_of_find hp) (h p hp)
  | sched_tick => exact sched_tick_moves hK h
  | timer_tick => exact .refl _
  | proc_check_sleepers => exact check_sleepers_moves h
  | sys_sleep ms => exact sys_sleep_moves hK h
  | sched_set_priority pid priority => exact on_pid_moves fun p _ => .of_eq (core_modify rfl)
  | sched_set_nice pid nice =>
    refine on_pid_moves fun p _ => .of_eq ?_
    unfold sched_set_nice
    exact core_modify rfl
  | sched_disable_preempt => exact .refl _
  | sched_enable_preempt => exact .refl _
  | proc_kill pid signal => exact proc_kill_moves hK h
  | job_create csid leader =>
    refine .of_eq ?_
    simp only [Kernel.step, job_create]
    split <;> rfl
  | job_remove csid =>
    refine .of_eq ?_
    simp only [Kernel.step, job_remove]
    split <;> rfl
  | job_kill_csid csid signal => exact job_kill_csid_moves hK h
  | job_kill_num job_num signal =>
    simp only [Kernel.step, job_kill_num]
    split
    · exact .refl _
    · next slot hslot => exact job_kill_csid_moves hK (h slot hslot)
  | job_fg job_num => exact job_resume_moves hK h
  | job_bg job_num => exact job_resume_moves hK h

/-! ## Soundness at all times -/

theorem allows_of_forall (h : ∀ c m, K c m) (s : Kernel) (op : Op) : Allows K s op := by
  have hsignal : ∀ s p signal, AllowsSignal K s p signal := by
    intro s p signal
    unfold AllowsSignal
    split
    · exact h _ _
    · split
      · exact fun _ => h _ _
      · exact h _ _
  have hkill : ∀ signal s pid, AllowsKill K signal s pid := fun signal s pid p _ _ =>
    hsignal s p signal
  have hgroup : ∀ s csid signal, SignalsGroup (AllowsKill K) s csid signal := fun s csid signal =>
    Along.of_forall (fun s p => hkill signal s (s.mem p).pid) _
  have hcreates : Creates K := fun c p => ⟨h _ _, fun _ => h _ _⟩
  cases op <;> simp only [Allows, h, hkill, hgroup, hcreates, Reaps, ResumesJob, implies_true, and_self]

theorem boot_sound : boot.core.Sound := by
  have hcell : ∀ p, (boot.mem p).next = none ∧ (boot.mem p).prev = none ∧
      (boot.mem p).state ≠ .zombie := by
    intro p
    by_cases hp : p = idle_proc
    · subst hp
      exact ⟨rfl, rfl, fun h => by cases h⟩
    · have hzero : boot.mem p = .zero := Function.update_of_ne hp _ _
      rw [hzero]
      exact ⟨rfl, rfl, fun h => by cases h⟩
  have happart : ∀ p, boot.core.Apart p := fun p => ⟨(hcell p).2.1, fun h => by cases h⟩
  refine ⟨fun _ _ h => (by cases h), fun h => (by cases h), ⟨Nat.le_refl 1, ?_⟩, ⟨?_, fun _ h => (by cases h)⟩,
    fun p _ => happart p, fun p _ => happart p⟩
  · simp [boot, sched_init, Kernel.core, Kernel.modify, proc_table_init, MAX_PROC]
  · intro x y hxy
    cases (hcell x).1.symm.trans hxy

theorem run_sound (ops : List Op) : (boot.run ops).core.Sound := by
  have hstep : ∀ (s : Kernel) op, s.core.Sound → True → (s.step op).core.Sound := by
    intro s op hs _
    have hmoves : Moves (fun _ _ => True) s.core (s.step op).core :=
      step_moves (fun _ _ => trivial) hs (allows_of_forall (fun _ _ => trivial) s op)
    exact hmoves.sound hs
  exact (Along.of_forall (fun _ _ => trivial) ops).invariant hstep boot_sound

/-! ## One process through a call -/

/-- The call makes a new process. -/
def Op.creates : Op → Bool
  | .proc_create _ _ | .proc_fork _ | .proc_vfork _ => true
  | _ => false

/-- The condition `B` on the moves of one call, which either creates or destroys. -/
def During (op : Op) (B : Core → Move → Prop) (c : Core) : Move → Prop
  | .wipe _ | .spawn _ _ => op.creates = true
  | .free _ => op.creates = false
  | m => B c m

variable {B : Core → Move → Prop} {s : Kernel} {op : Op} {pid : Nat} {p : Ptr}

/-- What the moves of a call keep of a process, the call keeps, unless it destroys the process. -/
theorem step_keeps {Q : Core → Prop} (hs : s.core.Sound) (hB : Switches B)
    (hallow : Allows (During op B) s op) (hpid : s.proc_table pid = some p)
    (hkeep : ∀ c m, c.Sound → c.table pid = some p → Q c → c.Legal m → During op B c m →
      m ≠ .free p → Q (c.apply m))
    (hQ : Q s.core) (hafter : (s.step op).proc_table pid = some p) : Q (s.step op).core := by
  have hswitch : Switches (During op B) := hB
  have hmoves := step_moves hswitch hs hallow
  have hinv := hmoves.invariant
    (I := fun c => c.Sound ∧ (c.table pid = some p → Q c) ∧
      (op.creates = true → c.table pid = some p)) ?_ ⟨hs, fun _ => hQ, fun _ => hpid⟩
  · exact hinv.2.1 hafter
  · rintro c m ⟨hc, hq, hcreates⟩ hlegal hm
    refine ⟨hc.apply hlegal, fun hlater => ?_, fun hop => ?_⟩
    · have hnow : c.table pid = some p := by
        cases m with
        | spawn q slot => exact hcreates hm
        | free q =>
          by_cases hslot : pid = c.pid q
          · simp [Core.apply, hslot] at hlater
          · simpa [Core.apply, hslot] using hlater
        | _ => exact hlater
      refine hkeep c m hc hnow (hq hnow) hlegal hm ?_
      rintro rfl
      have hslot := (hc.slots pid p hnow).2.2.1
      simp [Core.apply, hslot] at hlater
    · have hnow := hcreates hop
      cases m with
      | spawn q slot =>
        have hslot : pid ≠ slot := by
          rintro rfl
          cases hnow.symm.trans hlegal.2.2.2.2
        simpa [Core.apply, hslot] using hnow
      | free q => cases hop.symm.trans hm
      | _ => exact hnow

end graceos.proc
