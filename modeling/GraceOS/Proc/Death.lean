import GraceOS.Proc.Calls

/-!
# Exit, wake-up and the finality of death

A process that is neither ready nor running stays so until something readies it. The exit of a
child is not such a thing: `sched_wake_parent` looks for a parent in `PROC_WAIT`, and then leaves
the waking to `sched_unblock`, which acts on `PROC_BLOCKED` alone. A dead process stays dead as
long as nothing blocks it, which neither `SIGSTOP` nor `proc_set_blocked` nor `proc_invalidate`
checks for.
-/

namespace graceos.proc

open linkq machine

/-! ## Dormant processes -/

/-- The process is neither ready nor running. -/
def Core.Dormant (c : Core) (p : Ptr) : Prop := c.state p ≠ .ready ∧ c.state p ≠ .running

/-- The move does not ready the process. -/
def Move.Quiet (p : Ptr) : Move → Prop
  | .ready q | .yield q => q ≠ p
  | _ => True

theorem Core.Dormant.apply {c : Core} {p : Ptr} {m : Move} (h : c.Dormant p) (hidle : p ≠ idle_proc)
    (hlegal : c.Legal m) (hquiet : m.Quiet p) : (c.apply m).Dormant p := by
  cases m with
  | ready q => simpa [Core.Dormant, Core.apply, Ne.symm hquiet] using h
  | park q state =>
    by_cases hq : p = q
    · rcases hlegal with rfl | rfl | rfl <;> simp [Core.Dormant, Core.apply, hq]
    · simpa [Core.Dormant, Core.apply, hq] using h
  | yield q => simpa [Core.Dormant, Core.apply, Ne.symm hquiet] using h
  | dispatch q =>
    have hq : p ≠ q := by
      rintro rfl
      rcases hlegal with hpick | ⟨hready, -⟩
      · exact hidle hpick
      · exact h.1 hready
    simpa [Core.Dormant, Core.apply, hq, Core.preempted, h.2] using h
  | sleep q time => exact h
  | wipe q | spawn q slot | free q =>
    by_cases hq : p = q
    · simp [Core.Dormant, Core.apply, hq]
    · simpa [Core.Dormant, Core.apply, hq] using h

/-! ## No parent is woken -/

/-- The calls by which the process `c` becomes a zombie. -/
inductive ExitOf (s : Kernel) (pid : Nat) (c : Ptr) : Op → Prop
  | exit (code : Int) : s.current = some c → ExitOf s pid c (.proc_exit code)
  | terminate (signal : Int) : ExitOf s pid c (.proc_terminate pid signal)
  | set_zombie (code : Int) : ExitOf s pid c (.proc_set_zombie pid code)

/-- The process waits for the child with this pid, or is blocked. -/
def Kernel.AwaitsChild (s : Kernel) (parent : Ptr) (pid : Nat) : Prop :=
  ((s.mem parent).state = .wait ∧
    ((s.mem parent).waiting_for = pid ∨ (s.mem parent).waiting_for = PID_ANY)) ∨
  (s.mem parent).state = .blocked

theorem ExitOf.dormant {s : Kernel} (hs : s.core.Sound) {pid : Nat} {c p : Ptr} {op : Op}
    (hexit : ExitOf s pid c op) (hlisted : s.core.Listed p) (hdormant : s.core.Dormant p) :
    (s.step op).core.Dormant p := by
  have hallow : Allows (fun _ m => m.Quiet p) s op := by
    cases hexit with
    | exit code hc => exact fun _ _ _ _ => trivial
    | terminate signal => exact fun _ _ => trivial
    | set_zombie code => exact fun _ _ => trivial
  have hmoves := step_moves (fun _ _ => trivial) hs hallow
  exact hmoves.invariant (I := fun c => c.Dormant p)
    (fun _ _ h hlegal hquiet => h.apply (hs.ne_idle hlisted) hlegal hquiet) hdormant

/-- In every run, when a child exits, a parent that waits for it in `proc_wait`, or that
`proc_vfork` has blocked for it, is not readied. -/
theorem exit_wakes_no_parent (ops : List Op) (pid : Nat) (c parent : Ptr) (op : Op)
    (_hchild : proc_find (boot.run ops) pid = some c)
    (hparent : proc_find (boot.run ops) ((boot.run ops).mem c).parent = some parent)
    (hwaits : (boot.run ops).AwaitsChild parent pid) (hexit : ExitOf (boot.run ops) pid c op) :
    (((boot.run ops).step op).mem parent).state ≠ .ready := by
  have hdormant : (boot.run ops).core.Dormant parent := by
    rcases hwaits with ⟨hstate, -⟩ | hstate <;> simp [Core.Dormant, Kernel.core, hstate]
  exact (hexit.dormant (run_sound ops) (listed_of_find hparent) hdormant).1

/-- A parent forks and waits for any child. -/
def waitingRun : List Op :=
  [.proc_create none 1, .proc_set_ready 1, .schedule, .proc_fork 2, .proc_wait PID_ANY 0]

theorem waitingRun_state :
    proc_find (boot.run waitingRun) 2 = some 2 ∧
    proc_find (boot.run waitingRun) ((boot.run waitingRun).mem 2).parent = some 1 ∧
    (((boot.run waitingRun).mem 1).state = .wait ∧
      ((boot.run waitingRun).mem 1).waiting_for = PID_ANY ∧ 1 ∉ (boot.run waitingRun).run_queue) := by
  decide +kernel

/-- The child of a waiting parent exits. -/
theorem waiting_parent_sleeps_on :
    (((boot.run waitingRun).step (.proc_set_zombie 2 0)).mem 1).state ≠ .ready :=
  have ⟨hchild, hparent, hwait, hany, _⟩ := waitingRun_state
  exit_wakes_no_parent waitingRun 2 2 1 _ hchild hparent (.inl ⟨hwait, .inr hany⟩) (.set_zombie 0)

/-- A parent in `PROC_WAIT` off the run queue is not ready after the exit of its child. -/
theorem waiting_parent_lost :
    ¬ ∀ (ops : List Op) (pid : Nat) (c parent : Ptr), proc_find (boot.run ops) pid = some c →
      proc_find (boot.run ops) ((boot.run ops).mem c).parent = some parent →
      ((boot.run ops).mem parent).state = .wait →
      ((boot.run ops).mem parent).waiting_for = PID_ANY →
      parent ∉ (boot.run ops).run_queue →
      (((boot.run ops).step (.proc_set_zombie pid 0)).mem parent).state = .ready := by
  intro hclaim
  obtain ⟨hchild, hparent, hwait, hany, hoff⟩ := waitingRun_state
  have hready := hclaim waitingRun 2 2 1 hchild hparent hwait hany hoff
  have hdormant : (boot.run waitingRun).core.Dormant 1 := by simp [Core.Dormant, Kernel.core, hwait]
  have hexit : ExitOf (boot.run waitingRun) 2 2 (.proc_set_zombie 2 0) := .set_zombie 0
  exact (hexit.dormant (run_sound waitingRun) (listed_of_find hparent) hdormant).1 hready

/-! ## The dead stay dead -/

/-- A move that leaves a dead process alone. -/
def Move.Spares (p : Ptr) : Move → Prop
  | .park q state => q = p → state = .zombie
  | .yield q => q ≠ p
  | _ => True

/-- A zombie stays one through the moves that spare it, until it is destroyed. -/
theorem zombie_apply {c : Core} {p : Ptr} {m : Move} (hs : c.Sound) (hlisted : c.Listed p)
    (h : c.state p = .zombie) (hlegal : c.Legal m) (hspares : m.Spares p) (hfree : m ≠ .free p) :
    (c.apply m).state p = .zombie := by
  have hheap := hs.mem_heap hlisted
  cases m with
  | ready q =>
    have hq : p ≠ q := by
      rintro rfl
      exact hlegal.2 h
    simpa [Core.apply, hq] using h
  | park q state =>
    by_cases hq : p = q
    · simpa [Core.apply, hq] using hspares hq.symm
    · simpa [Core.apply, hq] using h
  | yield q => simpa [Core.apply, Ne.symm hspares] using h
  | dispatch q =>
    have hq : p ≠ q := by
      rintro rfl
      rcases hlegal with hidle | ⟨hready, -⟩
      · exact hs.ne_idle hlisted hidle
      · simp [h] at hready
    simp [Core.apply, hq, Core.preempted, h]
  | sleep q time => exact h
  | wipe q | spawn q slot =>
    have hq : p ≠ q := by
      rintro rfl
      exact hlegal.1 hheap
    simpa [Core.apply, hq] using h
  | free q =>
    have hq : p ≠ q := by
      rintro rfl
      exact hfree rfl
    simpa [Core.apply, hq] using h

/-- A signal to this pid does not stop the process `p`. -/
def KillSpares (p : Ptr) (signal : Int) (s : Kernel) (pid : Nat) : Prop :=
  signal = SIGSTOP → may_signal s p → proc_find s pid ≠ some p

/-- The call does not block the process `p`: it is not the target of a `SIGSTOP`, of
`proc_set_blocked` or of `proc_invalidate`, and does not itself go to sleep or give way. -/
def Spares (p : Ptr) (s : Kernel) : Op → Prop
  | .proc_set_blocked pid | .proc_invalidate pid => proc_find s pid ≠ some p
  | .proc_vfork a => (proc_create s s.current a).2 ≠ none → s.current ≠ some p
  | .proc_wait pid options => (proc_wait s pid options).2 = .asleep → s.current ≠ some p
  | .proc_wait_resume pid options =>
    (proc_wait_resume s pid options).2 = .asleep → s.current ≠ some p
  | .sched_yield | .sched_block | .sched_sleep => s.current ≠ some p
  | .sys_sleep ms => 0 < ms → s.current ≠ some p
  | .proc_kill pid signal => KillSpares p signal s pid
  | .job_kill_csid csid signal => SignalsGroup (KillSpares p) s csid signal
  | .job_kill_num job_num signal => ∀ slot, job_find_by_num s job_num = some slot →
    SignalsGroup (KillSpares p) s (s.jobs slot).csid signal
  | _ => True

theorem KillSpares.allows {p : Ptr} {op : Op} {signal : Int} {s : Kernel} {pid : Nat}
    (h : KillSpares p signal s pid) :
    AllowsKill (During op fun _ m => m.Spares p) signal s pid := by
  intro q hq hmay
  unfold AllowsSignal
  split
  · next hstop =>
    rintro rfl
    exact absurd hq (h hstop hmay)
  · split
    · exact fun _ => trivial
    · exact fun _ => rfl

theorem Spares.allows {p : Ptr} {s : Kernel} {op : Op} (h : Spares p s op) :
    Allows (During op fun _ m => m.Spares p) s op := by
  have hgroup : ∀ {op s csid signal}, SignalsGroup (KillSpares p) s csid signal →
      SignalsGroup (AllowsKill (During op fun _ m => m.Spares p)) s csid signal := fun h =>
    h.imp fun _ _ hkill => hkill.allows
  have hcont : ∀ op s csid,
      SignalsGroup (AllowsKill (During op fun _ m => m.Spares p)) s csid SIGCONT := fun _ s csid =>
    hgroup (Along.of_forall (fun _ _ hstop => absurd hstop (by simp [SIGCONT, SIGSTOP])) _)
  have hcurrent : ∀ {c : Ptr} {state : ProcState}, s.current ≠ some p → s.current = some c →
      c = p → state = .zombie := fun hne hc hcp => absurd (hcp ▸ hc) hne
  cases op with
  | proc_create parent a => exact fun _ _ => ⟨rfl, fun _ => rfl⟩
  | proc_set_ready pid => exact fun _ _ => trivial
  | proc_set_blocked pid => exact fun q hq hqp => absurd (hqp ▸ hq) h
  | proc_invalidate pid => exact fun q hq hqp => absurd (hqp ▸ hq) h
  | proc_set_zombie pid code => exact fun _ _ _ => rfl
  | proc_terminate pid signal => exact fun _ _ _ => rfl
  | proc_fork a => exact ⟨fun _ _ => ⟨rfl, fun _ => rfl⟩, fun _ _ _ _ _ => trivial⟩
  | proc_vfork a =>
    refine ⟨fun _ _ => ⟨rfl, fun _ => rfl⟩, fun parent s' child hparent hcreate => ⟨?_, trivial⟩⟩
    exact hcurrent (h (by simp [hparent, hcreate])) hparent
  | proc_exit code => exact fun _ _ _ _ _ => rfl
  | proc_reap_zombies => exact fun _ _ => rfl
  | proc_wait pid options => exact ⟨fun _ _ => rfl, fun hsleep c hc => hcurrent (h hsleep) hc⟩
  | proc_wait_resume pid options =>
    exact ⟨fun _ _ => rfl, fun hsleep c hc => hcurrent (h hsleep) hc⟩
  | sched_yield =>
    rintro c hc rfl
    exact h hc
  | sched_block => exact fun c hc => hcurrent h hc
  | sched_sleep => exact fun c hc => hcurrent h hc
  | sched_unblock pid => exact fun _ _ _ => trivial
  | sched_tick => exact fun _ _ _ => ⟨trivial, trivial⟩
  | proc_check_sleepers => exact fun _ _ _ => ⟨trivial, trivial⟩
  | sys_sleep ms => exact fun hms c hc => ⟨trivial, hcurrent (h hms) hc⟩
  | proc_kill pid signal => exact KillSpares.allows h
  | job_kill_csid csid signal => exact hgroup h
  | job_kill_num job_num signal => exact fun slot hslot => hgroup (h slot hslot)
  | job_fg job_num => exact fun slot _ _ => hcont _ s (s.jobs slot).csid
  | job_bg job_num => exact fun slot _ _ => hcont _ s (s.jobs slot).csid
  | _ => trivial

/-- In every run, a zombie that no later call blocks stays a zombie off the run queue for as long
as it is in the process table. -/
theorem zombie_stays_zombie (before later : List Op) (pid : Nat) (p : Ptr)
    (hfind : proc_find (boot.run before) pid = some p)
    (hzombie : ((boot.run before).mem p).state = .zombie)
    (halong : Along Kernel.step (fun s op => Spares p s op ∧ (s.step op).proc_table pid = some p)
      (boot.run before) later) :
    ((boot.run (before ++ later)).mem p).state = .zombie ∧
      ¬ (boot.run (before ++ later)).links.Reached p := by
  have htable : (boot.run before).proc_table pid = some p := by
    unfold proc_find at hfind
    split at hfind
    · simp at hfind
    · exact hfind
  have hrun : boot.run (before ++ later) = (boot.run before).run later := run_append before later
  rw [hrun]
  have hinv := halong.invariant
    (I := fun s => s.core.Sound ∧ s.proc_table pid = some p ∧ s.core.state p = .zombie)
    (fun s op hs hop => ?_) ⟨run_sound before, htable, hzombie⟩
  · exact ⟨hinv.2.2, hinv.1.not_reached (hinv.1.zombies p hinv.2.2)⟩
  · obtain ⟨hsound, hpid, hstate⟩ := hs
    have hmoves : Moves (fun _ _ => True) s.core (s.step op).core :=
      step_moves (fun _ _ => trivial) hsound (allows_of_forall (fun _ _ => trivial) s op)
    refine ⟨hmoves.sound hsound, hop.2, ?_⟩
    exact step_keeps (Q := fun c => c.state p = .zombie) hsound (fun _ _ => trivial) hop.1.allows hpid
      (fun c m hc hslot hq hlegal hm hfree =>
        zombie_apply hc ⟨pid, hslot⟩ hq hlegal (by cases m <;> first | exact hm | trivial) hfree)
      hstate hop.2

/-- A killed process is sent `SIGCONT`. -/
theorem killed_process_stays_dead :
    ((boot.run ([.proc_create none 1, .proc_set_ready 1, .proc_set_zombie 1 0] ++
      [.proc_kill 1 SIGCONT, .proc_set_ready 1])).mem 1).state = .zombie ∧
    ¬ (boot.run ([.proc_create none 1, .proc_set_ready 1, .proc_set_zombie 1 0] ++
      [.proc_kill 1 SIGCONT, .proc_set_ready 1])).links.Reached 1 :=
  zombie_stays_zombie _ _ 1 1 (by decide +kernel) (by decide +kernel)
    ⟨⟨fun hstop => absurd hstop (by decide), by decide +kernel⟩, ⟨trivial, by decide +kernel⟩, trivial⟩

/-- A killed process that is stopped and continued is ready again, and on the run queue. -/
theorem killed_process_resurrected :
    ((boot.run [.proc_create none 1, .proc_set_ready 1, .proc_set_zombie 1 0]).mem 1).state =
        .zombie ∧
    ((boot.run [.proc_create none 1, .proc_set_ready 1, .proc_set_zombie 1 0, .proc_kill 1 SIGSTOP,
      .proc_kill 1 SIGCONT]).mem 1).state = .ready ∧
    1 ∈ (boot.run [.proc_create none 1, .proc_set_ready 1, .proc_set_zombie 1 0,
      .proc_kill 1 SIGSTOP, .proc_kill 1 SIGCONT]).run_queue := by
  decide +kernel

end graceos.proc
