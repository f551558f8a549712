import GraceOS.Proc.Fields

/-!
# What `proc_wait` sees

`proc_wait` looks at the first 64 children of its caller in the order of their pids, and reports how
the zombie among them died that it takes.
-/

namespace graceos.proc

open Function

/-! ## Status words -/

def WEXITSTATUS (status : Int) : Int := status / 0x100 % 0x100
def WTERMSIG (status : Int) : Int := status % 0x80
def WIFEXITED (status : Int) : Prop := WTERMSIG status = 0

/-- The call that made a process a zombie. -/
inductive Death
  | exit (code : Int)
  | terminate (signal : Int)

/-- A status word tells a death: an exit by the low eight bits of its code, a termination by its
signal. -/
def Death.Told (status : Int) : Death → Prop
  | .exit code => WIFEXITED status ∧ WEXITSTATUS status = code % 0x100
  | .terminate signal => ¬ WIFEXITED status ∧ WTERMSIG status = signal

/-- The signal of a death, if there is one, fits the seven bits of a status word. -/
def Death.Fits : Death → Prop
  | .exit _ => True
  | .terminate signal => 1 ≤ signal ∧ signal ≤ 127

/-- The exit fields of a PCB are those that the call wrote. -/
def Death.Recorded (q : Process) : Death → Prop
  | .exit code => q.exit_code = code ∧ q.exit_signal = 0
  | .terminate signal => q.exit_code = 0 ∧ q.exit_signal = signal

theorem told_iff_fits {q : Process} {death : Death} (hrecorded : death.Recorded q) :
    death.Told (wait_status q) ↔ death.Fits := by
  cases death with
  | exit code =>
    obtain ⟨hcode, hsignal⟩ := hrecorded
    simp only [Death.Told, Death.Fits, WIFEXITED, WTERMSIG, WEXITSTATUS, wait_status, hcode, hsignal, ne_eq,
      not_true_eq_false, if_false, iff_true]
    omega
  | terminate signal =>
    obtain ⟨-, hsignal⟩ := hrecorded
    simp only [Death.Told, Death.Fits, WIFEXITED, WTERMSIG, wait_status, hsignal]
    split <;> omega

/-! ## How processes died -/

/-- What is known of the deaths of processes is in their PCBs. -/
def Records (s : Kernel) (deaths : Ptr → Option Death) : Prop :=
  ∀ p death, deaths p = some death → death.Recorded (s.mem p)

theorem inert_exit : Inert fun q : Process => (q.exit_code, q.exit_signal) :=
  ⟨fun _ _ => rfl, fun _ _ _ => rfl, fun _ _ _ _ _ => rfl, fun _ _ _ => rfl⟩

variable {s s' : Kernel} {deaths : Ptr → Option Death} {p parent : Ptr} {pid options : Nat}

theorem Records.keeps (h : Records s deaths) (hkeeps : Keeps (fun q : Process => (q.exit_code, q.exit_signal)) s s') :
    Records s' deaths := by
  intro p death hdeath
  have hsame := hkeeps.field p
  rw [Prod.mk.injEq] at hsame
  cases death with
  | exit code => exact ⟨hsame.1.trans (h p _ hdeath).1, hsame.2.trans (h p _ hdeath).2⟩
  | terminate signal => exact ⟨hsame.1.trans (h p _ hdeath).1, hsame.2.trans (h p _ hdeath).2⟩

theorem Records.record (h : Records s deaths) (p : Ptr) (f : Process → Process) (death : Death)
    (hf : death.Recorded (f (s.mem p))) :
    Records (s.modify p f) (update deaths p (some death)) := by
  intro x other hother
  by_cases hx : x = p
  · subst hx
    rw [update_self, Option.some.injEq] at hother
    subst hother
    simpa [Kernel.modify] using hf
  · rw [update_of_ne hx] at hother
    simpa [Kernel.modify, hx] using h x other hother

theorem proc_exit_records (h : Records s deaths) (hcurrent : s.current = some p)
    (halive : ¬ ((s.mem p).state = .zombie ∨ (s.mem p).state = .dead)) (code : Int) :
    Records (proc_exit s code) (update deaths p (some (.exit code))) := by
  have hrecord := h.record p (fun q => { q with exit_code := code, exit_signal := 0 }) (.exit code) ⟨rfl, rfl⟩
  unfold proc_exit
  rw [hcurrent]
  dsimp only
  rw [if_neg halive]
  exact (hrecord.keeps (inert_exit.zombify _ p)).keeps (inert_exit.schedule _)

theorem proc_terminate_records (h : Records s deaths) (p : Ptr) (signal : Int) :
    Records (proc_terminate s p signal) (update deaths p (some (.terminate signal))) := by
  have hrecord := h.record p (fun q => { q with exit_signal := signal, exit_code := 0 }) (.terminate signal) ⟨rfl, rfl⟩
  have hzombie := hrecord.keeps (inert_exit.zombify _ p)
  unfold proc_terminate
  dsimp only
  split
  · exact hzombie.keeps (inert_exit.schedule _)
  · exact hzombie

/-! ## Children -/

/-- The process `p` is a child that a call of `proc_wait` with this pid waits for. -/
def Awaited (s : Kernel) (parent pid : Nat) (p : Ptr) : Prop :=
  p ∈ s.procs ∧ (s.mem p).parent = parent ∧ (pid = PID_ANY ∨ (s.mem p).pid = pid)

/-- The same for the children that the code looks at. -/
def Seen (s : Kernel) (parent pid : Nat) (p : Ptr) : Prop :=
  p ∈ proc_get_children s parent 64 ∧ (pid = PID_ANY ∨ (s.mem p).pid = pid)

theorem Seen.awaited {parent : Nat} (h : Seen s parent pid p) : Awaited s parent pid p := by
  have hmem := List.mem_of_mem_take h.1
  rw [List.mem_filter, decide_eq_true_eq] at hmem
  exact ⟨hmem.1, hmem.2, h.2⟩

theorem Awaited.seen {parent : Nat} (h : Awaited s parent pid p)
    (hfew : (s.procs.filter fun p => (s.mem p).parent = parent).length ≤ 64) : Seen s parent pid p := by
  refine ⟨?_, h.2.2⟩
  unfold proc_get_children
  rw [List.take_of_length_le hfew, List.mem_filter, decide_eq_true_eq]
  exact ⟨h.1, h.2.1⟩

theorem has_children_iff {parent : Nat} : has_children s parent pid = true ↔ ∃ p, Seen s parent pid p := by
  unfold has_children Seen
  dsimp only
  split
  · next hany =>
    simp only [hany, true_or, and_true, decide_eq_true_eq]
    exact List.length_pos_iff_exists_mem
  · next hone =>
    simp only [List.any_eq_true, decide_eq_true_eq, hone, false_or]

theorem find_zombie_child_none {parent : Nat} : find_zombie_child s parent pid = none ↔
    ¬ ∃ p, Seen s parent pid p ∧ (s.mem p).state = .zombie := by
  simp only [find_zombie_child, List.find?_eq_none, Seen, decide_eq_true_eq, not_exists, not_and, and_imp]

theorem find_zombie_child_some {parent : Nat} (h : find_zombie_child s parent pid = some p) :
    Seen s parent pid p ∧ (s.mem p).state = .zombie := by
  have hgood := List.find?_some h
  rw [decide_eq_true_eq] at hgood
  exact ⟨⟨List.mem_of_find?_eq_some h, hgood.1⟩, hgood.2⟩

theorem find_zombie_child_congr (hmem : ∀ x, ((s'.mem x).parent, (s'.mem x).pid, (s'.mem x).state) =
    ((s.mem x).parent, (s.mem x).pid, (s.mem x).state)) (htable : s'.proc_table = s.proc_table) (parent pid : Nat) :
    find_zombie_child s' parent pid = find_zombie_child s parent pid := by
  simp only [Prod.mk.injEq] at hmem
  simp only [find_zombie_child, proc_get_children, Kernel.procs, hmem, htable]

/-! ## Reaping -/

/-- Nothing is left of the process `p` that was found under `pid`. -/
structure Reaped (s : Kernel) (p : Ptr) (pid : Nat) : Prop where
  lost : proc_find s pid = none
  dead : (s.mem p).state = .dead
  freed : p ∉ s.heap

theorem state_proc_destroy (s : Kernel) (p x : Ptr) :
    ((proc_destroy s p).mem x).state = if x = p then .dead else (s.mem x).state := by
  have hstate := congrFun (congrArg Core.state (core_reparent s (s.mem p).pid)) x
  have hremove : ∀ (s : Kernel) (pid : Nat), (proc_table_remove s pid).mem = s.mem := by
    intro s pid
    unfold proc_table_remove
    split <;> rfl
  have hset := congrFun (modify_field (·.state) (proc_table_remove (proc_reparent_children s (s.mem p).pid)
    ((proc_reparent_children s (s.mem p).pid).mem p).pid) p fun q => { q with state := .dead }) x
  refine hset.trans ?_
  rw [hremove]
  by_cases hx : x = p
  · rw [hx, update_self, if_pos rfl]
  · rw [update_of_ne hx, if_neg hx]
    exact hstate

theorem proc_destroy_reaps (s : Kernel) (p : Ptr) : Reaped (proc_destroy s p) p (s.mem p).pid := by
  have hpid : ((proc_reparent_children s (s.mem p).pid).mem p).pid = (s.mem p).pid :=
    congrFun (congrArg Core.pid (core_reparent s (s.mem p).pid)) p
  refine ⟨?_, ?_, ?_⟩
  · unfold proc_find proc_destroy
    split
    · rfl
    · next hvalid =>
      dsimp only
      rw [hpid]
      unfold proc_table_remove
      rw [if_neg hvalid]
      exact update_self _ _ _
  · rw [state_proc_destroy, if_pos rfl]
  · simp [proc_destroy]

/-! ## The results of a call -/

section Results

variable (hcurrent : s.current = some parent)
include hcurrent

theorem proc_wait_refused (options : Nat) (hnone : ¬ ∃ p, Seen s (s.mem parent).pid pid p) :
    (proc_wait s pid options).2 = .returned PID_ANY none := by
  rw [← has_children_iff] at hnone
  unfold proc_wait
  rw [hcurrent]
  dsimp only
  rw [if_neg hnone]

theorem proc_wait_eq (hsome : ∃ p, Seen s (s.mem parent).pid pid p) : proc_wait s pid options =
    wait_turn (s.modify parent fun q => { q with waiting_for := pid }) parent pid options := by
  rw [← has_children_iff] at hsome
  unfold proc_wait
  rw [hcurrent]
  dsimp only
  rw [if_pos hsome]

omit hcurrent in
theorem waiting_same (s : Kernel) (parent : Ptr) (pid : Nat) (x : Ptr) :
    let q := (s.modify parent fun q => { q with waiting_for := pid }).mem x
    (q.parent, q.pid, q.state) = ((s.mem x).parent, (s.mem x).pid, (s.mem x).state) ∧
    (q.exit_code, q.exit_signal) = ((s.mem x).exit_code, (s.mem x).exit_signal) := by
  by_cases hx : x = parent
  · subst hx
    simp [Kernel.modify]
  · simp [Kernel.modify, hx]

omit hcurrent in
theorem waiting_finds : let s₁ := s.modify parent fun q => { q with waiting_for := pid }
    find_zombie_child s₁ (s₁.mem parent).pid pid = find_zombie_child s (s.mem parent).pid pid := by
  intro s₁
  have hpid : (s₁.mem parent).pid = (s.mem parent).pid := by
    have hsame := (waiting_same s parent pid parent).1
    simp only [Prod.mk.injEq] at hsame
    exact hsame.2.1
  rw [hpid]
  exact find_zombie_child_congr (fun x => (waiting_same s parent pid x).1) rfl _ _

theorem proc_wait_idle (options : Nat) (hsome : ∃ p, Seen s (s.mem parent).pid pid p)
    (hnone : find_zombie_child s (s.mem parent).pid pid = none) :
    (proc_wait s pid options).2 = .returned 0 none ∨ (proc_wait s pid options).2 = .asleep := by
  rw [proc_wait_eq hcurrent hsome, wait_turn, waiting_finds, hnone]
  dsimp only
  split
  · exact .inl rfl
  · exact .inr rfl

theorem proc_wait_takes (options : Nat) {z : Ptr} (hfind : find_zombie_child s (s.mem parent).pid pid = some z) :
    (proc_wait s pid options).2 = .returned (s.mem z).pid (some (wait_status (s.mem z))) ∧
    Reaped (proc_wait s pid options).1 z (s.mem z).pid ∧
    ∀ x, x ≠ z → ((proc_wait s pid options).1.mem x).state = (s.mem x).state := by
  have hseen := find_zombie_child_some hfind
  obtain ⟨hsame, hexit⟩ := waiting_same s parent pid z
  simp only [Prod.mk.injEq] at hsame hexit
  have hstatus : wait_status ((s.modify parent fun q => { q with waiting_for := pid }).mem z) =
      wait_status (s.mem z) := by
    simp only [wait_status, hexit]
  rw [proc_wait_eq hcurrent ⟨z, hseen.1⟩, wait_turn, waiting_finds, hfind]
  dsimp only
  refine ⟨?_, ?_, fun x hx => ?_⟩
  · rw [hstatus, hsame.2.1]
  · rw [← hsame.2.1]
    exact proc_destroy_reaps _ z
  · have hother := (waiting_same s parent pid x).1
    simp only [Prod.mk.injEq] at hother
    rw [state_proc_destroy, if_neg hx, hother.2.2]

end Results

/-- A call of `proc_wait` refuses only a caller without such a child, takes a zombie if there is one,
and tells how it died. -/
structure WaitSees (s : Kernel) (parent : Ptr) (deaths : Ptr → Option Death) (pid options : Nat) : Prop where
  refuses : (proc_wait s pid options).2 = .returned PID_ANY none → ¬ ∃ p, Awaited s (s.mem parent).pid pid p
  takes : (∃ p, Awaited s (s.mem parent).pid pid p ∧ (s.mem p).state = .zombie) →
    ∃ child status, (proc_wait s pid options).2 = .returned child (some status)
  tells : ∀ child status, (proc_wait s pid options).2 = .returned child (some status) →
    ∃ z, (Awaited s (s.mem parent).pid pid z ∧ (s.mem z).state = .zombie ∧ (s.mem z).pid = child) ∧
      Reaped (proc_wait s pid options).1 z child ∧ ∀ death, deaths z = some death → death.Told status

/-- What the code looks at is enough: if there is such a child, one is among the first 64, and if
there is such a zombie, one is; and the signal of the zombie that is found fits a status word. -/
structure WithinReach (s : Kernel) (parent : Nat) (deaths : Ptr → Option Death) (pid : Nat) : Prop where
  child : (∃ p, Awaited s parent pid p) → ∃ p, Seen s parent pid p
  zombie : (∃ p, Awaited s parent pid p ∧ (s.mem p).state = .zombie) →
    ∃ p, Seen s parent pid p ∧ (s.mem p).state = .zombie
  signal : ∀ z, find_zombie_child s parent pid = some z → ∀ death, deaths z = some death → death.Fits

theorem WithinReach.sees (hcurrent : s.current = some parent) (hrecords : Records s deaths)
    (h : WithinReach s (s.mem parent).pid deaths pid) : WaitSees s parent deaths pid options := by
  by_cases hsome : ∃ p, Seen s (s.mem parent).pid pid p
  · cases hfind : find_zombie_child s (s.mem parent).pid pid with
    | none =>
      have hzombie : ¬ ∃ p, Awaited s (s.mem parent).pid pid p ∧ (s.mem p).state = .zombie :=
        fun hex => find_zombie_child_none.mp hfind (h.zombie hex)
      rcases proc_wait_idle hcurrent options hsome hfind with hidle | hidle
      · refine ⟨fun hrefused => ?_, fun hex => absurd hex hzombie, fun child status hret => ?_⟩
        · rw [hidle] at hrefused
          simp [PID_ANY] at hrefused
        · rw [hidle] at hret
          simp at hret
      · refine ⟨fun hrefused => ?_, fun hex => absurd hex hzombie, fun child status hret => ?_⟩
        · rw [hidle] at hrefused
          cases hrefused
        · rw [hidle] at hret
          cases hret
    | some z =>
      obtain ⟨hresult, hreaped, -⟩ := proc_wait_takes hcurrent options hfind
      obtain ⟨hseen, hstate⟩ := find_zombie_child_some hfind
      refine ⟨fun hrefused => ?_, fun _ => ⟨_, _, hresult⟩, fun child status hret => ?_⟩
      · rw [hresult] at hrefused
        simp at hrefused
      · rw [hresult] at hret
        simp only [WaitResult.returned.injEq, Option.some.injEq] at hret
        obtain ⟨rfl, rfl⟩ := hret
        exact ⟨z, ⟨hseen.awaited, hstate, rfl⟩, hreaped,
          fun death hdeath => (told_iff_fits (hrecords z death hdeath)).mpr (h.signal z hfind death hdeath)⟩
  · have hrefused := proc_wait_refused hcurrent options hsome
    have hnone : ¬ ∃ p, Awaited s (s.mem parent).pid pid p := fun hex => hsome (h.child hex)
    refine ⟨fun _ => hnone, fun ⟨p, hp, _⟩ => absurd ⟨p, hp⟩ hnone, fun child status hret => ?_⟩
    rw [hrefused] at hret
    simp at hret

theorem WaitSees.within (hcurrent : s.current = some parent) (hrecords : Records s deaths)
    (h : WaitSees s parent deaths pid options) : WithinReach s (s.mem parent).pid deaths pid := by
  refine ⟨fun hex => ?_, fun hex => ?_, fun z hfind death hdeath => ?_⟩
  · by_contra hnone
    exact h.refuses (proc_wait_refused hcurrent options hnone) hex
  · obtain ⟨child, status, hret⟩ := h.takes hex
    by_contra hnone
    have hfind := find_zombie_child_none.mpr hnone
    by_cases hsome : ∃ p, Seen s (s.mem parent).pid pid p
    · rcases proc_wait_idle hcurrent options hsome hfind with hidle | hidle
      · rw [hidle] at hret
        simp at hret
      · rw [hidle] at hret
        cases hret
    · rw [proc_wait_refused hcurrent options hsome] at hret
      simp at hret
  · obtain ⟨hresult, -, hothers⟩ := proc_wait_takes hcurrent options hfind
    obtain ⟨z', ⟨-, hzombie, -⟩, hreaped, htold⟩ := h.tells _ _ hresult
    -- only the zombie that is taken is dead afterwards
    have heq : z' = z := by
      by_contra hne
      have hdead := hreaped.dead
      rw [hothers z' hne, hzombie] at hdead
      cases hdead
    rw [heq] at htold
    exact (told_iff_fits (hrecords z death hdeath)).mp (htold death hdeath)

/-- In every kernel, a call of `proc_wait` does what it is for exactly when the children it waits for
are within its reach. -/
theorem wait_sees_children_iff (s : Kernel) (parent : Ptr) (hcurrent : s.current = some parent)
    (deaths : Ptr → Option Death) (hrecords : Records s deaths) (pid options : Nat) :
    WaitSees s parent deaths pid options ↔ WithinReach s (s.mem parent).pid deaths pid :=
  ⟨WaitSees.within hcurrent hrecords, WithinReach.sees hcurrent hrecords⟩

/-- A parent with `n` children, of which the last is a zombie. -/
def household (n : Nat) : Kernel :=
  { boot with
    mem := fun p =>
      if p = 1 then { pid := 1, state := .running, valid := true }
      else if p = n + 1 then { pid := p, parent := 1, state := .zombie, valid := true, exit_signal := 9 }
      else { pid := p, parent := 1, state := .blocked, valid := true }
    heap := List.range' 1 (n + 1)
    proc_table := fun pid => if 1 ≤ pid ∧ pid ≤ n + 1 then some pid else none
    next_pid := n + 2
    current := some 1
    run_queue_head := some 1
    run_queue_tail := some 1 }

/-- The last child was killed. -/
def last_killed (n : Nat) (p : Ptr) : Option Death := if p = n + 1 then some (.terminate 9) else none

theorem household_records (n : Nat) (hn : 0 < n) : Records (household n) (last_killed n) := by
  intro p death hdeath
  simp only [last_killed] at hdeath
  split at hdeath
  · next hp =>
    rw [Option.some.injEq] at hdeath
    subst hdeath
    subst hp
    simp [household, Death.Recorded, Nat.pos_iff_ne_zero.mp hn]
  · cases hdeath

theorem wait_sees_only_child : (household 1).current = some 1 ∧ Records (household 1) (last_killed 1) ∧
    WaitSees (household 1) 1 (last_killed 1) PID_ANY 0 := by
  have hrecords := household_records 1 (by decide)
  have hfew : ((household 1).procs.filter fun p => ((household 1).mem p).parent =
      ((household 1).mem 1).pid).length ≤ 64 := by
    decide +kernel
  refine ⟨rfl, hrecords, (wait_sees_children_iff (household 1) 1 rfl (last_killed 1) hrecords PID_ANY 0).mpr ?_⟩
  refine ⟨fun ⟨p, hp⟩ => ⟨p, hp.seen hfew⟩, fun ⟨p, hp, hstate⟩ => ⟨p, hp.seen hfew, hstate⟩, ?_⟩
  intro z _ death hdeath
  simp only [last_killed] at hdeath
  split at hdeath
  · rw [Option.some.injEq] at hdeath
    subst hdeath
    exact ⟨by decide, by decide⟩
  · cases hdeath

/-- The 65th child is a zombie that is not seen. -/
theorem wait_misses_child : ¬ ∀ (s : Kernel) (parent : Ptr), s.current = some parent →
    ∀ deaths, Records s deaths → ∀ pid options, WaitSees s parent deaths pid options := by
  intro h
  have hsees := h (household 65) 1 rfl (last_killed 65) (household_records 65 (by decide)) PID_ANY WNOHANG
  have hchild : Awaited (household 65) ((household 65).mem 1).pid PID_ANY 66 :=
    ⟨mem_procs.mpr ⟨66, by decide +kernel, rfl⟩, rfl, .inl rfl⟩
  obtain ⟨child, status, hret⟩ := hsees.takes ⟨66, hchild, rfl⟩
  have hidle : (proc_wait (household 65) PID_ANY WNOHANG).2 = .returned 0 none := by decide +kernel
  rw [hidle] at hret
  simp at hret

end graceos.proc
