import GraceOS.Proc.Calls

/-!
# At most one process runs

Only a switch makes a process run. It takes the processor from the process that had it, and makes
the new one `current`.
-/

namespace graceos.proc

/-- No process but `current` is running. -/
def Core.Exclusive (c : Core) : Prop := ∀ p, c.state p = .running → c.current = some p

theorem Core.Exclusive.update {c : Core} (h : c.Exclusive) {p : Ptr} {state : ProcState} (hstate : state ≠ .running)
    (x : Ptr) (hx : Function.update c.state p state x = .running) : c.current = some x := by
  by_cases hxp : x = p
  · subst hxp
    rw [Function.update_self] at hx
    exact absurd hx hstate
  · rw [Function.update_of_ne hxp] at hx
    exact h x hx

theorem Core.Exclusive.apply {c : Core} (h : c.Exclusive) {m : Move} (hlegal : c.Legal m) : (c.apply m).Exclusive := by
  cases m with
  | ready p => exact h.update (by decide)
  | park p state =>
    refine h.update ?_
    rcases hlegal with rfl | rfl | rfl <;> decide
  | yield p => exact h.update (by decide)
  | dispatch p =>
    intro x hx
    simp only [Core.apply] at hx ⊢
    by_cases hxp : x = p
    · rw [hxp]
    · rw [Function.update_of_ne hxp, Core.preempted] at hx
      split at hx
      · cases hx
      · next hnot => exact absurd ⟨h x hx, hx⟩ hnot
  | sleep p time => exact h
  | wipe p => exact h.update (by decide)
  | spawn p pid => exact h.update (by decide)
  | free p => exact h.update (by decide)

theorem boot_exclusive : boot.core.Exclusive := by
  intro p hp
  by_cases hidle : p = idle_proc
  · rw [hidle]
    rfl
  · have hzero : boot.mem p = .zero := Function.update_of_ne hidle _ _
    have hstate : (boot.mem p).state = .running := hp
    rw [hzero] at hstate
    cases hstate

/-- Whatever is called after `sched_init`, a process in state `PROC_RUNNING` is the current one. -/
theorem running_is_current (ops : List Op) (p : Ptr) (hrunning : ((boot.run ops).mem p).state = .running) :
    (boot.run ops).current = some p := by
  have hstep : ∀ (s : Kernel) op, s.core.Sound ∧ s.core.Exclusive → True →
      (s.step op).core.Sound ∧ (s.step op).core.Exclusive := by
    intro s op hs _
    have hmoves : Moves (fun _ _ => True) s.core (s.step op).core :=
      step_moves (fun _ _ => trivial) hs.1 (allows_of_forall (fun _ _ => trivial) s op)
    exact ⟨hmoves.sound hs.1, hmoves.invariant (fun _ _ h hlegal _ => h.apply hlegal) hs.2⟩
  have hall : machine.Along Kernel.step (fun _ _ => True) boot ops := .of_forall (fun _ _ => trivial) ops
  exact (hall.invariant (I := fun s : Kernel => s.core.Sound ∧ s.core.Exclusive) hstep
    ⟨boot_sound, boot_exclusive⟩).2 p hrunning

/-- Two processes are ready, and the one that runs gives way to the other. -/
theorem yields_to_the_other :
    let ready := [.proc_create none 1, .proc_set_ready 1, .proc_create none 2, .proc_set_ready 2, .schedule]
    (boot.run ready).current = some 1 ∧ (boot.run (ready ++ [.sched_yield])).current = some 2 :=
  ⟨running_is_current _ 1 (by decide +kernel), running_is_current _ 2 (by decide +kernel)⟩

end graceos.proc
