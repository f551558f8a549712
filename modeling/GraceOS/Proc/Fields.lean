import GraceOS.Proc.Moves

/-!
# Fields that scheduling leaves alone

A field of a PCB that depends on nothing the scheduler writes is the same after any of its functions.
The counter of session ids is kept along with it, and the process table only loses entries.
-/

namespace graceos.proc

open linkq

/-- The field `φ` does not depend on what the scheduler and the table functions write to a PCB. -/
structure Inert {β : Type} (φ : Process → β) : Prop where
  state : ∀ q state, φ { q with state } = φ q
  links : ∀ q next prev, φ { q with next, prev } = φ q
  times : ∀ q cpu_time wait_time last_run sleep_until, φ { q with cpu_time, wait_time, last_run, sleep_until } = φ q
  parent : ∀ q parent flags, φ { q with parent, flags } = φ q

/-- No PCB has another `φ`, no session id was issued, and no process was added to the table. -/
structure Keeps {β : Type} (φ : Process → β) (s s' : Kernel) : Prop where
  field : ∀ x, φ (s'.mem x) = φ (s.mem x)
  next : s'.next_csid = s.next_csid
  table : ∀ pid p, s'.proc_table pid = some p → s.proc_table pid = some p

variable {β : Type} {φ : Process → β} {s s' s'' : Kernel} {p : Ptr}

theorem Keeps.refl : Keeps φ s s := ⟨fun _ => rfl, rfl, fun _ _ h => h⟩

theorem Keeps.trans (h : Keeps φ s s') (h' : Keeps φ s' s'') : Keeps φ s s'' :=
  ⟨fun x => (h'.field x).trans (h.field x), h'.next.trans h.next, fun pid p hp => h.table pid p (h'.table pid p hp)⟩

theorem modify_keeps {f : Process → Process} (hf : φ (f (s.mem p)) = φ (s.mem p)) : Keeps φ s (s.modify p f) := by
  refine ⟨fun x => ?_, rfl, fun _ _ h => h⟩
  have hfield := congrFun (modify_field φ s p f) x
  by_cases hx : x = p
  · subst hx
    rw [hfield, Function.update_self, hf]
  · rw [hfield, Function.update_of_ne hx]

theorem foldl_keeps {f : Kernel → Ptr → Kernel} (hf : ∀ s p, Keeps φ s (f s p)) (l : List Ptr) (s : Kernel) :
    Keeps φ s (l.foldl f s) := by
  induction l generalizing s with
  | nil => exact .refl
  | cons p l ih => exact (hf s p).trans (ih _)

theorem on_current_keeps {f : Ptr → Kernel} (hf : ∀ c, s.current = some c → Keeps φ s (f c)) :
    Keeps φ s (s.on_current f) := by
  unfold Kernel.on_current
  split
  · next c hc => exact hf c hc
  · exact .refl

namespace Inert

variable (h : Inert φ)
include h

theorem link_forward (s : Kernel) (p v : Option Ptr) : Keeps φ s (link_forward s p v) := by
  unfold proc.link_forward
  split
  · exact modify_keeps (h.links _ _ _)
  · exact ⟨fun _ => rfl, rfl, fun _ _ h => h⟩

theorem link_back (s : Kernel) (p v : Option Ptr) : Keeps φ s (link_back s p v) := by
  unfold proc.link_back
  split
  · exact modify_keeps (h.links _ _ _)
  · exact ⟨fun _ => rfl, rfl, fun _ _ h => h⟩

theorem sched_add (s : Kernel) (p : Ptr) : Keeps φ s (sched_add s p) := by
  unfold proc.sched_add
  split
  · exact .refl
  · split
    · exact .refl
    · exact (modify_keeps (h.links _ _ _)).trans ((h.link_forward _ _ _).trans ⟨fun _ => rfl, rfl, fun _ _ h => h⟩)

theorem sched_remove (s : Kernel) (p : Ptr) : Keeps φ s (sched_remove s p) := by
  have hlinks := (h.link_forward s (s.mem p).prev (s.mem p).next).trans (h.link_back _ (s.mem p).next (s.mem p).prev)
  have hclear : ∀ s : Kernel, Keeps φ s (s.modify p fun q => { q with next := none, prev := none }) :=
    fun s => modify_keeps (h.links _ _ _)
  exact (hlinks.trans (hclear _)).trans ⟨fun _ => rfl, rfl, fun _ _ h => h⟩

theorem set_state (s : Kernel) (p : Ptr) (state : ProcState) :
    Keeps φ s (s.modify p fun q => { q with state }) := modify_keeps (h.state _ _)

theorem park (s : Kernel) (p : Ptr) (state : ProcState) : Keeps φ s (park s p state) :=
  (h.set_state s p state).trans (h.sched_remove _ p)

theorem make_ready (s : Kernel) (p : Ptr) : Keeps φ s (make_ready s p) :=
  (h.set_state s p .ready).trans (h.sched_add _ p)

theorem schedule (s : Kernel) : Keeps φ s (schedule s) := by
  unfold proc.schedule
  split
  · exact .refl
  · have hpreempt : Keeps φ s (s.on_current fun prev =>
        if (s.mem prev).state = .running then s.modify prev fun q => { q with state := .ready } else s) := by
      refine on_current_keeps fun c _ => ?_
      split
      · exact h.set_state s c .ready
      · exact .refl
    refine hpreempt.trans ?_
    dsimp only
    generalize s.on_current _ = s₁
    split
    · have hcharge := on_current_keeps (φ := φ) (s := s₁) (f := fun prev =>
        s₁.modify prev fun q => { q with cpu_time := q.cpu_time + (s₁.boot_ticks - q.last_run) })
        fun c _ => modify_keeps (h.times _ _ _ _ _)
      have hrun : ∀ (s : Kernel) (p : Ptr), Keeps φ s (s.modify p fun q =>
          { q with state := .running, last_run := s₁.boot_ticks, wait_time := 0 }) :=
        fun s p => modify_keeps ((h.times _ _ _ _ _).trans (h.state (s.mem p) .running))
      exact (hcharge.trans (hrun _ _)).trans ⟨fun _ => rfl, rfl, fun _ _ h => h⟩
    · exact h.set_state _ _ .running

theorem sched_unblock (s : Kernel) (p : Ptr) : Keeps φ s (sched_unblock s p) := by
  unfold proc.sched_unblock
  split
  · exact (h.make_ready s p).trans ⟨fun _ => rfl, rfl, fun _ _ h => h⟩
  · exact .refl

theorem sched_wake_parent (s : Kernel) (child_pid : Nat) : Keeps φ s (sched_wake_parent s child_pid) := by
  unfold proc.sched_wake_parent
  split
  · exact .refl
  · split
    · exact .refl
    · split
      · split
        · exact h.sched_unblock s _
        · exact .refl
      · exact .refl

theorem proc_reparent_children (s : Kernel) (old_parent : Nat) : Keeps φ s (proc_reparent_children s old_parent) := by
  refine foldl_keeps (fun s p => ?_) s.procs s
  split
  · exact modify_keeps (h.parent _ _ _)
  · exact .refl

theorem proc_destroy (s : Kernel) (p : Ptr) : Keeps φ s (proc_destroy s p) := by
  have hremove : ∀ (s : Kernel) (pid : Nat), Keeps φ s (proc_table_remove s pid) := by
    intro s pid
    unfold proc_table_remove
    split
    · exact .refl
    · refine ⟨fun _ => rfl, rfl, fun k q hq => ?_⟩
      dsimp only at hq
      by_cases hk : k = pid
      · simp [hk] at hq
      · rwa [Function.update_of_ne hk] at hq
  exact ((h.proc_reparent_children s _).trans (hremove _ _)).trans
    ((h.set_state _ p .dead).trans ⟨fun _ => rfl, rfl, fun _ _ h => h⟩)

theorem zombify (s : Kernel) (p : Ptr) : Keeps φ s (proc.sched_wake_parent
    (proc.park (proc.proc_reparent_children s (s.mem p).pid) p .zombie)
    ((proc.park (proc.proc_reparent_children s (s.mem p).pid) p .zombie).mem p).pid) :=
  (h.proc_reparent_children s _).trans ((h.park _ p .zombie).trans (h.sched_wake_parent _ _))

end Inert

end graceos.proc
