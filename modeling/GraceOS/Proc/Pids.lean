import GraceOS.Proc.Calls

/-!
# Process ids

`proc_alloc_pid` searches from the cursor to the end of the table and then from the front to the cursor. It finds a slot
whenever there is one, and no call lets two processes of the table have one id.
-/

namespace graceos.proc

open machine

theorem free_pid_none {s : Kernel} {pid n : Nat} :
    free_pid s pid n = none ↔ ∀ i, pid ≤ i → i < pid + n → s.proc_table i ≠ none := by
  unfold free_pid
  rw [List.find?_eq_none]
  constructor
  · intro h i hle hlt hempty
    exact h i (List.mem_range'_1.mpr ⟨hle, hlt⟩) (by rw [hempty]; rfl)
  · intro h i hmem hempty
    obtain ⟨hle, hlt⟩ := List.mem_range'_1.mp hmem
    exact h i hle hlt (Option.isNone_iff_eq_none.mp hempty)

/-- What `proc_alloc_pid` answers and leaves behind, for any table and any place of the cursor. -/
structure Allocated (s : Kernel) (r : Kernel × Nat) : Prop where
  slot : r.2 ≠ PID_INVALID → 1 ≤ r.2 ∧ r.2 < MAX_PROC ∧ s.proc_table r.2 = none
  full : r.2 = PID_INVALID ↔ ∀ pid, 1 ≤ pid → pid < MAX_PROC → s.proc_table pid ≠ none
  cursor : 1 ≤ r.1.next_pid ∧ r.1.next_pid < MAX_PROC
  table : r.1.proc_table = s.proc_table

theorem proc_alloc_pid_allocated {s : Kernel} (hpos : 1 ≤ s.next_pid) (hmax : s.next_pid < MAX_PROC) :
    Allocated s (proc_alloc_pid s) := by
  rcases proc_alloc_pid_cases hpos (Nat.le_of_lt hmax) with hnone | ⟨pid, hpid, hpidMax, hempty, halloc⟩
  · have hsearched : free_pid s s.next_pid (MAX_PROC - s.next_pid) = none ∧
        free_pid s 1 (s.next_pid - 1) = none := by
      unfold proc_alloc_pid at hnone
      cases hfirst : free_pid s s.next_pid (MAX_PROC - s.next_pid) with
      | some pid =>
        rw [hfirst] at hnone
        have hmem := List.mem_range'_1.mp (List.mem_of_find?_eq_some hfirst)
        have heq : pid = 0 := congrArg Prod.snd hnone
        omega
      | none =>
        cases hsecond : free_pid s 1 (s.next_pid - 1) with
        | some pid =>
          rw [hfirst, hsecond] at hnone
          have hmem := List.mem_range'_1.mp (List.mem_of_find?_eq_some hsecond)
          have heq : pid = 0 := congrArg Prod.snd hnone
          omega
        | none => exact ⟨rfl, rfl⟩
    rw [hnone]
    refine ⟨fun h => absurd rfl h, ⟨fun _ pid hpid hlt => ?_, fun _ => rfl⟩, ⟨hpos, hmax⟩, rfl⟩
    by_cases hbehind : s.next_pid ≤ pid
    · exact free_pid_none.mp hsearched.1 pid hbehind (by omega)
    · exact free_pid_none.mp hsearched.2 pid hpid (by omega)
  · have hvalid : pid ≠ PID_INVALID := Nat.pos_iff_ne_zero.mp hpid
    rw [halloc]
    refine ⟨fun _ => ⟨hpid, hpidMax, hempty⟩, ⟨fun h => absurd h hvalid, fun h => absurd hempty (h pid hpid hpidMax)⟩,
      ?_, rfl⟩
    dsimp only
    split
    · omega
    · omega

theorem run_cursor (ops : List Op) : (boot.run ops).core.Sound ∧ (boot.run ops).next_pid < MAX_PROC := by
  have hstep : ∀ (s : Kernel) op, s.core.Sound ∧ s.core.cursor < MAX_PROC → True →
      (s.step op).core.Sound ∧ (s.step op).core.cursor < MAX_PROC := by
    intro s op hs _
    have hmoves : Moves (fun _ _ => True) s.core (s.step op).core :=
      step_moves (fun _ _ => trivial) hs.1 (allows_of_forall (fun _ _ => trivial) s op)
    refine hmoves.invariant (I := fun c => c.Sound ∧ c.cursor < MAX_PROC) ?_ hs
    rintro c m ⟨hc, hcursor⟩ hlegal -
    refine ⟨hc.apply hlegal, ?_⟩
    cases m with
    | spawn p pid =>
      have hpos := hc.cursor.1
      change (if MAX_PROC ≤ pid + 1 then 1 else pid + 1) < MAX_PROC
      split
      · omega
      · omega
    | _ => exact hcursor
  have hboot : boot.core.Sound ∧ boot.core.cursor < MAX_PROC :=
    ⟨boot_sound, by simp [boot, sched_init, Kernel.core, Kernel.modify, proc_table_init, MAX_PROC]⟩
  exact (Along.of_forall (fun _ _ => trivial) ops).invariant hstep hboot

/-- After any calls the allocator is exact, and the processes of the table have ids of their own; for any table whatever
and any place of the cursor in it the allocator is exact as well. -/
theorem pid_allocation_exact (ops : List Op) :
    Allocated (boot.run ops) (proc_alloc_pid (boot.run ops)) ∧
    (1 ≤ (boot.run ops).next_pid ∧ (boot.run ops).next_pid < MAX_PROC) ∧
    (∀ i j p q, (boot.run ops).proc_table i = some p → (boot.run ops).proc_table j = some q →
      ((boot.run ops).mem p).pid = ((boot.run ops).mem q).pid → i = j ∧ p = q) ∧
    ∀ s : Kernel, 1 ≤ s.next_pid → s.next_pid < MAX_PROC → Allocated s (proc_alloc_pid s) := by
  obtain ⟨hsound, hcursor⟩ := run_cursor ops
  have hpos : 1 ≤ (boot.run ops).next_pid := hsound.cursor.1
  refine ⟨proc_alloc_pid_allocated hpos hcursor, ⟨hpos, hcursor⟩, fun i j p q hp hq heq => ?_,
    fun s => proc_alloc_pid_allocated⟩
  have hi : ((boot.run ops).mem p).pid = i := (hsound.slots i p hp).2.2.1
  have hj : ((boot.run ops).mem q).pid = j := (hsound.slots j q hq).2.2.1
  obtain rfl : i = j := hi.symm.trans (heq.trans hj)
  exact ⟨rfl, Option.some.inj (hp.symm.trans hq)⟩

end graceos.proc
