import GraceOS.Chivm.Interp

/-!
# Programs as runs of calls

Whatever a program does to the state, its calls do one after the other.
-/

namespace graceos.chivm

open exec

variable {α β : Type} {fuel : Nat}

/-- `m` takes the state where the calls that it adds take it. -/
def Replays (fuel : Nat) (m : Program α) : Prop :=
  ∀ s, ∃ calls, (m s).2.calls = s.calls ++ calls ∧ (m s).2.vm = machine.run (step fuel) s.vm calls

theorem Replays.pure (a : α) : Replays fuel (Pure.pure a) :=
  fun s => ⟨[], (List.append_nil _).symm, rfl⟩

theorem Replays.hang : Replays fuel (Exec.hang : Program α) := fun s => ⟨[], (List.append_nil _).symm, rfl⟩

theorem Replays.bind {m : Program α} {f : α → Program β} (hm : Replays fuel m) (hf : ∀ a, Replays fuel (f a)) :
    Replays fuel (m >>= f) := by
  intro s
  obtain ⟨calls, hcalls, hvm⟩ := hm s
  rcases hms : m s with ⟨_ | a, s'⟩
  all_goals rw [hms] at hcalls hvm
  case ok a =>
    obtain ⟨more, hmore, hvm'⟩ := hf a s'
    rw [bind_ok hms]
    refine ⟨calls ++ more, ?_, ?_⟩
    · rw [hmore, hcalls, List.append_assoc]
    · rw [hvm', hvm, machine.run_append]
  case error =>
    rw [bind_error hms]
    exact ⟨calls, hcalls, hvm⟩
  case hang =>
    rw [bind_hang hms]
    exact ⟨calls, hcalls, hvm⟩

theorem Replays.call {c : Call} {m : VmExec α} (hm : ∀ vm, step fuel vm c = (m vm).2) : Replays fuel (call c m) :=
  fun s => ⟨[c], rfl, (hm s.vm).symm⟩

theorem Replays.message (msg : String) : Replays fuel (message msg : Program α) :=
  .call fun _ => rfl

theorem Replays.skipped (msg : String) (o : Outcome Text) : Replays fuel (skipped msg o) := by
  cases o with
  | ok p => exact .pure p
  | error => exact .message msg
  | hang => exact .hang

variable {block : Text → Program Text}

theorem Replays.exec_branch (hblock : ∀ p, Replays fuel (block p)) (taken : Bool) (which : String) (p : Text) :
    Replays fuel (exec_branch block fuel taken which p) := by
  unfold chivm.exec_branch
  refine .bind ?_ fun p => ?_
  · unfold run_or_skip
    split
    · exact hblock p
    · exact .skipped _ _
  · dsimp only
    split
    · exact .message _
    · exact .pure _

theorem Replays.exec_else (hblock : ∀ p, Replays fuel (block p)) (chain : Nat) (taken : Bool) (p : Text) :
    Replays fuel (exec_else block fuel chain taken p) := by
  induction chain generalizing taken p with
  | zero => exact .hang
  | succ chain ih =>
    unfold chivm.exec_else
    dsimp only
    split
    · exact .pure _
    split
    · split
      · exact .message _
      refine .bind ?_ fun r => ?_
      · unfold else_condition
        split
        · exact .call fun _ => rfl
        · exact .bind (.skipped _ _) fun p => .pure _
      · split
        · exact .message _
        split
        · exact .message _
        · exact .bind (.exec_branch hblock _ _ _) fun p => ih _ p
    · split
      · exact .message _
      · exact .exec_branch hblock _ _ _

theorem Replays.exec_if (hblock : ∀ p, Replays fuel (block p)) (p : Text) :
    Replays fuel (exec_if block fuel p) := by
  unfold chivm.exec_if
  dsimp only
  split
  · exact .message _
  refine .bind (.call fun _ => rfl) fun r => ?_
  split
  · exact .message _
  split
  · exact .message _
  · exact .bind (.exec_branch hblock _ _ _) fun p => .exec_else hblock _ _ _

theorem Replays.exec_stmt (hblock : ∀ p, Replays fuel (block p)) (p : Text) :
    Replays fuel (exec_stmt block fuel p) := by
  unfold chivm.exec_stmt
  dsimp only
  split
  · exact .pure _
  split
  · exact .pure _
  split
  · exact .pure _
  split
  · exact .exec_if hblock _
  split
  · exact .call fun _ => rfl
  split
  · exact .call fun _ => rfl
  split
  · exact .call fun _ => rfl
  split
  · exact .call fun _ => rfl
  · exact .message _

theorem Replays.exec_block_body (depth : Nat) (p : Text) : Replays fuel (exec_block_body fuel depth p) := by
  induction depth generalizing p with
  | zero => exact .hang
  | succ depth ih =>
    unfold chivm.exec_block_body
    split
    · exact .pure _
    · exact .bind (.exec_stmt ih p) fun p => ih p

theorem Replays.run_sources (s : Session) (sources : List Text) :
    ∃ calls, (run_sources fuel s sources).calls = s.calls ++ calls ∧
      (run_sources fuel s sources).vm = machine.run (step fuel) s.vm calls := by
  induction sources generalizing s with
  | nil => exact ⟨[], (List.append_nil _).symm, rfl⟩
  | cons source sources ih =>
    obtain ⟨calls, hcalls, hvm⟩ := @Replays.exec_block_body fuel fuel source s
    obtain ⟨more, hmore, hvm'⟩ := ih (exec_source fuel source s).2
    refine ⟨calls ++ more, ?_, ?_⟩
    · rw [chivm.run_sources, hmore, exec_source, hcalls, List.append_assoc]
    · rw [chivm.run_sources, hvm', exec_source, hvm, machine.run_append]

theorem session_run (fuel : Nat) (lines : Nat → List UInt8) (sources : List Text) :
    (session fuel lines sources).vm =
      machine.run (step fuel) (vm_reset lines) (session fuel lines sources).calls := by
  obtain ⟨calls, hcalls, hvm⟩ := @Replays.run_sources fuel ⟨vm_reset lines, []⟩ sources
  rw [session, hcalls, hvm, List.nil_append]

end graceos.chivm
