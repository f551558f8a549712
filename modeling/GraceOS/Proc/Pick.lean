import GraceOS.Proc.Sched
import Mathlib.Algebra.Order.Ring.Int

/-!
# Which process is picked

`sched_pick` skips an invalid process only behind another candidate. An invalid process that is the first ready one of
the queue stays in the race, and only a valid process that does better displaces it.
-/

namespace graceos.proc

open List

variable {s : Kernel} {p b : Ptr} {l : List Ptr}

/-- The fields that a score is made of, in ranges where no score overflows. -/
structure Scored (q : Process) : Prop where
  est_runtime : q.est_runtime.toNat < 2 ^ 62
  wait_time : q.wait_time.toNat < 2 ^ 62
  current_priority : -2 ^ 31 ≤ q.current_priority ∧ q.current_priority < 2 ^ 31

theorem as_int64_small {x : UInt64} (hx : x.toNat < 2 ^ 63) : as_int64 x = x.toNat :=
  BitVec.toInt_eq_toNat_of_lt (show 2 * x.toBitVec.toNat < 2 ^ 64 from by
    have : x.toBitVec.toNat = x.toNat := rfl
    omega)

theorem sched_calc_score_lt {q : Process} (hq : Scored q) : sched_calc_score q < INT64_MAX := by
  have hest := hq.est_runtime
  have hpriority := hq.current_priority
  have hwait : (q.wait_time / SCHED_AGING_FACTOR).toNat < 2 ^ 62 := by
    rw [UInt64.toNat_div]
    exact lt_of_le_of_lt (Nat.div_le_self _ _) hq.wait_time
  unfold sched_calc_score
  simp only [as_int64_small (show q.est_runtime.toNat < 2 ^ 63 by omega),
    as_int64_small (show (q.wait_time / SCHED_AGING_FACTOR).toNat < 2 ^ 63 by omega), INT64_MAX, INT64_MIN,
    SCHED_INVALID_PENALTY]
  split_ifs <;> omega

/-- A ready process of the queue. -/
def Ready (s : Kernel) (p : Ptr) : Prop := (s.mem p).state = .ready

/-- A ready process that is valid. -/
def Preferred (s : Kernel) (p : Ptr) : Prop := Ready s p ∧ (s.mem p).valid = true

instance : DecidablePred (Ready s) := fun p => inferInstanceAs (Decidable ((s.mem p).state = .ready))

instance : DecidablePred (Preferred s) := fun _ => inferInstanceAs (Decidable (_ ∧ _))

def score (s : Kernel) (p : Ptr) : Int := sched_calc_score (s.mem p)

/-- The comparison of the loop: `p` takes the place of `b`. -/
def Displaces (s : Kernel) (p b : Ptr) : Prop :=
  score s p < score s b ∨ score s p = score s b ∧ ((s.mem b).wait_time < (s.mem p).wait_time ∨
    (s.mem p).wait_time = (s.mem b).wait_time ∧ s.current = some b ∧ s.current ≠ some p)

instance : Decidable (Displaces s p b) := inferInstanceAs (Decidable (_ ∨ _ ∧ (_ ∨ _ ∧ _ ∧ _)))

theorem Displaces.le (h : Displaces s p b) : score s p ≤ score s b := by
  rcases h with hlt | ⟨heq, -⟩
  · exact Int.le_of_lt hlt
  · exact Int.le_of_eq heq

theorem le_of_not_displaces (h : ¬ Displaces s p b) : score s b ≤ score s p :=
  Int.not_lt.mp fun hlt => h (.inl hlt)

/-! ## One turn -/

theorem consider_not_ready {acc : Option Ptr × Int} (hp : ¬ Ready s p) : sched_consider s acc p = acc := by
  unfold Ready at hp
  simp only [sched_consider, ne_eq, hp, not_false_eq_true, if_true]

theorem consider_first (hp : Ready s p) (hlt : score s p < INT64_MAX) :
    sched_consider s (none, INT64_MAX) p = (some p, score s p) := by
  unfold Ready at hp
  unfold score at hlt ⊢
  simp [sched_consider, hp, hlt]

theorem consider_invalid {n : Int} (hvalid : (s.mem p).valid = false) :
    sched_consider s (some b, n) p = (some b, n) := by
  simp [sched_consider, hvalid]

theorem consider_preferred {n : Int} (hp : Preferred s p) (hn : score s b = n) : sched_consider s (some b, n) p =
    if Displaces s p b then (some p, score s p) else (some b, n) := by
  obtain ⟨hready, hvalid⟩ := hp
  unfold Ready at hready
  by_cases hd : Displaces s p b
  · rw [if_pos hd]
    unfold Displaces at hd
    rw [hn] at hd
    unfold score at hd ⊢
    simp only [sched_consider, hready, hvalid, ne_eq, not_true_eq_false, if_false, Bool.not_true, Bool.false_and,
      Bool.false_eq_true]
    rcases hd with hlt | ⟨heq, hwait | hcurrent⟩
    · rw [if_pos hlt]
    · rw [if_neg (by omega), if_pos heq, if_pos hwait, heq]
    · rw [if_neg (by omega), if_pos heq, if_pos hcurrent, heq, if_neg]
      rw [hcurrent.1]
      exact UInt64.lt_irrefl _
  · rw [if_neg hd]
    unfold Displaces at hd
    rw [hn] at hd
    unfold score at hd
    simp only [sched_consider, hready, hvalid, ne_eq, not_true_eq_false, if_false, Bool.not_true, Bool.false_and,
      Bool.false_eq_true]
    rw [if_neg fun hlt => hd (.inl hlt)]
    by_cases heq : sched_calc_score (s.mem p) = n
    · rw [if_pos heq, if_neg fun hwait => hd (.inr ⟨heq, .inl hwait⟩),
        if_neg fun hcurrent => hd (.inr ⟨heq, .inr hcurrent⟩)]
    · rw [if_neg heq]

theorem consider_other (hp : ¬ Preferred s p) : sched_consider s (some b, score s b) p = (some b, score s b) := by
  by_cases hready : Ready s p
  · exact consider_invalid (Bool.not_eq_true _ ▸ fun hvalid => hp ⟨hready, hvalid⟩)
  · exact consider_not_ready hready

/-! ## The loop -/

/-- The pick of the loop: valid, and no valid ready process of the list does better. -/
structure Best (s : Kernel) (l : List Ptr) (c : Ptr) : Prop where
  preferred : Preferred s c
  least : ∀ p ∈ l, Preferred s p → score s c ≤ score s p

theorem Best.cons {c : Ptr} (h : Best s l c) (hp : Preferred s p → score s c ≤ score s p) : Best s (p :: l) c :=
  ⟨h.preferred, List.forall_mem_cons.mpr ⟨hp, h.least⟩⟩

/-- A process stays the best one until a valid ready process displaces it. -/
theorem fold_displaced (s : Kernel) (b : Ptr) (l : List Ptr) :
    ((∀ p ∈ l, Preferred s p → ¬ Displaces s p b) ∧
      l.foldl (sched_consider s) (some b, score s b) = (some b, score s b)) ∨
    ∃ c ∈ l, l.foldl (sched_consider s) (some b, score s b) = (some c, score s c) ∧ Best s l c ∧
      score s c ≤ score s b ∧ ∃ p ∈ l, Preferred s p ∧ Displaces s p b := by
  induction l generalizing b with
  | nil => exact .inl ⟨fun _ hp => absurd hp not_mem_nil, rfl⟩
  | cons p l ih =>
    rw [foldl_cons]
    by_cases htakes : Preferred s p ∧ Displaces s p b
    · rw [consider_preferred htakes.1 rfl, if_pos htakes.2]
      right
      obtain ⟨hnone, hfold⟩ | ⟨c, hmem, hfold, hbest, hle, -⟩ := ih p
      · have hleast : ∀ x ∈ l, Preferred s x → score s p ≤ score s x := fun x hx hxp =>
          le_of_not_displaces (hnone x hx hxp)
        exact ⟨p, mem_cons_self, hfold, ⟨htakes.1, List.forall_mem_cons.mpr ⟨fun _ => le_rfl, hleast⟩⟩,
          htakes.2.le, p, mem_cons_self, htakes⟩
      · exact ⟨c, mem_cons_of_mem p hmem, hfold, hbest.cons fun _ => hle, le_trans hle htakes.2.le, p,
          mem_cons_self, htakes⟩
    · have hturn : sched_consider s (some b, score s b) p = (some b, score s b) := by
        by_cases hp : Preferred s p
        · rw [consider_preferred hp rfl, if_neg fun hd => htakes ⟨hp, hd⟩]
        · exact consider_other hp
      rw [hturn]
      obtain ⟨hnone, hfold⟩ | ⟨c, hmem, hfold, hbest, hle, x, hx, hxd⟩ := ih b
      · exact .inl ⟨List.forall_mem_cons.mpr ⟨fun hp hd => htakes ⟨hp, hd⟩, hnone⟩, hfold⟩
      · have hlep : Preferred s p → score s c ≤ score s p := fun hp =>
          le_trans hle (le_of_not_displaces fun hd => htakes ⟨hp, hd⟩)
        exact .inr ⟨c, mem_cons_of_mem p hmem, hfold, hbest.cons hlep, hle, x, mem_cons_of_mem p hx, hxd⟩

theorem fold_preferred (hb : Preferred s b) : ∃ c, (c = b ∨ c ∈ l) ∧
    l.foldl (sched_consider s) (some b, score s b) = (some c, score s c) ∧ Best s (b :: l) c := by
  obtain ⟨hnone, hfold⟩ | ⟨c, hmem, hfold, hbest, hle, -⟩ := fold_displaced s b l
  · have hleast : ∀ p ∈ l, Preferred s p → score s b ≤ score s p := fun p hp hpp =>
      le_of_not_displaces (hnone p hp hpp)
    exact ⟨b, .inl rfl, hfold, hb, List.forall_mem_cons.mpr ⟨fun _ => le_rfl, hleast⟩⟩
  · exact ⟨c, .inr hmem, hfold, hbest.cons fun _ => hle⟩

/-! ## The pick -/

/-- The first ready process of the queue. -/
def first_ready (s : Kernel) : Option Ptr := s.run_queue.find? fun p => Ready s p

/-- The pick prefers valid processes, takes an invalid one before the idle process, and is idle only where no process
is ready. -/
structure PicksValid (s : Kernel) : Prop where
  preferred : (∃ p ∈ s.run_queue, Preferred s p) → sched_pick s ∈ s.run_queue ∧ Best s s.run_queue (sched_pick s)
  ready : (∃ p ∈ s.run_queue, Ready s p) → sched_pick s ∈ s.run_queue ∧ Ready s (sched_pick s)
  idle : (∀ p ∈ s.run_queue, ¬ Ready s p) → sched_pick s = idle_proc

/-- No valid process is ready, or the first ready process is valid, or a valid ready one displaces it. -/
def Overtaken (s : Kernel) : Prop :=
  (∃ p ∈ s.run_queue, Preferred s p) →
    ∀ b ∈ first_ready s, (s.mem b).valid = true ∨ ∃ p ∈ s.run_queue, Preferred s p ∧ Displaces s p b

theorem fold_not_ready {acc : Option Ptr × Int} (hl : ∀ p ∈ l, ¬ Ready s p) :
    l.foldl (sched_consider s) acc = acc := by
  induction l with
  | nil => rfl
  | cons p l ih =>
    rw [foldl_cons, consider_not_ready (hl p mem_cons_self)]
    exact ih fun x hx => hl x (mem_cons_of_mem p hx)

theorem sched_pick_split {b : Ptr} (hfirst : first_ready s = some b) (hlt : score s b < INT64_MAX) :
    ∃ front back, s.run_queue = front ++ b :: back ∧ (∀ p ∈ front, ¬ Ready s p) ∧ Ready s b ∧
      sched_pick s = (back.foldl (sched_consider s) (some b, score s b)).1.getD idle_proc := by
  obtain ⟨hb, front, back, hqueue, hfront⟩ := List.find?_eq_some_iff_append.mp hfirst
  have hready : Ready s b := of_decide_eq_true hb
  have hskip : ∀ p ∈ front, ¬ Ready s p := fun p hp => by simpa using hfront p hp
  refine ⟨front, back, hqueue, hskip, hready, ?_⟩
  rw [sched_pick, hqueue, foldl_append, fold_not_ready hskip, foldl_cons, consider_first hready hlt]

theorem Best.of_back {front back : List Ptr} {c : Ptr} (h : Best s back c) (hfront : ∀ p ∈ front, ¬ Ready s p) :
    Best s (front ++ back) c := by
  refine ⟨h.preferred, fun p hp hpp => ?_⟩
  rcases List.mem_append.mp hp with hp | hp
  · exact absurd hpp.1 (hfront p hp)
  · exact h.least p hp hpp

theorem PicksValid.of_best (hmem : sched_pick s ∈ s.run_queue) (hbest : Best s s.run_queue (sched_pick s)) :
    PicksValid s :=
  ⟨fun _ => ⟨hmem, hbest⟩, fun _ => ⟨hmem, hbest.preferred.1⟩, fun h => absurd hbest.preferred.1 (h _ hmem)⟩

/-- The pick prefers valid processes exactly where the first ready process is valid or a valid one displaces it. -/
theorem sched_pick_prefers_iff (hscored : ∀ p ∈ s.run_queue, Scored (s.mem p)) : PicksValid s ↔ Overtaken s := by
  cases hfirst : first_ready s with
  | none =>
    have hnone : ∀ p ∈ s.run_queue, ¬ Ready s p := fun p hp => by
      simpa using List.find?_eq_none.mp hfirst p hp
    have hidle : sched_pick s = idle_proc := by
      rw [sched_pick, fold_not_ready hnone]
      rfl
    refine ⟨fun _ _ b hb => ?_, fun _ => ⟨fun ⟨p, hp, hpp⟩ => absurd hpp.1 (hnone p hp),
      fun ⟨p, hp, hr⟩ => absurd hr (hnone p hp), fun _ => hidle⟩⟩
    rw [hfirst] at hb
    cases hb
  | some b =>
    have hmem : b ∈ s.run_queue := List.mem_of_find?_eq_some hfirst
    obtain ⟨front, back, hqueue, hfront, hready, hpick⟩ :=
      sched_pick_split hfirst (sched_calc_score_lt (hscored b hmem))
    have hsub : ∀ {c}, c = b ∨ c ∈ back → c ∈ s.run_queue := fun hc => by
      rw [hqueue]
      exact mem_append_right _ (List.mem_cons.mpr hc)
    have hbusy : ¬ ∀ p ∈ s.run_queue, ¬ Ready s p := fun h => h b hmem hready
    by_cases hvalid : (s.mem b).valid = true
    · -- the first ready process is valid
      obtain ⟨c, hc, hfold, hbest⟩ := @fold_preferred s b back ⟨hready, hvalid⟩
      have hpick' : sched_pick s = c := by
        rw [hpick, hfold]
        rfl
      have hqbest : Best s s.run_queue c := hqueue ▸ hbest.of_back hfront
      subst hpick'
      refine ⟨fun _ _ x hx => .inl ?_, fun _ => .of_best (hsub hc) hqbest⟩
      rw [hfirst] at hx
      cases hx
      exact hvalid
    · have hinvalid : (s.mem b).valid = false := Bool.not_eq_true _ ▸ hvalid
      rcases fold_displaced s b back with ⟨hnone, hfold⟩ | ⟨c, hc, hfold, hbest, -, x, hx, hxp, hxd⟩
      · -- the invalid process stays
        have hpick' : sched_pick s = b := by
          rw [hpick, hfold]
          rfl
        constructor
        · intro hpicks hexists
          have hbest := (hpicks.preferred hexists).2.preferred.2
          rw [hpick', hinvalid] at hbest
          cases hbest
        · intro hover
          refine ⟨fun hexists => ?_, fun _ => ?_, fun h => absurd h hbusy⟩
          · rcases hover hexists b hfirst with h | ⟨p, hp, hpp, hpd⟩
            · exact absurd h hvalid
            · rw [hqueue] at hp
              rcases List.mem_append.mp hp with hp | hp
              · exact absurd hpp.1 (hfront p hp)
              · rcases List.mem_cons.mp hp with rfl | hp
                · exact absurd hpp.2 hvalid
                · exact absurd hpd (hnone p hp hpp)
          · rw [hpick']
            exact ⟨hmem, hready⟩
      · -- a valid process displaces it
        have hpick' : sched_pick s = c := by
          rw [hpick, hfold]
          rfl
        have hqbest : Best s s.run_queue c := by
          rw [hqueue]
          exact (hbest.cons fun hb => absurd hb.2 hvalid).of_back hfront
        subst hpick'
        refine ⟨fun _ _ y hy => .inr ?_, fun _ => .of_best (hsub (.inr hc)) hqbest⟩
        rw [hfirst] at hy
        cases hy
        exact ⟨x, hsub (.inr hx), hxp, hxd⟩

/-- A queue of two ready processes, of which the first is invalid and the second has run for `est_runtime`. -/
def queue_of_two (est_runtime : UInt64) : Kernel :=
  { proc_table_init with
    mem p := if p = 1 then { pid := 1, state := .ready, est_runtime := 100, next := some 2 }
      else { pid := 2, state := .ready, valid := true, est_runtime, prev := some 1 }
    heap := [1, 2], run_queue_head := some 1, run_queue_tail := some 2 }

theorem queue_of_two_run_queue (est_runtime : UInt64) : (queue_of_two est_runtime).run_queue = [1, 2] := rfl

theorem queue_of_two_scored {est_runtime : UInt64} (hlt : est_runtime.toNat < 2 ^ 62) :
    ∀ p ∈ (queue_of_two est_runtime).run_queue, Scored ((queue_of_two est_runtime).mem p) := by
  rw [queue_of_two_run_queue]
  intro p hp
  rcases List.mem_cons.mp hp with rfl | hp
  · exact ⟨show (100 : UInt64).toNat < 2 ^ 62 by decide, show (0 : UInt64).toNat < 2 ^ 62 by decide,
      show -2 ^ 31 ≤ (0 : Int) ∧ (0 : Int) < 2 ^ 31 by decide⟩
  · rw [List.mem_singleton.mp hp]
    exact ⟨hlt, show (0 : UInt64).toNat < 2 ^ 62 by decide, show -2 ^ 31 ≤ (0 : Int) ∧ (0 : Int) < 2 ^ 31 by decide⟩

/-- The valid process has the lower score and is picked. -/
theorem sched_pick_prefers_short : PicksValid (queue_of_two 50) :=
  (sched_pick_prefers_iff (queue_of_two_scored (by decide))).mpr fun _ b hb => by
    obtain rfl : 1 = b := Option.some.inj hb
    exact .inr ⟨2, by decide, by decide, by decide⟩

/-- The valid process has run for longer than the penalty, and the invalid one is picked. -/
theorem sched_pick_prefers_invalid : (∀ p ∈ (queue_of_two 20000).run_queue, Scored ((queue_of_two 20000).mem p)) ∧
    Preferred (queue_of_two 20000) 2 ∧ sched_pick (queue_of_two 20000) = 1 ∧ ¬ PicksValid (queue_of_two 20000) := by
  refine ⟨queue_of_two_scored (by decide), by decide, by decide, fun h => ?_⟩
  have hbest := (h.preferred ⟨2, by decide, by decide⟩).2.preferred
  exact absurd hbest (by decide)

end graceos.proc
