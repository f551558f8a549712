import GraceOS.Video.Addresses
import Mathlib.Data.List.Nodup
import Mathlib.Data.Nat.Sqrt
import Mathlib.Logic.Function.Iterate
import Mathlib.Tactic.IntervalCases
import Mathlib.Tactic.Linarith
import Mathlib.Tactic.Ring

/-!
# Discs

`sys_fb_circle` of `syscall.c`. The loop advances `dy` in every turn and `dx` in some; while `dx` stands, the outer rows
are drawn again.
-/

namespace graceos.video

open List

/-! ## The call -/

/-- `for (i = -n; i <= n; i++)`. -/
def span (n : Int) : List Int := (List.range (2 * n + 1).toNat).map fun (k : Nat) => (k : Int) - n

/-- The pixels that the first loop of a turn draws, as they lie around the centre, and those of the second one. -/
def inner_spans (dx dy : Int) : List (Int × Int) :=
  (span dx).flatMap fun i => (i, dy) :: if dy ≠ 0 then [(i, -dy)] else []

def outer_spans (dx dy : Int) : List (Int × Int) := (span dy).flatMap fun i => if dx ≠ dy then
    [(i, dx), (i, -dx)] else []

def circle_spans (dx dy : Int) : List (Int × Int) := inner_spans dx dy ++ outer_spans dx dy

structure Arc where
  dx : Int
  dy : Int
  err : Int

/-- The end of the loop body. -/
def Arc.step (a : Arc) : Arc :=
  let a := if a.err ≤ 0 then { a with dy := int (a.dy + 1), err := int (a.err + (2 * int (a.dy + 1) + 1)) } else a
  if a.err > 0 then { a with dx := int (a.dx - 1), err := int (a.err - (2 * int (a.dx - 1) + 1)) } else a

/-- The pixel of the screen, for one that lies around the centre. -/
def place (x y : Int) (p : Int × Int) : Int × Int := (int (x + p.1), int (y + p.2))

/-- Pixels around the centre are drawn; the text of `sys_fb_pixel` stands at each one. -/
def draw_around (fb : Fb) (x y : Int) (src : UInt32) (ps : List (Int × Int)) : Fb :=
  ps.foldl (fun fb p => sys_fb_pixel fb (place x y p).1 (place x y p).2 src) fb

/-- What is returned, and what was drawn. -/
structure Disc where
  ret : Int
  fb : Fb
  pixels : List (Int × Int)

def circle_loop (x y : Int) (src : UInt32) : (fuel : Nat) → Fb → Arc → Option Disc
  | 0, _, _ => none
  | fuel + 1, fb, a =>
    if a.dx < a.dy then some ⟨0, fb, []⟩
    else
      (circle_loop x y src fuel (draw_around fb x y src (circle_spans a.dx a.dy)) a.step).map fun d =>
        { d with pixels := circle_spans a.dx a.dy ++ d.pixels }

def sys_fb_circle (fuel : Nat) (fb : Fb) (cx cy radius : Int) (color : UInt32) : Option Disc :=
  let x := int cx
  let y := int cy
  let r := int radius
  if r < 0 then some ⟨-1, fb, []⟩
  else if r = 0 then some ⟨0, draw_around fb x y color [(0, 0)], [(0, 0)]⟩
  else circle_loop x y color fuel fb ⟨r, 0, 0⟩

/-! ## The turns of the loop -/

/-- In the turn `t`, the outer columns are at `d`. -/
structure Head (r t d : Nat) : Prop where
  wide : t ≤ d
  least : (t + 1) ^ 2 + d ^ 2 ≤ r ^ 2 + 1
  most : r ^ 2 + 1 < (t + 1) ^ 2 + (d + 1) ^ 2

def extent (r t : Nat) : Nat := Nat.sqrt (r ^ 2 + 1 - (t + 1) ^ 2)

namespace Head

variable {r t d s e : Nat}

theorem start (r : Nat) : Head r 0 r := by
  have hsquare : (r + 1) ^ 2 = r ^ 2 + 2 * r + 1 := by ring
  exact ⟨Nat.zero_le r, by omega, by omega⟩

theorem eq_extent (h : Head r t d) : d = extent r t := by
  obtain ⟨-, hleast, hmost⟩ := h
  exact Nat.eq_sqrt'.mpr ⟨by omega, by omega⟩

theorem before (h : Head r t d) (hst : s ≤ t) : Head r s (extent r s) ∧ d ≤ extent r s := by
  obtain ⟨hwide, hleast, hmost⟩ := h
  have hsquare : (s + 1) ^ 2 ≤ (t + 1) ^ 2 := Nat.pow_le_pow_left (by omega) 2
  have hlow := Nat.sqrt_le' (r ^ 2 + 1 - (s + 1) ^ 2)
  have hhigh := Nat.lt_succ_sqrt' (r ^ 2 + 1 - (s + 1) ^ 2)
  have hle : d ≤ extent r s := by
    by_contra hlt
    have hpow : (extent r s + 1) ^ 2 ≤ d ^ 2 := Nat.pow_le_pow_left (by omega) 2
    rw [extent] at hpow
    rw [Nat.succ_eq_add_one] at hhigh
    omega
  rw [Nat.succ_eq_add_one] at hhigh
  refine ⟨⟨by omega, ?_, ?_⟩, hle⟩
  · rw [extent]
    omega
  · rw [extent]
    omega

theorem le_radius (h : Head r t d) : d ≤ r := by
  by_contra hlt
  have hpow : (r + 1) ^ 2 ≤ d ^ 2 := Nat.pow_le_pow_left (by omega) 2
  have hsquare : (r + 1) ^ 2 = r ^ 2 + 2 * r + 1 := by ring
  have hone : 1 ≤ (t + 1) ^ 2 := Nat.one_le_pow _ _ (by omega)
  have hleast := h.least
  omega

theorem pos (h : Head r t d) (hr : 0 < r) : 0 < d := by
  by_contra hzero
  obtain rfl : d = 0 := by omega
  obtain rfl : t = 0 := by have hwide := h.wide; omega
  have hmost := h.most
  nlinarith

theorem stay (h : Head r t d) (hin : (t + 2) ^ 2 + d ^ 2 ≤ r ^ 2 + 1) :
    (t + 1 ≤ d → Head r (t + 1) d) ∧ (d < t + 1 → ∀ e, ¬ Head r (t + 1) e) := by
  obtain ⟨hwide, hleast, hmost⟩ := h
  constructor
  · intro hle
    exact ⟨hle, hin, by nlinarith⟩
  · rintro hlt e ⟨he, hleast', -⟩
    have hpow : (d + 1) ^ 2 ≤ e ^ 2 := Nat.pow_le_pow_left (by omega) 2
    nlinarith

theorem shrink (h : Head r t d) (hout : r ^ 2 + 1 < (t + 2) ^ 2 + d ^ 2) (hd : 0 < d) :
    (t + 1 ≤ d - 1 → Head r (t + 1) (d - 1)) ∧ (d - 1 < t + 1 → ∀ e, ¬ Head r (t + 1) e) := by
  obtain ⟨hwide, hleast, hmost⟩ := h
  obtain ⟨k, rfl⟩ := Nat.exists_eq_succ_of_ne_zero (Nat.pos_iff_ne_zero.mp hd)
  rw [Nat.succ_sub_one]
  rw [Nat.succ_eq_add_one] at *
  constructor
  · intro hle
    exact ⟨hle, by nlinarith, hout⟩
  · rintro hlt e ⟨he, hleast', -⟩
    have hpow : (t + 1) ^ 2 ≤ e ^ 2 := Nat.pow_le_pow_left he 2
    have hkt : k = t ∨ k + 1 = t := by omega
    have hmono : (t + 1) ^ 2 ≤ (t + 1 + 1) ^ 2 := Nat.pow_le_pow_left (by omega) 2
    obtain rfl | rfl := hkt
    · nlinarith
    · omega

end Head

/-- The variables in the turn `t`. -/
def arc (r t d : Nat) : Arc := ⟨d, t, (t : Int) ^ 2 + 2 * t + (d : Int) ^ 2 - (r : Int) ^ 2⟩

section
variable {r t d : Nat} (hr : 0 < r) (hbound : r < 2 ^ 14)
include hr hbound

theorem arc_step (h : Head r t d) : (arc r t d).step = arc r (t + 1)
    (if (t + 2) ^ 2 + d ^ 2 ≤ r ^ 2 + 1 then d else d - 1) := by
  have hdr := h.le_radius
  have hd := h.pos hr
  have hwide := h.wide
  have hradius : r ^ 2 ≤ (2 ^ 14) ^ 2 := Nat.pow_le_pow_left hbound.le 2
  have hleast : (t : Int) ^ 2 + 2 * t + (d : Int) ^ 2 ≤ (r : Int) ^ 2 := by
    have hcast : ((t : Int) + 1) ^ 2 + (d : Int) ^ 2 ≤ (r : Int) ^ 2 + 1 := by exact_mod_cast h.least
    nlinarith
  have hradius' : (r : Int) ^ 2 ≤ (2 ^ 14) ^ 2 := by exact_mod_cast hradius
  have ht0 : (0 : Int) ≤ (t : Int) ^ 2 := by positivity
  have hd0 : (0 : Int) ≤ (d : Int) ^ 2 := by positivity
  have hnext : int ((t : Int) + 1) = t + 1 := int_eq ⟨by omega, by omega⟩
  have hprev : int ((d : Int) - 1) = d - 1 := int_eq ⟨by omega, by omega⟩
  rw [Arc.step, arc]
  have hinner : (t : Int) ^ 2 + 2 * t + (d : Int) ^ 2 - (r : Int) ^ 2 ≤ 0 := by omega
  dsimp only
  rw [if_pos hinner, hnext]
  dsimp only
  rw [int_eq ⟨by omega, by omega⟩]
  have hiff : (t : Int) ^ 2 + 2 * t + (d : Int) ^ 2 - (r : Int) ^ 2 + (2 * ((t : Int) + 1) + 1) > 0 ↔
      ¬ (t + 2) ^ 2 + d ^ 2 ≤ r ^ 2 + 1 := by
    have hcast : (t + 2) ^ 2 + d ^ 2 ≤ r ^ 2 + 1 ↔ ((t : Int) + 2) ^ 2 + (d : Int) ^ 2 ≤ (r : Int) ^ 2 + 1 := by
      exact_mod_cast Iff.rfl
    have hsquare : ((t : Int) + 2) ^ 2 = (t : Int) ^ 2 + 4 * t + 4 := by ring
    rw [hcast, hsquare]
    omega
  have hsquare : ((t + 1 : Nat) : Int) ^ 2 = (t : Int) ^ 2 + 2 * t + 1 := by
    push_cast
    ring
  by_cases hin : (t + 2) ^ 2 + d ^ 2 ≤ r ^ 2 + 1
  · rw [if_neg (by rw [hiff]; exact not_not_intro hin), if_pos hin, arc, hsquare, Arc.mk.injEq]
    exact ⟨rfl, by omega, by omega⟩
  · have hcast : ((d - 1 : Nat) : Int) = (d : Int) - 1 := by omega
    have hsquare' : ((d : Int) - 1) ^ 2 = (d : Int) ^ 2 - 2 * d + 1 := by ring
    rw [if_pos (hiff.mpr hin), if_neg hin, hprev, int_eq ⟨by omega, by omega⟩, arc, hcast, hsquare,
      hsquare', Arc.mk.injEq]
    exact ⟨rfl, by omega, by omega⟩

/-- The pixels of the turns from `t` on. -/
def turns (r t m : Nat) : List (Int × Int) := (List.range' t m).flatMap fun s => circle_spans (extent r s) s

theorem circle_loop_spec (h : Head r t d) {n : Nat} (hn : r < t + n) :
    ∃ m, (∀ x y src fb, circle_loop x y src (n + 1) fb (arc r t d) =
        some ⟨0, draw_around fb x y src (turns r t m), turns r t m⟩) ∧
      (∀ s, t ≤ s → s < t + m → Head r s (extent r s)) ∧ ∀ e, ¬ Head r (t + m) e := by
  induction n generalizing t d with
  | zero =>
    have hdr := h.le_radius
    have hwide := h.wide
    omega
  | succ n ih =>
    have hwide := h.wide
    have hd := h.pos hr
    have hstep := arc_step hr hbound h
    -- the columns of the next turn, if there is one
    have hnext : ∃ e, (if (t + 2) ^ 2 + d ^ 2 ≤ r ^ 2 + 1 then d else d - 1) = e ∧ (t + 1 ≤ e → Head r (t + 1) e) ∧
        (e < t + 1 → ∀ e', ¬ Head r (t + 1) e') := by
      by_cases hin : (t + 2) ^ 2 + d ^ 2 ≤ r ^ 2 + 1
      · exact ⟨d, if_pos hin, h.stay hin⟩
      · exact ⟨d - 1, if_neg hin, h.shrink (by omega) hd⟩
    obtain ⟨e, he, hgo, hstop⟩ := hnext
    rw [he] at hstep
    have hextent := h.eq_extent
    by_cases hle : t + 1 ≤ e
    · obtain ⟨m, hm, hheads, hend⟩ := ih (hgo hle) (by omega)
      refine ⟨m + 1, fun x y src fb => ?_, fun s hs hsm => ?_, ?_⟩
      · rw [circle_loop, if_neg (by rw [arc]; dsimp only; omega), hstep]
        change Option.map _ (circle_loop x y src (n + 1) (draw_around fb x y src (circle_spans d t))
          (arc r (t + 1) e)) = _
        rw [hm]
        rw [turns, turns, List.range'_succ, flatMap_cons, ← hextent]
        rw [Option.map_some, draw_around, draw_around, draw_around, foldl_append]
        rfl
      · obtain rfl | hlt := Nat.eq_or_lt_of_le hs
        · rwa [← hextent]
        · exact hheads s hlt (by omega)
      · rw [show t + (m + 1) = t + 1 + m by omega]
        exact hend
    · refine ⟨1, fun x y src fb => ?_, fun s hs hsm => ?_, hstop (by omega)⟩
      · rw [circle_loop, if_neg (by rw [arc]; dsimp only; omega), hstep]
        rw [circle_loop, if_pos (by rw [arc]; dsimp only; omega)]
        rw [turns, List.range'_one, flatMap_singleton, ← hextent]
        rw [Option.map_some]
        dsimp only
        rw [append_nil]
        rfl
      · obtain rfl : s = t := by omega
        rwa [← hextent]

end

/-! ## The pixels of a turn -/

theorem mem_span {n : Nat} {i : Int} : i ∈ span n ↔ i.natAbs ≤ n := by
  rw [span, mem_map]
  constructor
  · rintro ⟨k, hk, rfl⟩
    have hlt := List.mem_range.mp hk
    omega
  · intro hi
    exact ⟨(i + n).toNat, List.mem_range.mpr (by omega), by omega⟩

theorem nodup_span (n : Int) : (span n).Nodup :=
  List.nodup_range.map fun k l hkl => by omega

theorem mem_inner_spans {d t : Nat} {i j : Int} : (i, j) ∈ inner_spans d t ↔ j.natAbs = t ∧ i.natAbs ≤ d := by
  rw [inner_spans, mem_flatMap]
  constructor
  · rintro ⟨k, hk, hmem⟩
    have hk := mem_span.mp hk
    obtain heq | hmem := List.mem_cons.mp hmem
    · obtain ⟨rfl, rfl⟩ := Prod.mk.inj heq
      exact ⟨by omega, hk⟩
    · split_ifs at hmem with hzero
      · obtain ⟨rfl, rfl⟩ := Prod.mk.inj (List.mem_singleton.mp hmem)
        exact ⟨by omega, hk⟩
      · cases hmem
  · rintro ⟨hj, hi⟩
    refine ⟨i, mem_span.mpr hi, List.mem_cons.mpr ?_⟩
    by_cases hsign : j = t
    · exact Or.inl (by rw [hsign])
    · refine Or.inr ?_
      rw [if_pos (by omega), mem_singleton, show j = -(t : Int) by omega]

theorem mem_outer_spans {d t : Nat} {i j : Int} : (i, j) ∈ outer_spans d t ↔ j.natAbs = d ∧ d ≠ t ∧ i.natAbs ≤ t := by
  rw [outer_spans, mem_flatMap]
  constructor
  · rintro ⟨k, hk, hmem⟩
    have hk := mem_span.mp hk
    split_ifs at hmem with hne
    · obtain heq | hmem := List.mem_cons.mp hmem
      · obtain ⟨rfl, rfl⟩ := Prod.mk.inj heq
        exact ⟨by omega, by omega, hk⟩
      · obtain ⟨rfl, rfl⟩ := Prod.mk.inj (List.mem_singleton.mp hmem)
        exact ⟨by omega, by omega, hk⟩
    · cases hmem
  · rintro ⟨hj, hne, hi⟩
    refine ⟨i, mem_span.mpr hi, ?_⟩
    rw [if_pos (by omega)]
    by_cases hsign : j = d
    · rw [hsign]
      exact mem_cons_self
    · rw [show j = -(d : Int) by omega]
      exact mem_cons_of_mem _ mem_cons_self

/-- A pixel of a turn. -/
def InTurn (t d : Nat) (p : Int × Int) : Prop :=
  p.2.natAbs = t ∧ p.1.natAbs ≤ d ∨ p.2.natAbs = d ∧ d ≠ t ∧ p.1.natAbs ≤ t

theorem mem_circle_spans {d t : Nat} {p : Int × Int} : p ∈ circle_spans d t ↔ InTurn t d p := by
  rw [circle_spans, mem_append]
  exact or_congr mem_inner_spans mem_outer_spans

theorem nodup_columns {n : Int} {f : Int → List (Int × Int)} (hf : ∀ i, (f i).Nodup)
    (hcolumn : ∀ i, ∀ p ∈ f i, p.1 = i) :
    ((span n).flatMap f).Nodup := by
  refine List.nodup_flatMap.mpr ⟨fun i _ => hf i, (nodup_span n).imp fun {i k} hne p hp hp' => hne ?_⟩
  rw [← hcolumn i p hp, ← hcolumn k p hp']

theorem nodup_circle_spans {d t : Nat} (hle : t ≤ d) : (circle_spans d t).Nodup := by
  refine nodup_append'.mpr ⟨nodup_columns (fun i => ?_) (fun i p hp => ?_),
    nodup_columns (fun i => ?_) (fun i p hp => ?_), ?_⟩
  · split_ifs with hzero
    · refine List.nodup_cons.mpr ⟨fun hmem => ?_, nodup_singleton _⟩
      have hsame := (Prod.mk.inj (List.mem_singleton.mp hmem)).2
      omega
    · exact nodup_singleton _
  · obtain rfl | hp := List.mem_cons.mp hp
    · rfl
    · split_ifs at hp
      · rw [List.mem_singleton.mp hp]
      · cases hp
  · split_ifs with hne
    · refine List.nodup_cons.mpr ⟨fun hmem => ?_, nodup_singleton _⟩
      have hsame := (Prod.mk.inj (List.mem_singleton.mp hmem)).2
      omega
    · exact nodup_nil
  · split_ifs at hp
    · obtain rfl | hp := List.mem_cons.mp hp
      · rfl
      · rw [List.mem_singleton.mp hp]
    · cases hp
  · rintro p hinner houter
    have hin := mem_inner_spans.mp hinner
    have hout := mem_outer_spans.mp houter
    omega

/-! ## Pixels of several turns -/

variable {r t t' d d' : Nat} {p : Int × Int}

/-- A pixel of an outer row, of a turn after which the outer columns stand still. -/
def Twice (r : Nat) (p : Int × Int) : Prop :=
  ∃ t, p.1.natAbs < t ∧ (t + 1) ^ 2 + p.2.natAbs ^ 2 ≤ r ^ 2 + 1 ∧ r ^ 2 + 1 < t ^ 2 + (p.2.natAbs + 1) ^ 2

theorem twice_of_turns (hlt : t < t') (h : Head r t d) (h' : Head r t' d') (hp : InTurn t d p) (hp' : InTurn t' d' p) :
    Twice r p := by
  have hwide := h.wide
  have hwide' := h'.wide
  have hle : d' ≤ d := by
    have hbefore := (h'.before hlt.le).2
    rwa [← h.eq_extent] at hbefore
  have hmost := h.most
  have hleast' := h'.least
  obtain ⟨hrow, hcol⟩ | ⟨hrow, hne, hcol⟩ := hp
  · obtain ⟨hrow', hcol'⟩ | ⟨hrow', hne', hcol'⟩ := hp'
    · omega
    · omega
  · obtain ⟨hrow', hcol'⟩ | ⟨hrow', hne', hcol'⟩ := hp'
    · -- the last turn would be the one of the diagonal
      obtain rfl : d' = d := by omega
      obtain rfl : t' = d' := by omega
      have hpow : (t + 1) ^ 2 ≤ t' ^ 2 := Nat.pow_le_pow_left hlt 2
      omega
    · obtain rfl : d' = d := by omega
      have hpow : (t + 1 + 1) ^ 2 ≤ (t' + 1) ^ 2 := Nat.pow_le_pow_left (by omega) 2
      refine ⟨t + 1, by omega, ?_, ?_⟩
      · rw [hrow]
        omega
      · rwa [hrow]

theorem Twice.turns (h : Twice r p) :
    ∃ t, Head r t p.2.natAbs ∧ InTurn t p.2.natAbs p ∧ Head r (t + 1) p.2.natAbs ∧ InTurn (t + 1) p.2.natAbs p := by
  obtain ⟨s, hcol, hleast, hmost⟩ := h
  obtain ⟨t, rfl⟩ := Nat.exists_eq_succ_of_ne_zero (by omega : s ≠ 0)
  rw [Nat.succ_eq_add_one] at *
  have hwide : t + 1 < p.2.natAbs := by
    by_contra hge
    have hpow : (p.2.natAbs + 1) ^ 2 ≤ (t + 1 + 1) ^ 2 := Nat.pow_le_pow_left (by omega) 2
    have hpow' : p.2.natAbs ^ 2 ≤ (t + 1) ^ 2 := Nat.pow_le_pow_left (by omega) 2
    nlinarith
  have hpow : (t + 1) ^ 2 ≤ (t + 1 + 1) ^ 2 := Nat.pow_le_pow_left (by omega) 2
  exact ⟨t, ⟨by omega, by omega, hmost⟩, Or.inr ⟨rfl, by omega, by omega⟩, ⟨by omega, hleast, by omega⟩,
    Or.inr ⟨rfl, by omega, by omega⟩⟩

theorem not_twice_of_small (hr : r ≤ 4) (p : Int × Int) : ¬ Twice r p := by
  rintro ⟨t, hcol, hleast, hmost⟩
  generalize p.2.natAbs = d at *
  have ht : t ≤ 3 := by nlinarith
  have hd : d ≤ 4 := by nlinarith
  interval_cases t <;> interval_cases d <;> first | omega | (interval_cases r <;> omega)

/-! ## Counting -/

section
variable {α ι : Type} [BEq α] [LawfulBEq α]

theorem count_flatMap_eq {l : List ι} {f : ι → List α} (h : ∀ t ∈ l, (f t).Nodup) (a : α) :
    (l.flatMap f).count a = l.countP fun t => a ∈ f t := by
  induction l with
  | nil => rfl
  | cons t l ih =>
    rw [flatMap_cons, count_append, ih fun s hs => h s (mem_cons_of_mem t hs), countP_cons,
      (h t mem_cons_self).count, Nat.add_comm]
    simp only [decide_eq_true_eq]

theorem countP_eq_one_iff {l : List ι} (hl : l.Nodup) {P : ι → Bool} {t : ι} (ht : t ∈ l) (hP : P t = true) :
    l.countP P = 1 ↔ ∀ s ∈ l, P s = true → s = t := by
  have hmem : ∀ s, s ∈ l.filter P ↔ s ∈ l ∧ P s = true := fun s => mem_filter
  have hnodup := hl.filter P
  have htf := (hmem t).mpr ⟨ht, hP⟩
  rw [countP_eq_length_filter]
  constructor
  · intro hone s hs hPs
    obtain ⟨x, hx⟩ := List.length_eq_one_iff.mp hone
    have hsf := (hmem s).mpr ⟨hs, hPs⟩
    rw [hx, mem_singleton] at htf hsf
    rw [hsf, htf]
  · intro hall
    match hfilter : l.filter P with
    | [] =>
      rw [hfilter] at htf
      cases htf
    | [x] => rfl
    | x :: y :: rest =>
      rw [hfilter] at hmem hnodup
      have hx := (hmem x).mp mem_cons_self
      have hy := (hmem y).mp (mem_cons_of_mem x mem_cons_self)
      have hxy : x = y := (hall x hx.1 hx.2).trans (hall y hy.1 hy.2).symm
      rw [hxy] at hnodup
      exact absurd mem_cons_self (List.nodup_cons.mp hnodup).1

end

/-- The turns of a disc: all that there are. -/
structure Turns (r m : Nat) : Prop where
  head : ∀ t < m, Head r t (extent r t)
  last : ∀ t d, Head r t d → t < m

theorem turns_of_spec {r m : Nat} (hheads : ∀ s, 0 ≤ s → s < 0 + m → Head r s (extent r s))
    (hend : ∀ e, ¬ Head r (0 + m) e) :
    Turns r m := by
  rw [Nat.zero_add] at hheads hend
  refine ⟨fun t ht => hheads t (Nat.zero_le t) ht, fun t d h => ?_⟩
  by_contra hge
  exact hend _ (h.before (Nat.not_lt.mp hge)).1

section
variable {m : Nat} (h : Turns r m)
include h

theorem Turns.mem_iff : p ∈ turns r 0 m ↔ ∃ t d, Head r t d ∧ InTurn t d p := by
  rw [turns, ← range_eq_range', mem_flatMap]
  constructor
  · rintro ⟨t, ht, hp⟩
    exact ⟨t, _, h.head t (List.mem_range.mp ht), mem_circle_spans.mp hp⟩
  · rintro ⟨t, d, ht, hp⟩
    refine ⟨t, List.mem_range.mpr (h.last t d ht), mem_circle_spans.mpr ?_⟩
    rwa [← ht.eq_extent]

theorem Turns.count_eq_one_iff (hp : p ∈ turns r 0 m) : (turns r 0 m).count p = 1 ↔ ¬ Twice r p := by
  rw [turns, ← range_eq_range'] at hp ⊢
  obtain ⟨t, ht, hpt⟩ := List.mem_flatMap.mp hp
  rw [count_flatMap_eq (fun s hs => nodup_circle_spans (h.head s (List.mem_range.mp hs)).wide),
    countP_eq_one_iff (P := fun t => decide (p ∈ circle_spans (extent r t) t)) nodup_range ht (decide_eq_true hpt)]
  constructor
  · intro hall htwice
    obtain ⟨s, hs, hps, hs', hps'⟩ := htwice.turns
    have hin := mem_circle_spans.mpr hps
    have hin' := mem_circle_spans.mpr hps'
    rw [hs.eq_extent] at hin
    rw [hs'.eq_extent] at hin'
    have hst := hall s (List.mem_range.mpr (h.last s _ hs)) (decide_eq_true hin)
    have hst' := hall (s + 1) (List.mem_range.mpr (h.last (s + 1) _ hs')) (decide_eq_true hin')
    omega
  · intro htwice s hs hps
    have hps := mem_circle_spans.mp (of_decide_eq_true hps)
    have hpt := mem_circle_spans.mp hpt
    have hhead := h.head s (List.mem_range.mp hs)
    have hhead' := h.head t (List.mem_range.mp ht)
    obtain hlt | heq | hgt := Nat.lt_trichotomy s t
    · exact absurd (twice_of_turns hlt hhead hhead' hps hpt) htwice
    · exact heq
    · exact absurd (twice_of_turns hgt hhead' hhead hpt hps) htwice

theorem Turns.mem_of_twice (htwice : Twice r p) : p ∈ turns r 0 m := by
  obtain ⟨t, ht, hp, -, -⟩ := htwice.turns
  exact h.mem_iff.mpr ⟨t, _, ht, hp⟩

theorem Turns.bounds (hp : p ∈ turns r 0 m) : p.1.natAbs ≤ r ∧ p.2.natAbs ≤ r := by
  obtain ⟨t, d, ht, hin⟩ := h.mem_iff.mp hp
  have hwide := ht.wide
  have hradius := ht.le_radius
  obtain ⟨hrow, hcol⟩ | ⟨hrow, -, hcol⟩ := hin
  · exact ⟨by omega, by omega⟩
  · exact ⟨by omega, by omega⟩

end

/-! ## What is left in the buffer -/

/-- A row of the screen is a row of the back buffer, and its words are counted in 32 bits. -/
structure Flat (fb : Fb) : Prop where
  pitch : pitch_pixels fb = fb.width.toNat
  words : fb.width.toNat * fb.height.toNat ≤ 2 ^ 32

theorem Flat.pixelMet {fb : Fb} (h : Flat fb) (x y : Int) (color : UInt32) : PixelMet fb x y color := by
  by_cases hscreen : (0 ≤ x ∧ x < fb.width.toNat) ∧ 0 ≤ y ∧ y < fb.height.toNat
  · refine Or.inr (Or.inr (Or.inr (Or.inr ⟨h.pitch, ?_⟩)))
    have hrows : (y + 1) * (fb.width.toNat : Int) ≤ fb.height.toNat * fb.width.toNat :=
      Int.mul_le_mul_of_nonneg_right (by omega) (by omega)
    have hwords : (fb.width.toNat : Int) * fb.height.toNat ≤ 2 ^ 32 := by exact_mod_cast h.words
    rw [Int.add_mul, Int.one_mul, Int.mul_comm (fb.height.toNat : Int)] at hrows
    omega
  · exact Or.inr (Or.inr (Or.inl hscreen))

/-- Each pixel of the screen is blended as often as it is drawn. -/
theorem draw_around_words {fb : Fb} (hpitch : 4 * fb.width.toNat ≤ fb.pitch.toNat) (hflat : Flat fb) (x y : Int)
    (color : UInt32)
    (ps : List (Int × Int)) (col row : Nat) (hcol : col < fb.width.toNat) (hrow : row < fb.height.toNat) :
    (draw_around fb x y color ps).backbuffer (row * fb.width.toNat + col) =
      (alpha_blend · color)^[(ps.map (place x y)).count ((col : Int), (row : Int))]
          (fb.backbuffer (row * fb.width.toNat + col)) := by
  induction ps generalizing fb with
  | nil => rfl
  | cons p ps ih =>
    have hdraws := (sys_fb_pixel_draws_iff (isInt_int (x + p.1)) (isInt_int (y + p.2)) hpitch color).mpr
      (hflat.pixelMet _ _ color) fb.backbuffer
    change Draws fb (sys_fb_pixel fb (int (x + p.1)) (int (y + p.2)) color) _ _ at hdraws
    obtain ⟨hwidth, hheight, hsamepitch⟩ := hdraws.geometry
    have hpixels := hflat.pitch
    have hflat' : Flat (sys_fb_pixel fb (int (x + p.1)) (int (y + p.2)) color) := by
      refine ⟨?_, ?_⟩
      · rw [pitch_pixels, hsamepitch, hwidth]
        exact hpixels
      · rw [hwidth, hheight]
        exact hflat.words
    have hrest := ih (by rw [hwidth, hsamepitch]; exact hpitch) hflat' (by rwa [hwidth]) (by rwa [hheight])
    rw [hwidth] at hrest
    change (draw_around (sys_fb_pixel fb (int (x + p.1)) (int (y + p.2)) color) x y color ps).backbuffer _ = _
    rw [hrest, map_cons, count_cons]
    by_cases hhere : place x y p = ((col : Int), (row : Int))
    · obtain ⟨hx, hy⟩ := Prod.mk.inj hhere
      have hdrawn := hdraws.drawn col row hcol hrow ⟨hx.symm, hy.symm⟩
      rw [hpixels] at hdrawn
      rw [if_pos (beq_iff_eq.mpr hhere), Function.iterate_succ_apply, hdrawn]
    · have hothers := hdraws.others (row * fb.width.toNat + col) (fun col' row' hcol' hrow' hin heq => hhere ?_)
      · rw [if_neg (fun h => hhere (beq_iff_eq.mp h)), Nat.add_zero, hothers]
      · rw [hpixels] at heq
        have hrows : row' = row := by
          have hdiv : (row * fb.width.toNat + col) / fb.width.toNat =
              (row' * fb.width.toNat + col') / fb.width.toNat := by
            rw [heq]
          rw [Nat.mul_comm row, Nat.mul_comm row', Nat.mul_add_div (by omega), Nat.mul_add_div (by omega),
            Nat.div_eq_of_lt hcol, Nat.div_eq_of_lt hcol'] at hdiv
          omega
        have hcols : col' = col := by
          subst hrows
          omega
        rw [← hrows, ← hcols, place, hin.1, hin.2]

/-! ## Discs -/

/-- A pixel that is on the screen. -/
def OnScreen (fb : Fb) (q : Int × Int) : Prop := (0 ≤ q.1 ∧ q.1 < fb.width.toNat) ∧ 0 ≤ q.2 ∧ q.2 < fb.height.toNat

/-- The pixels of a disc are drawn, each one on the screen once; they lie on both sides of the axes alike. A word of the
buffer is blended once if its pixel is drawn, and not otherwise. -/
structure Uniform (fb : Fb) (x y : Int) (color : UInt32) (d : Disc) : Prop where
  ret : d.ret = 0
  drawn : d.fb = draw_around fb x y color d.pixels
  once : ∀ p ∈ d.pixels, OnScreen fb (place x y p) → (d.pixels.map (place x y)).count (place x y p) = 1
  mirrored : ∀ i j, (i, j) ∈ d.pixels → (-i, j) ∈ d.pixels ∧ (i, -j) ∈ d.pixels
  blended : fb.width.toNat * fb.height.toNat ≤ 2 ^ 32 → ∀ col row : Nat, col < fb.width.toNat → row < fb.height.toNat →
    d.fb.backbuffer (row * fb.width.toNat + col) =
      if ((col : Int), (row : Int)) ∈ d.pixels.map (place x y) then
        alpha_blend (fb.backbuffer (row * fb.width.toNat + col)) color
      else fb.backbuffer (row * fb.width.toNat + col)

theorem circle_loop_mono {x y : Int} {src : UInt32} {fuel n : Nat} {fb : Fb} {a : Arc} {d : Disc}
    (h : circle_loop x y src fuel fb a = some d) : circle_loop x y src (fuel + n) fb a = some d := by
  induction fuel generalizing fb a d with
  | zero => cases h
  | succ fuel ih =>
    rw [Nat.succ_add, circle_loop]
    rw [circle_loop] at h
    by_cases hstop : a.dx < a.dy
    · rwa [if_pos hstop] at h ⊢
    · rw [if_neg hstop] at h ⊢
      obtain ⟨e, he, rfl⟩ := Option.map_eq_some_iff.mp h
      rw [ih he]
      rfl

theorem sys_fb_circle_mono {fuel n : Nat} {fb : Fb} {cx cy radius : Int} {color : UInt32} {d : Disc}
    (h : sys_fb_circle fuel fb cx cy radius color = some d) : sys_fb_circle
    (fuel + n) fb cx cy radius color = some d := by
  rw [sys_fb_circle] at h ⊢
  split_ifs at h ⊢
  · exact h
  · exact h
  · exact circle_loop_mono h

theorem count_place {r : Nat} (hbound : r < 2 ^ 14) {x y : Int} {ps : List (Int × Int)}
    (hps : ∀ p ∈ ps, p.1.natAbs ≤ r ∧ p.2.natAbs ≤ r) {p : Int × Int} (hp : p ∈ ps) :
    (ps.map (place x y)).count (place x y p) = ps.count p := by
  rw [count_eq_countP, countP_map, count_eq_countP]
  refine countP_congr fun q hq => ?_
  obtain ⟨hp1, hp2⟩ := hps p hp
  obtain ⟨hq1, hq2⟩ := hps q hq
  rw [Function.comp_apply, beq_iff_eq, beq_iff_eq]
  constructor
  · intro heq
    obtain ⟨hx, hy⟩ := Prod.mk.inj heq
    rw [int, int] at hx hy
    exact Prod.ext (by omega) (by omega)
  · rintro rfl
    rfl

section
variable {r : Nat} (hbound : r < 2 ^ 14)
include hbound

/-- The pixels of a disc do not depend on the colour, nor on the centre. -/
theorem sys_fb_circle_turns : ∃ pixels : List (Int × Int),
    (∀ p ∈ pixels, (p.1.natAbs ≤ r ∧ p.2.natAbs ≤ r) ∧ (pixels.count p = 1 ↔ ¬ Twice r p) ∧
      (-p.1, p.2) ∈ pixels ∧ (p.1, -p.2) ∈ pixels) ∧
    (∀ p, Twice r p → p ∈ pixels) ∧
    ∀ fb cx cy color, sys_fb_circle (r + 2) fb cx cy r color =
      some ⟨0, draw_around fb (int cx) (int cy) color pixels, pixels⟩ := by
  have hradius : int (r : Int) = r := int_eq ⟨by omega, by omega⟩
  by_cases hzero : r = 0
  · subst hzero
    refine ⟨[(0, 0)], fun p hp => ?_, fun p hp => absurd hp (not_twice_of_small (by decide) p),
      fun fb cx cy color => ?_⟩
    · obtain rfl := List.mem_singleton.mp hp
      exact ⟨⟨by decide, by decide⟩, iff_of_true (by decide) (not_twice_of_small (by decide) _), by decide, by decide⟩
    · rw [sys_fb_circle]
      rw [hradius, if_neg (by omega), if_pos (by omega)]
  · obtain ⟨m, hrun, hheads, hend⟩ := circle_loop_spec (n := r + 1) (by omega) hbound (Head.start r) (by omega)
    have hturns := turns_of_spec hheads hend
    refine ⟨turns r 0 m, fun p hp => ⟨hturns.bounds hp, hturns.count_eq_one_iff hp, ?_, ?_⟩, fun p hp =>
      hturns.mem_of_twice hp,
      fun fb cx cy color => ?_⟩
    · obtain ⟨t, d, ht, hin⟩ := hturns.mem_iff.mp hp
      refine hturns.mem_iff.mpr ⟨t, d, ht, ?_⟩
      rw [InTurn, Int.natAbs_neg]
      exact hin
    · obtain ⟨t, d, ht, hin⟩ := hturns.mem_iff.mp hp
      refine hturns.mem_iff.mpr ⟨t, d, ht, ?_⟩
      rw [InTurn, Int.natAbs_neg]
      exact hin
    · have hstart : (⟨(r : Int), 0, 0⟩ : Arc) = arc r 0 r := by
        rw [arc, Arc.mk.injEq]
        exact ⟨rfl, rfl, by ring⟩
      rw [sys_fb_circle]
      rw [hradius, if_neg (by omega), if_neg (by omega), hstart, hrun]

theorem not_uniform {fb : Fb} {cx cy : Int} {color : UInt32} {fuel : Nat} {d : Disc} {p : Int × Int} (hp : Twice r p)
    (hscreen : OnScreen fb (place (int cx) (int cy) p)) (hrun : sys_fb_circle fuel fb cx cy r color = some d) :
    ¬ Uniform fb (int cx) (int cy) color d := by
  intro huniform
  obtain ⟨pixels, hpixels, htwice, hall⟩ := sys_fb_circle_turns hbound
  have hmore := sys_fb_circle_mono (n := r + 2) hrun
  have hsame := sys_fb_circle_mono (n := fuel) (hall fb cx cy color)
  rw [Nat.add_comm] at hmore
  obtain rfl := Option.some.inj (hmore.symm.trans hsame)
  have hmem := htwice p hp
  have hone := huniform.once p hmem hscreen
  rw [count_place hbound (fun q hq => (hpixels q hq).1) hmem] at hone
  exact (hpixels p hmem).2.1.mp hone hp

end

/-- A disc is drawn evenly, with the pixels of an opaque one, if and only if no pixel on the screen lies in an outer row
after which the outer columns stand still. -/
theorem sys_fb_circle_uniform_iff (fb : Fb) (cx cy radius : Int) (color : UInt32)
    (hradius : 0 ≤ radius ∧ radius < 2 ^ 14)
    (hpitch : fb.pitch.toNat = 4 * fb.width.toNat) :
    (∃ fuel d, sys_fb_circle fuel fb cx cy radius color = some d ∧ Uniform fb (int cx) (int cy) color d ∧
        ∀ opaque_color, alpha opaque_color = 255 →
          (sys_fb_circle fuel fb cx cy radius opaque_color).map Disc.pixels = some d.pixels) ↔
      ∀ p, Twice radius.toNat p → ¬ OnScreen fb (place (int cx) (int cy) p) := by
  obtain ⟨r, rfl⟩ := Int.eq_ofNat_of_zero_le hradius.1
  rw [Int.toNat_natCast]
  have hbound : r < 2 ^ 14 := by omega
  constructor
  · rintro ⟨fuel, d, hrun, huniform, -⟩ p hp hscreen
    exact not_uniform hbound hp hscreen hrun huniform
  · intro hclear
    obtain ⟨pixels, hpixels, -, hall⟩ := sys_fb_circle_turns hbound
    have hcount : ∀ p ∈ pixels, OnScreen fb (place (int cx) (int cy) p) →
        (pixels.map (place (int cx) (int cy))).count (place (int cx) (int cy) p) = 1 := by
      intro p hp hscreen
      rw [count_place hbound (fun q hq => (hpixels q hq).1) hp]
      exact (hpixels p hp).2.1.mpr fun htwice => hclear p htwice hscreen
    refine ⟨r + 2, _, hall fb cx cy color, ⟨rfl, rfl, hcount, fun i j hij => (hpixels (i, j) hij).2.2, ?_⟩,
      fun opaque_color _ => ?_⟩
    · intro hwords col row hcol hrow
      have hflat : Flat fb := ⟨by rw [pitch_pixels, hpitch]; omega, hwords⟩
      dsimp only
      rw [draw_around_words (by omega) hflat _ _ _ _ _ _ hcol hrow]
      by_cases hdrawn : ((col : Int), (row : Int)) ∈ pixels.map (place (int cx) (int cy))
      · obtain ⟨p, hp, heq⟩ := List.mem_map.mp hdrawn
        have hone := hcount p hp (by rw [heq]; exact ⟨⟨by omega, by omega⟩, by omega, by omega⟩)
        rw [heq] at hone
        rw [if_pos hdrawn, hone]
        rfl
      · rw [if_neg hdrawn, count_eq_zero_of_not_mem hdrawn]
        rfl
    · rw [hall fb cx cy opaque_color]
      rfl

/-- A screen of 16 by 16 pixels. -/
def small_screen : Fb := ⟨16, 16, 64, fun _ => 0⟩

theorem small_disc_uniform :
    ∃ fuel d, sys_fb_circle fuel small_screen 2 3 4 0x80ffffff = some d ∧
      Uniform small_screen (int 2) (int 3) 0x80ffffff d ∧
      ∀ opaque_color, alpha opaque_color = 255 →
        (sys_fb_circle fuel small_screen 2 3 4 opaque_color).map Disc.pixels = some d.pixels :=
  (sys_fb_circle_uniform_iff small_screen 2 3 4 0x80ffffff (by decide) (by decide)).mpr fun p hp =>
    absurd hp (not_twice_of_small (by decide) p)

/-- In a disc of radius 5 a pixel of the fourth row is drawn in two turns. -/
theorem disc_drawn_twice :
    ¬ ∃ fuel d, sys_fb_circle fuel small_screen 8 8 5 0x80ffffff = some d ∧
        Uniform small_screen (int 8) (int 8) 0x80ffffff d := by
  rintro ⟨fuel, d, hrun, huniform⟩
  exact not_uniform (r := 5) (p := (0, 4)) (by decide) ⟨2, by decide, by decide, by decide⟩
    ⟨⟨by decide, by decide⟩, by decide, by decide⟩ hrun huniform

end graceos.video
