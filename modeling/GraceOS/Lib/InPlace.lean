import Mathlib.Data.List.Nodup
import Mathlib.Data.List.Perm.Basic
import Mathlib.Data.List.Range
import Mathlib.Logic.Equiv.Basic
import Mathlib.Tactic.Common

/-!
# Sorting in place

Sequences whose elements trade places within a range. A range is split at a pivot: what lies in front of some index is
before the pivot, what lies from there on is not. When the pivot is put at that index, the two sides may be ordered
each on their own.
-/

namespace inplace

open Equiv Function

variable {α : Type*} {a b c : Nat → α} {lo hi i j : Nat}

/-- `b` has the elements of `a`, in another order between `lo` and `hi`. -/
def Rearranged (a b : Nat → α) (lo hi : Nat) : Prop :=
  ∃ σ : Perm Nat, b = a ∘ σ ∧ ∀ k, (k < lo ∨ hi ≤ k) → σ k = k

namespace Rearranged

theorem refl (a : Nat → α) (lo hi : Nat) : Rearranged a a lo hi := ⟨Equiv.refl Nat, rfl, fun _ _ => rfl⟩

theorem trans (h : Rearranged a b lo hi) (h' : Rearranged b c lo hi) : Rearranged a c lo hi := by
  obtain ⟨σ, rfl, hσ⟩ := h
  obtain ⟨τ, rfl, hτ⟩ := h'
  refine ⟨τ.trans σ, rfl, fun k hk => ?_⟩
  rw [Equiv.trans_apply, hτ k hk, hσ k hk]

theorem mono (h : Rearranged a b lo hi) {lo' hi' : Nat} (hlo : lo' ≤ lo) (hhi : hi ≤ hi') :
    Rearranged a b lo' hi' := by
  obtain ⟨σ, hb, hσ⟩ := h
  exact ⟨σ, hb, fun k hk => hσ k (by omega)⟩

theorem swap (a : Nat → α) (hi' : lo ≤ i ∧ i < hi) (hj : lo ≤ j ∧ j < hi) :
    Rearranged a (a ∘ Equiv.swap i j) lo hi :=
  ⟨Equiv.swap i j, rfl, fun k hk => Equiv.swap_apply_of_ne_of_ne (by omega) (by omega)⟩

theorem outside (h : Rearranged a b lo hi) {k : Nat} (hk : k < lo ∨ hi ≤ k) : b k = a k := by
  obtain ⟨σ, rfl, hσ⟩ := h
  rw [comp_apply, hσ k hk]

/-- An element of the range comes from the range. -/
theorem inside (h : Rearranged a b lo hi) {k : Nat} (hk : lo ≤ k ∧ k < hi) : ∃ l, (lo ≤ l ∧ l < hi) ∧ b k = a l := by
  obtain ⟨σ, rfl, hσ⟩ := h
  refine ⟨σ k, ?_, rfl⟩
  by_contra hout
  have hfix : σ k = k := σ.injective (hσ (σ k) (by omega))
  omega

/-- What is true of all elements of a range remains true of them. -/
theorem forall_inside (h : Rearranged a b lo hi) {P : α → Prop} (ha : ∀ k, lo ≤ k → k < hi → P (a k)) :
    ∀ k, lo ≤ k → k < hi → P (b k) := by
  intro k hlo hhi
  obtain ⟨l, hl, heq⟩ := h.inside ⟨hlo, hhi⟩
  rw [heq]
  exact ha l hl.1 hl.2

theorem perm {n : Nat} (h : Rearranged a b lo hi) (hn : hi ≤ n) :
    ((List.range n).map b).Perm ((List.range n).map a) := by
  obtain ⟨σ, rfl, hσ⟩ := h.mono (Nat.zero_le lo) hn
  have hmem : ∀ k, σ k < n ↔ k < n := by
    intro k
    constructor
    · intro hk
      by_contra hout
      rw [hσ k (by omega)] at hk
      exact hout hk
    · intro hk
      by_contra hout
      have hfix : σ k = k := σ.injective (hσ (σ k) (by omega))
      omega
  have hrange : ((List.range n).map σ).Perm (List.range n) := by
    refine (List.perm_ext_iff_of_nodup (List.nodup_range.map σ.injective) List.nodup_range).mpr fun k => ?_
    rw [List.mem_map, List.mem_range]
    constructor
    · rintro ⟨l, hl, rfl⟩
      exact (hmem l).mpr (List.mem_range.mp hl)
    · intro hk
      refine ⟨σ.symm k, List.mem_range.mpr ((hmem _).mp ?_), σ.apply_symm_apply k⟩
      rwa [σ.apply_symm_apply]
  have hmap := hrange.map a
  rwa [List.map_map] at hmap

end Rearranged

/-! ## Splitting at a pivot -/

/-- The elements from `lo` to `i` are before the pivot `p`, those from `i` to `j` are not. -/
structure Split (before : α → α → Prop) (p : α) (a : Nat → α) (lo i j : Nat) : Prop where
  less : ∀ k, lo ≤ k → k < i → before (a k) p
  rest : ∀ k, i ≤ k → k < j → ¬ before (a k) p

namespace Split

variable {before : α → α → Prop} {p : α}

theorem start (before : α → α → Prop) (p : α) (a : Nat → α) (lo : Nat) : Split before p a lo lo lo :=
  ⟨fun k h h' => absurd h' (by omega), fun k h h' => absurd h' (by omega)⟩

theorem skip (h : Split before p a lo i j) (hj : ¬ before (a j) p) : Split before p a lo i (j + 1) := by
  refine ⟨h.less, fun k hk hkj => ?_⟩
  obtain hlt | rfl := Nat.lt_succ_iff_lt_or_eq.mp hkj
  · exact h.rest k hk hlt
  · exact hj

/-- The next element is before the pivot: it trades places with the first one that is not. -/
theorem swap (h : Split before p a lo i j) (hi : lo ≤ i) (hij : i ≤ j) (hj : before (a j) p) :
    Split before p (a ∘ Equiv.swap i j) lo (i + 1) (j + 1) := by
  constructor
  · intro k hk hki
    obtain hlt | rfl := Nat.lt_succ_iff_lt_or_eq.mp hki
    · rw [comp_apply, Equiv.swap_apply_of_ne_of_ne (by omega) (by omega)]
      exact h.less k hk hlt
    · rw [comp_apply, Equiv.swap_apply_left]
      exact hj
  · intro k hk hkj
    obtain hlt | rfl := Nat.lt_succ_iff_lt_or_eq.mp hkj
    · rw [comp_apply, Equiv.swap_apply_of_ne_of_ne (by omega) (by omega)]
      exact h.rest k (by omega) hlt
    · rw [comp_apply, Equiv.swap_apply_right]
      exact h.rest i (le_refl i) (by omega)

/-- The pivot behind the range trades places with the first element that is not before it. -/
theorem place (h : Split before (a hi) a lo i hi) (hle : i ≤ hi) :
    (∀ k, lo ≤ k → k < i → before ((a ∘ Equiv.swap i hi) k) ((a ∘ Equiv.swap i hi) i)) ∧
      ∀ k, i < k → k < hi + 1 → ¬ before ((a ∘ Equiv.swap i hi) k) ((a ∘ Equiv.swap i hi) i) := by
  have hpivot : (a ∘ Equiv.swap i hi) i = a hi := by rw [comp_apply, Equiv.swap_apply_left]
  rw [hpivot]
  constructor
  · intro k hk hki
    rw [comp_apply, Equiv.swap_apply_of_ne_of_ne (by omega) (by omega)]
    exact h.less k hk hki
  · intro k hik hkhi
    obtain hlt | rfl := Nat.lt_succ_iff_lt_or_eq.mp hkhi
    · rw [comp_apply, Equiv.swap_apply_of_ne_of_ne (by omega) (by omega)]
      exact h.rest k (by omega) hlt
    · rw [comp_apply, Equiv.swap_apply_right]
      exact h.rest i (le_refl i) hik

end Split

/-! ## Order -/

/-- No element of the range is followed by a smaller one. -/
def Ordered (le : α → α → Prop) (a : Nat → α) (lo hi : Nat) : Prop :=
  ∀ k l, lo ≤ k → k < l → l < hi → le (a k) (a l)

variable {le : α → α → Prop}

theorem Ordered.of_short (le : α → α → Prop) (a : Nat → α) (h : hi ≤ lo + 1) : Ordered le a lo hi :=
  fun k l hk hkl hl => absurd hl (by omega)

/-- Two ordered sides of a pivot that lies between them. -/
theorem Ordered.join (hleft : Ordered le a lo i) (hright : Ordered le a (i + 1) hi)
    (hless : ∀ k, lo ≤ k → k < i → le (a k) (a i)) (hrest : ∀ k, i < k → k < hi → le (a i) (a k))
    (htrans : ∀ k l, lo ≤ k → k < i → i < l → l < hi → le (a k) (a i) → le (a i) (a l) → le (a k) (a l)) :
    Ordered le a lo hi := by
  intro k l hk hkl hl
  obtain hki | rfl | hik := Nat.lt_trichotomy k i
  · obtain hli | rfl | hil := Nat.lt_trichotomy l i
    · exact hleft k l hk hkl hli
    · exact hless k hk hki
    · exact htrans k l hk hki hil hl (hless k hk hki) (hrest l hil hl)
  · exact hrest l hkl hl
  · exact hright k l hik hkl hl

theorem Ordered.pairwise {n : Nat} (h : Ordered le a 0 n) : ((List.range n).map a).Pairwise le := by
  rw [List.pairwise_map]
  refine List.Pairwise.imp_of_mem (fun {k l} _ hl hkl => h k l (Nat.zero_le k) hkl (List.mem_range.mp hl)) ?_
  exact List.pairwise_lt_range

end inplace
