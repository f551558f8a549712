import Mathlib.Data.Nat.Digits.Defs

/-!
# Numbers written in a base

A number is read from its digits, the highest first. A reader whose word holds the numbers below `m` may stop when a
digit makes the word smaller; `Drops` says when that happens, by the numbers that are written.
-/

namespace numeral

/-- The number `v` with more digits behind it. -/
def read (base v : Nat) (digits : List Nat) : Nat := digits.foldl (fun v d => v * base + d) v

variable {base m v : Nat} {digits : List Nat}

@[simp] theorem read_nil : read base v [] = v := rfl

@[simp] theorem read_cons (d : Nat) : read base v (d :: digits) = read base (v * base + d) digits := rfl

theorem read_append (more : List Nat) : read base v (digits ++ more) = read base (read base v digits) more :=
  List.foldl_append

theorem read_digits (base n : Nat) : read base 0 (Nat.digits base n).reverse = n := by
  have hfold : read base 0 (Nat.digits base n).reverse = (Nat.digits base n).foldr (fun d v => v * base + d) 0 :=
    List.foldl_reverse
  have hfun : (fun (d v : Nat) => v * base + d) = fun d v => d + base * v := by
    funext d v
    rw [Nat.mul_comm, Nat.add_comm]
  rw [hfold, hfun]
  exact (Nat.ofDigits_eq_foldr base (Nat.digits base n)).symm.trans (Nat.ofDigits_digits base n)

theorem le_read (hbase : 0 < base) : v ≤ read base v digits := by
  induction digits generalizing v with
  | nil => exact le_rfl
  | cons d digits ih =>
    have hstep : v ≤ v * base + d := (Nat.le_mul_of_pos_right v hbase).trans (Nat.le_add_right _ d)
    exact hstep.trans ih

theorem step_mod (d : Nat) : (v % m * base + d) % m = (v * base + d) % m := by
  rw [Nat.add_mod, Nat.mod_mul_mod, ← Nat.add_mod]

/-! ## A reader with a word -/

/-- Reading in a word, until it gets smaller. -/
def read_word (base m v : Nat) : List Nat → Option Nat
  | [] => some v
  | d :: digits =>
    let next := (v * base + d) % m
    if next < v then none else read_word base m next digits

/-- Some digit makes the number smaller, modulo `m`. -/
def Drops (base m v : Nat) (digits : List Nat) : Prop :=
  ∃ i < digits.length, read base v (digits.take (i + 1)) % m < read base v (digits.take i) % m

instance : Decidable (Drops base m v digits) :=
  inferInstanceAs (Decidable (∃ i < digits.length, _))

theorem drops_nil : ¬ Drops base m v [] := fun ⟨_, hi, _⟩ => absurd hi (Nat.not_lt_zero _)

theorem drops_cons (d : Nat) :
    Drops base m v (d :: digits) ↔ (v * base + d) % m < v % m ∨ Drops base m (v * base + d) digits := by
  constructor
  · rintro ⟨i, hi, hlt⟩
    cases i with
    | zero => exact .inl hlt
    | succ i => exact .inr ⟨i, Nat.lt_of_succ_lt_succ hi, hlt⟩
  · rintro (hlt | ⟨i, hi, hlt⟩)
    · exact ⟨0, Nat.succ_pos _, hlt⟩
    · exact ⟨i + 1, Nat.succ_lt_succ hi, hlt⟩

/-- What a word reads, by the number that is written. -/
theorem read_word_eq :
    read_word base m (v % m) digits = if Drops base m v digits then none else some (read base v digits % m) := by
  induction digits generalizing v with
  | nil => rw [if_neg drops_nil]; rfl
  | cons d digits ih =>
    rw [read_word, read_cons]
    rw [step_mod]
    by_cases hlt : (v * base + d) % m < v % m
    · rw [if_pos hlt, if_pos ((drops_cons d).mpr (.inl hlt))]
    · have hiff : Drops base m v (d :: digits) ↔ Drops base m (v * base + d) digits := by
        rw [drops_cons, or_iff_right hlt]
      rw [if_neg hlt, ih]
      simp only [hiff]

/-- A number that fits is read without a drop. -/
theorem not_drops_of_fits (hbase : 0 < base) (hfits : read base v digits < m) : ¬ Drops base m v digits := by
  rintro ⟨i, -, hlt⟩
  have htail : read base v digits = read base (read base v (digits.take (i + 1))) (digits.drop (i + 1)) := by
    rw [← read_append, List.take_append_drop]
  have hnext : read base v (digits.take (i + 1)) < m := by
    rw [htail] at hfits
    exact lt_of_le_of_lt (le_read hbase) hfits
  have hle : read base v (digits.take i) ≤ read base v (digits.take (i + 1)) := by
    have htake : digits.take i = (digits.take (i + 1)).take i := by rw [List.take_take, min_eq_left (Nat.le_succ i)]
    have hsplit : read base v (digits.take (i + 1)) =
        read base (read base v (digits.take i)) ((digits.take (i + 1)).drop i) := by
      rw [htake, ← read_append, List.take_append_drop]
    rw [hsplit]
    exact le_read hbase
  rw [Nat.mod_eq_of_lt hnext, Nat.mod_eq_of_lt (lt_of_le_of_lt hle hnext)] at hlt
  exact absurd hle (Nat.not_le.mpr hlt)

/-- What is read is the number that is written, or it is refused, exactly if the number fits or some digit drops. -/
theorem read_word_exact_iff (hbase : 0 < base) (hm : 0 < m) (hv : v < m) :
    (∀ w, read_word base m v digits = some w → w = read base v digits) ↔
      read base v digits < m ∨ Drops base m v digits := by
  have hread := @read_word_eq base m v digits
  rw [Nat.mod_eq_of_lt hv] at hread
  rw [hread]
  constructor
  · intro h
    by_cases hdrops : Drops base m v digits
    · exact .inr hdrops
    · have heq := h _ (if_neg hdrops)
      rw [← heq]
      exact .inl (Nat.mod_lt _ hm)
  · rintro (hfits | hdrops) w hw
    · rw [if_neg (not_drops_of_fits hbase hfits)] at hw
      rw [← Option.some.inj hw, Nat.mod_eq_of_lt hfits]
    · rw [if_pos hdrops] at hw
      cases hw

end numeral
