import GraceOS.Chivm.Value
import GraceOS.Lib.Numeral
import Mathlib.Algebra.Order.Ring.Int

/-!
# Integer literals

What `parse_int_lit` makes of a written number, and of the characters that `vm_print_int` writes. Both wrap at the ends
of `int`: the least value is printed without digits, and a literal beyond the range is read modulo `2 ^ 32`.
-/

namespace graceos.chivm

open word numeral List

/-- The value of a decimal digit. -/
def digit_value (c : UInt8) : Nat := (c - '0'.toUInt8).toNat

/-- The number that a sign and digits write. -/
def written (negative : Bool) (digits : List UInt8) : Int :=
  if negative then -(read 10 0 (digits.map digit_value) : Int) else read 10 0 (digits.map digit_value)

/-- A literal, with an optional `-`. -/
def literal (negative : Bool) (digits : List UInt8) : Text := (if negative then ['-'.toUInt8] else []) ++ digits

theorem digit_of_lt {d : Nat} (hd : d < 10) :
    is_dec ('0'.toUInt8 + UInt8.ofNat d) = true ∧ digit_value ('0'.toUInt8 + UInt8.ofNat d) = d := by
  revert d
  decide

theorem not_space_of_dec {c : UInt8} (h : is_dec c = true) : is_space c = false ∧ c ≠ '-'.toUInt8 := by
  revert c
  have hall : ∀ n < 256, is_dec (UInt8.ofNat n) = true →
      is_space (UInt8.ofNat n) = false ∧ UInt8.ofNat n ≠ '-'.toUInt8 := by
    decide +kernel
  intro c hc
  have hread := hall c.toNat c.toNat_lt
  rw [UInt8.ofNat_toNat] at hread
  exact hread hc

theorem accumulate (v : Nat) (digits : List UInt8) :
    digits.foldl (fun value c => value * 10 + Int32.ofNat (c - '0'.toUInt8).toNat) (Int32.ofNat v) =
      Int32.ofNat (read 10 v (digits.map digit_value)) := by
  induction digits generalizing v with
  | nil => rfl
  | cons c digits ih =>
    have hstep : Int32.ofNat v * 10 + Int32.ofNat (c - '0'.toUInt8).toNat = Int32.ofNat (v * 10 + digit_value c) := by
      rw [Int32.ofNat_add, Int32.ofNat_mul]
      rfl
    rw [foldl_cons, hstep, ih]
    rfl

section Literal

variable {negative : Bool} {digits rest : List UInt8}

/-- A literal is read to its end, modulo `2 ^ 32`. -/
theorem parse_int_lit_literal (hdec : ∀ c ∈ digits, is_dec c = true) (hne : digits ≠ [])
    (hrest : is_dec (peek rest 0) = false) :
    parse_int_lit (literal negative digits ++ rest) = some (Int32.ofInt (written negative digits), rest) := by
  obtain ⟨c, cs, rfl⟩ := exists_cons_of_ne_nil hne
  obtain ⟨hspace, hminus⟩ := not_space_of_dec (hdec c mem_cons_self)
  have hskip : skip_ws (literal negative (c :: cs) ++ rest) = literal negative (c :: cs) ++ rest := by
    cases negative with
    | false => exact dropWhile_cons_of_neg (by rw [hspace]; decide)
    | true => rfl
  have hsign : (if peek (literal negative (c :: cs) ++ rest) 0 = '-'.toUInt8 then (-1 : Int32) else 1) =
      if negative then -1 else 1 := by
    cases negative with
    | false => exact if_neg hminus
    | true => rfl
  have hbody : (if peek (literal negative (c :: cs) ++ rest) 0 = '-'.toUInt8
      then (literal negative (c :: cs) ++ rest).drop 1 else literal negative (c :: cs) ++ rest) = c :: cs ++ rest := by
    cases negative with
    | false => exact if_neg hminus
    | true => rfl
  have htake : (c :: cs ++ rest).takeWhile is_dec = c :: cs := by
    have hstop : rest.takeWhile is_dec = [] := by
      cases rest with
      | nil => rfl
      | cons r rest =>
        have hr : is_dec r = false := hrest
        exact takeWhile_cons_of_neg (by rw [hr]; decide)
    rw [takeWhile_append_of_pos hdec, hstop, append_nil]
  unfold parse_int_lit
  rw [hskip]
  dsimp only
  rw [hsign, hbody, htake, if_neg hne, drop_left]
  have hread := accumulate 0 (c :: cs)
  rw [show Int32.ofNat 0 = 0 from rfl] at hread
  rw [hread, ← Int32.ofInt_eq_ofNat]
  cases negative with
  | false =>
    rw [if_neg Bool.false_ne_true, Int32.one_mul]
    rfl
  | true =>
    rw [if_pos rfl, Int32.neg_mul, Int32.one_mul, ← Int32.ofInt_neg]
    rfl

theorem ofInt_exact (n : Int) : (Int32.ofInt n).toInt = n ↔ -2 ^ 31 ≤ n ∧ n < 2 ^ 31 := by
  rw [Int32.toInt_ofInt, Int.bmod_def, Int32.size]
  omega

end Literal

theorem int_digits_eq {fuel v : Nat} (hv : v < 10 ^ fuel) :
    int_digits fuel v = (Nat.digits 10 v).map fun d => '0'.toUInt8 + UInt8.ofNat d := by
  induction fuel generalizing v with
  | zero =>
    obtain rfl : v = 0 := by omega
    rfl
  | succ fuel ih =>
    rw [int_digits]
    by_cases h0 : v = 0
    · rw [if_pos h0, h0]
      rfl
    · have hrest : v / 10 < 10 ^ fuel := by
        rw [Nat.pow_succ] at hv
        omega
      rw [if_neg h0, ih hrest, Nat.digits_def' (by omega) (Nat.pos_of_ne_zero h0), map_cons]

/-- A printed number is the literal of its value, except for the least value. -/
theorem vm_print_int_literal {v : Int32} (hv : v ≠ 0) (hmin : v ≠ Int32.minValue) :
    ∃ digits, (∀ c ∈ digits, is_dec c = true) ∧ digits ≠ [] ∧ vm_print_int v = literal (decide (v < 0)) digits ∧
      written (decide (v < 0)) digits = v.toInt := by
  have hlo : -2 ^ 31 ≤ v.toInt := Int32.le_toInt v
  have hhi : v.toInt < 2 ^ 31 := Int32.toInt_lt v
  have hv0 : v.toInt ≠ 0 := fun h => hv (Int32.toInt_inj.mp h)
  have hmin0 : v.toInt ≠ -2 ^ 31 := fun h => hmin (Int32.toInt_inj.mp h)
  have hsize : (if v < 0 then -v else v).toInt.toNat = v.toInt.natAbs := by
    split
    · next hneg =>
      have hlt : v.toInt < 0 := Int32.lt_iff_toInt_lt.mp hneg
      rw [Int32.toInt_neg, Int.bmod_def]
      omega
    · next hpos =>
      have hge : ¬ v.toInt < 0 := fun h => hpos (Int32.lt_iff_toInt_lt.mpr h)
      omega
  have hdigits : int_digits 20 v.toInt.natAbs =
      (Nat.digits 10 v.toInt.natAbs).map fun d => '0'.toUInt8 + UInt8.ofNat d :=
    int_digits_eq (by omega)
  have hvalue : ((Nat.digits 10 v.toInt.natAbs).map fun d => '0'.toUInt8 + UInt8.ofNat d).reverse.map digit_value =
      (Nat.digits 10 v.toInt.natAbs).reverse := by
    rw [map_reverse, map_map]
    have hid : ∀ d ∈ Nat.digits 10 v.toInt.natAbs,
        (digit_value ∘ fun d => '0'.toUInt8 + UInt8.ofNat d) d = id d := fun d hd =>
      (digit_of_lt (Nat.digits_lt_base (by omega) hd)).2
    rw [map_congr_left hid, map_id]
  refine ⟨(int_digits 20 v.toInt.natAbs).reverse, ?_, ?_, ?_, ?_⟩
  · intro c hc
    rw [mem_reverse, hdigits] at hc
    obtain ⟨d, hd, rfl⟩ := List.mem_map.mp hc
    exact (digit_of_lt (Nat.digits_lt_base (by omega) hd)).1
  · rw [Ne, reverse_eq_nil_iff, hdigits, map_eq_nil_iff, Nat.digits_eq_nil_iff_eq_zero]
    omega
  · unfold vm_print_int literal
    rw [if_neg hv]
    dsimp only
    rw [hsize]
    by_cases hneg : v < 0
    · rw [if_pos hneg, if_pos (decide_eq_true hneg)]
    · rw [if_neg hneg, if_neg (by rw [decide_eq_false hneg]; decide)]
  · rw [written, hdigits, hvalue, read_digits]
    by_cases hneg : v < 0
    · have hlt : v.toInt < 0 := Int32.lt_iff_toInt_lt.mp hneg
      rw [if_pos (decide_eq_true hneg)]
      omega
    · have hge : ¬ v.toInt < 0 := fun h => hneg (Int32.lt_iff_toInt_lt.mpr h)
      rw [if_neg (by rw [decide_eq_false hneg]; decide)]
      omega

/-- Printing and reading agree exactly off the least value, and a literal is read exactly as the number written if that
number is an `int`. -/
theorem int_literals_exact (v : Int32) :
    (parse_int_lit (vm_print_int v) = some (v, []) ↔ v ≠ Int32.minValue) ∧
    ∀ (negative : Bool) (digits rest : List UInt8), (∀ c ∈ digits, is_dec c = true) → digits ≠ [] →
      is_dec (peek rest 0) = false →
      ((∀ i after, parse_int_lit (literal negative digits ++ rest) = some (i, after) →
          i.toInt = written negative digits) ↔
        -2 ^ 31 ≤ written negative digits ∧ written negative digits < 2 ^ 31) := by
  constructor
  · constructor
    · rintro h rfl
      revert h
      decide
    · intro hmin
      by_cases hv : v = 0
      · subst hv
        decide
      · obtain ⟨digits, hdec, hne, hprint, hwritten⟩ := vm_print_int_literal hv hmin
        have hparse := @parse_int_lit_literal (decide (v < 0)) digits [] hdec hne rfl
        rw [append_nil, ← hprint, hwritten, Int32.ofInt_toInt] at hparse
        exact hparse
  · intro negative digits rest hdec hne hrest
    rw [parse_int_lit_literal hdec hne hrest, ← ofInt_exact]
    constructor
    · intro h
      exact h _ _ rfl
    · rintro h i after heq
      obtain ⟨rfl, -⟩ := Prod.mk.inj (Option.some.inj heq)
      exact h

/-- The least value is printed as a sign, and `4294967296` is read as zero. -/
theorem int_literals_wrap : parse_int_lit (vm_print_int Int32.minValue) = none ∧
    parse_int_lit (ascii "4294967296") = some (0, []) ∧ written false (ascii "4294967296") = 4294967296 := by
  decide

/-- The ends of the range that work. -/
theorem int_literals_exact_ends : parse_int_lit (vm_print_int Int32.maxValue) = some (Int32.maxValue, []) ∧
    ∀ i after, parse_int_lit (ascii "-2147483648;") = some (i, after) → i.toInt = -2147483648 :=
  ⟨(int_literals_exact Int32.maxValue).1.mpr (by decide),
    ((int_literals_exact 0).2 true (ascii "2147483648") (ascii ";") (by decide +kernel) (by decide +kernel)
      (by decide +kernel)).mpr (by decide +kernel)⟩

end graceos.chivm
