import GraceOS.Net.Http
import GraceOS.Lib.Numeral
import Mathlib.Algebra.Order.Ring.Int
import Mathlib.Data.List.DropRight

/-!
# Lengths in HTTP texts

`parse_dec_u32` and `parse_hex_size` read a number in a 64-bit word and stop when the word gets smaller. A digit can
also carry the word around to a value that is not smaller, so some numbers of `2 ^ 64` and more are reduced.
-/

namespace graceos.http

open word numeral List

/-! ## The digits of a text -/

def blank (c : UInt8) : Bool := c == ' '.toUInt8 || c == '\t'.toUInt8

def dec_value (c : UInt8) : Option UInt64 := if is_digit c then some (c - '0'.toUInt8).toUInt64 else none

/-- The values of the digits, if all characters are digits. -/
def digits_of (digit : UInt8 → Option UInt64) : List UInt8 → Option (List Nat)
  | [] => some []
  | c :: s => (digit c).bind fun d => (digits_of digit s).map (d.toNat :: ·)

/-- The characters behind the leading blanks, before the one that ends the number. -/
def field (ends : UInt8 → Bool) (s : List UInt8) : List UInt8 := (s.dropWhile blank).takeWhile fun c => !ends c

def hex_end (c : UInt8) : Bool := blank c || c == ';'.toUInt8

/-- The digits of a decimal number, if a text begins with one. -/
def dec_digits (s : List UInt8) : Option (List Nat) :=
  if field blank s = [] then none else digits_of dec_value (field blank s)

def hex_digits (s : List UInt8) : Option (List Nat) :=
  if field hex_end s = [] then none else digits_of hex_value (field hex_end s)

/-- A length is the number that is written, or it is refused. -/
def Exact (result : Option UInt64) (number : Option Nat) : Prop := ∀ v, result = some v → number = some v.toNat

/-- The written number fits into 64 bits, or one of its digits makes the word smaller. -/
def Caught (base : Nat) (digits : Option (List Nat)) : Prop :=
  ∀ ds, digits = some ds → read base 0 ds < 2 ^ 64 ∨ Drops base (2 ^ 64) 0 ds

theorem blank_iff {c : UInt8} : blank c = true ↔ c = ' '.toUInt8 ∨ c = '\t'.toUInt8 := by
  rw [blank, Bool.or_eq_true, beq_iff_eq, beq_iff_eq]

theorem bind_read_word {base m v d : Nat} {digits : Option (List Nat)} :
    (digits.map (d :: ·)).bind (read_word base m v) =
      if (v * base + d) % m < v then none else digits.bind (read_word base m ((v * base + d) % m)) := by
  cases digits with
  | none =>
    rw [Option.map_none, Option.bind_none, Option.bind_none, ite_self]
  | some ds => rfl

theorem exact_iff_caught {base : Nat} {result : Option UInt64} {digits : Option (List Nat)} (hbase : 0 < base)
    (hresult : result.map UInt64.toNat = digits.bind (read_word base (2 ^ 64) 0)) :
    Exact result (digits.map (read base 0)) ↔ Caught base digits := by
  cases digits with
  | none =>
    have hnone : result = none := Option.map_eq_none_iff.mp hresult
    exact ⟨fun _ _ h => absurd h (by simp), fun _ v hv => absurd (hnone.symm.trans hv) (by simp)⟩
  | some ds =>
    rw [Option.bind_some] at hresult
    have hiff := @read_word_exact_iff base (2 ^ 64) 0 ds hbase (by decide) (by decide)
    constructor
    · intro hexact ds' hds'
      obtain rfl := Option.some.inj hds'
      refine hiff.mp fun w hw => ?_
      rw [hw] at hresult
      obtain ⟨v, hv, hvw⟩ := Option.map_eq_some_iff.mp hresult
      exact hvw.symm.trans (Option.some.inj (hexact v hv)).symm
    · intro hcaught v hv
      have hread : read_word base (2 ^ 64) 0 ds = some v.toNat := by
        rw [← hresult, hv, Option.map_some]
      rw [hiff.mpr (hcaught ds rfl) _ hread, Option.map_some]

/-! ## Decimal numbers -/

section Decimal

variable {v : UInt64} {c : UInt8} {s : List UInt8}

theorem dec_step (v d : UInt64) : (v * 10 + d).toNat = (v.toNat * 10 + d.toNat) % 2 ^ 64 := by
  rw [UInt64.toNat_add, UInt64.toNat_mul]
  exact Nat.mod_add_mod (v.toNat * 10) (2 ^ 64) d.toNat

theorem dec_value_none (hc : c < '0'.toUInt8 ∨ '9'.toUInt8 < c) : dec_value c = none := by
  have hnot : is_digit c = false := by
    rw [is_digit, Bool.and_eq_false_iff, decide_eq_false_iff_not, decide_eq_false_iff_not, UInt8.not_le, UInt8.not_le]
    exact hc
  rw [dec_value, if_neg (by rw [hnot]; decide)]

theorem dec_value_some (hc : ¬ (c < '0'.toUInt8 ∨ '9'.toUInt8 < c)) :
    dec_value c = some (c - '0'.toUInt8).toUInt64 := by
  have hdigit : is_digit c = true := by
    rw [not_or, UInt8.not_lt, UInt8.not_lt] at hc
    rw [is_digit, Bool.and_eq_true, decide_eq_true_eq, decide_eq_true_eq]
    exact hc
  rw [dec_value, if_pos hdigit]

theorem parse_dec_digits_read (v : UInt64) (s : List UInt8) : (parse_dec_digits v true s).map UInt64.toNat =
    (digits_of dec_value (s.takeWhile fun c => !blank c)).bind (read_word 10 (2 ^ 64) v.toNat) := by
  induction s generalizing v with
  | nil => rfl
  | cons c s ih =>
    rw [parse_dec_digits]
    by_cases hblank : blank c = true
    · rw [if_pos (blank_iff.mp hblank), takeWhile_cons_of_neg (by rw [hblank]; decide)]
      rfl
    rw [if_neg (mt blank_iff.mpr hblank), takeWhile_cons_of_pos (by simpa using hblank), digits_of]
    by_cases hc : c < '0'.toUInt8 ∨ '9'.toUInt8 < c
    · rw [if_pos hc, dec_value_none hc]
      rfl
    rw [if_neg hc, dec_value_some hc, Option.bind_some, bind_read_word, ← dec_step]
    simp only [UInt64.lt_iff_toNat_lt]
    split
    · rfl
    · exact ih _

theorem parse_dec_digits_first (hblank : ¬ blank c = true) :
    parse_dec_digits v false (c :: s) = parse_dec_digits v true (c :: s) := by
  rw [parse_dec_digits, parse_dec_digits, if_neg (mt blank_iff.mpr hblank), if_neg (mt blank_iff.mpr hblank)]

theorem parse_dec_u32_read (s : List UInt8) :
    (parse_dec_u32 s).map UInt64.toNat = (dec_digits s).bind (read_word 10 (2 ^ 64) 0) := by
  rw [parse_dec_u32, dec_digits, field]
  induction s with
  | nil => rfl
  | cons c s ih =>
    by_cases hblank : blank c = true
    · rw [dropWhile_cons_of_pos hblank, ← ih, parse_dec_digits, if_pos (blank_iff.mp hblank)]
      rfl
    · have hfield : ((c :: s).takeWhile fun c => !blank c) ≠ [] := by
        rw [takeWhile_cons_of_pos (by simpa using hblank)]
        exact cons_ne_nil _ _
      rw [dropWhile_cons_of_neg hblank, if_neg hfield, parse_dec_digits_first hblank, parse_dec_digits_read]
      rfl

end Decimal

/-! ## Hexadecimal numbers -/

section Hexadecimal

variable {v : UInt64} {c : UInt8} {s : List UInt8}

theorem hex_step (v d : UInt64) : ((v <<< 4) + d).toNat = (v.toNat * 16 + d.toNat) % 2 ^ 64 := by
  rw [UInt64.toNat_add, UInt64.toNat_shiftLeft, show UInt64.toNat 4 % 64 = 4 from rfl, Nat.shiftLeft_eq]
  exact Nat.mod_add_mod (v.toNat * 16) (2 ^ 64) d.toNat

theorem hex_value_blank (hblank : blank c = true) : hex_value c = none := by
  obtain rfl | rfl := blank_iff.mp hblank <;> decide

theorem not_hex_end {c : UInt8} : hex_end c = false ↔ blank c = false ∧ c ≠ ';'.toUInt8 := by
  rw [hex_end, Bool.or_eq_false_iff, beq_eq_false_iff_ne]

/-- The loop behind its first digit. -/
theorem parse_hex_digits_read (v : UInt64) (s : List UInt8) : (parse_hex_digits v true s).map UInt64.toNat =
    (digits_of hex_value (s.takeWhile fun c => !hex_end c)).bind (read_word 16 (2 ^ 64) v.toNat) := by
  induction s generalizing v with
  | nil => rfl
  | cons c s ih =>
    rw [parse_hex_digits]
    by_cases hsemi : c = ';'.toUInt8
    · have hend : hex_end c = true := by rw [hsemi]; decide
      rw [if_pos hsemi, takeWhile_cons_of_neg (by rw [hend]; decide)]
      rfl
    rw [if_neg hsemi]
    cases hblank : blank c with
    | true =>
      have hend : hex_end c = true := by rw [hex_end, hblank, Bool.true_or]
      rw [hex_value_blank hblank, takeWhile_cons_of_neg (by rw [hend]; decide)]
      dsimp only
      rw [if_pos (blank_iff.mp hblank)]
      rfl
    | false =>
      have hend : hex_end c = false := not_hex_end.mpr ⟨hblank, hsemi⟩
      rw [takeWhile_cons_of_pos (by rw [hend]; decide), digits_of]
      cases hd : hex_value c with
      | none =>
        have hnot : ¬ (c = ' '.toUInt8 ∨ c = '\t'.toUInt8) := fun h => by
          rw [blank_iff.mpr h] at hblank
          cases hblank
        dsimp only
        rw [if_neg hnot]
        rfl
      | some d =>
        dsimp only
        rw [Option.bind_some, bind_read_word, ← hex_step]
        simp only [UInt64.lt_iff_toNat_lt]
        split
        · rfl
        · exact ih _

theorem parse_hex_digits_first (hend : hex_end c = false) :
    parse_hex_digits v false (c :: s) = parse_hex_digits v true (c :: s) := by
  obtain ⟨hblank, hsemi⟩ := not_hex_end.mp hend
  have hnot : ¬ (c = ' '.toUInt8 ∨ c = '\t'.toUInt8) := fun h => by
    rw [blank_iff.mpr h] at hblank
    cases hblank
  rw [parse_hex_digits, parse_hex_digits, if_neg hsemi, if_neg hsemi, if_neg hnot, if_neg hnot]

theorem parse_hex_size_read (s : List UInt8) :
    (parse_hex_size s).map UInt64.toNat = (hex_digits s).bind (read_word 16 (2 ^ 64) 0) := by
  rw [parse_hex_size, hex_digits, field]
  induction s with
  | nil => rfl
  | cons c s ih =>
    cases hblank : blank c with
    | true =>
      have hsemi : c ≠ ';'.toUInt8 := by
        rintro rfl
        exact absurd hblank (by decide)
      rw [dropWhile_cons_of_pos hblank, ← ih, parse_hex_digits, if_neg hsemi, hex_value_blank hblank]
      dsimp only
      rw [if_pos (blank_iff.mp hblank)]
      rfl
    | false =>
      rw [dropWhile_cons_of_neg (by rw [hblank]; decide)]
      cases hend : hex_end c with
      | true =>
        obtain rfl : c = ';'.toUInt8 := by
          by_contra hsemi
          rw [not_hex_end.mpr ⟨hblank, hsemi⟩] at hend
          cases hend
        rfl
      | false =>
        have hfield : ((c :: s).takeWhile fun c => !hex_end c) ≠ [] := by
          rw [takeWhile_cons_of_pos (by rw [hend]; decide)]
          exact cons_ne_nil _ _
        rw [if_neg hfield, parse_hex_digits_first hend, parse_hex_digits_read]
        rfl

end Hexadecimal

/-! ## The header -/

theorem parse_field_content_length {name : List UInt8} (value : List UInt8) (m : http_meta)
    (hname : name.length = 14) (hci : ci_equal_n name (ascii "Content-Length") 14 = true)
    (hcolon : ':'.toUInt8 ∉ name) :
    parse_field (name ++ ':'.toUInt8 :: value) m =
      match parse_dec_u32 (value.dropWhile blank) with
      | some cl => { m with has_content_length := true, content_length := cl }
      | none => m := by
  have htake : (name ++ ':'.toUInt8 :: value).takeWhile (· != ':'.toUInt8) = name := by
    have hall : ∀ c ∈ name, (c != ':'.toUInt8) = true := fun c hc =>
      bne_iff_ne.mpr fun h => hcolon (h ▸ hc)
    rw [takeWhile_append_of_pos hall, takeWhile_cons_of_neg (by decide), append_nil]
  have hshort : name.length < (name ++ ':'.toUInt8 :: value).length := by
    rw [length_append, length_cons]
    omega
  have hvalue : (name ++ ':'.toUInt8 :: value).drop (name.length + 1) = value := by
    rw [drop_append, Nat.add_sub_cancel_left, drop_of_length_le (Nat.le_succ _)]
    rfl
  unfold parse_field
  dsimp only
  rw [htake, if_pos hshort, if_pos ⟨hname, hci⟩, hvalue]
  rfl

theorem dec_digits_dropWhile (s : List UInt8) : dec_digits (s.dropWhile blank) = dec_digits s := by
  have hfield : field blank (s.dropWhile blank) = field blank s := by
    rw [field, field, dropWhile_idempotent]
  rw [dec_digits, dec_digits, hfield]

/-- Both readers are exact, and so is the length of a body, exactly for the texts whose number fits or is caught. -/
theorem lengths_exact_iff (s : List UInt8) :
    (Exact (parse_dec_u32 s) ((dec_digits s).map (read 10 0)) ↔ Caught 10 (dec_digits s)) ∧
    (Exact (parse_hex_size s) ((hex_digits s).map (read 16 0)) ↔ Caught 16 (hex_digits s)) ∧
    ∀ (name value : List UInt8) (m : http_meta), name.length = 14 →
      ci_equal_n name (ascii "Content-Length") 14 = true → ':'.toUInt8 ∉ name → m.has_content_length = false →
      (((parse_field (name ++ ':'.toUInt8 :: value) m).has_content_length = true →
          (dec_digits value).map (read 10 0) =
            some (parse_field (name ++ ':'.toUInt8 :: value) m).content_length.toNat) ↔
        Caught 10 (dec_digits value)) := by
  have hdec : ∀ s, Exact (parse_dec_u32 s) ((dec_digits s).map (read 10 0)) ↔ Caught 10 (dec_digits s) := fun s =>
    exact_iff_caught (by decide) (parse_dec_u32_read s)
  refine ⟨hdec s, exact_iff_caught (by decide) (parse_hex_size_read s), ?_⟩
  intro name value m hname hci hcolon hm
  rw [parse_field_content_length value m hname hci hcolon, ← dec_digits_dropWhile value, ← hdec, Exact]
  cases hparse : parse_dec_u32 (value.dropWhile blank) with
  | none => exact ⟨fun _ v hv => absurd hv (by simp), fun _ h => absurd (hm.symm.trans h) (by decide)⟩
  | some cl =>
    constructor
    · rintro h v hv
      obtain rfl := Option.some.inj hv
      exact h rfl
    · exact fun h _ => h cl rfl

/-- Two numbers above `2 ^ 64` that are accepted as smaller ones. -/
theorem lengths_reduced : parse_hex_size (ascii "18000000000000000") = some 0x8000000000000000 ∧
    (hex_digits (ascii "18000000000000000")).map (read 16 0) = some 0x18000000000000000 ∧
    parse_dec_u32 (ascii "36893488147419103231") = some 0xFFFFFFFFFFFFFFFF ∧
    (dec_digits (ascii "36893488147419103231")).map (read 10 0) = some 36893488147419103231 := by
  decide +kernel

/-- The largest length, and one more. -/
theorem lengths_exact_ends : Exact (parse_dec_u32 (ascii " 18446744073709551615"))
      ((dec_digits (ascii " 18446744073709551615")).map (read 10 0)) ∧
    Exact (parse_hex_size (ascii "10000000000000000;x")) ((hex_digits (ascii "10000000000000000;x")).map (read 16 0)) ∧
    ((parse_field (ascii "content-length" ++ ':'.toUInt8 :: ascii " 42") http_meta.zero).has_content_length = true →
      (dec_digits (ascii " 42")).map (read 10 0) =
        some (parse_field (ascii "content-length" ++ ':'.toUInt8 :: ascii " 42")
            http_meta.zero).content_length.toNat) := by
  refine ⟨(lengths_exact_iff _).1.mpr ?_, (lengths_exact_iff _).2.1.mpr ?_,
    ((lengths_exact_iff []).2.2 _ _ _ (by decide) (by decide) (by decide) rfl).mpr ?_⟩
  · intro ds hds
    obtain rfl := Option.some.inj hds
    decide +kernel
  · intro ds hds
    obtain rfl := Option.some.inj hds
    decide +kernel
  · intro ds hds
    obtain rfl := Option.some.inj hds
    decide +kernel

end graceos.http
