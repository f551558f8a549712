import GraceOS.Lib.Word
import Mathlib.Algebra.Order.Ring.Int
import Mathlib.Data.List.Basic

/-!
# The UTF-8 codec

`unicode_utf8_decode`, `unicode_utf8_encode` and `unicode_utf8_len` of `unicode.c`. A sequence is read as a number whose
digits are the low bits of its bytes, and both directions are compared there.
-/

namespace graceos.llm

open List

def UNICODE_REPLACEMENT : UInt32 := 0xFFFD

/-- `(int)max_len`. -/
def int_of_size (max_len : Nat) : Int := (max_len : Int).bmod (2 ^ 32)

/-- The length of a sequence and the bits of its first byte. -/
def utf8_lead (b0 : UInt8) : Option (Nat × UInt32) :=
  if b0 &&& 0xE0 = 0xC0 then some (2, (b0 &&& 0x1F).toUInt32)
  else if b0 &&& 0xF0 = 0xE0 then some (3, (b0 &&& 0x0F).toUInt32)
  else if b0 &&& 0xF8 = 0xF0 then some (4, (b0 &&& 0x07).toUInt32)
  else none

/-- The loop over the continuation bytes, with the index of the first byte that is not one. -/
def utf8_continue (cp : UInt32) (i : Nat) : (left : Nat) → (src : List UInt8) → Except Nat UInt32
  | 0, _ => .ok cp
  | left + 1, src =>
    let b := src.headD 0
    if b &&& 0xC0 ≠ 0x80 then .error i
    else utf8_continue ((cp <<< 6) ||| (b &&& 0x3F).toUInt32) (i + 1) left src.tail

/-- The returned number of bytes and the code point, for the bytes that are there. -/
def unicode_utf8_decode (src : List UInt8) : Int × UInt32 :=
  match src with
  | [] => (0, UNICODE_REPLACEMENT)
  | b0 :: rest =>
    if b0 < 0x80 then (1, b0.toUInt32)
    else
      match utf8_lead b0 with
      | none => (1, UNICODE_REPLACEMENT)
      | some (seq_len, cp) =>
        if int_of_size (b0 :: rest).length < seq_len then (0, UNICODE_REPLACEMENT)
        else
          match utf8_continue cp 1 (seq_len - 1) rest with
          | .error i => (i, UNICODE_REPLACEMENT)
          | .ok cp =>
            if seq_len = 2 ∧ cp < 0x80 ∨ seq_len = 3 ∧ cp < 0x800 ∨ seq_len = 4 ∧ cp < 0x10000 then
              (seq_len, UNICODE_REPLACEMENT)
            else if cp ≥ 0xD800 ∧ cp ≤ 0xDFFF then (seq_len, UNICODE_REPLACEMENT)
            else if cp > 0x10FFFF then (seq_len, UNICODE_REPLACEMENT)
            else (seq_len, cp)

/-- `(uint8_t)(bits | x)`. -/
def utf8_byte (bits x : UInt32) : UInt8 := (bits ||| x).toUInt8

/-- The bytes written to `buf`. -/
def unicode_utf8_encode (cp : UInt32) : List UInt8 :=
  if cp < 0x80 then [cp.toUInt8]
  else if cp < 0x800 then [utf8_byte 0xC0 (cp >>> 6), utf8_byte 0x80 (cp &&& 0x3F)]
  else if cp < 0x10000 then
    [utf8_byte 0xE0 (cp >>> 12), utf8_byte 0x80 ((cp >>> 6) &&& 0x3F), utf8_byte 0x80 (cp &&& 0x3F)]
  else if cp ≤ 0x10FFFF then
    [utf8_byte 0xF0 (cp >>> 18), utf8_byte 0x80 ((cp >>> 12) &&& 0x3F), utf8_byte 0x80 ((cp >>> 6) &&& 0x3F),
      utf8_byte 0x80 (cp &&& 0x3F)]
  else []

/-- The loop of `unicode_utf8_len`. Every turn takes a byte, so it runs at most `left` times. -/
def utf8_count : (left : Nat) → (s : List UInt8) → Nat
  | 0, _ => 0
  | left + 1, s =>
    if s = [] then 0
    else if (unicode_utf8_decode s).1 ≤ 0 then 0
    else utf8_count left (s.drop (unicode_utf8_decode s).1.toNat) + 1

def unicode_utf8_len (s : List UInt8) : Nat := utf8_count s.length s

/-- Decoding step by step: the code points, and the bytes that are left. -/
def utf8_decode_all : (left : Nat) → (s : List UInt8) → List UInt32 × List UInt8
  | 0, s => ([], s)
  | left + 1, s =>
    if (unicode_utf8_decode s).1 ≤ 0 then ([], s)
    else
      let (cps, rest) := utf8_decode_all left (s.drop (unicode_utf8_decode s).1.toNat)
      ((unicode_utf8_decode s).2 :: cps, rest)

/-- A code point that is not a surrogate. -/
def IsScalar (cp : UInt32) : Prop := cp ≤ 0x10FFFF ∧ ¬ (cp ≥ 0xD800 ∧ cp ≤ 0xDFFF)

instance : DecidablePred IsScalar := fun _ => inferInstanceAs (Decidable (_ ∧ ¬ (_ ∧ _)))

/-! ## Bits of a sequence -/

variable {cp : UInt32}

theorem forall_byte {p : UInt8 → Prop} (h : ∀ n < 256, p (UInt8.ofNat n)) (b : UInt8) : p b := by
  have hb := h b.toNat b.toNat_lt
  rwa [UInt8.ofNat_toNat] at hb

theorem byte_kinds (b : UInt8) : (b &&& 0xC0 = 0x80 ↔ 128 ≤ b.toNat ∧ b.toNat < 192) ∧
    (b &&& 0xE0 = 0xC0 ↔ 192 ≤ b.toNat ∧ b.toNat < 224) ∧ (b &&& 0xF0 = 0xE0 ↔ 224 ≤ b.toNat ∧ b.toNat < 240) ∧
    (b &&& 0xF8 = 0xF0 ↔ 240 ≤ b.toNat ∧ b.toNat < 248) := by
  revert b
  apply forall_byte
  decide +kernel

theorem low_bits (b : UInt8) : (b &&& 0x3F).toNat = b.toNat % 64 ∧ (b &&& 0x1F).toNat = b.toNat % 32 ∧
    (b &&& 0x0F).toNat = b.toNat % 16 ∧ (b &&& 0x07).toNat = b.toNat % 8 := by
  revert b
  apply forall_byte
  decide +kernel

theorem shift_in (b : UInt8) (hcp : cp.toNat < 2 ^ 26) :
    ((cp <<< 6) ||| (b &&& 0x3F).toUInt32).toNat = cp.toNat * 64 + b.toNat % 64 := by
  have hshift : (cp <<< 6).toNat = 2 ^ 6 * cp.toNat := by
    rw [UInt32.toNat_shiftLeft, show UInt32.toNat 6 % 32 = 6 from rfl, Nat.shiftLeft_eq]
    omega
  rw [UInt32.toNat_or, hshift, UInt8.toNat_toUInt32, (low_bits b).1,
    ← Nat.two_pow_add_eq_or_of_lt (show b.toNat % 64 < 2 ^ 6 by omega)]
  omega

theorem shiftRight_toNat (cp : UInt32) : (cp >>> 6).toNat = cp.toNat / 64 ∧ (cp >>> 12).toNat = cp.toNat / 4096 ∧
    (cp >>> 18).toNat = cp.toNat / 262144 :=
  ⟨Nat.shiftRight_eq_div_pow cp.toNat 6, Nat.shiftRight_eq_div_pow cp.toNat 12, Nat.shiftRight_eq_div_pow cp.toNat 18⟩

theorem utf8_byte_toNat {bits x : UInt32} (n k : Nat) (hbits : bits.toNat = 2 ^ n * k) (hx : x.toNat < 2 ^ n)
    (hlt : bits.toNat + x.toNat < 256) : (utf8_byte bits x).toNat = bits.toNat + x.toNat := by
  rw [utf8_byte, UInt32.toNat_toUInt8, UInt32.toNat_or, hbits, ← Nat.two_pow_add_eq_or_of_lt hx, ← hbits]
  exact Nat.mod_eq_of_lt hlt

theorem continuation_toNat (x : UInt32) : (utf8_byte 0x80 (x &&& 0x3F)).toNat = 128 + x.toNat % 64 := by
  have hlow : (x &&& 0x3F).toNat = x.toNat % 64 := by
    rw [UInt32.toNat_and]
    exact Nat.and_two_pow_sub_one_eq_mod x.toNat 6
  have hbits : (0x80 : UInt32).toNat = 128 := rfl
  rw [utf8_byte_toNat 7 1 rfl (by omega) (by omega), hlow, hbits]

/-! ## Sequences as numbers -/

variable {left n : Nat} {b0 : UInt8}

/-- The number whose digits to the base 64 follow `v`. -/
def utf8_value (v : Nat) (bytes : List UInt8) : Nat := bytes.foldl (fun v b => v * 64 + b.toNat % 64) v

def Continuation (b : UInt8) : Prop := 128 ≤ b.toNat ∧ b.toNat < 192

/-- The values of the bytes that stand for a code point. -/
def spelling (c : Nat) : List Nat :=
  if c < 0x80 then [c]
  else if c < 0x800 then [192 + c / 64, 128 + c % 64]
  else if c < 0x10000 then [224 + c / 4096, 128 + c / 64 % 64, 128 + c % 64]
  else if c ≤ 0x10FFFF then [240 + c / 262144, 128 + c / 4096 % 64, 128 + c / 64 % 64, 128 + c % 64]
  else []

theorem encode_spelling (cp : UInt32) : (unicode_utf8_encode cp).map UInt8.toNat = spelling cp.toNat := by
  obtain ⟨h6, h12, h18⟩ := shiftRight_toNat cp
  have htwo : (0xC0 : UInt32).toNat = 192 := rfl
  have hthree : (0xE0 : UInt32).toNat = 224 := rfl
  have hfour : (0xF0 : UInt32).toNat = 240 := rfl
  unfold unicode_utf8_encode spelling
  by_cases h1 : cp < 0x80
  · have hlt : cp.toNat < 128 := UInt32.lt_iff_toNat_lt.mp h1
    rw [if_pos h1, if_pos hlt, map_singleton, UInt32.toNat_toUInt8, Nat.mod_eq_of_lt (by omega)]
  have hge1 : ¬ cp.toNat < 128 := fun h => h1 (UInt32.lt_iff_toNat_lt.mpr h)
  rw [if_neg h1, if_neg hge1]
  by_cases h2 : cp < 0x800
  · have hlt : cp.toNat < 2048 := UInt32.lt_iff_toNat_lt.mp h2
    rw [if_pos h2, if_pos hlt, map_cons, map_singleton, continuation_toNat,
      utf8_byte_toNat 6 3 rfl (by omega) (by omega), h6, htwo]
  have hge2 : ¬ cp.toNat < 2048 := fun h => h2 (UInt32.lt_iff_toNat_lt.mpr h)
  rw [if_neg h2, if_neg hge2]
  by_cases h3 : cp < 0x10000
  · have hlt : cp.toNat < 65536 := UInt32.lt_iff_toNat_lt.mp h3
    rw [if_pos h3, if_pos hlt, map_cons, map_cons, map_singleton, continuation_toNat, continuation_toNat,
      utf8_byte_toNat 5 7 rfl (by omega) (by omega), h6, h12, hthree]
  have hge3 : ¬ cp.toNat < 65536 := fun h => h3 (UInt32.lt_iff_toNat_lt.mpr h)
  rw [if_neg h3, if_neg hge3]
  by_cases h4 : cp ≤ 0x10FFFF
  · have hle : cp.toNat ≤ 1114111 := UInt32.le_iff_toNat_le.mp h4
    rw [if_pos h4, if_pos hle, map_cons, map_cons, map_cons, map_singleton, continuation_toNat,
      continuation_toNat, continuation_toNat, utf8_byte_toNat 4 15 rfl (by omega) (by omega), h6, h12, h18, hfour]
  · have hgt : ¬ cp.toNat ≤ 1114111 := fun h => h4 (UInt32.le_iff_toNat_le.mpr h)
    rw [if_neg h4, if_neg hgt]
    rfl

theorem utf8_continue_stop {i : Nat} {b : UInt8} {src : List UInt8} (hb : b &&& 0xC0 ≠ 0x80) :
    utf8_continue cp i (left + 1) (b :: src) = .error i :=
  if_pos hb

theorem utf8_continue_next {i : Nat} {b : UInt8} {src : List UInt8} (hb : b &&& 0xC0 = 0x80) :
    utf8_continue cp i (left + 1) (b :: src) =
      utf8_continue ((cp <<< 6) ||| (b &&& 0x3F).toUInt32) (i + 1) left src :=
  if_neg (not_not.mpr hb)

/-- The loop over the continuation bytes stops at the first byte that is none, or reads the number. -/
theorem utf8_continue_cases {cp : UInt32} {i left : Nat} {src : List UInt8} (hlen : left ≤ src.length)
    (hcp : (cp.toNat + 1) * 64 ^ left ≤ 2 ^ 32) :
    (∃ j, utf8_continue cp i left src = .error j ∧ i ≤ j ∧ j < i + left ∧ ¬ ∀ b ∈ src.take left, Continuation b) ∨
    ∃ v, utf8_continue cp i left src = .ok v ∧ (∀ b ∈ src.take left, Continuation b) ∧
      v.toNat = utf8_value cp.toNat (src.take left) := by
  induction left generalizing cp i src with
  | zero => exact .inr ⟨cp, rfl, fun b hb => absurd hb (by simp), rfl⟩
  | succ left ih =>
    cases src with
    | nil => exact absurd hlen (by simp)
    | cons b src =>
      rw [take_succ_cons]
      by_cases hb : b &&& 0xC0 = 0x80
      · rw [utf8_continue_next hb]
        have hcont : Continuation b := (byte_kinds b).1.mp hb
        have hpow : 1 ≤ 64 ^ left := Nat.one_le_two_pow.trans (Nat.pow_le_pow_left (by omega) left)
        rw [Nat.pow_succ, ← Nat.mul_assoc] at hcp
        have hsmall : cp.toNat < 2 ^ 26 := by
          have := (Nat.le_mul_of_pos_right (cp.toNat + 1) (show 0 < 64 ^ left by omega))
          omega
        have hshift := shift_in b hsmall
        have hnext : (((cp <<< 6) ||| (b &&& 0x3F).toUInt32).toNat + 1) * 64 ^ left ≤ 2 ^ 32 := by
          rw [hshift]
          refine le_trans ?_ hcp
          rw [Nat.mul_right_comm]
          exact Nat.mul_le_mul_right _ (by omega)
        obtain ⟨j, hj, hij, hlt, hnot⟩ | ⟨v, hv, hall, hvalue⟩ := @ih _ (i + 1) src (by simpa using hlen) hnext
        · exact .inl ⟨j, hj, by omega, by omega, fun h => hnot fun c hc => h c (mem_cons_of_mem b hc)⟩
        · refine .inr ⟨v, hv, List.forall_mem_cons.mpr ⟨hcont, hall⟩, ?_⟩
          rw [hvalue, hshift]
          rfl
      · rw [utf8_continue_stop hb]
        exact .inl ⟨i, rfl, le_rfl, by omega, fun h => hb ((byte_kinds b).1.mpr (h b mem_cons_self))⟩

/-- The first byte of a sequence: the length of the sequence, and its own bits. -/
theorem utf8_lead_cases (h : utf8_lead b0 = some (n, cp)) :
    n = 2 ∧ 192 ≤ b0.toNat ∧ cp.toNat + 192 = b0.toNat ∧ cp.toNat < 32 ∨
    n = 3 ∧ 224 ≤ b0.toNat ∧ cp.toNat + 224 = b0.toNat ∧ cp.toNat < 16 ∨
    n = 4 ∧ 240 ≤ b0.toNat ∧ cp.toNat + 240 = b0.toNat ∧ cp.toNat < 8 := by
  obtain ⟨-, h2, h3, h4⟩ := byte_kinds b0
  obtain ⟨-, l2, l3, l4⟩ := low_bits b0
  unfold utf8_lead at h
  split at h
  · next hk =>
    obtain ⟨rfl, rfl⟩ := Prod.mk.inj (Option.some.inj h)
    have := h2.mp hk
    rw [UInt8.toNat_toUInt32, l2]
    omega
  · split at h
    · next hk =>
      obtain ⟨rfl, rfl⟩ := Prod.mk.inj (Option.some.inj h)
      have := h3.mp hk
      rw [UInt8.toNat_toUInt32, l3]
      omega
    · split at h
      · next hk =>
        obtain ⟨rfl, rfl⟩ := Prod.mk.inj (Option.some.inj h)
        have := h4.mp hk
        rw [UInt8.toNat_toUInt32, l4]
        omega
      · cases h

/-- The least code point that needs `n` bytes. -/
def least (n : Nat) : Nat := if n = 2 then 0x80 else if n = 3 then 0x800 else 0x10000

theorem int_of_size_le {k : Nat} (h : ¬ int_of_size k < n) : n ≤ k := by
  unfold int_of_size at h
  rw [Int.bmod_def] at h
  omega

theorem int_of_size_eq {k : Nat} (h : k < 2 ^ 31) : int_of_size k = k := by
  unfold int_of_size
  rw [Int.bmod_def]
  omega

/-- The code point is accepted after its sequence. -/
def Accepted (n : Nat) (v : UInt32) : Prop := least n ≤ v.toNat ∧ IsScalar v

/-- What is answered behind the continuation bytes. -/
theorem unicode_utf8_decode_read {rest : List UInt8} {v : UInt32}
    (hlead : utf8_lead b0 = some (n, cp)) (hsize : ¬ int_of_size (b0 :: rest).length < n)
    (hread : utf8_continue cp 1 (n - 1) rest = .ok v) :
    Accepted n v ∧ unicode_utf8_decode (b0 :: rest) = ((n : Int), v) ∨
    ¬ Accepted n v ∧ unicode_utf8_decode (b0 :: rest) = ((n : Int), UNICODE_REPLACEMENT) := by
  have hcases := utf8_lead_cases hlead
  have hhigh : ¬ b0 < 0x80 := fun h => by
    have := UInt8.lt_iff_toNat_lt.mp h
    rw [show UInt8.toNat 0x80 = 128 from rfl] at this
    omega
  have hlong : (n = 2 ∧ v < 0x80 ∨ n = 3 ∧ v < 0x800 ∨ n = 4 ∧ v < 0x10000) ↔ v.toNat < least n := by
    rw [UInt32.lt_iff_toNat_lt, UInt32.lt_iff_toNat_lt, UInt32.lt_iff_toNat_lt]
    obtain ⟨rfl, -⟩ | ⟨rfl, -⟩ | ⟨rfl, -⟩ := hcases <;> simp [least]
  unfold unicode_utf8_decode
  dsimp only
  rw [if_neg hhigh, hlead]
  dsimp only
  rw [if_neg hsize, hread]
  dsimp only
  by_cases hleast : v.toNat < least n
  · rw [if_pos (hlong.mpr hleast)]
    exact .inr ⟨fun h => absurd h.1 (Nat.not_le.mpr hleast), rfl⟩
  rw [if_neg (mt hlong.mp hleast)]
  by_cases hsurrogate : v ≥ 0xD800 ∧ v ≤ 0xDFFF
  · rw [if_pos hsurrogate]
    exact .inr ⟨fun h => h.2.2 hsurrogate, rfl⟩
  rw [if_neg hsurrogate]
  by_cases hmax : v > 0x10FFFF
  · rw [if_pos hmax]
    exact .inr ⟨fun h => UInt32.not_le.mpr hmax h.2.1, rfl⟩
  · rw [if_neg hmax]
    exact .inl ⟨⟨Nat.not_lt.mp hleast, UInt32.not_lt.mp hmax, hsurrogate⟩, rfl⟩

/-- The accepted sequences are the spellings of their code points. -/
theorem spelling_of_accepted {v : UInt32} {bytes : List UInt8}
    (hlead : utf8_lead b0 = some (n, cp)) (hbytes : bytes.length = n - 1) (hall : ∀ b ∈ bytes, Continuation b)
    (hvalue : v.toNat = utf8_value cp.toNat bytes) (haccepted : Accepted n v) :
    (b0 :: bytes).map UInt8.toNat = spelling v.toNat := by
  obtain ⟨hleast, hmax, -⟩ := haccepted
  rw [UInt32.le_iff_toNat_le, show UInt32.toNat 0x10FFFF = 0x10FFFF from rfl] at hmax
  obtain ⟨rfl, -, hlow, hlt⟩ | ⟨rfl, -, hlow, hlt⟩ | ⟨rfl, -, hlow, hlt⟩ := utf8_lead_cases hlead
  · obtain ⟨b1, rfl⟩ := List.length_eq_one_iff.mp hbytes
    obtain ⟨h1, h1'⟩ := hall b1 (by simp)
    have hv : v.toNat = cp.toNat * 64 + b1.toNat % 64 := hvalue
    have hge : 0x80 ≤ v.toNat := hleast
    rw [spelling, if_neg (by omega), if_pos (by omega), map_cons, map_singleton]
    congr 2 <;> omega
  · obtain ⟨b1, b2, rfl⟩ := List.length_eq_two.mp hbytes
    obtain ⟨h1, h1'⟩ := hall b1 (by simp)
    obtain ⟨h2, h2'⟩ := hall b2 (by simp)
    have hv : v.toNat = (cp.toNat * 64 + b1.toNat % 64) * 64 + b2.toNat % 64 := hvalue
    have hge : 0x800 ≤ v.toNat := hleast
    rw [spelling, if_neg (by omega), if_neg (by omega), if_pos (by omega), map_cons, map_cons,
      map_singleton]
    congr 3 <;> omega
  · obtain ⟨b1, b2, b3, rfl⟩ := List.length_eq_three.mp hbytes
    obtain ⟨h1, h1'⟩ := hall b1 (by simp)
    obtain ⟨h2, h2'⟩ := hall b2 (by simp)
    obtain ⟨h3, h3'⟩ := hall b3 (by simp)
    have hv : v.toNat = ((cp.toNat * 64 + b1.toNat % 64) * 64 + b2.toNat % 64) * 64 + b3.toNat % 64 := hvalue
    have hge : 0x10000 ≤ v.toNat := hleast
    rw [spelling, if_neg (by omega), if_neg (by omega), if_neg (by omega), if_pos (by omega), map_cons,
      map_cons, map_cons, map_singleton]
    congr 4 <;> omega

theorem map_toNat_injective {l l' : List UInt8} (h : l.map UInt8.toNat = l'.map UInt8.toNat) : l = l' :=
  List.map_injective_iff.mpr (fun _ _ => UInt8.toNat_inj.mp) h

/-- What the decoder answers for any bytes: a replacement behind some of them, or a code point behind its encoding. -/
theorem unicode_utf8_decode_cases (src : List UInt8) : ∃ n : Nat, (unicode_utf8_decode src).1 = (n : Int) ∧
    n ≤ src.length ∧ ((unicode_utf8_decode src).2 = UNICODE_REPLACEMENT ∨ IsScalar (unicode_utf8_decode src).2 ∧
      src.take n = unicode_utf8_encode (unicode_utf8_decode src).2) := by
  cases src with
  | nil => exact ⟨0, rfl, le_rfl, .inl rfl⟩
  | cons b0 rest =>
    by_cases hascii : b0 < 0x80
    · have hdecode : unicode_utf8_decode (b0 :: rest) = (1, b0.toUInt32) := if_pos hascii
      have hlt : b0.toNat < 128 := UInt8.lt_iff_toNat_lt.mp hascii
      refine ⟨1, by rw [hdecode]; rfl, by simp, .inr ?_⟩
      rw [hdecode]
      refine ⟨⟨UInt32.le_iff_toNat_le.mpr ?_, fun h => ?_⟩, map_toNat_injective ?_⟩
      · exact le_trans hlt.le (by decide)
      · have hge := UInt32.le_iff_toNat_le.mp h.1
        rw [UInt8.toNat_toUInt32, show UInt32.toNat 0xD800 = 0xD800 from rfl] at hge
        omega
      · rw [encode_spelling, UInt8.toNat_toUInt32, spelling, if_pos hlt]
        rfl
    cases hlead : utf8_lead b0 with
    | none =>
      have hdecode : unicode_utf8_decode (b0 :: rest) = (1, UNICODE_REPLACEMENT) := by
        unfold unicode_utf8_decode
        dsimp only
        rw [if_neg hascii, hlead]
      exact ⟨1, by rw [hdecode]; rfl, by simp, .inl (by rw [hdecode])⟩
    | some lead =>
      obtain ⟨n, cp⟩ := lead
      by_cases hsize : int_of_size (b0 :: rest).length < n
      · have hdecode : unicode_utf8_decode (b0 :: rest) = (0, UNICODE_REPLACEMENT) := by
          unfold unicode_utf8_decode
          dsimp only
          rw [if_neg hascii, hlead]
          exact if_pos hsize
        exact ⟨0, by rw [hdecode]; rfl, by simp, .inl (by rw [hdecode])⟩
      have hn : n ≤ (b0 :: rest).length := int_of_size_le hsize
      have hlen : n - 1 ≤ rest.length := by
        rw [length_cons] at hn
        omega
      have hcp : (cp.toNat + 1) * 64 ^ (n - 1) ≤ 2 ^ 32 := by
        obtain ⟨rfl, -, -, hlt⟩ | ⟨rfl, -, -, hlt⟩ | ⟨rfl, -, -, hlt⟩ := utf8_lead_cases hlead <;> omega
      obtain ⟨j, hj, hge, hlt, -⟩ | ⟨v, hv, hall, hvalue⟩ := @utf8_continue_cases _ 1 _ _ hlen hcp
      · have hdecode : unicode_utf8_decode (b0 :: rest) = ((j : Int), UNICODE_REPLACEMENT) := by
          unfold unicode_utf8_decode
          dsimp only
          rw [if_neg hascii, hlead]
          dsimp only
          rw [if_neg hsize, hj]
        exact ⟨j, by rw [hdecode], by omega, .inl (by rw [hdecode])⟩
      · obtain ⟨haccepted, hdecode⟩ | ⟨-, hdecode⟩ := unicode_utf8_decode_read hlead hsize hv
        · refine ⟨n, by rw [hdecode], hn, .inr ?_⟩
          rw [hdecode]
          refine ⟨haccepted.2, map_toNat_injective ?_⟩
          have hpos : n = n - 1 + 1 := by
            obtain ⟨rfl, -⟩ | ⟨rfl, -⟩ | ⟨rfl, -⟩ := utf8_lead_cases hlead <;> rfl
          rw [encode_spelling, hpos, take_succ_cons]
          exact spelling_of_accepted hlead (length_take_of_le hlen) hall hvalue haccepted
        · exact ⟨n, by rw [hdecode], hn, .inl (by rw [hdecode])⟩

/-! ## Reading what was written -/

theorem utf8_lead_of {b0 : UInt8} (h0 : 192 ≤ b0.toNat) :
    (b0.toNat < 224 → utf8_lead b0 = some (2, (b0 &&& 0x1F).toUInt32)) ∧
    (224 ≤ b0.toNat → b0.toNat < 240 → utf8_lead b0 = some (3, (b0 &&& 0x0F).toUInt32)) ∧
    (240 ≤ b0.toNat → b0.toNat < 248 → utf8_lead b0 = some (4, (b0 &&& 0x07).toUInt32)) := by
  obtain ⟨-, h2, h3, h4⟩ := byte_kinds b0
  unfold utf8_lead
  refine ⟨fun h => if_pos (h2.mpr ⟨h0, h⟩), fun hlo hhi => ?_, fun hlo hhi => ?_⟩
  · rw [if_neg fun h => ?_, if_pos (h3.mpr ⟨hlo, hhi⟩)]
    have := h2.mp h
    omega
  · rw [if_neg fun h => ?_, if_neg fun h => ?_, if_pos (h4.mpr ⟨hlo, hhi⟩)]
    · have := h3.mp h
      omega
    · have := h2.mp h
      omega

theorem unicode_utf8_decode_sequence {low : UInt32} {bytes rest : List UInt8}
    (hlead : utf8_lead b0 = some (n, low)) (hbytes : bytes.length = n - 1) (hall : ∀ b ∈ bytes, Continuation b)
    (hvalue : cp.toNat = utf8_value low.toNat bytes) (haccepted : Accepted n cp)
    (hlen : (b0 :: bytes ++ rest).length < 2 ^ 31) :
    unicode_utf8_decode (b0 :: bytes ++ rest) = ((n : Int), cp) := by
  have hpos : n = bytes.length + 1 ∧ (low.toNat + 1) * 64 ^ (n - 1) ≤ 2 ^ 32 := by
    obtain ⟨rfl, -, -, hlt⟩ | ⟨rfl, -, -, hlt⟩ | ⟨rfl, -, -, hlt⟩ := utf8_lead_cases hlead <;> omega
  have hsize : ¬ int_of_size (b0 :: (bytes ++ rest)).length < n := by
    rw [← cons_append, int_of_size_eq hlen, length_append, length_cons, hpos.1]
    omega
  have htake : (bytes ++ rest).take (n - 1) = bytes := take_left' hbytes
  have hle : n - 1 ≤ (bytes ++ rest).length := by
    rw [length_append]
    omega
  rw [cons_append]
  obtain ⟨j, -, -, -, hnot⟩ | ⟨v, hv, -, hread⟩ := @utf8_continue_cases _ 1 _ _ hle hpos.2
  · rw [htake] at hnot
    exact absurd hall hnot
  · rw [htake, ← hvalue] at hread
    obtain rfl := UInt32.toNat_inj.mp hread
    obtain ⟨-, hdecode⟩ | ⟨hnot, -⟩ := unicode_utf8_decode_read hlead hsize hv
    · exact hdecode
    · exact absurd haccepted hnot

/-- The bytes of a code point are read back, whatever follows them. -/
theorem decode_encode (hcp : IsScalar cp) (rest : List UInt8)
    (hlen : (unicode_utf8_encode cp ++ rest).length < 2 ^ 31) :
    unicode_utf8_decode (unicode_utf8_encode cp ++ rest) = (((unicode_utf8_encode cp).length : Int), cp) := by
  have hmax : cp.toNat ≤ 1114111 := UInt32.le_iff_toNat_le.mp hcp.1
  have hspelling := encode_spelling cp
  generalize unicode_utf8_encode cp = bytes at hspelling hlen ⊢
  unfold spelling at hspelling
  by_cases h1 : cp.toNat < 0x80
  · rw [if_pos h1] at hspelling
    obtain ⟨b0, rfl, hb0⟩ := List.map_eq_singleton_iff.mp hspelling
    have hascii : b0 < 0x80 := UInt8.lt_iff_toNat_lt.mpr (by rw [hb0]; exact h1)
    have hdecode : unicode_utf8_decode ([b0] ++ rest) = (1, b0.toUInt32) := if_pos hascii
    have hcode : b0.toUInt32 = cp := UInt32.toNat_inj.mp (by rw [UInt8.toNat_toUInt32, hb0])
    rw [hdecode, hcode]
    rfl
  rw [if_neg h1] at hspelling
  by_cases h2 : cp.toNat < 0x800
  · rw [if_pos h2] at hspelling
    obtain ⟨b0, bytes, rfl, hb0, hspelling⟩ := List.map_eq_cons_iff.mp hspelling
    obtain ⟨b1, rfl, hb1⟩ := List.map_eq_singleton_iff.mp hspelling
    have hlead := (@utf8_lead_of b0 (by omega)).1 (by omega)
    have haccepted : Accepted 2 cp := ⟨Nat.not_lt.mp h1, hcp⟩
    refine unicode_utf8_decode_sequence hlead rfl ?_ ?_ haccepted hlen
    · exact List.forall_mem_singleton.mpr (by unfold Continuation; omega)
    · change cp.toNat = (b0 &&& 0x1F).toNat * 64 + b1.toNat % 64
      rw [(low_bits b0).2.1]
      omega
  rw [if_neg h2] at hspelling
  by_cases h3 : cp.toNat < 0x10000
  · rw [if_pos h3] at hspelling
    obtain ⟨b0, bytes, rfl, hb0, hspelling⟩ := List.map_eq_cons_iff.mp hspelling
    obtain ⟨b1, bytes, rfl, hb1, hspelling⟩ := List.map_eq_cons_iff.mp hspelling
    obtain ⟨b2, rfl, hb2⟩ := List.map_eq_singleton_iff.mp hspelling
    have hlead := (@utf8_lead_of b0 (by omega)).2.1 (by omega) (by omega)
    have haccepted : Accepted 3 cp := ⟨Nat.not_lt.mp h2, hcp⟩
    refine unicode_utf8_decode_sequence hlead rfl ?_ ?_ haccepted hlen
    · simp only [forall_mem_cons, Continuation]
      exact ⟨by omega, by omega, by simp⟩
    · change cp.toNat = ((b0 &&& 0x0F).toNat * 64 + b1.toNat % 64) * 64 + b2.toNat % 64
      rw [(low_bits b0).2.2.1]
      omega
  · rw [if_neg h3, if_pos hmax] at hspelling
    obtain ⟨b0, bytes, rfl, hb0, hspelling⟩ := List.map_eq_cons_iff.mp hspelling
    obtain ⟨b1, bytes, rfl, hb1, hspelling⟩ := List.map_eq_cons_iff.mp hspelling
    obtain ⟨b2, bytes, rfl, hb2, hspelling⟩ := List.map_eq_cons_iff.mp hspelling
    obtain ⟨b3, rfl, hb3⟩ := List.map_eq_singleton_iff.mp hspelling
    have hlead := (@utf8_lead_of b0 (by omega)).2.2 (by omega) (by omega)
    have haccepted : Accepted 4 cp := ⟨Nat.not_lt.mp h3, hcp⟩
    refine unicode_utf8_decode_sequence hlead rfl ?_ ?_ haccepted hlen
    · simp only [forall_mem_cons, Continuation]
      exact ⟨by omega, by omega, by omega, by simp⟩
    · change cp.toNat = (((b0 &&& 0x07).toNat * 64 + b1.toNat % 64) * 64 + b2.toNat % 64) * 64 + b3.toNat % 64
      rw [(low_bits b0).2.2.2]
      omega

theorem encode_length_pos (hcp : IsScalar cp) : 0 < (unicode_utf8_encode cp).length := by
  have hmax : cp.toNat ≤ 1114111 := UInt32.le_iff_toNat_le.mp hcp.1
  rw [← length_map UInt8.toNat, encode_spelling, spelling]
  split_ifs <;> simp

/-! ## A whole text -/

section Text

variable {cps : List UInt32}

theorem decode_head (hcp : IsScalar cp) (hlen : ((cp :: cps).flatMap unicode_utf8_encode).length < 2 ^ 31) :
    unicode_utf8_decode ((cp :: cps).flatMap unicode_utf8_encode) = (((unicode_utf8_encode cp).length : Int), cp) ∧
    ((cp :: cps).flatMap unicode_utf8_encode).drop (unicode_utf8_encode cp).length =
      cps.flatMap unicode_utf8_encode := by
  rw [flatMap_cons] at hlen ⊢
  exact ⟨decode_encode hcp _ hlen, drop_left⟩

theorem utf8_decode_all_encode (hcps : ∀ cp ∈ cps, IsScalar cp)
    (hlen : (cps.flatMap unicode_utf8_encode).length < 2 ^ 31)
    (hleft : (cps.flatMap unicode_utf8_encode).length ≤ left) :
    utf8_decode_all left (cps.flatMap unicode_utf8_encode) = (cps, []) := by
  induction cps generalizing left with
  | nil => cases left <;> rfl
  | cons cp cps ih =>
    obtain ⟨hcp, hrest⟩ := List.forall_mem_cons.mp hcps
    obtain ⟨hdecode, hdrop⟩ := decode_head hcp hlen
    have hpos := encode_length_pos hcp
    have htotal : ((cp :: cps).flatMap unicode_utf8_encode).length =
        (unicode_utf8_encode cp).length + (cps.flatMap unicode_utf8_encode).length := by
      rw [flatMap_cons, length_append]
    cases left with
    | zero => omega
    | succ left =>
      rw [utf8_decode_all, hdecode, if_neg (by omega)]
      dsimp only
      rw [Int.toNat_natCast, hdrop, ih hrest (by omega) (by omega)]

theorem utf8_count_encode (hcps : ∀ cp ∈ cps, IsScalar cp) (hlen : (cps.flatMap unicode_utf8_encode).length < 2 ^ 31)
    (hleft : (cps.flatMap unicode_utf8_encode).length ≤ left) :
    utf8_count left (cps.flatMap unicode_utf8_encode) = cps.length := by
  induction cps generalizing left with
  | nil => cases left <;> rfl
  | cons cp cps ih =>
    obtain ⟨hcp, hrest⟩ := List.forall_mem_cons.mp hcps
    obtain ⟨hdecode, hdrop⟩ := decode_head hcp hlen
    have hpos := encode_length_pos hcp
    have htotal : ((cp :: cps).flatMap unicode_utf8_encode).length =
        (unicode_utf8_encode cp).length + (cps.flatMap unicode_utf8_encode).length := by
      rw [flatMap_cons, length_append]
    have hne : (cp :: cps).flatMap unicode_utf8_encode ≠ [] := ne_nil_of_length_pos (by omega)
    cases left with
    | zero => omega
    | succ left =>
      rw [utf8_count, if_neg hne, hdecode, if_neg (by omega)]
      dsimp only
      rw [Int.toNat_natCast, hdrop, ih hrest (by omega) (by omega), length_cons]

end Text

/-- A text is read back as the code points that it was written from, and what the decoder takes for a code point is
its encoding. -/
theorem utf8_round_trip :
    (∀ cps : List UInt32, (∀ cp ∈ cps, IsScalar cp) → (cps.flatMap unicode_utf8_encode).length < 2 ^ 31 →
      utf8_decode_all (cps.flatMap unicode_utf8_encode).length (cps.flatMap unicode_utf8_encode) = (cps, []) ∧
      unicode_utf8_len (cps.flatMap unicode_utf8_encode) = cps.length) ∧
    ∀ src : List UInt8, (unicode_utf8_decode src).1 ≤ src.length ∧
      ((unicode_utf8_decode src).1 > 0 → (unicode_utf8_decode src).2 ≠ UNICODE_REPLACEMENT →
        src.take (unicode_utf8_decode src).1.toNat = unicode_utf8_encode (unicode_utf8_decode src).2 ∧
        IsScalar (unicode_utf8_decode src).2) := by
  refine ⟨fun cps hcps hlen => ⟨utf8_decode_all_encode hcps hlen le_rfl, utf8_count_encode hcps hlen le_rfl⟩,
    fun src => ?_⟩
  obtain ⟨n, hn, hle, hcases⟩ := unicode_utf8_decode_cases src
  refine ⟨by omega, fun _ hne => ?_⟩
  obtain hrepl | ⟨hscalar, htake⟩ := hcases
  · exact absurd hrepl hne
  · rw [hn, Int.toNat_natCast]
    exact ⟨htake, hscalar⟩

/-- One code point of every length. -/
theorem utf8_round_trip_four_lengths :
    (utf8_decode_all 10 ([0x41, 0xE9, 0x20AC, 0x1F600].flatMap unicode_utf8_encode) =
        ([0x41, 0xE9, 0x20AC, 0x1F600], [])) ∧
    ([0xE2, 0x82, 0xAC] : List UInt8) = unicode_utf8_encode 0x20AC := by
  have hscalar : ∀ cp ∈ ([0x41, 0xE9, 0x20AC, 0x1F600] : List UInt32), IsScalar cp := by
    simp only [forall_mem_cons, not_mem_nil, false_imp_iff, implies_true, and_true]
    exact ⟨by decide, by decide, by decide, by decide⟩
  exact ⟨(utf8_round_trip.1 [0x41, 0xE9, 0x20AC, 0x1F600] hscalar (by decide)).1,
    ((utf8_round_trip.2 [0xE2, 0x82, 0xAC, 0x41]).2 (by decide) (by decide)).1⟩

end graceos.llm
