import Mathlib.Algebra.Group.Int.Defs
import Mathlib.Algebra.Group.Nat.Defs
import Mathlib.Order.Basic
import Mathlib.Order.Defs.LinearOrder
import Mathlib.Tactic.Common

/-- Machine words are linearly ordered by their unsigned values. -/
instance UInt64.instLinearOrder : LinearOrder UInt64 where
  le_refl := UInt64.le_refl
  le_trans := fun _ _ _ => UInt64.le_trans
  lt_iff_le_not_ge := fun a b => by
    simp only [UInt64.lt_iff_toNat_lt, UInt64.le_iff_toNat_le]
    omega
  le_antisymm := fun _ _ => UInt64.le_antisymm
  le_total := UInt64.le_total
  toDecidableLE := inferInstance
  toDecidableEq := inferInstance
  toDecidableLT := inferInstance

namespace word

/-- The characters of a string literal. -/
def ascii (s : String) : List UInt8 := s.toList.map Char.toUInt8

/-- The little-endian number stored in `width` bytes from `offset` on. -/
def load (bytes : Nat → UInt8) (offset : Nat) : Nat → Nat
  | 0 => 0
  | width + 1 => (bytes offset).toNat + 256 * load bytes (offset + 1) width

/-- Byte `index` of the little-endian representation of a number. -/
def byte (value index : Nat) : UInt8 :=
  UInt8.ofNat (value / 256 ^ index)

theorem byte_zero_toNat (value : Nat) : (byte value 0).toNat = value % 256 := by
  simp [byte]

theorem byte_succ (value index : Nat) : byte value (index + 1) = byte (value / 256) index := by
  simp only [byte, Nat.pow_succ, Nat.mul_comm (256 ^ index) 256, Nat.div_div_eq_div_mul]

variable {bytes : Nat → UInt8} {width offset value : Nat}

/-- Loading bytes that spell out a number returns it, cut to the width. -/
theorem load_of_bytes
    (hbytes : ∀ index < width, bytes (offset + index) = byte value index) :
    load bytes offset width = value % 256 ^ width := by
  induction width generalizing offset value with
  | zero => simp [load, Nat.mod_one]
  | succ width ih =>
    have hhead := hbytes 0 (by omega)
    have htail : ∀ index < width, bytes (offset + 1 + index) = byte (value / 256) index := by
      intro index hindex
      rw [← byte_succ, ← hbytes (index + 1) (by omega)]
      congr 1
      omega
    rw [load, ih htail, Nat.pow_succ, Nat.mul_comm (256 ^ width) 256, Nat.mod_mul]
    rw [Nat.add_zero] at hhead
    rw [hhead, byte_zero_toNat]

theorem load_congr {first second : Nat → UInt8}
    (hsame : ∀ index < width, first (offset + index) = second (offset + index)) :
    load first offset width = load second offset width := by
  induction width generalizing offset with
  | zero => rfl
  | succ width ih =>
    have hhead := hsame 0 (by omega)
    rw [Nat.add_zero] at hhead
    rw [load, load, hhead, ih]
    intro index hindex
    have htail := hsame (index + 1) (by omega)
    rwa [show offset + (index + 1) = offset + 1 + index by omega] at htail

/-- Memory with the `width` low bytes of `value` stored from `offset` on. -/
def store (bytes : Nat → UInt8) (offset width value : Nat) : Nat → UInt8 := fun a =>
  if offset ≤ a ∧ a < offset + width then byte value (a - offset) else bytes a

theorem store_outside {a : Nat}
    (hout : a < offset ∨ offset + width ≤ a) : store bytes offset width value a = bytes a := by
  unfold store
  rw [if_neg (by omega)]

theorem store_congr {first second : Nat → UInt8} {a : Nat} (hsame : first a = second a) :
    store first offset width value a = store second offset width value a := by
  unfold store
  rw [hsame]

/-- What was stored is loaded again. -/
theorem load_store
    (hvalue : value < 256 ^ width) :
    load (store bytes offset width value) offset width = value := by
  refine (load_of_bytes fun index hindex => ?_).trans (Nat.mod_eq_of_lt hvalue)
  unfold store
  rw [if_pos (by omega)]
  congr 1
  omega

/-- A store elsewhere does not change what is loaded. -/
theorem load_store_apart {place count : Nat} (hapart : place + count ≤ offset ∨ offset + width ≤ place) :
    load (store bytes offset width value) place count = load bytes place count :=
  load_congr fun _ _ => store_outside (by omega)

/-- Incrementing a word that lies below another one does not wrap around. -/
theorem toNat_succ {value : UInt64} (hbound : value.toNat + 1 < 2 ^ 64) :
    (value + 1).toNat = value.toNat + 1 := by
  rw [UInt64.toNat_add]
  exact Nat.mod_eq_of_lt hbound

theorem toNat_pred {value : UInt64} (hpositive : value ≠ 0) :
    (value - 1).toNat = value.toNat - 1 := by
  have hne : value.toNat ≠ 0 := fun h => hpositive (UInt64.toNat_inj.mp h)
  have hone : (1 : UInt64) ≤ value := by
    rw [UInt64.le_iff_toNat_le]
    change 1 ≤ value.toNat
    omega
  rw [UInt64.toNat_sub_of_le _ _ hone]
  rfl

/-- The two bytes of a 16-bit word, joined again. -/
theorem join_bytes (x : UInt16) : (x >>> 8).toUInt8.toUInt32 <<< 8 ||| x.toUInt8.toUInt32 = x.toUInt32 := by
  apply UInt32.toNat_inj.mp
  have hlt := x.toNat_lt
  have hhi : ((x >>> 8).toUInt8.toUInt32 <<< 8).toNat = x.toNat / 2 ^ 8 * 2 ^ 8 := by
    simp [Nat.shiftLeft_eq, Nat.shiftRight_eq_div_pow]
    omega
  have hlo : x.toUInt8.toUInt32.toNat = x.toNat % 2 ^ 8 := by simp
  rw [UInt32.toNat_or, hhi, hlo, ← Nat.shiftLeft_eq, ← Nat.shiftLeft_add_eq_or_of_lt (Nat.mod_lt _ (by decide)),
    Nat.shiftLeft_eq, UInt16.toNat_toUInt32]
  omega

end word
