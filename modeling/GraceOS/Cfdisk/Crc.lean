import GraceOS.Lib.ShiftRegister
import GraceOS.Zip.Decode

/-!
# The checksum of a partition table

`crc32_compute` of `gpt.c` works bit by bit, and `crc32_calc` of `7c.c` with a table of eight steps at once.
-/

namespace graceos.cfdisk

open shift_register

/-- The body of the loop over the bits. -/
def crc32_bit (crc : UInt32) : UInt32 :=
  if crc &&& 1 ≠ 0 then (crc >>> 1) ^^^ 0xEDB88320 else crc >>> 1

/-- The body of the loop over the bytes. -/
def crc32_byte (crc : UInt32) (p : UInt8) : UInt32 :=
  (List.range 8).foldl (fun crc _ => crc32_bit crc) (crc ^^^ p.toUInt32)

def crc32_compute (data : List UInt8) : UInt32 := data.foldl crc32_byte 0xFFFFFFFF ^^^ 0xFFFFFFFF

/-! ## Both as steps of one register -/

/-- The feedback of the register. -/
def CRC32_POLY : BitVec 32 := 0xEDB88320

theorem and_one_eq_zero (c : UInt32) : c &&& 1 = 0 ↔ c.toBitVec.getLsbD 0 = false := by
  have hbit : c.toBitVec.getLsbD 0 = decide (c.toNat % 2 = 1) := by
    rw [← UInt32.toNat_toBitVec, BitVec.getLsbD, Nat.testBit_zero]
  have hand : (c &&& 1).toNat = c.toNat % 2 := by
    rw [UInt32.toNat_and]
    exact Nat.and_one_is_mod c.toNat
  rw [hbit, ← UInt32.toNat_inj, hand, decide_eq_false_iff_not]
  change c.toNat % 2 = 0 ↔ _
  omega

theorem crc32_bit_shift (c : UInt32) : (crc32_bit c).toBitVec = shift CRC32_POLY c.toBitVec := by
  unfold crc32_bit shift
  by_cases hlow : c &&& 1 = 0
  · rw [if_neg (by simpa using hlow), (and_one_eq_zero c).mp hlow, if_neg Bool.false_ne_true]
    rfl
  · have hset : c.toBitVec.getLsbD 0 = true := by
      rw [← Bool.not_eq_false, ← and_one_eq_zero c]
      exact hlow
    rw [if_pos hlow, if_pos hset]
    rfl

theorem crc32_bit_table (c : UInt32) :
    (if c &&& 1 ≠ 0 then (0xEDB88320 : UInt32) ^^^ (c >>> 1) else c >>> 1) = crc32_bit c := by
  unfold crc32_bit
  rw [UInt32.xor_comm]

theorem crc32_bits_shifts (rounds : List Nat) (c : UInt32) :
    (rounds.foldl (fun crc _ => crc32_bit crc) c).toBitVec = shifts CRC32_POLY rounds.length c.toBitVec := by
  induction rounds generalizing c with
  | nil => rfl
  | cons round rounds ih => rw [List.foldl_cons, ih, crc32_bit_shift, List.length_cons, shifts]

theorem crc32_byte_shifts (crc : UInt32) (p : UInt8) :
    (crc32_byte crc p).toBitVec = shifts CRC32_POLY 8 (crc ^^^ p.toUInt32).toBitVec :=
  crc32_bits_shifts (List.range 8) _

theorem crc32_entry_shifts (i : UInt32) : (zip.crc32_entry i).toBitVec = shifts CRC32_POLY 8 i.toBitVec := by
  unfold zip.crc32_entry
  simp only [crc32_bit_table]
  exact crc32_bits_shifts (List.range 8) i

/-! ## A step of the table is eight steps of the register -/

theorem low_byte_bits (c : UInt32) (i : Nat) :
    (c &&& 0xFF).toBitVec.getLsbD i = (decide (i < 8) && c.toBitVec.getLsbD i) := by
  have hmask : ∀ i, (0xFF : UInt32).toBitVec.getLsbD i = decide (i < 8) := by
    intro i
    exact Nat.testBit_two_pow_sub_one 8 i
  rw [UInt32.toBitVec_and, BitVec.getLsbD_and, hmask, Bool.and_comm]

theorem high_bits_clear (c : UInt32) : ∀ i < 8, (c ^^^ (c &&& 0xFF)).toBitVec.getLsbD i = false := by
  intro i hi
  rw [UInt32.toBitVec_xor, BitVec.getLsbD_xor, low_byte_bits, decide_eq_true hi, Bool.true_and, Bool.xor_self]

theorem xor_low_byte (c : UInt32) : c = (c &&& 0xFF) ^^^ (c ^^^ (c &&& 0xFF)) := by
  rw [UInt32.xor_comm c, ← UInt32.xor_assoc, UInt32.xor_self, UInt32.zero_xor]

theorem high_bits_move (crc : UInt32) (p : UInt8) :
    ((crc ^^^ p.toUInt32) ^^^ ((crc ^^^ p.toUInt32) &&& 0xFF)).toBitVec >>> 8 = crc.toBitVec >>> 8 := by
  apply BitVec.eq_of_getLsbD_eq
  intro i _
  have hbyte : p.toUInt32.toBitVec.getLsbD (8 + i) = false := by
    have hlt : p.toUInt32.toNat < 2 ^ (8 + i) :=
      calc p.toUInt32.toNat = p.toNat := UInt8.toNat_toUInt32 p
        _ < 2 ^ 8 := p.toNat_lt
        _ ≤ 2 ^ (8 + i) := Nat.pow_le_pow_right (by decide) (by omega)
    exact Nat.testBit_lt_two_pow hlt
  have hout : decide (8 + i < 8) = false := decide_eq_false (by omega)
  rw [BitVec.getLsbD_ushiftRight, BitVec.getLsbD_ushiftRight, UInt32.toBitVec_xor, BitVec.getLsbD_xor, low_byte_bits,
    UInt32.toBitVec_xor, BitVec.getLsbD_xor, hbyte, hout]
  simp

theorem crc32_byte_table (crc : UInt32) (p : UInt8) :
    zip.crc32_entry ((crc ^^^ p.toUInt32) &&& 0xFF) ^^^ (crc >>> 8) = crc32_byte crc p := by
  apply UInt32.toBitVec_inj.mp
  let c := crc ^^^ p.toUInt32
  have hsplit : shifts CRC32_POLY 8 c.toBitVec =
      shifts CRC32_POLY 8 (c &&& 0xFF).toBitVec ^^^ ((c ^^^ (c &&& 0xFF)).toBitVec >>> 8) :=
    shifts_split (congrArg UInt32.toBitVec (xor_low_byte c)) (high_bits_clear c)
  rw [crc32_byte_shifts, hsplit, high_bits_move, UInt32.toBitVec_xor, crc32_entry_shifts]
  rfl

/-- Both checksums of a byte string are the same word. -/
theorem crc32_calc_compute (data : List UInt8) : zip.crc32_calc data = crc32_compute data := by
  have hrun : ∀ c, data.foldl (fun c d => zip.crc32_entry ((c ^^^ d.toUInt32) &&& 0xFF) ^^^ (c >>> 8)) c =
      data.foldl crc32_byte c := by
    induction data with
    | nil => intro c; rfl
    | cons d data ih =>
      intro c
      rw [List.foldl_cons, List.foldl_cons, crc32_byte_table, ih]
  rw [zip.crc32_calc, hrun, crc32_compute]

end graceos.cfdisk
