import Mathlib.Tactic.Common

/-!
# A shift register with feedback

The register moves right by one bit, and the bit that falls out decides whether the feedback word is added. The step is
linear over exclusive or, which is what a table of `k` steps at once rests on.
-/

namespace shift_register

variable {w : Nat} (poly : BitVec w)

/-- One step of the register. -/
def shift (c : BitVec w) : BitVec w :=
  if c.getLsbD 0 then (c >>> 1) ^^^ poly else c >>> 1

/-- `k` steps of the register. -/
def shifts : Nat → BitVec w → BitVec w
  | 0, c => c
  | k + 1, c => shifts k (shift poly c)

variable {poly}

theorem shift_of_clear {c : BitVec w} (hclear : c.getLsbD 0 = false) : shift poly c = c >>> 1 := by
  simp [shift, hclear]

/-- The step is linear over exclusive or. -/
theorem shift_xor (a b : BitVec w) : shift poly (a ^^^ b) = shift poly a ^^^ shift poly b := by
  have hbit : (a ^^^ b).getLsbD 0 = (a.getLsbD 0 ^^ b.getLsbD 0) := BitVec.getLsbD_xor
  have hmove : (a ^^^ b) >>> 1 = (a >>> 1) ^^^ (b >>> 1) := BitVec.ushiftRight_xor_distrib a b 1
  unfold shift
  rw [hbit, hmove]
  cases a.getLsbD 0 <;> cases b.getLsbD 0
  case false.false => rfl
  case false.true => simp [BitVec.xor_assoc]
  case true.false => simp [BitVec.xor_assoc, BitVec.xor_comm poly]
  case true.true =>
    have hcancel : (a >>> 1 ^^^ poly) ^^^ (b >>> 1 ^^^ poly) = a >>> 1 ^^^ b >>> 1 := by
      rw [BitVec.xor_comm (b >>> 1) poly, BitVec.xor_assoc, ← BitVec.xor_assoc poly, BitVec.xor_self,
        BitVec.zero_xor]
    simpa using hcancel.symm

theorem shifts_xor (k : Nat) (a b : BitVec w) :
    shifts poly k (a ^^^ b) = shifts poly k a ^^^ shifts poly k b := by
  induction k generalizing a b with
  | zero => rfl
  | succ k ih => rw [shifts, shift_xor, ih]; rfl

/-- While the bits that fall out are clear, the register only moves. -/
theorem shifts_of_clear {k : Nat} {c : BitVec w} (hclear : ∀ i < k, c.getLsbD i = false) :
    shifts poly k c = c >>> k := by
  induction k generalizing c with
  | zero => simp [shifts]
  | succ k ih =>
    have hrest : ∀ i < k, (c >>> 1).getLsbD i = false := by
      intro i hi
      rw [BitVec.getLsbD_ushiftRight]
      exact hclear (1 + i) (by omega)
    rw [shifts, shift_of_clear (hclear 0 (by omega)), ih hrest, ← BitVec.shiftRight_add, Nat.add_comm]

/-- The low bits decide what the feedback does, the other bits only move. -/
theorem shifts_split {k : Nat} {c low high : BitVec w} (hsplit : c = low ^^^ high)
    (hclear : ∀ i < k, high.getLsbD i = false) :
    shifts poly k c = shifts poly k low ^^^ (high >>> k) := by
  rw [hsplit, shifts_xor, shifts_of_clear hclear]

end shift_register
