import Mathlib.Algebra.Group.Int.Defs
import Mathlib.Algebra.Group.Nat.Defs
import Mathlib.Data.Nat.Basic

/-!
# Radix tables in a word memory

A table is 512 words at an aligned address, and a word may refer to a table of the next level. The
tables of level `l` have keys of `l` digits; `walk` follows the digits of a key from the root. What
is proved here is how the walks change when a word of one table is written.
-/

namespace radix

variable {W : Type*} (next : W → Option Nat) (root : Nat)

/-- The address of the word `i` of a table. -/
def slot (table i : Nat) : Nat := table + 8 * i

/-- The table of level `l` with the key `k`. -/
def walk (m : Nat → W) : (l k : Nat) → Option Nat
  | 0, _ => some root
  | l + 1, k => (walk m l (k / 512)).bind fun t => next (m (slot t (k % 512)))

/-- The tables down to level `d` are aligned and each has one key. -/
structure Tree (d : Nat) (m : Nat → W) : Prop where
  aligned : ∀ l ≤ d, ∀ k t, k < 512 ^ l → walk next root m l k = some t → t % 4096 = 0
  unique : ∀ l ≤ d, ∀ l' ≤ d, ∀ k k' t, k < 512 ^ l → k' < 512 ^ l' → walk next root m l k = some t →
    walk next root m l' k' = some t → l = l' ∧ k = k'

variable {next : W → Option Nat} {root d l k i t f : Nat} {m m' : Nat → W}

theorem slot_inj {t t' i j : Nat} (ht : t % 4096 = 0) (ht' : t' % 4096 = 0) (hi : i < 512) (hj : j < 512)
    (heq : slot t i = slot t' j) : t = t' ∧ i = j := by
  simp only [slot] at heq
  omega

theorem walk_succ (hw : walk next root m l k = some t) (hi : i < 512) :
    walk next root m (l + 1) (k * 512 + i) = next (m (slot t i)) := by
  have hdiv : (k * 512 + i) / 512 = k := by omega
  have hmod : (k * 512 + i) % 512 = i := by omega
  rw [walk, hdiv, hw, hmod]
  rfl

theorem div_lt_pow (hk : k < 512 ^ (l + 1)) : k / 512 < 512 ^ l := by
  rw [Nat.pow_succ] at hk
  exact Nat.div_lt_of_lt_mul (by rwa [Nat.mul_comm])

/-- The tables are the same, or some of them are no longer reached. -/
theorem Tree.of_le (ht : Tree next root d m)
    (hle : ∀ l ≤ d, ∀ k t, k < 512 ^ l → walk next root m' l k = some t → walk next root m l k = some t) :
    Tree next root d m' :=
  ⟨fun l hl k t hk hw => ht.aligned l hl k t hk (hle l hl k t hk hw), fun l hl l' hl' k k' t hk hk' hw hw' =>
    ht.unique l hl l' hl' k k' t hk hk' (hle l hl k t hk hw) (hle l' hl' k' t hk' hw')⟩

section Write

variable (ht : Tree next root d m) (hl : l ≤ d) (hk : k < 512 ^ l) (hw : walk next root m l k = some t) (hi : i < 512)
include ht hl hk hw hi

/-- The word `i` of the table with the key `k` of level `l` is read on the way to one key of the next
level only. -/
theorem Tree.slot_eq {l' k' t' : Nat} (hl' : l' ≤ d) (hk' : k' < 512 ^ (l' + 1))
    (hw' : walk next root m l' (k' / 512) = some t') (heq : slot t' (k' % 512) = slot t i) :
    l' = l ∧ k' = k * 512 + i := by
  obtain ⟨rfl, hmod⟩ := slot_inj (ht.aligned l' hl' _ _ (div_lt_pow hk') hw')
    (ht.aligned l hl _ _ hk hw) (Nat.mod_lt _ (by omega)) hi heq
  obtain ⟨rfl, hdiv⟩ := ht.unique l' hl' l hl _ _ _ (div_lt_pow hk') hk hw' hw
  exact ⟨rfl, by omega⟩

/-- A word that refers to no table is written: no table is reached by a new way. -/
theorem Tree.cut (hsame : ∀ a, a ≠ slot t i → m' a = m a) (hnone : next (m' (slot t i)) = none) :
    ∀ l' ≤ d, ∀ k', k' < 512 ^ l' → walk next root m' l' k' = walk next root m l' k' ∨
      walk next root m' l' k' = none := by
  intro l' hl'
  induction l' with
  | zero => exact fun _ _ => .inl rfl
  | succ l' ih =>
    intro k' hk'
    rcases ih (by omega) (k' / 512) (div_lt_pow hk') with hsame' | hnone'
    · rw [walk, walk, hsame']
      cases hw' : walk next root m l' (k' / 512) with
      | none => exact .inl rfl
      | some t' =>
        simp only [Option.bind_some]
        by_cases heq : slot t' (k' % 512) = slot t i
        · right
          rw [heq]
          exact hnone
        · left
          rw [hsame _ heq]
    · right
      rw [walk, hnone']
      rfl

/-- A word of the last level, or one that refers to no table before and after: every table is reached
as before. -/
theorem Tree.keep (hsame : ∀ a, a ≠ slot t i → m' a = m a)
    (hnone : l < d → next (m (slot t i)) = none ∧ next (m' (slot t i)) = none) :
    ∀ l' ≤ d, ∀ k', k' < 512 ^ l' → walk next root m' l' k' = walk next root m l' k' := by
  intro l' hl'
  induction l' with
  | zero => exact fun _ _ => rfl
  | succ l' ih =>
    intro k' hk'
    rw [walk, walk, ih (by omega) (k' / 512) (div_lt_pow hk')]
    cases hw' : walk next root m l' (k' / 512) with
    | none => rfl
    | some t' =>
      simp only [Option.bind_some]
      by_cases heq : slot t' (k' % 512) = slot t i
      · obtain ⟨rfl, -⟩ := ht.slot_eq hl hk hw hi (by omega) hk' hw' heq
        rw [heq, (hnone (by omega)).1, (hnone (by omega)).2]
      · rw [hsame _ heq]

/-- A fresh, empty table `f` is entered where there was none. -/
theorem Tree.link (hld : l < d) (hfresh : ∀ l' ≤ d, ∀ k', k' < 512 ^ l' → walk next root m l' k' ≠ some f)
    (hsame : ∀ a, a ≠ slot t i → (a < f ∨ f + 4096 ≤ a) → m' a = m a) (hfa : f % 4096 = 0)
    (hbefore : next (m (slot t i)) = none) (hafter : next (m' (slot t i)) = some f)
    (hempty : ∀ j < 512, next (m' (slot f j)) = none) :
    ∀ l' ≤ d, ∀ k', k' < 512 ^ l' → walk next root m' l' k' =
      if l' = l + 1 ∧ k' = k * 512 + i then some f else walk next root m l' k' := by
  intro l' hl'
  induction l' with
  | zero =>
    intro k' _
    rw [if_neg (by omega)]
    rfl
  | succ l' ih =>
    intro k' hk'
    rw [walk, ih (by omega) (k' / 512) (div_lt_pow hk')]
    by_cases hnew : l' = l + 1 ∧ k' / 512 = k * 512 + i
    · -- below the fresh table there is nothing, as before
      rw [if_pos hnew, if_neg (by omega), walk, hnew.1, hnew.2, walk_succ hw hi, hbefore]
      exact hempty _ (Nat.mod_lt _ (by omega))
    · rw [if_neg hnew]
      cases hw' : walk next root m l' (k' / 512) with
      | none =>
        have hne : ¬ (l' + 1 = l + 1 ∧ k' = k * 512 + i) := by
          rintro ⟨hll, rfl⟩
          obtain rfl : l' = l := by omega
          rw [show (k * 512 + i) / 512 = k by omega, hw] at hw'
          cases hw'
        rw [if_neg hne, walk, hw']
        rfl
      | some t' =>
        simp only [Option.bind_some]
        have ht'f : t' ≠ f := by
          rintro rfl
          exact hfresh l' (by omega) _ (div_lt_pow hk') hw'
        have ha' := ht.aligned l' (by omega) _ _ (div_lt_pow hk') hw'
        have hout : slot t' (k' % 512) < f ∨ f + 4096 ≤ slot t' (k' % 512) := by
          simp only [slot]
          omega
        by_cases heq : slot t' (k' % 512) = slot t i
        · obtain ⟨rfl, hkk⟩ := ht.slot_eq hl hk hw hi (by omega) hk' hw' heq
          rw [if_pos ⟨rfl, hkk⟩, heq, hafter]
        · have hne : ¬ (l' + 1 = l + 1 ∧ k' = k * 512 + i) := by
            rintro ⟨hll, rfl⟩
            obtain rfl : l' = l := by omega
            rw [show (k * 512 + i) / 512 = k by omega, hw] at hw'
            cases hw'
            exact heq (by rw [show (k * 512 + i) % 512 = i by omega])
          rw [if_neg hne, hsame _ heq hout, walk, hw']
          rfl

/-- The tables with a fresh one entered are still a tree. -/
theorem Tree.linked (hld : l < d) (hfresh : ∀ l' ≤ d, ∀ k', k' < 512 ^ l' → walk next root m l' k' ≠ some f)
    (hfa : f % 4096 = 0)
    (hwalk : ∀ l' ≤ d, ∀ k', k' < 512 ^ l' → walk next root m' l' k' =
      if l' = l + 1 ∧ k' = k * 512 + i then some f else walk next root m l' k') : Tree next root d m' := by
  refine ⟨fun l' hl' k' t' hk' hw' => ?_, fun l₁ hl₁ l₂ hl₂ k₁ k₂ t' hk₁ hk₂ hw₁ hw₂ => ?_⟩
  · rw [hwalk l' hl' k' hk'] at hw'
    split at hw'
    · cases hw'
      exact hfa
    · exact ht.aligned l' hl' k' t' hk' hw'
  · rw [hwalk l₁ hl₁ k₁ hk₁] at hw₁
    rw [hwalk l₂ hl₂ k₂ hk₂] at hw₂
    split at hw₁ <;> split at hw₂
    · next h₁ h₂ => exact ⟨h₁.1.trans h₂.1.symm, h₁.2.trans h₂.2.symm⟩
    · cases hw₁
      exact absurd hw₂ (hfresh l₂ hl₂ k₂ hk₂)
    · cases hw₂
      exact absurd hw₁ (hfresh l₁ hl₁ k₁ hk₁)
    · exact ht.unique l₁ hl₁ l₂ hl₂ k₁ k₂ t' hk₁ hk₂ hw₁ hw₂

/-- A word of a table in use other than the one written. -/
theorem Tree.slot_ne {l' k' t' j : Nat} (hl' : l' ≤ d) (hk' : k' < 512 ^ l')
    (hw' : walk next root m l' k' = some t') (hj : j < 512) (hne : ¬ (l' = l ∧ k' * 512 + j = k * 512 + i)) :
    slot t' j ≠ slot t i := by
  intro heq
  obtain ⟨rfl, rfl⟩ := slot_inj (ht.aligned l' hl' _ _ hk' hw') (ht.aligned l hl _ _ hk hw) hj hi heq
  obtain ⟨rfl, rfl⟩ := ht.unique l' hl' l hl _ _ _ hk' hk hw' hw
  exact hne ⟨rfl, rfl⟩

end Write

end radix
