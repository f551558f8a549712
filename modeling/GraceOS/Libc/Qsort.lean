import GraceOS.Lib.InPlace
import Mathlib.Algebra.Order.Ring.Int
import Mathlib.Logic.Function.Basic

/-!
# Sorting

`qsort` of `stdlib.c`: the elements are blocks of bytes, the comparator gets two of them, and they trade places byte by
byte.
-/

namespace graceos.libc

open inplace Function

abbrev Memory := Nat → UInt8

/-- The bytes of an element that lies at an address. -/
def block (m : Memory) (size address : Nat) : List UInt8 := (List.range size).map fun k => m (address + k)

/-- Arithmetic of `size_t`. -/
def size_t (n : Nat) : Nat := n % 2 ^ 64

/-- The loop of `swap_bytes` over the first bytes of two blocks. -/
def swap_bytes (m : Memory) (a b : Nat) : (size : Nat) → Memory
  | 0 => m
  | i + 1 =>
    let m := swap_bytes m a b i
    let tmp := m (a + i)
    let m := update m (a + i) (m (b + i))
    update m (b + i) tmp

/-- The memory, and the addresses of all elements that were compared or that traded places. -/
structure Sorting where
  mem : Memory
  touched : List Nat

def Sorting.compare (s : Sorting) (a b : Nat) : Sorting := { s with touched := a :: b :: s.touched }

@[simp] theorem Sorting.mem_compare (s : Sorting) (a b : Nat) : (s.compare a b).mem = s.mem := rfl

/-- An array, and how its elements are compared. -/
structure Elements where
  base : Nat
  size : Nat
  compar : List UInt8 → List UInt8 → Int

namespace Elements

variable (v : Elements)

/-- The address `base + j * size`. -/
def elem (j : Nat) : Nat := v.base + size_t (j * v.size)

def swap (s : Sorting) (a b : Nat) : Sorting := ⟨swap_bytes s.mem a b v.size, a :: b :: s.touched⟩

/-- The loop of `partition`, with the number of turns that are left. -/
def partition_loop (pivot : Nat) : (turns j i : Nat) → Sorting → Sorting × Nat
  | 0, _, i, s => (s, i)
  | turns + 1, j, i, s =>
    let elem := v.elem j
    let s := s.compare elem pivot
    if v.compar (block s.mem v.size elem) (block s.mem v.size pivot) < 0 then
      partition_loop pivot turns (size_t (j + 1)) (size_t (i + 1)) (v.swap s (v.elem i) elem)
    else partition_loop pivot turns (size_t (j + 1)) i s

def partition (s : Sorting) (low high : Nat) : Sorting × Nat :=
  let pivot := v.elem high
  let (s, i) := v.partition_loop pivot (high - low) low low s
  (v.swap s (v.elem i) pivot, i)

/-- `none` where the fuel does not suffice. -/
def qsort_rec : (fuel : Nat) → Sorting → (low high : Nat) → Option Sorting
  | 0, _, _, _ => none
  | fuel + 1, s, low, high =>
    if high ≤ low then some s
    else
      let (s, pivot) := v.partition s low high
      (if pivot > 0 then qsort_rec fuel s low (pivot - 1) else some s).bind fun s =>
        qsort_rec fuel s (size_t (pivot + 1)) high

end Elements

def qsort (fuel : Nat) (s : Sorting) (base nmemb size : Nat) (compar : Option (List UInt8 → List UInt8 → Int)) :
    Option Sorting :=
  match compar with
  | none => some s
  | some compar => if base = 0 ∨ nmemb < 2 ∨ size = 0 then some s else (Elements.mk base size compar).qsort_rec fuel
      s 0 (nmemb - 1)

/-! ## Bytes and elements -/

/-- Two blocks trade places, also where they are the same block. -/
theorem swap_bytes_apply (m : Memory) {a b size : Nat} (hapart : a = b ∨ a + size ≤ b ∨ b + size ≤ a) (x : Nat) :
    swap_bytes m a b size x =
      if a ≤ x ∧ x < a + size then m (b + (x - a)) else if b ≤ x ∧ x < b + size then m (a + (x - b)) else m x := by
  induction size generalizing x with
  | zero => rw [if_neg (by omega), if_neg (by omega), swap_bytes]
  | succ i ih =>
    have ih' := ih (by omega)
    rw [swap_bytes]
    by_cases hb : x = b + i
    · subst hb
      rw [update_self, ih' (a + i)]
      by_cases hab : a = b
      · subst hab
        rw [if_neg (by omega), if_neg (by omega), if_pos (by omega)]
        congr 1
        omega
      · rw [if_neg (by omega), if_neg (by omega), if_neg (by omega), if_pos (by omega)]
        congr 1
        omega
    · rw [update_of_ne hb]
      by_cases ha : x = a + i
      · subst ha
        rw [update_self, ih' (b + i), if_neg (by omega), if_neg (by omega), if_pos (by omega)]
        congr 1
        omega
      · rw [update_of_ne ha, ih' x]
        by_cases hina : a ≤ x ∧ x < a + i
        · rw [if_pos hina, if_pos (by omega)]
        · rw [if_neg hina, if_neg (c := a ≤ x ∧ x < a + (i + 1)) (by omega)]
          by_cases hinb : b ≤ x ∧ x < b + i
          · rw [if_pos hinb, if_pos (by omega)]
          · rw [if_neg hinb, if_neg (by omega)]

namespace Elements

variable {v : Elements}

/-- The elements of the array. -/
def view (v : Elements) (m : Memory) (k : Nat) : List UInt8 := block m v.size (v.base + k * v.size)

theorem block_view (v : Elements) (m : Memory) (k : Nat) : block m v.size (v.base + k * v.size) = v.view m k := rfl

theorem elem_eq {j : Nat} (hj : j * v.size < 2 ^ 64) : v.elem j = v.base + j * v.size := by
  rw [elem, size_t, Nat.mod_eq_of_lt hj]

theorem apart (v : Elements) (i j : Nat) : v.base + i * v.size = v.base + j * v.size ∨
    v.base + i * v.size + v.size ≤ v.base + j * v.size ∨ v.base + j * v.size + v.size ≤ v.base + i * v.size := by
  obtain hlt | rfl | hgt := Nat.lt_trichotomy i j
  · have hmul := Nat.mul_le_mul_right v.size hlt
    rw [Nat.succ_mul] at hmul
    omega
  · exact Or.inl rfl
  · have hmul := Nat.mul_le_mul_right v.size hgt
    rw [Nat.succ_mul] at hmul
    omega

theorem view_swap_bytes (v : Elements) (m : Memory) (i j : Nat) :
    v.view (swap_bytes m (v.base + i * v.size) (v.base + j * v.size) v.size) = v.view m ∘ Equiv.swap i j := by
  funext k
  rw [comp_apply]
  refine List.map_congr_left fun t ht => ?_
  have hsize := List.mem_range.mp ht
  have hi := v.apart k i
  have hj := v.apart k j
  have hneq : ∀ l, k ≠ l → v.base + k * v.size ≠ v.base + l * v.size := by
    intro l hne heq
    exact hne (Nat.eq_of_mul_eq_mul_right (by omega : 0 < v.size) (by omega))
  rw [swap_bytes_apply m (v.apart i j)]
  by_cases hki : k = i
  · subst hki
    rw [if_pos (by omega), Equiv.swap_apply_left]
    congr 1
    omega
  · have hne := hneq i hki
    rw [if_neg (by omega)]
    by_cases hkj : k = j
    · subst hkj
      rw [if_pos (by omega), Equiv.swap_apply_right]
      congr 1
      omega
    · have hne' := hneq j hkj
      rw [if_neg (by omega), Equiv.swap_apply_of_ne_of_ne hki hkj]

/-! ## Steps within a range -/

/-- The element `high` lies in an address space of 64 bits. -/
structure Fits (v : Elements) (high : Nat) : Prop where
  size : 1 ≤ v.size
  bytes : (high + 1) * v.size < 2 ^ 64

theorem Fits.elem {high k : Nat} (h : v.Fits high) (hk : k ≤ high) : v.elem k = v.base + k * v.size := by
  have hmul := Nat.mul_le_mul_right v.size (Nat.le_succ_of_le hk)
  exact elem_eq (hmul.trans_lt h.bytes)

theorem Fits.index {high k : Nat} (h : v.Fits high) (hk : k ≤ high + 1) : size_t k = k := by
  have hmul := Nat.le_mul_of_pos_right (high + 1) h.size
  have hbytes := h.bytes
  exact Nat.mod_eq_of_lt (by omega)

theorem Fits.mono {high high' : Nat} (h : v.Fits high) (hle : high' ≤ high) : v.Fits high' :=
  ⟨h.size, (Nat.mul_le_mul_right v.size (Nat.succ_le_succ hle)).trans_lt h.bytes⟩

/-- What is done between two states is done to the elements of a range: they are rearranged, no other element is
touched, and the bytes around them stay as they are. -/
structure Within (v : Elements) (s s' : Sorting) (lo hi : Nat) : Prop where
  rearranged : Rearranged (v.view s.mem) (v.view s'.mem) lo hi
  touched : ∀ o ∈ s'.touched, o ∈ s.touched ∨ ∃ k, lo ≤ k ∧ k < hi ∧ o = v.base + k * v.size
  outside : ∀ x, (x < v.base + lo * v.size ∨ v.base + hi * v.size ≤ x) → s'.mem x = s.mem x

variable {s s' s'' : Sorting} {lo hi low high i j : Nat}

theorem Within.refl (v : Elements) (s : Sorting) (lo hi : Nat) : v.Within s s lo hi :=
  ⟨Rearranged.refl _ _ _, fun _ ho => Or.inl ho, fun _ _ => rfl⟩

theorem Within.trans (h : v.Within s s' lo hi) (h' : v.Within s' s'' lo hi) : v.Within s s'' lo hi := by
  refine ⟨h.rearranged.trans h'.rearranged, fun o ho => ?_, fun x hx => (h'.outside x hx).trans (h.outside x hx)⟩
  obtain hmid | hin := h'.touched o ho
  · exact h.touched o hmid
  · exact Or.inr hin

theorem Within.mono (h : v.Within s s' lo hi) {lo' hi' : Nat} (hlo : lo' ≤ lo) (hhi : hi ≤ hi') :
    v.Within s s' lo' hi' := by
  refine ⟨h.rearranged.mono hlo hhi, fun o ho => (h.touched o ho).imp_right ?_, fun x hx => h.outside x ?_⟩
  · rintro ⟨k, hk, hkhi, heq⟩
    exact ⟨k, hlo.trans hk, hkhi.trans_le hhi, heq⟩
  · have hmullo := Nat.mul_le_mul_right v.size hlo
    have hmulhi := Nat.mul_le_mul_right v.size hhi
    omega

theorem Within.compare (v : Elements) (s : Sorting) (hi : lo ≤ i ∧ i < high) (hj : lo ≤ j ∧ j < high) :
    v.Within s (s.compare (v.base + i * v.size) (v.base + j * v.size)) lo high := by
  refine ⟨Rearranged.refl _ _ _, fun o ho => ?_, fun _ _ => rfl⟩
  rw [Sorting.compare, List.mem_cons, List.mem_cons] at ho
  obtain rfl | rfl | hold := ho
  · exact Or.inr ⟨i, hi.1, hi.2, rfl⟩
  · exact Or.inr ⟨j, hj.1, hj.2, rfl⟩
  · exact Or.inl hold

theorem Within.swap (v : Elements) (s : Sorting) (hi : lo ≤ i ∧ i < high) (hj : lo ≤ j ∧ j < high) :
    v.Within s (v.swap s (v.base + i * v.size) (v.base + j * v.size)) lo high := by
  refine ⟨?_, (Within.compare v s hi hj).touched, fun x hx => ?_⟩
  · rw [Elements.swap, view_swap_bytes]
    exact Rearranged.swap _ hi hj
  · have hlo_i := Nat.mul_le_mul_right v.size hi.1
    have hlo_j := Nat.mul_le_mul_right v.size hj.1
    have hhi_i := Nat.mul_le_mul_right v.size hi.2
    have hhi_j := Nat.mul_le_mul_right v.size hj.2
    rw [Nat.succ_mul] at hhi_i hhi_j
    change swap_bytes s.mem _ _ v.size x = s.mem x
    rw [swap_bytes_apply _ (v.apart i j), if_neg (by omega), if_neg (by omega)]

/-! ## The partition -/

/-- The loop keeps the range split at the pivot, which stays where it is. -/
theorem partition_loop_spec (hfits : v.Fits high) {turns : Nat} (hturns : j + turns = high)
    (hlow : low ≤ i) (hij : i ≤ j)
    (hsplit : Split (v.compar · · < 0) (v.view s.mem high) (v.view s.mem) low i j) :
    v.Within s (v.partition_loop (v.base + high * v.size) turns j i s).1 low (high + 1) ∧
      low ≤ (v.partition_loop (v.base + high * v.size) turns j i s).2 ∧
      (v.partition_loop (v.base + high * v.size) turns j i s).2 ≤ high ∧
      Split (v.compar · · < 0) (v.view (v.partition_loop (v.base + high * v.size) turns j i s).1.mem high)
        (v.view (v.partition_loop (v.base + high * v.size) turns j i s).1.mem) low
        (v.partition_loop (v.base + high * v.size) turns j i s).2 high := by
  induction turns generalizing j i s with
  | zero =>
    obtain rfl : j = high := hturns
    exact ⟨Within.refl v s _ _, hlow, hij, hsplit⟩
  | succ turns ih =>
    have hj : low ≤ j ∧ j < high + 1 := by omega
    have hi : low ≤ i ∧ i < high + 1 := by omega
    have hcompare := Within.compare v s hj (by omega : low ≤ high ∧ high < high + 1)
    rw [partition_loop]
    rw [hfits.elem (by omega : j ≤ high), hfits.elem (by omega : i ≤ high), hfits.index (by omega : j + 1 ≤ high + 1),
      hfits.index (by omega : i + 1 ≤ high + 1), Sorting.mem_compare, block_view, block_view]
    by_cases hless : v.compar (v.view s.mem j) (v.view s.mem high) < 0
    · rw [if_pos hless]
      have hview := v.view_swap_bytes s.mem i j
      have hpivot : v.view (swap_bytes s.mem (v.base + i * v.size) (v.base + j * v.size) v.size) high =
          v.view s.mem high := by
        rw [hview, comp_apply, Equiv.swap_apply_of_ne_of_ne (by omega) (by omega)]
      have hnext := hsplit.swap hlow hij hless
      rw [← hview, ← hpivot] at hnext
      obtain ⟨hwithin, hrest⟩ := ih (s := v.swap (s.compare _ _) (v.base + i * v.size) (v.base + j * v.size)) (by omega)
        (by omega : low ≤ i + 1) (by omega) hnext
      exact ⟨(hcompare.trans (Within.swap v _ hi hj)).trans hwithin, hrest⟩
    · rw [if_neg hless]
      obtain ⟨hwithin, hrest⟩ := ih (s := s.compare _ _) (by omega) hlow (by omega)
        (hsplit.skip hless)
      exact ⟨hcompare.trans hwithin, hrest⟩

theorem partition_spec (hfits : v.Fits high) (hle : low ≤ high) :
    v.Within s (v.partition s low high).1 low (high + 1) ∧
      low ≤ (v.partition s low high).2 ∧ (v.partition s low high).2 ≤ high ∧
      (∀ k, low ≤ k → k < (v.partition s low high).2 →
        v.compar (v.view (v.partition s low high).1.mem k)
          (v.view (v.partition s low high).1.mem (v.partition s low high).2) < 0) ∧
      ∀ k, (v.partition s low high).2 < k → k < high + 1 →
        ¬ v.compar (v.view (v.partition s low high).1.mem k)
          (v.view (v.partition s low high).1.mem (v.partition s low high).2) < 0 := by
  obtain ⟨hwithin, hlow, hhigh, hsplit⟩ := partition_loop_spec (s := s) hfits
      (by omega : low + (high - low) = high) (le_refl low)
    (le_refl low) (Split.start _ _ _ low)
  rw [partition]
  dsimp only
  rw [hfits.elem (le_refl high)]
  generalize v.partition_loop (v.base + high * v.size) (high - low) low low s = r at *
  rw [hfits.elem hhigh]
  have hplace := hsplit.place hhigh
  rw [← view_swap_bytes] at hplace
  exact ⟨hwithin.trans (Within.swap v r.1 (by omega) (by omega)), hlow, hhigh, hplace⟩

/-! ## The recursion -/

/-- The comparator orders the elements. -/
structure Comparator (compar : List UInt8 → List UInt8 → Int) (D : List UInt8 → Prop) : Prop where
  opposite : ∀ x y, D x → D y → (compar x y < 0 ↔ 0 < compar y x)
  trans : ∀ x y z, D x → D y → D z → compar x y ≤ 0 → compar y z ≤ 0 → compar x z ≤ 0

variable {D : List UInt8 → Prop}

/-- With more fuel than there are elements in the range, it is ordered. -/
theorem qsort_rec_spec (hcompar : Comparator v.compar D) {fuel : Nat} (hfuel : high + 1 - low < fuel)
    (hfits : v.Fits high)
    (hD : ∀ k, low ≤ k → k < high + 1 → D (v.view s.mem k)) :
    ∃ s', v.qsort_rec fuel s low high = some s' ∧ v.Within s s' low (high + 1) ∧
      Ordered (v.compar · · ≤ 0) (v.view s'.mem) low (high + 1) := by
  induction fuel generalizing s low high with
  | zero => omega
  | succ fuel ih =>
    rw [qsort_rec]
    by_cases hle : high ≤ low
    · rw [if_pos hle]
      exact ⟨s, rfl, Within.refl v s _ _, Ordered.of_short _ _ (by omega)⟩
    rw [if_neg hle]
    obtain ⟨hwithin, hlow, hhigh, hless, hrest⟩ := partition_spec (s := s) hfits (by omega : low ≤ high)
    generalize v.partition s low high = r at *
    obtain ⟨t, pivot⟩ := r
    dsimp only at hwithin hlow hhigh hless hrest ⊢
    have hDt := hwithin.rearranged.forall_inside hD
    rw [hfits.index (by omega : pivot + 1 ≤ high + 1)]
    -- the left side ends in front of the pivot; a pivot at the very start has none
    have hleft : ∃ u, (if pivot > 0 then v.qsort_rec fuel t low (pivot - 1) else some t) = some u ∧
        v.Within t u low pivot ∧ Ordered (v.compar · · ≤ 0) (v.view u.mem) low pivot := by
      by_cases hpos : pivot > 0
      · have hpred : pivot - 1 + 1 = pivot := by omega
        rw [if_pos hpos]
        have hih := ih (s := t) (by omega : pivot - 1 + 1 - low < fuel) (hfits.mono (by omega))
          (fun k hk hkp => hDt k hk (by omega))
        rwa [hpred] at hih
      · rw [if_neg hpos]
        exact ⟨t, rfl, Within.refl v t _ _, Ordered.of_short _ _ (by omega)⟩
    obtain ⟨u, hu, huwithin, huordered⟩ := hleft
    have huwide := huwithin.mono (le_refl low) (by omega : pivot ≤ high + 1)
    have hDu := huwide.rearranged.forall_inside hDt
    obtain ⟨w, hw, hwwithin, hwordered⟩ := ih (s := u) (by omega : high + 1 - (pivot + 1) < fuel) hfits
      (fun k hk hkh => hDu k (by omega) hkh)
    have hwwide := hwwithin.mono (by omega : low ≤ pivot + 1) (le_refl (high + 1))
    have hDw := hwwide.rearranged.forall_inside hDu
    have hfixed : v.view w.mem pivot = v.view t.mem pivot :=
      (hwwithin.rearranged.outside (by omega)).trans (huwithin.rearranged.outside (by omega))
    rw [hu]
    refine ⟨w, hw, (hwithin.trans huwide).trans hwwide, Ordered.join (i := pivot) ?_ hwordered ?_ ?_ ?_⟩
    · intro k l hk hkl hl
      rw [hwwithin.rearranged.outside (by omega : k < pivot + 1 ∨ _),
        hwwithin.rearranged.outside (by omega : l < pivot + 1 ∨ _)]
      exact huordered k l hk hkl hl
    · intro k hk hkp
      rw [hfixed, hwwithin.rearranged.outside (by omega : k < pivot + 1 ∨ _)]
      exact Int.le_of_lt (huwithin.rearranged.forall_inside (P := (v.compar · (v.view t.mem pivot) < 0)) hless k hk hkp)
    · intro k hpk hkh
      have hbehind : ∀ l, pivot + 1 ≤ l → l < high + 1 → ¬ v.compar (v.view u.mem l) (v.view t.mem pivot) < 0 := by
        intro l hl hlh
        rw [huwithin.rearranged.outside (by omega : _ ∨ pivot ≤ l)]
        exact hrest l hl hlh
      have hnot := hwwithin.rearranged.forall_inside (P := (¬ v.compar · (v.view t.mem pivot) < 0)) hbehind k hpk hkh
      rw [hcompar.opposite _ _ (hDw k (by omega) hkh) (hDt pivot hlow (by omega)), ← hfixed] at hnot
      exact Int.not_lt.mp hnot
    · intro k l hk hkp hpl hl
      exact hcompar.trans _ _ _ (hDw k hk (by omega)) (hDw pivot hlow (by omega)) (hDw l (by omega) hl)

/-- The elements of the array, in order. -/
def elements (v : Elements) (m : Memory) (n : Nat) : List (List UInt8) := (List.range n).map (v.view m)

theorem elements_mem {m : Memory} {n k : Nat} (hk : k < n) : v.view m k ∈ v.elements m n :=
  List.mem_map_of_mem (List.mem_range.mpr hk)

end Elements

/-- An array is sorted: the call returns, the elements are the same ones, in an order that the comparator agrees with,
and nothing outside the array is touched. -/
theorem qsort_sorts (v : Elements) (m : Memory) (nmemb fuel : Nat) (hbase : 0 < v.base) (hsize : 1 ≤ v.size)
    (hbytes : nmemb * v.size < 2 ^ 63) (hcompar : Elements.Comparator v.compar (· ∈ v.elements m nmemb))
    (hfuel : nmemb < fuel) :
    ∃ s', qsort fuel ⟨m, []⟩ v.base nmemb v.size (some v.compar) = some s' ∧
      (v.elements s'.mem nmemb).Perm (v.elements m nmemb) ∧
      (v.elements s'.mem nmemb).Pairwise (v.compar · · ≤ 0) ∧
      (∀ o ∈ s'.touched, ∃ k < nmemb, o = v.base + k * v.size) ∧
      ∀ x, (x < v.base ∨ v.base + nmemb * v.size ≤ x) → s'.mem x = m x := by
  rw [qsort]
  by_cases hshort : nmemb < 2
  · rw [if_pos (Or.inr (Or.inl hshort))]
    refine ⟨⟨m, []⟩, rfl, List.Perm.refl _, (Ordered.of_short _ _ (by omega)).pairwise, fun o ho => ?_, fun _ _ => rfl⟩
    cases ho
  · rw [if_neg (by omega)]
    have hn : nmemb - 1 + 1 = nmemb := by omega
    have hfits : v.Fits (nmemb - 1) := ⟨hsize, by rw [hn]; omega⟩
    obtain ⟨s', hs', hwithin, hordered⟩ := Elements.qsort_rec_spec (s := ⟨m, []⟩) hcompar
      (by omega : nmemb - 1 + 1 - 0 < fuel) hfits (fun k _ hk => Elements.elements_mem (by omega))
    rw [hn] at hwithin hordered
    refine ⟨s', hs', hwithin.rearranged.perm (le_refl nmemb), hordered.pairwise, fun o ho => ?_, fun x hx => ?_⟩
    · obtain hnone | ⟨k, -, hk, heq⟩ := hwithin.touched o ho
      · cases hnone
      · exact ⟨k, hk, heq⟩
    · exact hwithin.outside x (by omega)

/-- Pairs of bytes, compared by their first bytes. -/
def pairs : Elements := ⟨1, 2, fun x y => (x.headD 0).toNat - (y.headD 0).toNat⟩

theorem pairs_comparator (D : List UInt8 → Prop) : Elements.Comparator pairs.compar D := by
  constructor
  · intro x y _ _
    simp only [pairs]
    omega
  · intro x y z _ _ _
    simp only [pairs]
    omega

theorem qsort_sorts_pairs :
    ∃ s', qsort 4 ⟨fun x => ([0, 2, 10, 3, 11, 1, 12] : List UInt8).getD x 0, []⟩ 1 3 2 (some pairs.compar) = some s' ∧
      pairs.elements s'.mem 3 = [[1, 12], [2, 10], [3, 11]] := by
  obtain ⟨s', hs', -⟩ := qsort_sorts pairs (fun x => ([0, 2, 10, 3, 11, 1, 12] : List UInt8).getD x 0) 3 4 (by decide)
    (by decide) (by decide) (pairs_comparator _) (by decide)
  refine ⟨s', hs', ?_⟩
  have hrun : (qsort 4 ⟨fun x => ([0, 2, 10, 3, 11, 1, 12] : List UInt8).getD x 0, []⟩ 1 3 2 (some pairs.compar)).map
      (fun s => pairs.elements s.mem 3) = some [[1, 12], [2, 10], [3, 11]] := by decide
  rw [show pairs.base = 1 from rfl, show pairs.size = 2 from rfl] at hs'
  rw [hs'] at hrun
  exact Option.some.inj hrun

end graceos.libc
