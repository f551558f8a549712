import GraceOS.Mm.Vmm
import Mathlib.Tactic.IntervalCases

/-!
# Page tables as a map of pages

The page tables form a radix tree, whose walks decide what `vmm_translate` answers. Growing the tree
does not change any answer, and writing an entry of the last level changes those for one page.
-/

namespace graceos.mm

open radix machine

/-! ## Entries -/

theorem present_eq (e : BitVec 64) : present e = e.getLsbD 0 := by
  rw [present, show VMM_PRESENT = BitVec.twoPow 64 0 from rfl, BitVec.and_twoPow]
  cases e.getLsbD 0 <;> decide

theorem huge_eq (e : BitVec 64) : huge e = e.getLsbD 7 := by
  rw [huge, show VMM_HUGE = BitVec.twoPow 64 7 from rfl, BitVec.and_twoPow]
  cases e.getLsbD 7 <;> decide

theorem mask_bit : ∀ i < 64, VMM_ADDR_MASK.getLsbD i = decide (12 ≤ i ∧ i < 52) := by decide

theorem low_bit {x : BitVec 64} (hx : x.toNat % 4096 = 0) {i : Nat} (hi : i < 12) : x.getLsbD i = false := by
  rw [BitVec.getLsbD, show x.toNat = x.toNat / 4096 * 2 ^ 12 by omega, Nat.testBit_mul_two_pow]
  simp only [Bool.and_eq_false_imp, decide_eq_true_eq]
  omega

theorem high_bit {x : BitVec 64} {n i : Nat} (hx : x.toNat < 2 ^ n) (hi : n ≤ i) : x.getLsbD i = false := by
  rw [BitVec.getLsbD]
  exact Nat.testBit_lt_two_pow (lt_of_lt_of_le hx (Nat.pow_le_pow_right (by omega) hi))

theorem and_mask {x : BitVec 64} (hx : x.toNat % 4096 = 0) (hlt : x.toNat < 2 ^ 52) : x &&& VMM_ADDR_MASK = x := by
  apply BitVec.eq_of_getLsbD_eq
  intro i hi
  rw [BitVec.getLsbD_and, mask_bit i hi]
  by_cases hlow : i < 12
  · rw [low_bit hx hlow, Bool.false_and]
  · by_cases hhigh : 52 ≤ i
    · rw [high_bit hlt hhigh, Bool.false_and]
    · simp only [show 12 ≤ i ∧ i < 52 by omega, and_self, decide_true, Bool.and_true]

/-- The table an entry refers to. -/
def next (e : BitVec 64) : Option Nat :=
  if present e ∧ ¬ huge e ∧ (e &&& VMM_ADDR_MASK).toNat ≠ 0 then some (e &&& VMM_ADDR_MASK).toNat else none

theorem next_ne_zero {e : BitVec 64} {t : Nat} (h : next e = some t) : t ≠ 0 := by
  rw [next] at h
  split at h
  · next hc =>
    cases h
    exact hc.2.2
  · cases h

theorem next_zero : next 0 = none := by decide

theorem next_absent {e : BitVec 64} (h : present e = false) : next e = none := by
  simp [next, h]

theorem next_huge {e : BitVec 64} (h : huge e = true) : next e = none := by
  simp [next, h]

/-- The entry for a table. -/
def table_entry (f : Nat) : BitVec 64 := BitVec.ofNat 64 (virt_to_phys f) ||| VMM_PRESENT ||| VMM_WRITE

theorem table_entry_spec {f : Nat} (ha : f % 4096 = 0) (hlt : f < 2 ^ 52) :
    huge (table_entry f) = false ∧ present (table_entry f) = true ∧ (table_entry f &&& VMM_ADDR_MASK).toNat = f := by
  have hphys : virt_to_phys f = f := by
    rw [virt_to_phys, if_neg]
    simp only [KERNEL_BASE]
    omega
  have hnat : (BitVec.ofNat 64 f).toNat = f := by
    rw [BitVec.toNat_ofNat]
    exact Nat.mod_eq_of_lt (by omega)
  rw [table_entry, hphys]
  refine ⟨?_, ?_, ?_⟩
  · rw [huge_eq, BitVec.getLsbD_or, BitVec.getLsbD_or, low_bit (by rw [hnat]; exact ha) (by omega)]
    decide
  · rw [present_eq, BitVec.getLsbD_or, BitVec.getLsbD_or]
    simp [VMM_PRESENT]
  · rw [BitVec.and_or_distrib_right, BitVec.and_or_distrib_right, and_mask (by rw [hnat]; exact ha)
      (by rw [hnat]; exact hlt),
      show VMM_PRESENT &&& VMM_ADDR_MASK = 0 by decide, show VMM_WRITE &&& VMM_ADDR_MASK = 0 by decide]
    rw [show (0 : BitVec 64) = 0#64 from rfl, BitVec.or_zero, BitVec.or_zero]
    exact hnat

theorem huge_entry_huge (phys flags : BitVec 64) : huge (Vmm.huge_entry phys flags) = true ∧
    present (Vmm.huge_entry phys flags) = true := by
  rw [huge_eq, present_eq, Vmm.huge_entry]
  constructor
  · rw [BitVec.getLsbD_or, show VMM_HUGE.getLsbD 7 = true by decide, Bool.or_true]
  · rw [BitVec.getLsbD_or, BitVec.getLsbD_or, show VMM_PRESENT.getLsbD 0 = true by decide, Bool.or_true, Bool.true_or]

/-! ## Pages -/

/-- The number of a page, and the keys of its tables. -/
def page (v : BitVec 64) : Nat := v.toNat / 4096 % 2 ^ 36
def key1 (v : BitVec 64) : Nat := page v / 2 ^ 27
def key2 (v : BitVec 64) : Nat := page v / 2 ^ 18
def key3 (v : BitVec 64) : Nat := page v / 2 ^ 9

theorem keys (v : BitVec 64) : key1 v = 0 * 512 + PML4_INDEX v ∧ key2 v = key1 v * 512 + PDPT_INDEX v ∧
    key3 v = key2 v * 512 + PD_INDEX v ∧ page v = key3 v * 512 + PT_INDEX v := by
  simp only [key1, key2, key3, page, PML4_INDEX, PDPT_INDEX, PD_INDEX, PT_INDEX]
  omega

theorem keys_lt (v : BitVec 64) : key1 v < 512 ^ 1 ∧ key2 v < 512 ^ 2 ∧ key3 v < 512 ^ 3 := by
  simp only [key1, key2, key3, page]
  omega

theorem index_lt (v : BitVec 64) : PML4_INDEX v < 512 ∧ PDPT_INDEX v < 512 ∧ PD_INDEX v < 512 ∧ PT_INDEX v < 512 :=
  ⟨Nat.mod_lt _ (by omega), Nat.mod_lt _ (by omega), Nat.mod_lt _ (by omega), Nat.mod_lt _ (by omega)⟩

namespace Vmm

variable {frames : Nat → Nat} {s s' : Vmm} {l k t i : Nat}

/-- The table of level `l` with the key `k`. -/
def table (s : Vmm) (l k : Nat) : Option Nat := walk next s.kernel_pml4 s.mem l k

/-- What `vmm_translate` answers, by the walks. -/
def view (s : Vmm) (w : BitVec 64) : BitVec 64 :=
  match s.table 1 (key1 w) with
  | none => 0
  | some pdpt =>
    if huge (s.mem (slot pdpt (PDPT_INDEX w))) then
      (s.mem (slot pdpt (PDPT_INDEX w)) &&& VMM_ADDR_MASK) ||| (w &&& 0x3FFFFFFF#64)
    else
      match s.table 2 (key2 w) with
      | none => 0
      | some pd =>
        if huge (s.mem (slot pd (PD_INDEX w))) then
          (s.mem (slot pd (PD_INDEX w)) &&& VMM_ADDR_MASK) ||| (w &&& 0x1FFFFF#64)
        else
          match s.table 3 (key3 w) with
          | none => 0
          | some pt =>
            if !present (s.mem (slot pt (PT_INDEX w))) then 0
            else (s.mem (slot pt (PT_INDEX w)) &&& VMM_ADDR_MASK) ||| (w &&& 0xFFF#64)

theorem get_entry_eq (ht : t ≠ 0) (i : Nat) :
    s.get_or_create_entry frames t i false = ((next (s.mem (slot t i))).getD 0, s) := by
  rw [get_or_create_entry, if_neg ht, next]
  generalize s.mem (slot t i) = e
  by_cases hzero : (e &&& VMM_ADDR_MASK).toNat = 0
  · cases hp : present e <;> cases hh : huge e <;> simp [-BitVec.toNat_and, hzero]
  · cases hp : present e <;> cases hh : huge e <;> simp [-BitVec.toNat_and, hzero]

theorem table_succ (ht : s.table l k = some t) (hi : i < 512) : s.table (l + 1)
    (k * 512 + i) = next (s.mem (slot t i)) :=
  walk_succ ht hi

theorem table_two (s : Vmm) (v : BitVec 64) :
    s.table 2 (key2 v) = (s.table 1 (key1 v)).bind fun t => next (s.mem (slot t (PDPT_INDEX v))) := by
  obtain ⟨-, hk2, -, -⟩ := keys v
  have hi := (index_lt v).2.1
  rw [table, walk, show key2 v / 512 = key1 v by omega, show key2 v % 512 = PDPT_INDEX v by omega]
  rfl

theorem table_three (s : Vmm) (v : BitVec 64) :
    s.table 3 (key3 v) = (s.table 2 (key2 v)).bind fun t => next (s.mem (slot t (PD_INDEX v))) := by
  obtain ⟨-, -, hk3, -⟩ := keys v
  have hi := (index_lt v).2.2.1
  rw [table, walk, show key3 v / 512 = key2 v by omega, show key3 v % 512 = PD_INDEX v by omega]
  rfl

theorem table_ne_zero (hroot : s.kernel_pml4 ≠ 0) (ht : s.table l k = some t) : t ≠ 0 := by
  cases l with
  | zero =>
    obtain rfl : s.kernel_pml4 = t := by simpa [table, walk] using ht
    exact hroot
  | succ l =>
    rw [table, walk] at ht
    obtain ⟨t', -, hnext⟩ := Option.bind_eq_some_iff.mp ht
    exact next_ne_zero hnext

theorem translate_view (hroot : s.kernel_pml4 ≠ 0) (w : BitVec 64) : s.vmm_translate frames w = s.view w := by
  obtain ⟨hk1, hk2, hk3, -⟩ := keys w
  obtain ⟨hi1, hi2, hi3, -⟩ := index_lt w
  have h1 : s.table 1 (key1 w) = next (s.mem (slot s.kernel_pml4 (PML4_INDEX w))) := by
    rw [hk1]
    exact table_succ (l := 0) (k := 0) rfl hi1
  rw [vmm_translate, if_neg hroot, get_entry_eq hroot, view, h1]
  dsimp only
  cases hpdpt : next (s.mem (slot s.kernel_pml4 (PML4_INDEX w))) with
  | none => rfl
  | some pdpt =>
    have hne := next_ne_zero hpdpt
    rw [hpdpt] at h1
    have h2 : s.table 2 (key2 w) = next (s.mem (slot pdpt (PDPT_INDEX w))) := by
      rw [hk2]
      exact table_succ h1 hi2
    dsimp only [Option.getD_some]
    rw [if_neg hne, h2]
    simp only [get_entry_eq hne]
    congr 1
    cases hpd : next (s.mem (slot pdpt (PDPT_INDEX w))) with
    | none => rfl
    | some pd =>
      have hne' := next_ne_zero hpd
      rw [hpd] at h2
      have h3 : s.table 3 (key3 w) = next (s.mem (slot pd (PD_INDEX w))) := by
        rw [hk3]
        exact table_succ h2 hi3
      dsimp only [Option.getD_some]
      rw [h3]
      simp only [if_neg hne', get_entry_eq hne']
      congr 1
      cases hpt : next (s.mem (slot pd (PD_INDEX w))) with
      | none => rfl
      | some pt =>
        simp only [Option.getD_some, if_neg (next_ne_zero hpt)]

theorem view_congr {w : BitVec 64}
    (h1 : s'.table 1 (key1 w) = s.table 1 (key1 w)) (h2 : s'.table 2 (key2 w) = s.table 2 (key2 w))
    (h3 : s'.table 3 (key3 w) = s.table 3 (key3 w))
    (he1 : ∀ t, s.table 1 (key1 w) = some t → s'.mem (slot t (PDPT_INDEX w)) = s.mem (slot t (PDPT_INDEX w)))
    (he2 : ∀ t, s.table 2 (key2 w) = some t → s'.mem (slot t (PD_INDEX w)) = s.mem (slot t (PD_INDEX w)))
    (he3 : ∀ t, s.table 3 (key3 w) = some t → s'.mem (slot t (PT_INDEX w)) = s.mem (slot t (PT_INDEX w))) :
    s'.view w = s.view w := by
  rw [view, view, h1, h2, h3]
  cases hpdpt : s.table 1 (key1 w) with
  | none => rfl
  | some pdpt =>
    dsimp only
    rw [he1 pdpt hpdpt]
    congr 1
    cases hpd : s.table 2 (key2 w) with
    | none => rfl
    | some pd =>
      dsimp only
      rw [he2 pd hpd]
      congr 1
      cases hpt : s.table 3 (key3 w) with
      | none => rfl
      | some pt =>
        dsimp only
        rw [he3 pt hpt]

/-! ## The invariant -/

/-- The answers of `pmm_alloc_page`: frames that no table is in. Tables are never given back, so
this is to say that no frame is answered twice, and none is the root. -/
structure FreshFrames (frames : Nat → Nat) (pml4 : Nat) : Prop where
  aligned : ∀ n, frames n % 4096 = 0
  small : ∀ n, frames n < 2 ^ 52
  fresh : ∀ n, frames n ≠ 0 → frames n ≠ pml4 ∧ ∀ j < n, frames j ≠ frames n

/-- The tables are a tree of frames that were answered, and entries of the upper levels are empty,
huge pages or tables. -/
structure Sound (frames : Nat → Nat) (s : Vmm) : Prop where
  root : s.kernel_pml4 ≠ 0
  tree : Tree next s.kernel_pml4 3 s.mem
  used : ∀ l ≤ 3, ∀ k t, k < 512 ^ l → s.table l k = some t → t = s.kernel_pml4 ∨ ∃ j < s.asked, t = frames j
  upper : ∀ l < 3, ∀ k t, k < 512 ^ l → s.table l k = some t → ∀ i < 512,
    (huge (s.mem (slot t i)) = true → present (s.mem (slot t i)) = true) ∧
    (present (s.mem (slot t i)) = true → huge (s.mem (slot t i)) = false → next (s.mem (slot t i)) ≠ none)

/-- The tree has grown, by at most `n` questions to `pmm_alloc_page`. -/
structure Grown (frames : Nat → Nat) (n : Nat) (s s' : Vmm) : Prop where
  sound : s'.Sound frames
  pml4 : s'.kernel_pml4 = s.kernel_pml4
  asked : s.asked ≤ s'.asked ∧ s'.asked ≤ s.asked + n
  table : ∀ l ≤ 3, ∀ k t, k < 512 ^ l → s.table l k = some t → s'.table l k = some t
  huge : ∀ l < 3, ∀ k t, k < 512 ^ l → s'.table l k = some t → ∀ i < 512,
    mm.huge (s'.mem (slot t i)) = true → s.table l k = some t ∧ mm.huge (s.mem (slot t i)) = true
  view : ∀ w, s'.view w = s.view w

theorem Grown.refl (hs : s.Sound frames) : Grown frames 0 s s :=
  ⟨hs, rfl, ⟨le_refl _, le_refl _⟩, fun _ _ _ _ _ h => h, fun _ _ _ _ _ h _ _ hh => ⟨h, hh⟩, fun _ => rfl⟩

theorem Grown.trans {n n' : Nat} {s'' : Vmm} (hg : Grown frames n s s') (hg' : Grown frames n' s' s'') :
    Grown frames (n + n') s s'' := by
  refine ⟨hg'.sound, hg'.pml4.trans hg.pml4, by have := hg.asked; have := hg'.asked; omega,
    fun l hl k t hk ht => hg'.table l hl k t hk (hg.table l hl k t hk ht), fun l hl k t hk ht i hi hh => ?_,
    fun w => (hg'.view w).trans (hg.view w)⟩
  obtain ⟨ht', hh'⟩ := hg'.huge l hl k t hk ht i hi hh
  exact hg.huge l hl k t hk ht' i hi hh'

theorem Grown.mono {n n' : Nat} (hg : Grown frames n s s') (hn : n ≤ n') : Grown frames n' s s' :=
  ⟨hg.sound, hg.pml4, by have := hg.asked; omega, hg.table, hg.huge, hg.view⟩

theorem Sound.ask (hs : s.Sound frames) : Grown frames 1 s { s with asked := s.asked + 1 } := by
  refine ⟨⟨hs.root, hs.tree, fun l hl k t hk ht => ?_, hs.upper⟩, rfl,
    ⟨Nat.le_succ _, le_refl _⟩, fun _ _ _ _ _ h => h,
    fun _ _ _ _ _ h _ _ hh => ⟨h, hh⟩, fun _ => rfl⟩
  rcases hs.used l hl k t hk ht with hroot | ⟨j, hj, hframe⟩
  · exact .inl hroot
  · exact .inr ⟨j, Nat.lt_succ_of_lt hj, hframe⟩

/-- The state with a fresh table for the entry `i` of the table `t`. -/
def entered (frames : Nat → Nat) (s : Vmm) (t i : Nat) : Vmm :=
  (s.alloc_table frames).2.set (slot t i) (table_entry (frames s.asked))

section Link

variable (hf : FreshFrames frames s.kernel_pml4) (hs : s.Sound frames) (hl : l < 3) (hk : k < 512 ^ l)
  (ht : s.table l k = some t) (hi : i < 512) (habsent : present (s.mem (slot t i)) = false)
  (hframe : frames s.asked ≠ 0)

include hf hs hframe in
theorem Sound.fresh : ∀ l' ≤ 3, ∀ k', k' < 512 ^ l' → s.table l' k' ≠ some (frames s.asked) := by
  intro l' hl' k' hk' heq
  obtain ⟨hroot, hdistinct⟩ := hf.fresh s.asked hframe
  rcases hs.used l' hl' k' _ hk' heq with h | ⟨j, hj, h⟩
  · exact hroot h
  · exact hdistinct j hj h.symm

include hframe in
theorem entered_mem (a : Nat) : (s.entered frames t i).mem a = if a = slot t i then table_entry (frames s.asked)
    else if frames s.asked ≤ a ∧ a < frames s.asked + 4096 then 0 else s.mem a := by
  simp only [entered, alloc_table, if_neg hframe, set, Function.update_apply]

include hf hs hl hk ht hi hframe

theorem Sound.entered_slot {m n u j : Nat} (hm : m ≤ 3) (hn : n < 512 ^ m) (hu : s.table m n = some u)
    (hj : j < 512) (hne : ¬ (m = l ∧ n * 512 + j = k * 512 + i)) :
    (s.entered frames t i).mem (slot u j) = s.mem (slot u j) := by
  have hfresh := hs.fresh hf hframe m hm n hn
  have ha := hs.tree.aligned m hm n u hn hu
  have hfa := hf.aligned s.asked
  have htf : u ≠ frames s.asked := fun heq => hfresh (heq ▸ hu)
  rw [entered_mem hframe, if_neg (hs.tree.slot_ne (by omega) hk ht hi hm hn hu hj hne), if_neg]
  simp only [slot]
  omega

theorem Sound.entered_fresh {j : Nat} (hj : j < 512) :
    (s.entered frames t i).mem (slot (frames s.asked) j) = 0 := by
  have hfresh := hs.fresh hf hframe l (by omega) k hk
  have ha := hs.tree.aligned l (by omega) k t hk ht
  have hfa := hf.aligned s.asked
  have htf : t ≠ frames s.asked := fun heq => hfresh (heq ▸ ht)
  rw [entered_mem hframe, if_neg, if_pos]
  · simp only [slot]
    omega
  · simp only [slot]
    omega

include habsent

theorem Sound.entered_table : ∀ l' ≤ 3, ∀ k', k' < 512 ^ l' → (s.entered frames t i).table l' k' =
    if l' = l + 1 ∧ k' = k * 512 + i then some (frames s.asked) else s.table l' k' := by
  have hentry := table_entry_spec (hf.aligned s.asked) (hf.small s.asked)
  have hpml4 : (s.entered frames t i).kernel_pml4 = s.kernel_pml4 := by
    simp only [entered, alloc_table, if_neg hframe, set]
  unfold table
  rw [hpml4]
  refine hs.tree.link (by omega) hk ht hi hl (hs.fresh hf hframe) (fun a ha hout => ?_) (hf.aligned s.asked)
    (next_absent habsent) ?_ fun j hj => ?_
  · rw [entered_mem hframe, if_neg ha, if_neg (by omega)]
  · rw [entered_mem hframe, if_pos rfl, next, if_pos]
    · rw [hentry.2.2]
    · exact ⟨hentry.2.1, by simp [hentry.1], by rw [hentry.2.2]; exact hframe⟩
  · rw [hs.entered_fresh hf hl hk ht hi hframe hj]
    exact next_zero

/-- Below a fresh table nothing is mapped, as before. -/
theorem Sound.entered_view (w : BitVec 64) : (s.entered frames t i).view w = s.view w := by
  obtain ⟨hk1, hk2, hk3, hk4⟩ := keys w
  obtain ⟨hlt1, hlt2, hlt3⟩ := keys_lt w
  obtain ⟨hi1, hi2, hi3, hi4⟩ := index_lt w
  have hwalk := hs.entered_table hf hl hk ht hi habsent hframe
  have h1 := hwalk 1 (by omega) _ hlt1
  have h2 := hwalk 2 (by omega) _ hlt2
  have h3 := hwalk 3 (by omega) _ hlt3
  have hslot := fun {m n u j : Nat} => hs.entered_slot (m := m) (n := n) (u := u) (j := j) hf hl hk ht hi hframe
  have hzero := fun {j : Nat} => hs.entered_fresh (j := j) hf hl hk ht hi hframe
  have hold : s.table (l + 1) (k * 512 + i) = none := by
    rw [table_succ ht hi]
    exact next_absent habsent
  have hupper : huge (s.mem (slot t i)) = false := by
    cases hh : huge (s.mem (slot t i)) with
    | false => rfl
    | true =>
      have := (hs.upper l hl k t hk ht i hi).1 hh
      rw [habsent] at this
      cases this
  have hentry := (table_entry_spec (hf.aligned s.asked) (hf.small s.asked)).1
  have hwritten : (s.entered frames t i).mem (slot t i) = table_entry (frames s.asked) := by
    rw [entered_mem hframe, if_pos rfl]
  by_cases hpath : (l = 0 ∧ key1 w = k * 512 + i) ∨ (l = 1 ∧ key2 w = k * 512 + i) ∨ (l = 2 ∧ key3 w = k * 512 + i)
  · rcases hpath with ⟨rfl, hkey⟩ | ⟨rfl, hkey⟩ | ⟨rfl, hkey⟩
    · rw [if_pos ⟨rfl, hkey⟩] at h1
      rw [if_neg (by omega)] at h2
      have h2' : s.table 2 (key2 w) = none := by
        rw [table, walk, show key2 w / 512 = key1 w by omega]
        rw [hkey]
        have : walk next s.kernel_pml4 s.mem 1 (k * 512 + i) = none := hold
        rw [this]
        rfl
      rw [view, view, h1, h2, h2', hkey, hold]
      dsimp only
      rw [hzero hi2, if_neg (by decide)]
    · rw [if_neg (by omega)] at h1
      rw [if_pos ⟨rfl, hkey⟩] at h2
      rw [if_neg (by omega)] at h3
      have hparent : key1 w = k := by omega
      have hindex : PDPT_INDEX w = i := by omega
      have h3' : s.table 3 (key3 w) = none := by
        rw [table, walk, show key3 w / 512 = key2 w by omega, hkey]
        have : walk next s.kernel_pml4 s.mem 2 (k * 512 + i) = none := hold
        rw [this]
        rfl
      rw [view, view, h1, h2, h3, h3', hkey, hold, hparent, ht, hindex]
      dsimp only
      rw [hwritten, hentry, hupper, hzero hi3]
      simp [show huge 0#64 = false by decide]
    · rw [if_neg (by omega)] at h1
      rw [if_neg (by omega)] at h2
      rw [if_pos ⟨rfl, hkey⟩] at h3
      have hparent : key2 w = k := by omega
      have hindex : PD_INDEX w = i := by omega
      rw [view, view, h1, h2, h3, hkey, hold, hparent, ht, hindex]
      cases hpdpt : s.table 1 (key1 w) with
      | none => rfl
      | some pdpt =>
        dsimp only
        rw [hslot (by omega) hlt1 hpdpt hi2 (by omega), hwritten, hentry, hupper, hzero hi4]
        simp [show present 0#64 = false by decide]
  · rw [if_neg (by omega)] at h1 h2 h3
    refine view_congr h1 h2 h3 (fun t' ht' => hslot (by omega) hlt1 ht' hi2 (by omega))
      (fun t' ht' => hslot (by omega) hlt2 ht' hi3 (by omega)) fun t' ht' => hslot (by omega) hlt3 ht' hi4 (by omega)

theorem Sound.enter : Grown frames 1 s (s.entered frames t i) ∧
    (s.entered frames t i).table (l + 1) (k * 512 + i) = some (frames s.asked) := by
  have hwalk := hs.entered_table hf hl hk ht hi habsent hframe
  have hview := hs.entered_view hf hl hk ht hi habsent hframe
  have hslot := fun {m n u j : Nat} => hs.entered_slot (m := m) (n := n) (u := u) (j := j) hf hl hk ht hi hframe
  have hzero := fun {j : Nat} => hs.entered_fresh (j := j) hf hl hk ht hi hframe
  have hentry := table_entry_spec (hf.aligned s.asked) (hf.small s.asked)
  have hwritten : (s.entered frames t i).mem (slot t i) = table_entry (frames s.asked) := by
    rw [entered_mem hframe, if_pos rfl]
  have hpml4 : (s.entered frames t i).kernel_pml4 = s.kernel_pml4 := by
    simp only [entered, alloc_table, if_neg hframe, set]
  have hasked : (s.entered frames t i).asked = s.asked + 1 := by
    simp only [entered, alloc_table, if_neg hframe, set]
  have hold : s.table (l + 1) (k * 512 + i) = none := by
    rw [table_succ ht hi]
    exact next_absent habsent
  have htree : Tree next (s.entered frames t i).kernel_pml4 3 (s.entered frames t i).mem := by
    have hwalk' := hwalk
    unfold table at hwalk'
    rw [hpml4] at hwalk' ⊢
    exact hs.tree.linked (by omega) hk ht hi hl (hs.fresh hf hframe) (hf.aligned s.asked) hwalk'
  -- an entry of a table in the grown tree
  have hentries : ∀ l' < 3, ∀ k' t', k' < 512 ^ l' → (s.entered frames t i).table l' k' = some t' → ∀ j < 512,
      ((s.entered frames t i).mem (slot t' j) = 0) ∨
      ((s.entered frames t i).mem (slot t' j) = table_entry (frames s.asked)) ∨
      (s.table l' k' = some t' ∧ (s.entered frames t i).mem (slot t' j) = s.mem (slot t' j)) := by
    intro l' hl' k' t' hk' ht' j hj
    rw [hwalk l' (by omega) k' hk'] at ht'
    split at ht'
    · cases ht'
      exact .inl (hzero hj)
    · by_cases hsame : l' = l ∧ k' * 512 + j = k * 512 + i
      · obtain ⟨rfl, hkk⟩ := hsame
        obtain ⟨rfl, rfl⟩ : k' = k ∧ j = i := by omega
        rw [ht] at ht'
        cases ht'
        exact .inr (.inl hwritten)
      · exact .inr (.inr ⟨ht', hslot (by omega) hk' ht' hj hsame⟩)
  refine ⟨⟨⟨hpml4 ▸ hs.root, htree, fun l' hl' k' t' hk' ht' => ?_, fun l' hl' k' t' hk' ht' j hj => ?_⟩, hpml4,
    by omega, fun l' hl' k' t' hk' ht' => ?_, fun l' hl' k' t' hk' ht' j hj hh => ?_, hview⟩, ?_⟩
  · rw [hpml4, hasked]
    rw [hwalk l' hl' k' hk'] at ht'
    split at ht'
    · cases ht'
      exact .inr ⟨s.asked, by omega, rfl⟩
    · rcases hs.used l' hl' k' t' hk' ht' with hroot | ⟨j, hj, hframe'⟩
      · exact .inl hroot
      · exact .inr ⟨j, by omega, hframe'⟩
  · rcases hentries l' hl' k' t' hk' ht' j hj with h0 | hnew | ⟨hold', hsame⟩
    · rw [h0]
      exact ⟨by decide, by decide⟩
    · rw [hnew]
      refine ⟨fun _ => hentry.2.1, fun _ _ => ?_⟩
      rw [next, if_pos ⟨hentry.2.1, by simp [hentry.1], by rw [hentry.2.2]; exact hframe⟩]
      simp
    · rw [hsame]
      exact hs.upper l' hl' k' t' hk' hold' j hj
  · rw [hwalk l' hl' k' hk', if_neg, ht']
    rintro ⟨rfl, rfl⟩
    rw [hold] at ht'
    cases ht'
  · rcases hentries l' hl' k' t' hk' ht' j hj with h0 | hnew | ⟨hold', hsame⟩
    · rw [h0] at hh
      exact absurd hh (by decide)
    · rw [hnew, hentry.1] at hh
      cases hh
    · rw [hsame] at hh
      exact ⟨hold', hh⟩
  · have hlt : k * 512 + i < 512 ^ (l + 1) := by
      rw [Nat.pow_succ]
      omega
    rw [hwalk (l + 1) (by omega) _ hlt, if_pos ⟨rfl, rfl⟩]

end Link

theorem create_entry_eq (ht : t ≠ 0) (habsent : present (s.mem (slot t i)) = false) :
    s.get_or_create_entry frames t i true =
      if frames s.asked = 0 then (0, { s with asked := s.asked + 1 })
      else (((s.entered frames t i).mem (slot t i) &&& VMM_ADDR_MASK).toNat, s.entered frames t i) := by
  unfold get_or_create_entry entered alloc_table table_entry
  rw [if_neg ht, habsent]
  simp only [Bool.false_eq_true, false_and, if_false, Bool.not_false, if_true, Bool.not_true]
  generalize frames s.asked = f
  cases f <;> rfl

/-- One step down with missing tables made: the table below, or null. -/
theorem Sound.get_or_create (hf : FreshFrames frames s.kernel_pml4) (hs : s.Sound frames) (hl : l < 3)
    (hk : k < 512 ^ l) (ht : s.table l k = some t) (hi : i < 512) :
    let r := s.get_or_create_entry frames t i true
    Grown frames 1 s r.2 ∧ (r.1 = 0 ∨ r.2.table (l + 1) (k * 512 + i) = some r.1) ∧
    (huge (s.mem (slot t i)) = false → frames s.asked ≠ 0 → r.1 ≠ 0) := by
  have htz := table_ne_zero hs.root ht
  have hupper := hs.upper l hl k t hk ht i hi
  cases hp : present (s.mem (slot t i)) with
  | true =>
    simp only [get_or_create_entry, if_neg htz, hp]
    cases hh : huge (s.mem (slot t i)) with
    | true =>
      exact ⟨(Grown.refl hs).mono (by omega), .inl rfl, fun h => by cases h⟩
    | false =>
      have hsome := hupper.2 hp hh
      have hnext : next (s.mem (slot t i)) = some (s.mem (slot t i) &&& VMM_ADDR_MASK).toNat := by
        rw [next] at hsome ⊢
        split at hsome
        · next hc => rw [if_pos hc]
        · exact absurd rfl hsome
      simp only [Bool.false_eq_true, and_false, if_false, Bool.not_true]
      refine ⟨(Grown.refl hs).mono (by omega), .inr ?_, fun _ _ => next_ne_zero hnext⟩
      rw [table_succ ht hi]
      exact hnext
  | false =>
    rw [create_entry_eq htz hp]
    by_cases hframe : frames s.asked = 0
    · rw [if_pos hframe]
      exact ⟨hs.ask, .inl rfl, fun _ h => absurd hframe h⟩
    · rw [if_neg hframe]
      obtain ⟨hgrown, htable⟩ := hs.enter hf hl hk ht hi hp hframe
      have hread : ((s.entered frames t i).mem (slot t i) &&& VMM_ADDR_MASK).toNat = frames s.asked := by
        rw [entered_mem hframe, if_pos rfl]
        exact (table_entry_spec (hf.aligned _) (hf.small _)).2.2
      rw [hread]
      exact ⟨hgrown, .inr htable, fun _ _ => hframe⟩

/-- No huge page on the way of an address. -/
def NoHuge (s : Vmm) (v : BitVec 64) : Prop :=
  huge (s.mem (slot s.kernel_pml4 (PML4_INDEX v))) = false ∧
  (∀ pdpt, s.table 1 (key1 v) = some pdpt → huge (s.mem (slot pdpt (PDPT_INDEX v))) = false) ∧
  ∀ pd, s.table 2 (key2 v) = some pd → huge (s.mem (slot pd (PD_INDEX v))) = false

theorem Grown.noHuge {n : Nat} {v : BitVec 64} (hg : Grown frames n s s') (hv : s.NoHuge v) : s'.NoHuge v := by
  obtain ⟨hlt1, hlt2, -⟩ := keys_lt v
  obtain ⟨hi1, hi2, hi3, -⟩ := index_lt v
  refine ⟨?_, fun pdpt ht => ?_, fun pd ht => ?_⟩
  · cases hh : mm.huge (s'.mem (slot s'.kernel_pml4 (PML4_INDEX v))) with
    | false => rfl
    | true =>
      have := (hg.huge 0 (by omega) 0 s'.kernel_pml4 (by omega) rfl _ hi1 hh).2
      rw [hg.pml4, hv.1] at this
      cases this
  · cases hh : mm.huge (s'.mem (slot pdpt (PDPT_INDEX v))) with
    | false => rfl
    | true =>
      obtain ⟨ht', hh'⟩ := hg.huge 1 (by omega) _ pdpt hlt1 ht _ hi2 hh
      rw [hv.2.1 pdpt ht'] at hh'
      cases hh'
  · cases hh : mm.huge (s'.mem (slot pd (PD_INDEX v))) with
    | false => rfl
    | true =>
      obtain ⟨ht', hh'⟩ := hg.huge 2 (by omega) _ pd hlt2 ht _ hi3 hh
      rw [hv.2.2 pd ht'] at hh'
      cases hh'

theorem last_table_eq (s : Vmm) (v : BitVec 64) (create : Bool) : s.last_table frames v create =
    let r₁ := s.get_or_create_entry frames s.kernel_pml4 (PML4_INDEX v) create
    if r₁.1 = 0 then (0, r₁.2)
    else
      let r₂ := r₁.2.get_or_create_entry frames r₁.1 (PDPT_INDEX v) create
      if r₂.1 = 0 then (0, r₂.2) else r₂.2.get_or_create_entry frames r₂.1 (PD_INDEX v) create := by
  rw [Vmm.last_table]
  generalize s.get_or_create_entry frames s.kernel_pml4 (PML4_INDEX v) create = r₁
  obtain ⟨_ | n, s₁⟩ := r₁
  · rfl
  · simp only [Nat.succ_ne_zero, if_false]
    generalize s₁.get_or_create_entry frames (n + 1) (PDPT_INDEX v) create = r₂
    obtain ⟨_ | n', s₂⟩ := r₂
    · rfl
    · simp only [Nat.succ_ne_zero, if_false]

/-- The whole way down: the last table, or null when a table is missing and cannot be had or a huge
page is in the way. -/
theorem Sound.last_table (hf : FreshFrames frames s.kernel_pml4) (hs : s.Sound frames) (v : BitVec 64) :
    let r := s.last_table frames v true
    Grown frames 3 s r.2 ∧ (r.1 = 0 ∨ r.2.table 3 (key3 v) = some r.1) ∧
    (s.NoHuge v → (∀ j < 3, frames (s.asked + j) ≠ 0) → r.1 ≠ 0) := by
  obtain ⟨hk1, hk2, hk3, -⟩ := keys v
  obtain ⟨hlt1, hlt2, hlt3⟩ := keys_lt v
  obtain ⟨hi1, hi2, hi3, -⟩ := index_lt v
  obtain ⟨hg₁, htable₁, hok₁⟩ := hs.get_or_create hf (by omega) (k := 0) (by omega) rfl hi1 (l := 0)
  rw [← hk1] at htable₁
  rw [last_table_eq]
  dsimp only
  generalize s.get_or_create_entry frames s.kernel_pml4 (PML4_INDEX v) true = r₁ at hg₁ htable₁ hok₁
  obtain ⟨pdpt, s₁⟩ := r₁
  dsimp only at hg₁ htable₁ hok₁ ⊢
  by_cases hz₁ : pdpt = 0
  · rw [if_pos hz₁]
    exact ⟨hg₁.mono (by omega), .inl rfl, fun hv ha => absurd hz₁ (hok₁ hv.1 (ha 0 (by omega)))⟩
  rw [if_neg hz₁]
  have htable₁ := htable₁.resolve_left hz₁
  obtain ⟨hg₂, htable₂, hok₂⟩ := hg₁.sound.get_or_create (hg₁.pml4 ▸ hf) (by omega) hlt1 htable₁ hi2
  rw [← hk2] at htable₂
  generalize s₁.get_or_create_entry frames pdpt (PDPT_INDEX v) true = r₂ at hg₂ htable₂ hok₂
  obtain ⟨pd, s₂⟩ := r₂
  dsimp only at hg₂ htable₂ hok₂ ⊢
  have hg₁₂ := hg₁.trans hg₂
  -- a table that is asked for is among the next three answers
  have hnext : ∀ {s' : Vmm}, Grown frames 2 s s' → (∀ j < 3, frames (s.asked + j) ≠ 0) → frames s'.asked ≠ 0 := by
    intro s' hg ha
    obtain ⟨hle, hlt⟩ := hg.asked
    have := ha (s'.asked - s.asked) (by omega)
    rwa [Nat.add_sub_cancel' hle] at this
  by_cases hz₂ : pd = 0
  · rw [if_pos hz₂]
    exact ⟨hg₁₂.mono (by omega), .inl rfl, fun hv ha =>
      absurd hz₂ (hok₂ ((hg₁.noHuge hv).2.1 _ htable₁) (hnext (hg₁.mono (by omega)) ha))⟩
  rw [if_neg hz₂]
  have htable₂ := htable₂.resolve_left hz₂
  obtain ⟨hg₃, htable₃, hok₃⟩ := hg₂.sound.get_or_create (hg₁₂.pml4 ▸ hf) (by omega) hlt2 htable₂ hi3
  rw [← hk3] at htable₃
  exact ⟨hg₁₂.trans hg₃, htable₃, fun hv ha => hok₃ ((hg₁₂.noHuge hv).2.2 _ htable₂) (hnext hg₁₂ ha)⟩

theorem last_table_view (hroot : s.kernel_pml4 ≠ 0) (v : BitVec 64) :
    s.last_table frames v false = ((s.table 3 (key3 v)).getD 0, s) := by
  have h1 : s.table 1 (key1 v) = next (s.mem (slot s.kernel_pml4 (PML4_INDEX v))) := by
    rw [(keys v).1]
    exact table_succ (l := 0) (k := 0) rfl (index_lt v).1
  have h2 := s.table_two v
  have h3 := s.table_three v
  rw [last_table_eq, get_entry_eq hroot, ← h1]
  cases hpdpt : s.table 1 (key1 v) with
  | none =>
    rw [h3, h2, hpdpt]
    rfl
  | some pdpt =>
    have hne := table_ne_zero hroot hpdpt
    rw [hpdpt, Option.bind_some] at h2
    simp only [Option.getD_some, if_neg hne, get_entry_eq hne, ← h2]
    cases hpd : s.table 2 (key2 v) with
    | none =>
      rw [h3, hpd]
      rfl
    | some pd =>
      have hne' := table_ne_zero hroot hpd
      rw [hpd, Option.bind_some] at h3
      simp only [Option.getD_some, if_neg hne', get_entry_eq hne', ← h3]

theorem Sound.set_leaf (hs : s.Sound frames) {pt : Nat} (hk : k < 512 ^ 3) (ht : s.table 3 k = some pt) (hi : i < 512)
    (e : BitVec 64) :
    let s' := s.set (slot pt i) e
    s'.Sound frames ∧ (∀ l ≤ 3, ∀ k, k < 512 ^ l → s'.table l k = s.table l k) ∧
    (∀ l ≤ 3, ∀ k' t', k' < 512 ^ l → s.table l k' = some t' → ∀ j < 512, ¬ (l = 3 ∧ k' * 512 + j = k * 512 + i) →
      s'.mem (slot t' j) = s.mem (slot t' j)) := by
  intro s'
  have hsame : ∀ a, a ≠ slot pt i → s'.mem a = s.mem a := fun a ha => by
    simp [s', set, ha]
  have hwalk : ∀ l ≤ 3, ∀ k, k < 512 ^ l → s'.table l k = s.table l k :=
    hs.tree.keep (le_refl 3) hk ht hi hsame (by omega)
  have hslot : ∀ l ≤ 3, ∀ k' t', k' < 512 ^ l → s.table l k' = some t' → ∀ j < 512,
      ¬ (l = 3 ∧ k' * 512 + j = k * 512 + i) → s'.mem (slot t' j) = s.mem (slot t' j) :=
    fun l hl k' t' hk' ht' j hj hne => hsame _ (hs.tree.slot_ne (le_refl 3) hk ht hi hl hk' ht' hj hne)
  refine ⟨⟨hs.root, hs.tree.of_le fun l hl k t hk hw => ?_, fun l hl k t hk hw => ?_, fun l hl k t hk hw j hj => ?_⟩,
    hwalk, hslot⟩
  · exact (hwalk l hl k hk).symm.trans hw
  · rw [hwalk l hl k hk] at hw
    exact hs.used l hl k t hk hw
  · rw [hwalk l (by omega) k hk] at hw
    rw [hslot l (by omega) k t hk hw j hj (by omega)]
    exact hs.upper l hl k t hk hw j hj

theorem Sound.set_leaf_view (hs : s.Sound frames) {v w : BitVec 64} {pt : Nat} (ht : s.table 3 (key3 v) = some pt)
    (hw : page w ≠ page v) (e : BitVec 64) : (s.set (slot pt (PT_INDEX v)) e).view w = s.view w := by
  obtain ⟨-, -, -, hk4⟩ := keys v
  obtain ⟨-, hk2, hk3, hk4'⟩ := keys w
  obtain ⟨hlt1, hlt2, hlt3⟩ := keys_lt w
  obtain ⟨-, hi2, hi3, hi4⟩ := index_lt w
  obtain ⟨-, hwalk, hslot⟩ := hs.set_leaf (keys_lt v).2.2 ht (index_lt v).2.2.2 e
  exact view_congr (hwalk 1 (by omega) _ hlt1) (hwalk 2 (by omega) _ hlt2) (hwalk 3 (by omega) _ hlt3)
    (fun t ht => hslot 1 (by omega) _ t hlt1 ht _ hi2 (by omega))
    (fun t ht => hslot 2 (by omega) _ t hlt2 ht _ hi3 (by omega))
    fun t ht => hslot 3 (by omega) _ t hlt3 ht _ hi4 (by omega)

theorem Sound.set_huge (hs : s.Sound frames) (hl : l < 3) (hk : k < 512 ^ l) (ht : s.table l k = some t) (hi : i < 512)
    (phys flags : BitVec 64) : (s.set (slot t i) (huge_entry phys flags)).Sound frames := by
  have hsame : ∀ a, a ≠ slot t i → (s.set (slot t i) (huge_entry phys flags)).mem a = s.mem a := fun a ha => by
    simp [set, ha]
  have hself : (s.set (slot t i) (huge_entry phys flags)).mem (slot t i) = huge_entry phys flags := by simp [set]
  have hcut := hs.tree.cut (by omega) hk ht hi hsame (by
    rw [hself]
    exact next_huge (huge_entry_huge phys flags).1)
  have hold : ∀ l' ≤ 3, ∀ k' t', k' < 512 ^ l' → (s.set (slot t i) (huge_entry phys flags)).table l' k' = some t' →
      s.table l' k' = some t' := by
    intro l' hl' k' t' hk' ht'
    rcases hcut l' hl' k' hk' with heq | hnone
    · exact heq.symm.trans ht'
    · exact absurd (hnone.symm.trans ht') (by simp)
  refine ⟨hs.root, hs.tree.of_le hold, fun l' hl' k' t' hk' ht' => hs.used l' hl' k' t' hk' (hold l' hl' k' t' hk' ht'),
    fun l' hl' k' t' hk' ht' j hj => ?_⟩
  by_cases heq : slot t' j = slot t i
  · rw [heq, hself]
    obtain ⟨hhuge, hpresent⟩ := huge_entry_huge phys flags
    exact ⟨fun _ => hpresent, fun _ h => absurd hhuge (by simp [h])⟩
  · rw [hsame _ heq]
    exact hs.upper l' hl' k' t' hk' (hold l' (by omega) k' t' hk' ht') j hj

/-! ## Calls -/

theorem vmm_map_eq (hroot : s.kernel_pml4 ≠ 0) (virt phys flags : BitVec 64) : s.vmm_map frames virt phys flags =
    let r := s.last_table frames (ALIGN_DOWN_4K virt) true
    if r.1 = 0 then r.2 else r.2.set (slot r.1 (PT_INDEX (ALIGN_DOWN_4K virt)))
      ((ALIGN_DOWN_4K phys &&& VMM_ADDR_MASK) ||| flags ||| VMM_PRESENT) := by
  rw [vmm_map, if_neg hroot]
  generalize s.last_table frames (ALIGN_DOWN_4K virt) true = r
  obtain ⟨_ | n, s₁⟩ := r <;> rfl

theorem vmm_unmap_eq (hroot : s.kernel_pml4 ≠ 0) (virt : BitVec 64) : s.vmm_unmap frames virt =
    match s.table 3 (key3 (ALIGN_DOWN_4K virt)) with
    | none => s
    | some pt => if present (s.mem (slot pt (PT_INDEX (ALIGN_DOWN_4K virt)))) then
        s.set (slot pt (PT_INDEX (ALIGN_DOWN_4K virt))) 0 else s := by
  rw [vmm_unmap, if_neg hroot, last_table_view hroot]
  cases ht : s.table 3 (key3 (ALIGN_DOWN_4K virt)) with
  | none => rfl
  | some pt =>
    have hne := table_ne_zero hroot ht
    obtain ⟨n, rfl⟩ : ∃ n, pt = n + 1 := ⟨pt - 1, by omega⟩
    rfl

theorem Sound.vmm_map (hf : FreshFrames frames s.kernel_pml4) (hs : s.Sound frames) (virt phys flags : BitVec 64) :
    (s.vmm_map frames virt phys flags).Sound frames ∧
    (s.vmm_map frames virt phys flags).kernel_pml4 = s.kernel_pml4 := by
  rw [vmm_map_eq hs.root]
  obtain ⟨hg, htable, -⟩ := hs.last_table hf (ALIGN_DOWN_4K virt)
  dsimp only at hg htable ⊢
  generalize s.last_table frames (ALIGN_DOWN_4K virt) true = r at hg htable
  split
  · exact ⟨hg.sound, hg.pml4⟩
  · next hne =>
    refine ⟨(hg.sound.set_leaf (keys_lt _).2.2 (htable.resolve_left hne) (index_lt _).2.2.2 _).1, hg.pml4⟩

theorem Sound.vmm_unmap (hs : s.Sound frames) (virt : BitVec 64) : (s.vmm_unmap frames virt).Sound frames ∧
    (s.vmm_unmap frames virt).kernel_pml4 = s.kernel_pml4 := by
  rw [vmm_unmap_eq hs.root]
  split
  · exact ⟨hs, rfl⟩
  · next pt ht =>
    split
    · exact ⟨(hs.set_leaf (keys_lt _).2.2 ht (index_lt _).2.2.2 0).1, rfl⟩
    · exact ⟨hs, rfl⟩

theorem Sound.vmm_map_1g (hf : FreshFrames frames s.kernel_pml4) (hs : s.Sound frames) (virt phys flags : BitVec 64) :
    (s.vmm_map_1g frames virt phys flags).2.Sound frames ∧
    (s.vmm_map_1g frames virt phys flags).2.kernel_pml4 = s.kernel_pml4 := by
  obtain ⟨hk1, -, -, -⟩ := keys virt
  obtain ⟨hg, htable, -⟩ := hs.get_or_create hf (l := 0) (k := 0) (by omega) (by omega) rfl (index_lt virt).1
  rw [← hk1] at htable
  rw [Vmm.vmm_map_1g, if_neg hs.root]
  split
  · exact ⟨hs, rfl⟩
  · generalize s.get_or_create_entry frames s.kernel_pml4 (PML4_INDEX virt) true = r at hg htable
    obtain ⟨_ | n, s₁⟩ := r
    · exact ⟨hg.sound, hg.pml4⟩
    · exact ⟨hg.sound.set_huge (by omega) (keys_lt virt).1 (htable.resolve_left (Nat.succ_ne_zero n))
        (index_lt virt).2.1 phys flags, hg.pml4⟩

theorem Sound.vmm_map_2m (hf : FreshFrames frames s.kernel_pml4) (hs : s.Sound frames) (virt phys flags : BitVec 64) :
    (s.vmm_map_2m frames virt phys flags).2.Sound frames ∧
    (s.vmm_map_2m frames virt phys flags).2.kernel_pml4 = s.kernel_pml4 := by
  obtain ⟨hk1, hk2, -, -⟩ := keys virt
  obtain ⟨hg, htable, -⟩ := hs.get_or_create hf (l := 0) (k := 0) (by omega) (by omega) rfl (index_lt virt).1
  rw [← hk1] at htable
  rw [Vmm.vmm_map_2m, if_neg hs.root]
  split
  · exact ⟨hs, rfl⟩
  · generalize s.get_or_create_entry frames s.kernel_pml4 (PML4_INDEX virt) true = r at hg htable
    obtain ⟨_ | n, s₁⟩ := r
    · exact ⟨hg.sound, hg.pml4⟩
    · have htable := htable.resolve_left (Nat.succ_ne_zero n)
      obtain ⟨hg₂, htable₂, -⟩ := hg.sound.get_or_create (hg.pml4 ▸ hf) (by omega) (keys_lt virt).1 htable
        (index_lt virt).2.1
      rw [← hk2] at htable₂
      simp only at hg₂ htable₂ ⊢
      generalize s₁.get_or_create_entry frames (n + 1) (PDPT_INDEX virt) true = r₂ at hg₂ htable₂ ⊢
      obtain ⟨_ | n', s₂⟩ := r₂
      · exact ⟨hg₂.sound, hg₂.pml4.trans hg.pml4⟩
      · exact ⟨hg₂.sound.set_huge (by omega) (keys_lt virt).2.1 (htable₂.resolve_left (Nat.succ_ne_zero n'))
          (index_lt virt).2.2.1 phys flags, hg₂.pml4.trans hg.pml4⟩

/-- The attempt at a page of 1 GiB. -/
def try_1g (frames : Nat → Nat) (flags vend v p : BitVec 64) (s : Vmm) : Bool × Vmm :=
  if vend.toNat - v.toNat ≥ PAGE_SIZE_1G ∧ v.toNat % PAGE_SIZE_1G = 0 ∧ p.toNat % PAGE_SIZE_1G = 0
  then s.vmm_map_1g frames v p flags else (false, s)

/-- The attempt at a page of 2 MiB. -/
def try_2m (frames : Nat → Nat) (flags vend v p : BitVec 64) (s : Vmm) : Bool × Vmm :=
  if vend.toNat - v.toNat ≥ PAGE_SIZE_2M ∧ v.toNat % PAGE_SIZE_2M = 0 ∧ p.toNat % PAGE_SIZE_2M = 0
  then s.vmm_map_2m frames v p flags else (false, s)

theorem map_loop_succ (flags vend : BitVec 64) (fuel : Nat) (v p : BitVec 64) (s : Vmm) :
    map_loop frames flags vend (fuel + 1) v p s =
      if v.toNat < vend.toNat then
        if (s.try_1g frames flags vend v p).1 then
          map_loop frames flags vend fuel (v + 0x40000000#64) (p + 0x40000000#64) (s.try_1g frames flags vend v p).2
        else if ((s.try_1g frames flags vend v p).2.try_2m frames flags vend v p).1 then
          map_loop frames flags vend fuel (v + 0x200000#64) (p + 0x200000#64)
            ((s.try_1g frames flags vend v p).2.try_2m frames flags vend v p).2
        else map_loop frames flags vend fuel (v + 0x1000#64) (p + 0x1000#64)
          (((s.try_1g frames flags vend v p).2.try_2m frames flags vend v p).2.vmm_map frames v p flags)
      else s :=
  rfl

theorem Sound.try_1g (hf : FreshFrames frames s.kernel_pml4) (hs : s.Sound frames) (flags vend v p : BitVec 64) :
    (s.try_1g frames flags vend v p).2.Sound frames ∧
    (s.try_1g frames flags vend v p).2.kernel_pml4 = s.kernel_pml4 := by
  rw [Vmm.try_1g]
  split
  · exact hs.vmm_map_1g hf v p flags
  · exact ⟨hs, rfl⟩

theorem Sound.try_2m (hf : FreshFrames frames s.kernel_pml4) (hs : s.Sound frames) (flags vend v p : BitVec 64) :
    (s.try_2m frames flags vend v p).2.Sound frames ∧
    (s.try_2m frames flags vend v p).2.kernel_pml4 = s.kernel_pml4 := by
  rw [Vmm.try_2m]
  split
  · exact hs.vmm_map_2m hf v p flags
  · exact ⟨hs, rfl⟩

theorem Sound.map_loop (flags vend : BitVec 64) (fuel : Nat) (v p : BitVec 64)
    (hf : FreshFrames frames s.kernel_pml4) (hs : s.Sound frames) :
    (map_loop frames flags vend fuel v p s).Sound frames ∧
    (map_loop frames flags vend fuel v p s).kernel_pml4 = s.kernel_pml4 := by
  induction fuel generalizing v p s with
  | zero => exact ⟨hs, rfl⟩
  | succ fuel ih =>
    rw [map_loop_succ]
    obtain ⟨hs₁, hp₁⟩ := hs.try_1g hf flags vend v p
    have hf₁ : FreshFrames frames (s.try_1g frames flags vend v p).2.kernel_pml4 := hp₁ ▸ hf
    obtain ⟨hs₂, hp₂⟩ := hs₁.try_2m hf₁ flags vend v p
    have hp₂ := hp₂.trans hp₁
    have hf₂ : FreshFrames frames ((s.try_1g frames flags vend v p).2.try_2m frames flags vend v p).2.kernel_pml4 :=
      hp₂ ▸ hf
    split
    · split
      · obtain ⟨hs', hp'⟩ := ih (v + 0x40000000#64) (p + 0x40000000#64) hf₁ hs₁
        exact ⟨hs', hp'.trans hp₁⟩
      · split
        · obtain ⟨hs', hp'⟩ := ih (v + 0x200000#64) (p + 0x200000#64) hf₂ hs₂
          exact ⟨hs', hp'.trans hp₂⟩
        · obtain ⟨hs₃, hp₃⟩ := hs₂.vmm_map hf₂ v p flags
          obtain ⟨hs', hp'⟩ := ih (v + 0x1000#64) (p + 0x1000#64) (hp₃ ▸ hf₂) hs₃
          exact ⟨hs', (hp'.trans hp₃).trans hp₂⟩
    · exact ⟨hs, rfl⟩

theorem Sound.step (hf : FreshFrames frames s.kernel_pml4) (hs : s.Sound frames) (call : VmmCall) :
    (s.step frames call).Sound frames ∧ (s.step frames call).kernel_pml4 = s.kernel_pml4 := by
  cases call with
  | map virt phys flags => exact hs.vmm_map hf virt phys flags
  | map_range virt phys size flags =>
    rw [Vmm.step, vmm_map_range]
    split
    · exact ⟨hs, rfl⟩
    · exact hs.map_loop _ _ _ _ _ hf
  | unmap virt => exact hs.vmm_unmap virt

theorem Sound.run (hf : FreshFrames frames s.kernel_pml4) (hs : s.Sound frames) (calls : List VmmCall) :
    (machine.run (Vmm.step frames) s calls).Sound frames ∧
    (machine.run (Vmm.step frames) s calls).kernel_pml4 = s.kernel_pml4 := by
  induction calls generalizing s with
  | nil => exact ⟨hs, rfl⟩
  | cons call calls ih =>
    obtain ⟨hs₁, hp₁⟩ := hs.step hf call
    obtain ⟨hs₂, hp₂⟩ := ih (hp₁ ▸ hf) hs₁
    exact ⟨hs₂, hp₂.trans hp₁⟩

end Vmm

end graceos.mm
