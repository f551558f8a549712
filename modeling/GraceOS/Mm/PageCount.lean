import GraceOS.Mm.RangeMap
import Mathlib.Data.Set.Card
import Mathlib.Order.Interval.Finset.Nat

/-!
# The count of mapped pages

`mapped_page_count` is changed at five places, each of which looks at one entry. It is the number of the pages that
`vmm_translate` answers for, as long as no huge page takes the place of a table with a page in it that is not mapped.
-/

namespace graceos.mm

open radix machine

def PAGE_SIZE_4K : Nat := 0x1000

/-- The manager and its count of mapped pages. -/
structure CountedVmm extends Vmm where
  mapped_page_count : BitVec 64

namespace CountedVmm

variable (frames : Nat → Nat) (s : CountedVmm)

/-- The same count over other tables. -/
def with_tables (s : CountedVmm) (vmm : Vmm) : CountedVmm := ⟨vmm, s.mapped_page_count⟩

def vmm_map_1g (virt phys flags : BitVec 64) : Bool × CountedVmm :=
  if s.kernel_pml4 = 0 then (false, s)
  else if virt.toNat % PAGE_SIZE_1G ≠ 0 ∨ phys.toNat % PAGE_SIZE_1G ≠ 0 then (false, s)
  else
    match s.get_or_create_entry frames s.kernel_pml4 (PML4_INDEX virt) true with
    | (0, s₁) => (false, s.with_tables s₁)
    | (pdpt, s₁) =>
      let count := if !present (s₁.mem (slot pdpt (PDPT_INDEX virt)))
        then s.mapped_page_count + BitVec.ofNat 64 (PAGE_SIZE_1G / PAGE_SIZE_4K) else s.mapped_page_count
      (true, ⟨s₁.set (slot pdpt (PDPT_INDEX virt)) (Vmm.huge_entry phys flags), count⟩)

def vmm_map_2m (virt phys flags : BitVec 64) : Bool × CountedVmm :=
  if s.kernel_pml4 = 0 then (false, s)
  else if virt.toNat % PAGE_SIZE_2M ≠ 0 ∨ phys.toNat % PAGE_SIZE_2M ≠ 0 then (false, s)
  else
    match s.get_or_create_entry frames s.kernel_pml4 (PML4_INDEX virt) true with
    | (0, s₁) => (false, s.with_tables s₁)
    | (pdpt, s₁) =>
      match s₁.get_or_create_entry frames pdpt (PDPT_INDEX virt) true with
      | (0, s₂) => (false, s.with_tables s₂)
      | (pd, s₂) =>
        let count := if !present (s₂.mem (slot pd (PD_INDEX virt)))
          then s.mapped_page_count + BitVec.ofNat 64 (PAGE_SIZE_2M / PAGE_SIZE_4K) else s.mapped_page_count
        (true, ⟨s₂.set (slot pd (PD_INDEX virt)) (Vmm.huge_entry phys flags), count⟩)

def vmm_map (virt phys flags : BitVec 64) : CountedVmm :=
  if s.kernel_pml4 = 0 then s
  else
    match s.last_table frames (ALIGN_DOWN_4K virt) true with
    | (0, s₁) => s.with_tables s₁
    | (pt, s₁) =>
      let pt_index := PT_INDEX (ALIGN_DOWN_4K virt)
      let count := if !present (s₁.mem (slot pt pt_index)) then s.mapped_page_count + 1 else s.mapped_page_count
      ⟨s₁.set (slot pt pt_index) ((ALIGN_DOWN_4K phys &&& VMM_ADDR_MASK) ||| flags ||| VMM_PRESENT), count⟩

/-- The attempt at a page of 1 GiB in the loop of `vmm_map_range`. -/
def try_1g (flags vend v p : BitVec 64) : Bool × CountedVmm :=
  if vend.toNat - v.toNat ≥ PAGE_SIZE_1G ∧ v.toNat % PAGE_SIZE_1G = 0 ∧ p.toNat % PAGE_SIZE_1G = 0
  then s.vmm_map_1g frames v p flags else (false, s)

/-- The attempt at a page of 2 MiB. -/
def try_2m (flags vend v p : BitVec 64) : Bool × CountedVmm :=
  if vend.toNat - v.toNat ≥ PAGE_SIZE_2M ∧ v.toNat % PAGE_SIZE_2M = 0 ∧ p.toNat % PAGE_SIZE_2M = 0
  then s.vmm_map_2m frames v p flags else (false, s)

def map_loop (flags vend : BitVec 64) : (fuel : Nat) → (v p : BitVec 64) → CountedVmm → CountedVmm
  | 0, _, _, s => s
  | fuel + 1, v, p, s =>
    if v.toNat < vend.toNat then
      let r := s.try_1g frames flags vend v p
      if r.1 then map_loop flags vend fuel (v + 0x40000000#64) (p + 0x40000000#64) r.2
      else
        let r := r.2.try_2m frames flags vend v p
        if r.1 then map_loop flags vend fuel (v + 0x200000#64) (p + 0x200000#64) r.2
        else map_loop flags vend fuel (v + 0x1000#64) (p + 0x1000#64) (r.2.vmm_map frames v p flags)
    else s

def vmm_map_range (virt phys size flags : BitVec 64) : CountedVmm :=
  if size = 0 then s
  else
    let vstart := ALIGN_DOWN_4K virt
    let vend := ALIGN_UP_4K (virt + size)
    map_loop frames flags vend (vend.toNat - vstart.toNat) vstart (ALIGN_DOWN_4K phys) s

def vmm_unmap (virt : BitVec 64) : CountedVmm :=
  if s.kernel_pml4 = 0 then s
  else
    match s.last_table frames (ALIGN_DOWN_4K virt) false with
    | (0, s₁) => s.with_tables s₁
    | (pt, s₁) =>
      let pt_index := PT_INDEX (ALIGN_DOWN_4K virt)
      if present (s₁.mem (slot pt pt_index)) then ⟨s₁.set (slot pt pt_index) 0, s.mapped_page_count - 1⟩
      else s.with_tables s₁

def vmm_mapped_pages : BitVec 64 := s.mapped_page_count

def step (s : CountedVmm) : VmmCall → CountedVmm
  | .map virt phys flags => s.vmm_map frames virt phys flags
  | .map_range virt phys size flags => s.vmm_map_range frames virt phys size flags
  | .unmap virt => s.vmm_unmap frames virt

/-- Nothing is mapped yet. -/
def start (mem : Nat → BitVec 64) (pml4 : Nat) : CountedVmm := ⟨.start mem pml4, 0⟩

/-! ## The tables are those of the manager -/

variable {frames s}

theorem map_1g_tables (virt phys flags : BitVec 64) :
    (s.vmm_map_1g frames virt phys flags).1 = (s.toVmm.vmm_map_1g frames virt phys flags).1 ∧
    (s.vmm_map_1g frames virt phys flags).2.toVmm = (s.toVmm.vmm_map_1g frames virt phys flags).2 := by
  rw [CountedVmm.vmm_map_1g, Vmm.vmm_map_1g]
  split
  · exact ⟨rfl, rfl⟩
  · split
    · exact ⟨rfl, rfl⟩
    · generalize s.get_or_create_entry frames s.kernel_pml4 (PML4_INDEX virt) true = r
      obtain ⟨_ | n, s₁⟩ := r <;> exact ⟨rfl, rfl⟩

theorem map_2m_tables (virt phys flags : BitVec 64) :
    (s.vmm_map_2m frames virt phys flags).1 = (s.toVmm.vmm_map_2m frames virt phys flags).1 ∧
    (s.vmm_map_2m frames virt phys flags).2.toVmm = (s.toVmm.vmm_map_2m frames virt phys flags).2 := by
  rw [CountedVmm.vmm_map_2m, Vmm.vmm_map_2m]
  split
  · exact ⟨rfl, rfl⟩
  · split
    · exact ⟨rfl, rfl⟩
    · generalize s.get_or_create_entry frames s.kernel_pml4 (PML4_INDEX virt) true = r
      obtain ⟨_ | n, s₁⟩ := r
      · exact ⟨rfl, rfl⟩
      · simp only
        generalize s₁.get_or_create_entry frames (n + 1) (PDPT_INDEX virt) true = r
        obtain ⟨_ | n, s₂⟩ := r <;> exact ⟨rfl, rfl⟩

theorem map_tables (virt phys flags : BitVec 64) :
    (s.vmm_map frames virt phys flags).toVmm = s.toVmm.vmm_map frames virt phys flags := by
  rw [CountedVmm.vmm_map, Vmm.vmm_map]
  split
  · rfl
  · generalize s.last_table frames (ALIGN_DOWN_4K virt) true = r
    obtain ⟨_ | n, s₁⟩ := r <;> rfl

theorem unmap_tables (virt : BitVec 64) : (s.vmm_unmap frames virt).toVmm = s.toVmm.vmm_unmap frames virt := by
  rw [CountedVmm.vmm_unmap, Vmm.vmm_unmap]
  split
  · rfl
  · generalize s.last_table frames (ALIGN_DOWN_4K virt) false = r
    obtain ⟨_ | n, s₁⟩ := r
    · rfl
    · by_cases hp : present (s₁.mem (slot (n + 1) (PT_INDEX (ALIGN_DOWN_4K virt))))
      · simp only [hp, if_true]
      · simp only [hp]
        rfl

theorem try_1g_tables (flags vend v p : BitVec 64) :
    (s.try_1g frames flags vend v p).1 = (s.toVmm.try_1g frames flags vend v p).1 ∧
    (s.try_1g frames flags vend v p).2.toVmm = (s.toVmm.try_1g frames flags vend v p).2 := by
  rw [CountedVmm.try_1g, Vmm.try_1g]
  split
  · exact map_1g_tables v p flags
  · exact ⟨rfl, rfl⟩

theorem try_2m_tables (flags vend v p : BitVec 64) :
    (s.try_2m frames flags vend v p).1 = (s.toVmm.try_2m frames flags vend v p).1 ∧
    (s.try_2m frames flags vend v p).2.toVmm = (s.toVmm.try_2m frames flags vend v p).2 := by
  rw [CountedVmm.try_2m, Vmm.try_2m]
  split
  · exact map_2m_tables v p flags
  · exact ⟨rfl, rfl⟩

theorem map_loop_tables (flags vend : BitVec 64) (fuel : Nat) (v p : BitVec 64) (s : CountedVmm) :
    (map_loop frames flags vend fuel v p s).toVmm = s.toVmm.map_loop frames flags vend fuel v p := by
  induction fuel generalizing v p s with
  | zero => rfl
  | succ fuel ih =>
    obtain ⟨hmade, htables⟩ := @try_1g_tables frames s flags vend v p
    obtain ⟨hmade', htables'⟩ := @try_2m_tables frames (s.try_1g frames flags vend v p).2 flags vend v p
    rw [htables] at hmade' htables'
    rw [Vmm.map_loop_succ, map_loop, ← hmade, ← htables, htables, ← hmade', ← htables']
    split
    · dsimp only
      split
      · rw [ih, htables]
      · split
        · exact ih _ _ _
        · rw [ih, map_tables]
    · rfl

theorem step_tables (call : VmmCall) : (s.step frames call).toVmm = s.toVmm.step frames call := by
  cases call with
  | map virt phys flags => exact map_tables virt phys flags
  | map_range virt phys size flags =>
    rw [CountedVmm.step, Vmm.step, CountedVmm.vmm_map_range, Vmm.vmm_map_range]
    split
    · rfl
    · exact map_loop_tables _ _ _ _ _ _
  | unmap virt => exact unmap_tables virt

theorem run_tables (calls : List VmmCall) :
    (run (step frames) s calls).toVmm = run (Vmm.step frames) s.toVmm calls := by
  induction calls generalizing s with
  | nil => rfl
  | cons call calls ih => rw [run_cons, run_cons, ih, step_tables]

end CountedVmm

/-! ## Mapped pages -/

namespace Vmm

variable {frames : Nat → Nat} {s s' : Vmm} {l k t i : Nat}

/-- The pages that `vmm_translate` answers for at some address in them. -/
def mapped_pages (frames : Nat → Nat) (s : Vmm) : Set Nat := {n | ∃ w, page w = n ∧ s.vmm_translate frames w ≠ 0}

/-- The same pages, by the walks. -/
def mapped (s : Vmm) : Set Nat := {n | ∃ w, page w = n ∧ s.view w ≠ 0}

theorem mapped_pages_eq (hroot : s.kernel_pml4 ≠ 0) : s.mapped_pages frames = s.mapped := by
  simp only [mapped_pages, mapped, translate_view hroot]

theorem mapped_subset (s : Vmm) : s.mapped ⊆ {n | n < 2 ^ 36} := by
  rintro n ⟨w, rfl, -⟩
  exact Nat.mod_lt _ (by omega)

theorem mapped_finite (s : Vmm) : s.mapped.Finite := (Set.finite_lt_nat _).subset s.mapped_subset

theorem mapped_congr {n : Nat} (h : ∀ w, page w = n → s'.view w = s.view w) : n ∈ s'.mapped ↔ n ∈ s.mapped := by
  constructor
  · rintro ⟨w, hw, hne⟩
    exact ⟨w, hw, h w hw ▸ hne⟩
  · rintro ⟨w, hw, hne⟩
    exact ⟨w, hw, (h w hw).symm ▸ hne⟩

theorem Grown.mapped {n : Nat} (hg : Grown frames n s s') : s'.mapped = s.mapped := by
  ext m
  exact mapped_congr fun w _ => hg.view w

theorem second_address {n : Nat} (hn : n < 2 ^ 36) : ∃ w, page w = n ∧ w.getLsbD 0 = true := by
  have hnat : (BitVec.ofNat 64 (n * 4096 + 1)).toNat = n * 4096 + 1 := by
    rw [BitVec.toNat_ofNat]
    exact Nat.mod_eq_of_lt (by omega)
  refine ⟨BitVec.ofNat 64 (n * 4096 + 1), ?_, ?_⟩
  · rw [page, hnat]
    omega
  · rw [BitVec.getLsbD, hnat, Nat.testBit_zero]
    simp only [decide_eq_true_eq]
    omega

theorem answer_ne_zero {w m : BitVec 64} (e : BitVec 64) (hw : w.getLsbD 0 = true) (hm : m.getLsbD 0 = true) :
    (e &&& VMM_ADDR_MASK) ||| (w &&& m) ≠ 0 := by
  intro heq
  have hoffset : (w &&& m).getLsbD 0 = true := by
    rw [BitVec.getLsbD_and, hw, hm, Bool.and_self]
  have hbit : ((e &&& VMM_ADDR_MASK) ||| (w &&& m)).getLsbD 0 = true := by
    rw [BitVec.getLsbD_or, hoffset, Bool.or_true]
  rw [heq] at hbit
  cases hbit

theorem next_some {e : BitVec 64} {f : Nat} (h : next e = some f) : present e = true ∧ huge e = false := by
  rw [next] at h
  split at h
  · next hc => exact ⟨hc.1, by simpa using hc.2.1⟩
  · cases h

theorem NoHuge.of_table {v : BitVec 64} {pt : Nat} (h : s.table 3 (key3 v) = some pt) : s.NoHuge v := by
  obtain ⟨hk1, -, -, -⟩ := keys v
  rw [table_three] at h
  obtain ⟨pd, hpd, hpt⟩ := Option.bind_eq_some_iff.mp h
  have h2 := hpd
  rw [table_two] at h2
  obtain ⟨pdpt, hpdpt, hnext⟩ := Option.bind_eq_some_iff.mp h2
  have h1 := hpdpt
  rw [hk1, table_succ (l := 0) (k := 0) rfl (index_lt v).1] at h1
  refine ⟨(next_some h1).2, fun t ht => ?_, fun t ht => ?_⟩
  · obtain rfl : pdpt = t := Option.some.inj (hpdpt.symm.trans ht)
    exact (next_some hnext).2
  · obtain rfl : pd = t := Option.some.inj (hpd.symm.trans ht)
    exact (next_some hpt).2

/-! ### An entry of the last level -/

theorem mapped_leaf {v : BitVec 64} {pt : Nat} (h : s.table 3 (key3 v) = some pt) :
    page v ∈ s.mapped ↔ present (s.mem (slot pt (PT_INDEX v))) = true := by
  have hleaf : ∀ w, page w = page v → s.view w = if !present (s.mem (slot pt (PT_INDEX v))) then 0
      else (s.mem (slot pt (PT_INDEX v)) &&& VMM_ADDR_MASK) ||| (w &&& 0xFFF#64) := by
    intro w hw
    obtain ⟨-, -, h3, -, -, -, hi⟩ := page_indices hw
    rw [view_leaf ((NoHuge.of_table h).of_page hw), h3, h, hi]
  constructor
  · rintro ⟨w, hw, hne⟩
    rw [hleaf w hw] at hne
    cases hp : present (s.mem (slot pt (PT_INDEX v))) with
    | true => rfl
    | false =>
      rw [hp] at hne
      exact absurd rfl hne
  · intro hp
    obtain ⟨w, hw, hbit⟩ := second_address (n := page v) (Nat.mod_lt _ (by omega))
    refine ⟨w, hw, ?_⟩
    rw [hleaf w hw, hp]
    exact answer_ne_zero _ hbit (by decide)

theorem Sound.set_leaf_mapped (hs : s.Sound frames) {v : BitVec 64} {pt : Nat} (h : s.table 3 (key3 v) = some pt)
    (e : BitVec 64) : (s.set (slot pt (PT_INDEX v)) e).mapped =
      if present e then insert (page v) s.mapped else s.mapped \ {page v} := by
  have htable := ((hs.set_leaf (keys_lt v).2.2 h (index_lt v).2.2.2 e).2.1 3 (by omega) _ (keys_lt v).2.2).trans h
  have hself := mapped_leaf htable
  rw [show (s.set (slot pt (PT_INDEX v)) e).mem (slot pt (PT_INDEX v)) = e by simp [set]] at hself
  ext n
  by_cases hn : n = page v
  · subst hn
    rw [hself]
    split
    · next hp => simp [hp]
    · next hp => simp [hp]
  · rw [mapped_congr fun w hw => hs.set_leaf_view h (hw.trans_ne hn) e]
    split
    · simp [hn]
    · simp [hn]

/-! ### An entry of an upper level -/

/-- The pages of the slot `b` of level `l`. -/
def block (l b : Nat) : Set Nat := {n | n / 512 ^ (3 - l) = b}

theorem block_ncard (l b : Nat) : (block l b).ncard = 512 ^ (3 - l) := by
  have hpos : 0 < 512 ^ (3 - l) := Nat.pow_pos (by omega)
  have hblock : block l b = ↑(Finset.Ico (b * 512 ^ (3 - l)) (b * 512 ^ (3 - l) + 512 ^ (3 - l))) := by
    ext n
    change n / 512 ^ (3 - l) = b ↔ _
    rw [Finset.mem_coe, Finset.mem_Ico, Nat.div_eq_iff hpos]
    constructor
    · rintro ⟨hle, hlt⟩
      omega
    · rintro ⟨hle, hlt⟩
      omega
  rw [hblock, Set.ncard_coe_finset, Nat.card_Ico]
  omega

/-- What is answered for the addresses in the slot of an entry. -/
theorem view_slot (hl : l = 1 ∨ l = 2) (ht : s.table l k = some t) (hi : i < 512) {w : BitVec 64}
    (hw : slot_number l w = k * 512 + i) :
    (huge (s.mem (slot t i)) = true →
      ∃ m : BitVec 64, m.getLsbD 0 = true ∧ s.view w = (s.mem (slot t i) &&& VMM_ADDR_MASK) ||| (w &&& m)) ∧
    (present (s.mem (slot t i)) = false → huge (s.mem (slot t i)) = false → s.view w = 0) := by
  obtain ⟨-, hn1, hn2, -⟩ := slot_number_eq w
  obtain ⟨-, hk2, hk3, -⟩ := keys w
  obtain ⟨-, hi2, hi3, -⟩ := index_lt w
  rcases hl with rfl | rfl
  · obtain rfl : k = key1 w := by omega
    obtain rfl : i = PDPT_INDEX w := by omega
    refine ⟨fun hh => ⟨0x3FFFFFFF#64, by decide, view_1g ht hh⟩, fun hp hh => ?_⟩
    rw [view, table_two, ht]
    dsimp only
    rw [hh, Option.bind_some, next_absent hp]
    rfl
  · obtain rfl : k = key2 w := by omega
    obtain rfl : i = PD_INDEX w := by omega
    refine ⟨fun hh => ⟨0x1FFFFF#64, by decide, view_2m ht hh⟩, fun hp hh => ?_⟩
    have h2 := ht
    rw [table_two] at h2
    obtain ⟨pdpt, hpdpt, hnext⟩ := Option.bind_eq_some_iff.mp h2
    rw [view, hpdpt]
    dsimp only
    rw [(next_some hnext).2, table_three, ht]
    dsimp only
    rw [hh, Option.bind_some, next_absent hp]
    rfl

section Upper

variable (hl : l = 1 ∨ l = 2) (hk : k < 512 ^ l) (ht : s.table l k = some t) (hi : i < 512)
include hl hk ht hi

theorem block_lt {n : Nat} (hn : n ∈ block l (k * 512 + i)) : n < 2 ^ 36 := by
  change n / 512 ^ (3 - l) = k * 512 + i at hn
  rcases hl with rfl | rfl
  · norm_num at hn hk
    omega
  · norm_num at hn hk
    omega

theorem huge_block (hh : huge (s.mem (slot t i)) = true) : block l (k * 512 + i) ⊆ s.mapped := by
  intro n hn
  obtain ⟨w, rfl, hbit⟩ := second_address (block_lt hl hk ht hi hn)
  obtain ⟨m, hm, hview⟩ := (view_slot hl ht hi hn).1 hh
  exact ⟨w, rfl, hview ▸ answer_ne_zero _ hbit hm⟩

theorem Sound.absent_block (hs : s.Sound frames) (hp : present (s.mem (slot t i)) = false) :
    ∀ n ∈ s.mapped, n ∉ block l (k * 512 + i) := by
  have hh : huge (s.mem (slot t i)) = false := by
    cases hh : huge (s.mem (slot t i)) with
    | false => rfl
    | true => exact absurd ((hs.upper l (by omega) k t hk ht i hi).1 hh) (by simp [hp])
  rintro n ⟨w, rfl, hne⟩ hn
  exact hne ((view_slot hl ht hi hn).2 hp hh)

theorem Sound.set_huge_mapped (hs : s.Sound frames) (phys flags : BitVec 64) :
    (s.set (slot t i) (huge_entry phys flags)).mapped = s.mapped ∪ block l (k * 512 + i) := by
  have hsame : ∀ a, a ≠ slot t i → (s.set (slot t i) (huge_entry phys flags)).mem a = s.mem a := fun a ha => by
    simp [set, ha]
  have hself : (s.set (slot t i) (huge_entry phys flags)).mem (slot t i) = huge_entry phys flags := by simp [set]
  have htable := (hs.table_above (by omega) hk ht hi hsame rfl).trans ht
  have hinside := huge_block hl hk htable hi (by rw [hself]; exact (huge_entry_huge phys flags).1)
  ext n
  by_cases hn : n ∈ block l (k * 512 + i)
  · exact ⟨fun _ => .inr hn, fun _ => hinside hn⟩
  · have happart : n ∈ (s.set (slot t i) (huge_entry phys flags)).mapped ↔ n ∈ s.mapped := by
      refine mapped_congr ?_
      rintro w rfl
      exact (hs.entry_apart (by omega) hk ht hi hsame rfl hn).1
    rw [happart, Set.mem_union]
    simp only [hn, or_false]

end Upper

/-! ### Tables on the way -/

theorem Sound.get_or_create_same (hf : FreshFrames frames s.kernel_pml4) (hs : s.Sound frames) (hl : l < 3)
    (hk : k < 512 ^ l) (ht : s.table l k = some t) (hi : i < 512) {j : Nat} (hj : j < 512)
    (hne : (s.get_or_create_entry frames t i true).1 ≠ 0)
    (hp : present ((s.get_or_create_entry frames t i true).2.mem
      (slot (s.get_or_create_entry frames t i true).1 j)) = true) :
    (s.get_or_create_entry frames t i true).2 = s := by
  have htz := table_ne_zero hs.root ht
  cases hentry : present (s.mem (slot t i)) with
  | true =>
    rw [get_or_create_entry, if_neg htz, hentry]
    split
    · rfl
    · rfl
  | false =>
    rw [create_entry_eq htz hentry] at hne hp
    by_cases hframe : frames s.asked = 0
    · rw [if_pos hframe] at hne
      exact absurd rfl hne
    · rw [if_neg hframe] at hp
      have hread : ((s.entered frames t i).mem (slot t i) &&& VMM_ADDR_MASK).toNat = frames s.asked := by
        rw [entered_mem hframe, if_pos rfl]
        exact (table_entry_spec (hf.aligned _) (hf.small _)).2.2
      dsimp only at hp
      rw [hread, hs.entered_fresh hf hl hk ht hi hframe hj] at hp
      exact absurd hp (by decide)

/-- Where an entry of level `l` on the way of `v` holds a table, all pages of its slot are mapped. -/
def Full (frames : Nat → Nat) (s : Vmm) (l : Nat) (v : BitVec 64) : Prop :=
  s.table (l + 1) (slot_number l v) ≠ none → block l (slot_number l v) ⊆ s.mapped_pages frames

/-- Each huge page that the loop of `vmm_map_range` puts, it puts where there is no table or one whose pages are all
mapped. -/
def LoopKeeps (frames : Nat → Nat) (flags vend : BitVec 64) : (fuel : Nat) → (v p : BitVec 64) → Vmm → Prop
  | 0, _, _, _ => True
  | fuel + 1, v, p, s => v.toNat < vend.toNat →
    let r := s.try_1g frames flags vend v p
    if r.1 then Full frames s 1 v ∧ LoopKeeps frames flags vend fuel (v + 0x40000000#64) (p + 0x40000000#64) r.2
    else
      let r' := r.2.try_2m frames flags vend v p
      if r'.1 then Full frames r.2 2 v ∧ LoopKeeps frames flags vend fuel (v + 0x200000#64) (p + 0x200000#64) r'.2
      else LoopKeeps frames flags vend fuel (v + 0x1000#64) (p + 0x1000#64) (r'.2.vmm_map frames v p flags)

theorem loop_keeps_done {flags vend v p : BitVec 64} (fuel : Nat) (h : vend.toNat ≤ v.toNat) :
    LoopKeeps frames flags vend fuel v p s := by
  cases fuel with
  | zero => trivial
  | succ fuel => exact fun hlt => absurd hlt (by omega)

/-- The condition on a call, in the state before it. -/
def Keeps (frames : Nat → Nat) (s : Vmm) : VmmCall → Prop
  | .map_range virt phys size flags => size ≠ 0 →
    let vstart := ALIGN_DOWN_4K virt
    let vend := ALIGN_UP_4K (virt + size)
    LoopKeeps frames flags vend (vend.toNat - vstart.toNat) vstart (ALIGN_DOWN_4K phys) s
  | _ => True

end Vmm

/-! ## The count is exact -/

namespace CountedVmm

open Vmm

variable {frames : Nat → Nat} {s : CountedVmm} {l k t i : Nat}

/-- The tables are sound and the count is the number of the mapped pages. -/
structure Exact (frames : Nat → Nat) (s : CountedVmm) : Prop where
  sound : s.toVmm.Sound frames
  count : s.mapped_page_count.toNat = s.mapped.ncard

theorem count_add {c : BitVec 64} {A B : Set Nat} {d : Nat} (hc : c.toNat = A.ncard) (hB : B.ncard = d)
    (hnew : ∀ n ∈ A, n ∉ B) (hlt : A ∪ B ⊆ {n | n < 2 ^ 36}) : (c + BitVec.ofNat 64 d).toNat = (A ∪ B).ncard := by
  have hfinite : (A ∪ B).Finite := (Set.finite_lt_nat _).subset hlt
  have hsum := Set.ncard_union_eq (Set.disjoint_left.mpr hnew) (hfinite.subset Set.subset_union_left)
    (hfinite.subset Set.subset_union_right)
  have hle : (A ∪ B).ncard ≤ 2 ^ 36 := by
    have hcard : {n : Nat | n < 2 ^ 36}.ncard = 2 ^ 36 := by
      rw [show {n : Nat | n < 2 ^ 36} = ↑(Finset.range (2 ^ 36)) from by ext n; simp, Set.ncard_coe_finset,
        Finset.card_range]
    exact hcard ▸ Set.ncard_le_ncard hlt (Set.finite_lt_nat _)
  rw [BitVec.toNat_add, BitVec.toNat_ofNat, hc, Nat.mod_eq_of_lt (show d < 2 ^ 64 by omega)]
  rw [Nat.mod_eq_of_lt (by omega)]
  omega

theorem put_huge {v : Vmm} {c : BitVec 64} (hs : v.Sound frames) (hc : c.toNat = v.mapped.ncard) (hl : l = 1 ∨ l = 2)
    (hk : k < 512 ^ l) (ht : v.table l k = some t) (hi : i < 512)
    (hfull : present (v.mem (slot t i)) = true → v.table (l + 1) (k * 512 + i) ≠ none →
      block l (k * 512 + i) ⊆ v.mapped) (phys flags : BitVec 64) :
    (if !present (v.mem (slot t i)) then c + BitVec.ofNat 64 (512 ^ (3 - l)) else c).toNat =
      (v.set (slot t i) (huge_entry phys flags)).mapped.ncard := by
  have hmapped := hs.set_huge_mapped hl hk ht hi phys flags
  cases hp : present (v.mem (slot t i)) with
  | false =>
    have hlt := hmapped ▸ mapped_subset (v.set (slot t i) (huge_entry phys flags))
    rw [hmapped]
    exact count_add hc (block_ncard l _) (hs.absent_block hl hk ht hi hp) hlt
  | true =>
    have hsubset : block l (k * 512 + i) ⊆ v.mapped := by
      cases hh : huge (v.mem (slot t i)) with
      | true => exact huge_block hl hk ht hi hh
      | false =>
        refine hfull hp ?_
        rw [table_succ ht hi]
        exact (hs.upper l (by omega) k t hk ht i hi).2 hp hh
    rw [hmapped, Set.union_eq_self_of_subset_right hsubset]
    exact hc

section Calls

variable (hf : FreshFrames frames s.kernel_pml4) (hs : s.Exact frames)
include hf hs

theorem Exact.vmm_map_1g (virt phys flags : BitVec 64)
    (hfull : (s.vmm_map_1g frames virt phys flags).1 = true → Full frames s.toVmm 1 virt) :
    (s.vmm_map_1g frames virt phys flags).2.Exact frames := by
  obtain ⟨hk1, hk2, -, -⟩ := keys virt
  obtain ⟨hlt1, -, -⟩ := keys_lt virt
  obtain ⟨hi1, hi2, -, -⟩ := index_lt virt
  have hroot := hs.sound.root
  obtain ⟨hg, htable, -⟩ := hs.sound.get_or_create hf (l := 0) (k := 0) (by omega) (by omega) rfl hi1
  have hsame := fun {j : Nat} (hj : j < 512) => hs.sound.get_or_create_same hf (l := 0) (k := 0) (by omega) (by omega)
    rfl hi1 (j := j) hj
  refine ⟨(map_1g_tables virt phys flags).2 ▸ (hs.sound.vmm_map_1g hf virt phys flags).1, ?_⟩
  rw [← hk1] at htable
  rw [CountedVmm.vmm_map_1g, if_neg hroot] at hfull ⊢
  split
  · exact hs.count
  · next haligned =>
    rw [if_neg haligned] at hfull
    generalize s.get_or_create_entry frames s.kernel_pml4 (PML4_INDEX virt) true = r at hg htable hsame hfull ⊢
    obtain ⟨_ | n, s₁⟩ := r
    · exact hs.count.trans (congrArg Set.ncard hg.mapped.symm)
    · have ht := htable.resolve_left (Nat.succ_ne_zero n)
      refine put_huge hg.sound (hs.count.trans (congrArg Set.ncard hg.mapped.symm)) (.inl rfl) hlt1 ht hi2
        (fun hp hne => ?_) phys flags
      -- an entry that is there was there before the call
      obtain rfl : s₁ = s.toVmm := hsame hi2 (Nat.succ_ne_zero n) hp
      have hblock := hfull rfl
      rw [Full, (slot_number_eq virt).2.1, hk2, mapped_pages_eq hroot] at hblock
      exact hblock hne

theorem Exact.vmm_map_2m (virt phys flags : BitVec 64)
    (hfull : (s.vmm_map_2m frames virt phys flags).1 = true → Full frames s.toVmm 2 virt) :
    (s.vmm_map_2m frames virt phys flags).2.Exact frames := by
  obtain ⟨hk1, hk2, hk3, -⟩ := keys virt
  obtain ⟨hlt1, hlt2, -⟩ := keys_lt virt
  obtain ⟨hi1, hi2, hi3, -⟩ := index_lt virt
  have hroot := hs.sound.root
  obtain ⟨hg, htable, -⟩ := hs.sound.get_or_create hf (l := 0) (k := 0) (by omega) (by omega) rfl hi1
  have hsame := fun {j : Nat} (hj : j < 512) => hs.sound.get_or_create_same hf (l := 0) (k := 0) (by omega) (by omega)
    rfl hi1 (j := j) hj
  refine ⟨(map_2m_tables virt phys flags).2 ▸ (hs.sound.vmm_map_2m hf virt phys flags).1, ?_⟩
  rw [← hk1] at htable
  rw [CountedVmm.vmm_map_2m, if_neg hroot] at hfull ⊢
  split
  · exact hs.count
  · next haligned =>
    rw [if_neg haligned] at hfull
    generalize s.get_or_create_entry frames s.kernel_pml4 (PML4_INDEX virt) true = r at hg htable hsame hfull ⊢
    obtain ⟨_ | n, s₁⟩ := r
    · exact hs.count.trans (congrArg Set.ncard hg.mapped.symm)
    · have ht := htable.resolve_left (Nat.succ_ne_zero n)
      obtain ⟨hg₂, htable₂, -⟩ := hg.sound.get_or_create (hg.pml4 ▸ hf) (by omega) hlt1 ht hi2
      have hsame₂ := fun {j : Nat} (hj : j < 512) => hg.sound.get_or_create_same (hg.pml4 ▸ hf) (by omega) hlt1 ht hi2
        (j := j) hj
      rw [← hk2] at htable₂
      simp only at hg₂ htable₂ hsame₂ hfull ⊢
      generalize s₁.get_or_create_entry frames (n + 1) (PDPT_INDEX virt) true = r₂ at hg₂ htable₂ hsame₂ hfull ⊢
      have hcount := hs.count.trans (congrArg Set.ncard (hg.trans hg₂).mapped.symm)
      obtain ⟨_ | n', s₂⟩ := r₂
      · exact hcount
      · have ht₂ := htable₂.resolve_left (Nat.succ_ne_zero n')
        refine put_huge hg₂.sound hcount (.inr rfl) hlt2 ht₂ hi3 (fun hp hne => ?_) phys flags
        -- an entry that is there was there before the call, and so was the one that leads to it
        obtain rfl : s₂ = s₁ := hsame₂ hi3 (Nat.succ_ne_zero n') hp
        rw [table_two, ht, Option.bind_some] at ht₂
        obtain rfl : s₂ = s.toVmm := hsame hi2 (Nat.succ_ne_zero n) (next_some ht₂).1
        have hblock := hfull rfl
        rw [Full, (slot_number_eq virt).2.2.1, hk3, mapped_pages_eq hroot] at hblock
        exact hblock hne

theorem Exact.vmm_map (virt phys flags : BitVec 64) : (s.vmm_map frames virt phys flags).Exact frames := by
  have hroot := hs.sound.root
  obtain ⟨hg, htable, -⟩ := hs.sound.last_table hf (ALIGN_DOWN_4K virt)
  refine ⟨map_tables virt phys flags ▸ (hs.sound.vmm_map hf virt phys flags).1, ?_⟩
  rw [CountedVmm.vmm_map, if_neg hroot]
  generalize s.last_table frames (ALIGN_DOWN_4K virt) true = r at hg htable ⊢
  obtain ⟨_ | n, s₁⟩ := r
  · exact hs.count.trans (congrArg Set.ncard hg.mapped.symm)
  · have ht := htable.resolve_left (Nat.succ_ne_zero n)
    have hcount : s.mapped_page_count.toNat = s₁.mapped.ncard :=
      hs.count.trans (congrArg Set.ncard hg.mapped.symm)
    have hleaf := mapped_leaf ht
    have hmapped := hg.sound.set_leaf_mapped ht ((ALIGN_DOWN_4K phys &&& VMM_ADDR_MASK) ||| flags ||| VMM_PRESENT)
    rw [if_pos (by
      rw [present_eq, BitVec.getLsbD_or, show VMM_PRESENT.getLsbD 0 = true by decide, Bool.or_true])] at hmapped
    have hlt := hmapped ▸ mapped_subset (s₁.set (slot (n + 1) (PT_INDEX (ALIGN_DOWN_4K virt)))
      ((ALIGN_DOWN_4K phys &&& VMM_ADDR_MASK) ||| flags ||| VMM_PRESENT))
    simp only
    rw [hmapped]
    cases hp : present (s₁.mem (slot (n + 1) (PT_INDEX (ALIGN_DOWN_4K virt)))) with
    | false =>
      have hnew : page (ALIGN_DOWN_4K virt) ∉ s₁.mapped := by simp [hleaf, hp]
      rw [← Set.union_singleton] at hlt ⊢
      refine count_add hcount (Set.ncard_singleton _) (fun n hn hpage => ?_) hlt
      exact hnew (Set.mem_singleton_iff.mp hpage ▸ hn)
    | true =>
      rw [Set.insert_eq_of_mem (hleaf.mpr hp)]
      exact hcount

theorem Exact.try_1g (flags vend v p : BitVec 64)
    (hfull : (s.try_1g frames flags vend v p).1 = true → Full frames s.toVmm 1 v) :
    (s.try_1g frames flags vend v p).2.Exact frames := by
  rw [CountedVmm.try_1g] at hfull ⊢
  split
  · next hfits =>
    rw [if_pos hfits] at hfull
    exact hs.vmm_map_1g hf v p flags hfull
  · exact hs

theorem Exact.try_2m (flags vend v p : BitVec 64)
    (hfull : (s.try_2m frames flags vend v p).1 = true → Full frames s.toVmm 2 v) :
    (s.try_2m frames flags vend v p).2.Exact frames := by
  rw [CountedVmm.try_2m] at hfull ⊢
  split
  · next hfits =>
    rw [if_pos hfits] at hfull
    exact hs.vmm_map_2m hf v p flags hfull
  · exact hs

omit hf in
theorem Exact.vmm_unmap (virt : BitVec 64) : (s.vmm_unmap frames virt).Exact frames := by
  have hroot := hs.sound.root
  refine ⟨unmap_tables virt ▸ (hs.sound.vmm_unmap virt).1, ?_⟩
  rw [CountedVmm.vmm_unmap, if_neg hroot, last_table_view hroot]
  cases htable : s.table 3 (key3 (ALIGN_DOWN_4K virt)) with
  | none => exact hs.count
  | some pt =>
    obtain ⟨n, rfl⟩ : ∃ n, pt = n + 1 := ⟨pt - 1, by have := table_ne_zero hroot htable; omega⟩
    simp only [Option.getD_some]
    have hleaf := mapped_leaf htable
    split
    · next hp =>
      have hmem := hleaf.mpr hp
      have hmapped := hs.sound.set_leaf_mapped htable 0
      rw [if_neg (by decide)] at hmapped
      have hless := Set.ncard_sdiff_singleton_add_one hmem s.mapped_finite
      have hcount := hs.count
      simp only
      rw [hmapped, BitVec.toNat_sub_of_le]
      · rw [show (1 : BitVec 64).toNat = 1 from rfl]
        omega
      · rw [BitVec.le_def, show (1 : BitVec 64).toNat = 1 from rfl]
        omega
    · exact hs.count

end Calls

theorem Exact.map_loop (flags vend : BitVec 64) (fuel : Nat) (v p : BitVec 64)
    (hf : FreshFrames frames s.kernel_pml4) (hs : s.Exact frames)
    (hkeeps : LoopKeeps frames flags vend fuel v p s.toVmm) :
    (s.map_loop frames flags vend fuel v p).Exact frames := by
  induction fuel generalizing v p s with
  | zero => exact hs
  | succ fuel ih =>
    rw [CountedVmm.map_loop]
    split
    · next hlt =>
      obtain ⟨hmade, htables⟩ := @try_1g_tables frames s flags vend v p
      obtain ⟨hmade', htables'⟩ := @try_2m_tables frames (s.try_1g frames flags vend v p).2 flags vend v p
      have hkeeps := hkeeps hlt
      dsimp only at hkeeps ⊢
      rw [← hmade, ← htables, ← hmade', ← htables', ← map_tables] at hkeeps
      have hpml4 : (s.try_1g frames flags vend v p).2.kernel_pml4 = s.kernel_pml4 := by
        rw [htables]
        exact (hs.sound.try_1g hf flags vend v p).2
      have hf₁ : FreshFrames frames (s.try_1g frames flags vend v p).2.kernel_pml4 := hpml4 ▸ hf
      by_cases hgig : (s.try_1g frames flags vend v p).1 = true
      · rw [if_pos hgig] at hkeeps ⊢
        exact ih _ _ hf₁ (hs.try_1g hf flags vend v p fun _ => hkeeps.1) hkeeps.2
      · rw [if_neg hgig] at hkeeps ⊢
        have hs₁ := hs.try_1g hf flags vend v p fun h => absurd h hgig
        generalize (s.try_1g frames flags vend v p).2 = s₁ at hkeeps hf₁ hs₁ htables' ⊢
        have hpml4₂ : (s₁.try_2m frames flags vend v p).2.kernel_pml4 = s₁.kernel_pml4 := by
          rw [htables']
          exact (hs₁.sound.try_2m hf₁ flags vend v p).2
        have hf₂ : FreshFrames frames (s₁.try_2m frames flags vend v p).2.kernel_pml4 := hpml4₂ ▸ hf₁
        by_cases hmeg : (s₁.try_2m frames flags vend v p).1 = true
        · rw [if_pos hmeg] at hkeeps ⊢
          exact ih _ _ hf₂ (hs₁.try_2m hf₁ flags vend v p fun _ => hkeeps.1) hkeeps.2
        · rw [if_neg hmeg] at hkeeps ⊢
          have hs₂ := hs₁.try_2m hf₁ flags vend v p fun h => absurd h hmeg
          refine ih _ _ ?_ (hs₂.vmm_map hf₂ v p flags) hkeeps
          rw [map_tables, (hs₂.sound.vmm_map hf₂ v p flags).2]
          exact hf₂
    · exact hs

theorem Exact.step (hf : FreshFrames frames s.kernel_pml4) (hs : s.Exact frames) (call : VmmCall)
    (hkeeps : Keeps frames s.toVmm call) : (s.step frames call).Exact frames := by
  cases call with
  | map virt phys flags => exact hs.vmm_map hf virt phys flags
  | map_range virt phys size flags =>
    rw [CountedVmm.step, CountedVmm.vmm_map_range]
    split
    · exact hs
    · next hsize => exact Exact.map_loop _ _ _ _ _ hf hs (hkeeps hsize)
  | unmap virt => exact hs.vmm_unmap virt

theorem Exact.run (hf : FreshFrames frames s.kernel_pml4) (hs : s.Exact frames) (calls : List VmmCall)
    (hkeeps : Along (CountedVmm.step frames) (fun s call => Keeps frames s.toVmm call) s calls) :
    (machine.run (CountedVmm.step frames) s calls).Exact frames := by
  induction calls generalizing s with
  | nil => exact hs
  | cons call calls ih =>
    refine ih ?_ (hs.step hf call hkeeps.1) hkeeps.2
    rw [step_tables, (hs.sound.step hf call).2]
    exact hf

theorem start_exact {pml4 : Nat} (mem : Nat → BitVec 64) (hroot : pml4 ≠ 0) (halign : pml4 % 4096 = 0) :
    (CountedVmm.start mem pml4).Exact frames := by
  refine ⟨start_sound mem hroot halign, ?_⟩
  have hnone : (Vmm.start mem pml4).mapped = ∅ := by
    refine Set.eq_empty_of_forall_notMem ?_
    rintro n ⟨w, -, hne⟩
    refine hne ?_
    have hentry : (Vmm.start mem pml4).table 1 (key1 w) = none := by
      rw [(keys w).1, table_succ (l := 0) (k := 0) rfl (index_lt w).1]
      change next ((Vmm.start mem pml4).mem (slot pml4 (PML4_INDEX w))) = none
      rw [start_entry mem (index_lt w).1]
      exact next_zero
    rw [view, hentry]
  change (0 : BitVec 64).toNat = (Vmm.start mem pml4).mapped.ncard
  rw [hnone, Set.ncard_empty]
  rfl

end CountedVmm

/-! ## Unmapping -/

namespace Vmm

variable {frames : Nat → Nat} {s : Vmm} {v : BitVec 64}

/-- The address lies in a page of 1 GiB or 2 MiB. -/
def InHuge (s : Vmm) (v : BitVec 64) : Prop :=
  (∃ t, s.table 1 (key1 v) = some t ∧ huge (s.mem (slot t (PDPT_INDEX v))) = true) ∨
  ∃ t, s.table 2 (key2 v) = some t ∧ huge (s.mem (slot t (PD_INDEX v))) = true

theorem InHuge.of_page {w : BitVec 64} (h : s.InHuge v) (hw : page w = page v) : s.InHuge w := by
  obtain ⟨h1, h2, -, -, i2, i3, -⟩ := page_indices hw
  rw [InHuge, h1, h2, i2, i3]
  exact h

theorem InHuge.no_table (h : s.InHuge v) : s.table 3 (key3 v) = none := by
  rcases h with ⟨t, ht, hh⟩ | ⟨t, ht, hh⟩
  · rw [table_three, table_two, ht, Option.bind_some, next_huge hh]
    rfl
  · rw [table_three, ht, Option.bind_some, next_huge hh]

theorem align_down_same_page (v : BitVec 64) : page (ALIGN_DOWN_4K v) = page v := by
  rw [page, page, align_down_toNat]
  omega

theorem view_no_table (h : ¬ s.InHuge v) (hnone : s.table 3 (key3 v) = none) : s.view v = 0 := by
  rw [view]
  cases hpdpt : s.table 1 (key1 v) with
  | none => rfl
  | some pdpt =>
    dsimp only
    rw [if_neg fun hh => h (.inl ⟨pdpt, hpdpt, hh⟩)]
    cases hpd : s.table 2 (key2 v) with
    | none => rfl
    | some pd =>
      dsimp only
      rw [if_neg fun hh => h (.inr ⟨pd, hpd, hh⟩), hnone]

/-- `vmm_unmap` takes the page away if and only if it is not in a huge page. -/
theorem Sound.unmapped_iff (hs : s.Sound frames) (v : BitVec 64) :
    (∀ w, page w = page v → (s.vmm_unmap frames v).view w = 0) ↔ ¬ s.InHuge v := by
  have halign := align_down_same_page v
  have hkey : key3 (ALIGN_DOWN_4K v) = key3 v := (page_indices halign).2.2.1
  constructor
  · intro hzero hhuge
    have hsame : s.vmm_unmap frames v = s := by
      rw [vmm_unmap_eq hs.root, hkey, hhuge.no_table]
    rw [hsame] at hzero
    obtain ⟨w, hw, hbit⟩ := second_address (n := page v) (Nat.mod_lt _ (by omega))
    have hview := hzero w hw
    rcases hhuge.of_page hw with ⟨t, ht, hh⟩ | ⟨t, ht, hh⟩
    · rw [view_1g ht hh] at hview
      exact answer_ne_zero _ hbit (by decide) hview
    · rw [view_2m ht hh] at hview
      exact answer_ne_zero _ hbit (by decide) hview
  · intro hhuge w hw
    cases htable : s.table 3 (key3 v) with
    | none =>
      rw [vmm_unmap_eq hs.root, hkey, htable]
      have hwhuge : ¬ s.InHuge w := fun h => hhuge (h.of_page hw.symm)
      exact view_no_table hwhuge ((page_indices hw).2.2.1 ▸ htable)
    | some pt =>
      have htable' : s.table 3 (key3 (ALIGN_DOWN_4K v)) = some pt := hkey ▸ htable
      have hnot : page v ∉ (s.vmm_unmap frames v).mapped := by
        rw [vmm_unmap_eq hs.root, htable', ← halign]
        dsimp only
        split
        · rw [hs.set_leaf_mapped htable' 0, if_neg (by decide)]
          exact fun h => h.2 rfl
        · next hp => exact fun h => hp ((mapped_leaf htable').mp h)
      by_contra hne
      exact hnot ⟨w, hw, hne⟩

end Vmm

/-- In a run whose huge pages replace no table with a page that is not mapped, the count is the number of the pages that
are mapped; and whatever the run, `vmm_unmap` unmaps the page of an address if and only if it is not in a huge page. -/
theorem page_count_and_unmap_exact {frames : Nat → Nat} {pml4 : Nat} (mem : Nat → BitVec 64) (hroot : pml4 ≠ 0)
    (halign : pml4 % 4096 = 0) (hf : Vmm.FreshFrames frames pml4) (calls : List VmmCall) :
    let s := run (CountedVmm.step frames) (.start mem pml4) calls
    (Along (CountedVmm.step frames) (fun s call => Vmm.Keeps frames s.toVmm call) (.start mem pml4) calls →
      s.vmm_mapped_pages.toNat =
        {n | ∃ w : BitVec 64, w.toNat / 4096 % 2 ^ 36 = n ∧ s.toVmm.vmm_translate frames w ≠ 0}.ncard) ∧
    ∀ v : BitVec 64, (∀ w : BitVec 64, w.toNat / 4096 % 2 ^ 36 = v.toNat / 4096 % 2 ^ 36 →
      (s.vmm_unmap frames v).toVmm.vmm_translate frames w = 0) ↔ ¬ s.toVmm.InHuge v := by
  intro s
  have hsound : s.toVmm.Sound frames := by
    have htables : s.toVmm = run (Vmm.step frames) (.start mem pml4) calls := CountedVmm.run_tables calls
    rw [htables]
    exact (Vmm.Sound.run (s := .start mem pml4) hf (Vmm.start_sound mem hroot halign) calls).1
  refine ⟨fun hkeeps => ?_, fun v => ?_⟩
  · have hexact : s.Exact frames :=
      CountedVmm.Exact.run (s := .start mem pml4) hf (CountedVmm.start_exact mem hroot halign) calls hkeeps
    exact hexact.count.trans (congrArg Set.ncard (Vmm.mapped_pages_eq hexact.sound.root).symm)
  · rw [CountedVmm.unmap_tables, ← hsound.unmapped_iff v]
    have hroot' := (hsound.vmm_unmap v).1.root
    constructor
    · intro h w hw
      rw [← Vmm.translate_view hroot']
      exact h w hw
    · intro h w hw
      rw [Vmm.translate_view hroot']
      exact h w hw

/-- A page of 2 MiB next to a page, and one page of it that is still there after it was unmapped. -/
theorem page_count_after_calls :
    let calls := [VmmCall.map_range 0x400000 0x800000 0x200000 3, .map 0x800000 0x900000 3, .unmap 0x800000]
    let s := run (CountedVmm.step next_frames) (.start (fun _ => 0) 0x1000) calls
    Along (CountedVmm.step next_frames) (fun s call => Vmm.Keeps next_frames s.toVmm call) (.start (fun _ => 0) 0x1000)
      calls ∧
    s.vmm_mapped_pages.toNat =
      {n | ∃ w : BitVec 64, w.toNat / 4096 % 2 ^ 36 = n ∧ s.toVmm.vmm_translate next_frames w ≠ 0}.ncard ∧
    s.vmm_mapped_pages = 512 := by
  intro calls s
  have hkeeps : Along (CountedVmm.step next_frames) (fun s call => Vmm.Keeps next_frames s.toVmm call)
      (.start (fun _ => 0) 0x1000) calls := by
    refine ⟨fun _ => ?_, trivial, trivial, trivial⟩
    obtain ⟨fuel, hfuel⟩ : ∃ fuel, (0x600000 : BitVec 64).toNat - (0x400000 : BitVec 64).toNat = fuel + 1 :=
      ⟨0x1FFFFF, by decide⟩
    dsimp only
    rw [show ALIGN_DOWN_4K 0x400000 = 0x400000 by decide, show ALIGN_DOWN_4K 0x800000 = 0x800000 by decide,
      show ALIGN_UP_4K (0x400000 + 0x200000) = 0x600000 by decide, hfuel]
    intro _
    dsimp only
    rw [if_neg (by decide +kernel), if_pos (by decide +kernel)]
    refine ⟨fun htable => absurd (by decide +kernel) htable, Vmm.loop_keeps_done fuel ?_⟩
    decide +kernel
  exact ⟨hkeeps, (page_count_and_unmap_exact (fun _ => 0) (by decide) (by decide) next_frames_fresh calls).1 hkeeps,
    by decide +kernel⟩

/-- A huge page over a table with one page in it, and a page of a huge page that is unmapped. -/
theorem huge_page_not_counted :
    let hidden := run (CountedVmm.step next_frames) (.start (fun _ => 0) 0x1000)
      [.map 0x400000 0x800000 3, .map_range 0x400000 0x800000 0x200000 3]
    let inside := run (CountedVmm.step next_frames) (.start (fun _ => 0) 0x1000)
      [.map_range 0x400000 0x800000 0x200000 3]
    hidden.vmm_mapped_pages.toNat ≠
      {n | ∃ w : BitVec 64, w.toNat / 4096 % 2 ^ 36 = n ∧ hidden.toVmm.vmm_translate next_frames w ≠ 0}.ncard ∧
    (inside.vmm_unmap next_frames 0x400000).toVmm.vmm_translate next_frames 0x400000 = 0x800000 := by
  intro hidden inside
  have hone : hidden.vmm_mapped_pages.toNat = 1 := by decide +kernel
  have hfirst : hidden.toVmm.vmm_translate next_frames 0x400000 ≠ 0 := by decide +kernel
  have hsecond : hidden.toVmm.vmm_translate next_frames 0x401000 ≠ 0 := by decide +kernel
  refine ⟨fun hcount => ?_, by decide +kernel⟩
  rw [hone] at hcount
  obtain ⟨n, hn⟩ := Set.ncard_eq_one.mp hcount.symm
  have hmem : ∀ w : BitVec 64, hidden.toVmm.vmm_translate next_frames w ≠ 0 → w.toNat / 4096 % 2 ^ 36 = n := by
    intro w hw
    have hin : w.toNat / 4096 % 2 ^ 36 ∈
        {n | ∃ w : BitVec 64, w.toNat / 4096 % 2 ^ 36 = n ∧ hidden.toVmm.vmm_translate next_frames w ≠ 0} :=
      ⟨w, rfl, hw⟩
    rw [hn] at hin
    exact hin
  have heq := (hmem _ hfirst).trans (hmem _ hsecond).symm
  exact absurd heq (by decide)

end graceos.mm
