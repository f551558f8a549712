import GraceOS.Sasy.Space
import GraceOS.Sasy.Handles
import GraceOS.Sasy.Paging

/-!
# Resident segments

The pages of a resident segment are mapped to consecutive frames.
-/

namespace graceos.sasy

open mm machine

/-- A segment in the address space of segments. -/
structure Segment.InSpace (g : Segment) : Prop where
  low : SASY_BASE_ADDR ≤ g.base
  high : g.base + g.size ≤ SASY_BASE_ADDR + SASY_MAX_SIZE
  base_aligned : g.base % PAGE_SIZE = 0
  size_aligned : g.size % PAGE_SIZE = 0

variable {g g' : Segment} {i j k v : Nat} {b b' : Backing}

theorem Segment.InSpace.vpage (hg : g.InSpace) (hk : k < g.pages) :
    (g.base + k * PAGE_SIZE) % 2 ^ 64 = g.base + k * PAGE_SIZE ∧
    sasy.vpage ((g.base + k * PAGE_SIZE) % 2 ^ 64) + 0xFFFF000000000 = g.base / PAGE_SIZE + k := by
  obtain ⟨hlow, hhigh, hbase, hsize⟩ := hg
  simp only [Segment.pages, SASY_BASE_ADDR, SASY_MAX_SIZE, PAGE_SIZE] at hlow hhigh hbase hsize hk ⊢
  have hmod : (g.base + k * 4096) % 2 ^ 64 = g.base + k * 4096 := Nat.mod_eq_of_lt (by omega)
  refine ⟨hmod, ?_⟩
  rw [hmod]
  simp only [sasy.vpage, PAGE_SIZE]
  omega

theorem Segment.InSpace.covers_iff (hg : g.InSpace) :
    g.Covers v ↔ ∃ k < g.pages, v + 0xFFFF000000000 = g.base / PAGE_SIZE + k := by
  constructor
  · rintro ⟨k, hk, rfl⟩
    exact ⟨k, hk, (hg.vpage hk).2⟩
  · rintro ⟨k, hk, hv⟩
    have := (hg.vpage hk).2
    exact ⟨k, hk, by omega⟩

theorem Segment.InSpace.apart (hg : g.InSpace) (hg' : g'.InSpace)
    (hapart : g.base + g.size ≤ g'.base ∨ g'.base + g'.size ≤ g.base) (hv : g.Covers v) : ¬ g'.Covers v := by
  rw [hg'.covers_iff]
  rw [hg.covers_iff] at hv
  obtain ⟨k, hk, hkv⟩ := hv
  rintro ⟨l, hl, hlv⟩
  have h1 := hg.base_aligned
  have h2 := hg'.base_aligned
  simp only [Segment.pages, PAGE_SIZE] at hk hl h1 h2 hkv hlv
  omega

theorem Table.Apart.inSpace {t : Table} (ha : t.Apart) (hi : (t.segments i).id ≠ 0) : (t.segments i).InSpace := by
  obtain ⟨hlow, -, hhigh⟩ := ha.within i hi
  obtain ⟨hbase, hsize⟩ := ha.aligned i hi
  exact ⟨hlow, hhigh, hbase, hsize⟩

theorem Table.Apart.covers {t : Table} (ha : t.Apart) (hi : (t.segments i).id ≠ 0) (hj : (t.segments j).id ≠ 0)
    (hij : i ≠ j) (hv : (t.segments i).Covers v) : ¬ (t.segments j).Covers v :=
  (ha.inSpace hi).apart (ha.inSpace hj) (ha.apart i j hi hj hij) hv

namespace Backing

/-- The segment `i` is resident: every page of it is mapped to its frame. -/
def Held (b : Backing) (g : Segment) (i : Nat) : Prop :=
  ∀ k < g.pages, b.map.page (vpage ((g.base + k * PAGE_SIZE) % 2 ^ 64)) =
    some ((b.phys i + k * PAGE_SIZE) % 2 ^ 64)

theorem Held.of_local (hh : b.Held g i) (hl : Local g' j b b') (hij : i ≠ j)
    (haway : ∀ v, g.Covers v → ¬ g'.Covers v) : b'.Held g i := by
  intro k hk
  rw [hl.page _ (haway _ ⟨k, hk, rfl⟩), hl.phys i hij]
  exact hh k hk

theorem Held.of_same (hh : b.Held g i) (hs : Same b b') : b'.Held g i := by
  intro k hk
  rw [hs.page, hs.phys]
  exact hh k hk

/-- The frames that are found are not null. -/
theorem alloc_pages_ne_zero {a n p : Nat} (hk : ∀ m < k, (a + m * PAGE_SIZE) % 2 ^ 64 ≠ 0)
    (hfirst : k = 0 ∨ a < 2 ^ 64) (hsome : (alloc_pages a k n b).1 = some p) :
    ∀ m < k + n, (p + m * PAGE_SIZE) % 2 ^ 64 ≠ 0 := by
  induction n generalizing a k b with
  | zero =>
    obtain rfl : a = p := by simpa [alloc_pages] using hsome
    exact hk
  | succ n ih =>
    rw [alloc_pages] at hsome
    have hword : b.pmm_alloc_page.1 < 2 ^ 64 := Nat.mod_lt _ (by decide)
    generalize b.pmm_alloc_page = r at hsome hword
    obtain ⟨page, b₁⟩ := r
    dsimp only at hsome hword
    split_ifs at hsome with hzero hstart hgap
    · have := ih (k := 1) (a := page) ?_ (.inr hword) hsome
      · intro m hm
        exact this m (by omega)
      · intro m hm
        obtain rfl : m = 0 := by omega
        rw [Nat.zero_mul, Nat.add_zero, Nat.mod_eq_of_lt hword]
        exact hzero
    · have := ih (k := k + 1) (a := a) ?_ (.inr (hfirst.resolve_left hstart)) hsome
      · intro m hm
        exact this m (by omega)
      · intro m hm
        by_cases hmk : m = k
        · subst hmk
          rw [← not_ne_iff.mp hgap]
          exact hzero
        · exact hk m (by omega)

theorem vmm_map_translate {virt phys : Nat} (hvirt : virt % PAGE_SIZE = 0) (hphys : phys ≠ 0)
    (hok : (b.vmm_map virt phys).vmm_translate virt = phys) :
    (b.vmm_map virt phys).map.page (vpage virt) = some phys := by
  rw [vmm_translate] at hok
  cases hpage : (b.vmm_map virt phys).map.page (vpage virt) with
  | none =>
    rw [hpage] at hok
    exact absurd hok.symm hphys
  | some p =>
    rw [hpage] at hok
    dsimp only at hok
    rw [hvirt] at hok
    rw [← hok, Nat.add_zero]

theorem unmap_pages_fields (b : Backing) (base n : Nat) :
    (b.unmap_pages base n).present = b.present ∧ (b.unmap_pages base n).phys = b.phys ∧
    (b.unmap_pages base n).swap_id = b.swap_id := by
  rw [unmap_pages]
  generalize page_addrs base n = addrs
  induction addrs generalizing b with
  | nil => exact ⟨rfl, rfl, rfl⟩
  | cons a addrs ih => exact ih (b.vmm_unmap a)

theorem map_pages_fields (virt phys total k n : Nat) (b : Backing) :
    (map_pages virt phys total k n b).2.present = b.present ∧ (map_pages virt phys total k n b).2.phys = b.phys ∧
    (map_pages virt phys total k n b).2.swap_id = b.swap_id := by
  induction n generalizing k b with
  | zero => exact ⟨rfl, rfl, rfl⟩
  | succ n ih =>
    have hmap := b.vmm_map_remap ((virt + k * PAGE_SIZE) % 2 ^ 64) ((phys + k * PAGE_SIZE) % 2 ^ 64)
    rw [map_pages]
    split
    · obtain ⟨hpresent, hphys, hswap⟩ := unmap_pages_fields
        (b.vmm_map ((virt + k * PAGE_SIZE) % 2 ^ 64) ((phys + k * PAGE_SIZE) % 2 ^ 64)) virt (k + 1)
      have hfree := free_pages_same ((b.vmm_map ((virt + k * PAGE_SIZE) % 2 ^ 64)
        ((phys + k * PAGE_SIZE) % 2 ^ 64)).unmap_pages virt (k + 1)) phys total
      exact ⟨(hfree.present.trans hpresent).trans hmap.present, (hfree.phys.trans hphys).trans hmap.phys,
        (hfree.swap_id.trans hswap).trans hmap.swap_id⟩
    · obtain ⟨hpresent, hphys, hswap⟩ := ih (k + 1)
        (b.vmm_map ((virt + k * PAGE_SIZE) % 2 ^ 64) ((phys + k * PAGE_SIZE) % 2 ^ 64))
      exact ⟨hpresent.trans hmap.present, hphys.trans hmap.phys, hswap.trans hmap.swap_id⟩

/-- After the second loop every page is mapped to its frame. -/
theorem map_pages_mapped (hg : g.InSpace) {phys n : Nat}
    (hphys : ∀ m < g.pages, (phys + m * PAGE_SIZE) % 2 ^ 64 ≠ 0) (hn : k + n = g.pages)
    (hok : (map_pages g.base phys g.pages k n b).1 = true)
    (hbefore : ∀ m < k, b.map.page (vpage ((g.base + m * PAGE_SIZE) % 2 ^ 64)) =
      some ((phys + m * PAGE_SIZE) % 2 ^ 64)) :
    ∀ m < g.pages, (map_pages g.base phys g.pages k n b).2.map.page (vpage ((g.base + m * PAGE_SIZE) % 2 ^ 64)) =
      some ((phys + m * PAGE_SIZE) % 2 ^ 64) := by
  induction n generalizing k b with
  | zero =>
    intro m hm
    exact hbefore m (by omega)
  | succ n ih =>
    have hk : k < g.pages := by omega
    have hmap := b.vmm_map_remap ((g.base + k * PAGE_SIZE) % 2 ^ 64) ((phys + k * PAGE_SIZE) % 2 ^ 64)
    rw [map_pages] at hok ⊢
    split at hok
    · cases hok
    · next htranslate =>
      rw [if_neg htranslate]
      refine ih (by omega) hok fun m hm => ?_
      by_cases hmk : m = k
      · subst hmk
        refine vmm_map_translate ?_ (hphys m hk) (not_ne_iff.mp htranslate)
        have hbase := hg.base_aligned
        rw [(hg.vpage hk).1, Nat.add_mul_mod_self_right]
        exact hbase
      · rw [hmap.page]
        · exact hbefore m (by omega)
        · have h1 := (hg.vpage hk).2
          have h2 := (hg.vpage (show m < g.pages by omega)).2
          omega

theorem map_pages_some_held (hg : g.InSpace) {first : Nat} {b₁ : Backing}
    (hsome : alloc_pages 0 0 g.pages b = (some first, b₁))
    (hok : (map_pages g.base first g.pages 0 g.pages (b₁.set_phys j first)).1 = true) :
    (map_pages g.base first g.pages 0 g.pages (b₁.set_phys j first)).2.Held g j := by
  have hnz := alloc_pages_ne_zero (k := 0) (n := g.pages) (b := b) (p := first) (a := 0) (by omega) (.inl rfl)
    (by rw [hsome])
  intro m hm
  rw [map_pages_mapped hg (fun m hm => hnz m (by omega)) (by omega) hok (by omega) m hm,
    (map_pages_fields _ _ _ _ _ _).2.1]
  simp [set_phys]

/-- A segment that is paged in is resident; one that could not be is as absent as before. -/
theorem sasy_pagein_spec (hg : g.InSpace) (hheld : b.present j = true → b.Held g j) :
    ((b.sasy_pagein g j).2.present j = (b.sasy_pagein g j).1) ∧
    ((b.sasy_pagein g j).1 = true → (b.sasy_pagein g j).2.Held g j) := by
  rw [sasy_pagein]
  split
  · next hpresent => exact ⟨hpresent, fun _ => hheld hpresent⟩
  · next habsent =>
    have hfalse : b.present j = false := by simpa using habsent
    have hsame := alloc_pages_same 0 0 g.pages b
    cases hsome : alloc_pages 0 0 g.pages b with
    | mk o b₁ =>
      rw [hsome] at hsame
      cases o with
      | none => exact ⟨(congrFun hsame.present j).trans hfalse, fun h => by cases h⟩
      | some first =>
        dsimp only at hsame ⊢
        have hmapped := map_pages_some_held (j := j) hg hsome
        have hfields := map_pages_fields g.base first g.pages 0 g.pages (b₁.set_phys j first)
        generalize map_pages g.base first g.pages 0 g.pages (b₁.set_phys j first) = r₂ at hmapped hfields
        obtain ⟨ok, b₂⟩ := r₂
        dsimp only at hmapped hfields
        have hfalse₂ : b₂.present j = false := by
          rw [hfields.1]
          exact (congrFun hsame.present j).trans hfalse
        cases ok with
        | false => exact ⟨hfalse₂, fun h => by cases h⟩
        | true =>
          have hload := b₂.load_contents_loaded (g := g) (j := j)
          dsimp only
          generalize b₂.load_contents g j = r₃ at hload
          obtain ⟨ok, b₃⟩ := r₃
          dsimp only at hload
          cases ok with
          | false => exact ⟨(congrFun hload.present j).trans hfalse₂, fun h => by cases h⟩
          | true =>
            refine ⟨by simp [set_present], fun _ k hk => ?_⟩
            have := hmapped rfl k hk
            rw [← hload.page, ← hload.phys] at this
            exact this

theorem sasy_map_now_spec (hg : g.InSpace) (habsent : b.present j = false) :
    ((b.sasy_map_now g j).2.present j = (b.sasy_map_now g j).1) ∧
    ((b.sasy_map_now g j).1 = true → (b.sasy_map_now g j).2.Held g j) := by
  rw [sasy_map_now_eq]
  have hsame := alloc_pages_same 0 0 g.pages b
  cases hsome : alloc_pages 0 0 g.pages b with
  | mk o b₁ =>
    rw [hsome] at hsame
    cases o with
    | none => exact ⟨(congrFun hsame.present j).trans habsent, fun h => by cases h⟩
    | some first =>
      dsimp only at hsame
      have hmapped := map_pages_some_held (j := j) hg hsome
      have hfields := map_pages_fields g.base first g.pages 0 g.pages (b₁.set_phys j first)
      dsimp only
      generalize map_pages g.base first g.pages 0 g.pages (b₁.set_phys j first) = r₂ at hmapped hfields
      obtain ⟨ok, b₂⟩ := r₂
      dsimp only at hmapped hfields
      cases ok with
      | false =>
        refine ⟨?_, fun h => by cases h⟩
        dsimp only
        rw [hfields.1]
        exact (congrFun hsame.present j).trans habsent
      | true =>
        refine ⟨by simp [set_present], fun _ => ?_⟩
        have hfill : Same b₂ (if g.has SEG_FLAG_ZEROED then b₂.zero_fill g else b₂) := by
          split
          · exact b₂.fill_same _ _ _
          · exact .refl
        intro k hk
        have := hmapped rfl k hk
        rw [← hfill.page, ← hfill.phys] at this
        exact this

theorem trim_held (hh : b.Held g j) (hg : g.InSpace) {n : Nat} (hn : n ≤ g.pages) :
    ∀ k < n, (b.trim g j n).map.page (vpage ((g.base + k * PAGE_SIZE) % 2 ^ 64)) =
      some (((b.trim g j n).phys j + k * PAGE_SIZE) % 2 ^ 64) := by
  obtain ⟨-, hphys, -, hpage⟩ := b.trim_remap (g := g) (j := j) n
  intro k hk
  rw [hphys, hpage]
  · exact hh k (by omega)
  · intro m hm hlt
    have h1 := (hg.vpage hlt).2
    have h2 := (hg.vpage (show k < g.pages by omega)).2
    omega

theorem evict_present (b : Backing) (g : Segment) (i : Nat) : (b.evict g i).present i = false := by
  simp [evict, set_present]

/-- What is resident after `swap_out` was resident before, and is where it was. -/
theorem swap_out_held (hheld : b.present j = true → b.Held g j)
    (hpresent : (b.swap_out g j).2.present j = true) : (b.swap_out g j).2.Held g j := by
  by_cases hmay : b.swap_ready = true ∧ b.present j = true ∧ g.locked = 0 ∧ g.has SEG_FLAG_NOSWAP = false
  · obtain ⟨hready, hp, hlocked, hswap⟩ := hmay
    rw [swap_out_eq hready hp hlocked hswap] at hpresent ⊢
    have hslot : ((b.slot_of g j).2.set_swap_id j (b.slot_of g j).1).map.page = b.map.page ∧
        ((b.slot_of g j).2.set_swap_id j (b.slot_of g j).1).phys = b.phys := by
      have hsame := b.slot_of_same g j
      exact ⟨hsame.page, hsame.phys⟩
    dsimp only at hpresent ⊢
    generalize (b.slot_of g j).2.set_swap_id j (b.slot_of g j).1 = b₂ at hslot hpresent ⊢
    have hheld₂ : ∀ b₃ : Backing, b₃.map.page = b₂.map.page → b₃.phys = b₂.phys → b₃.Held g j := by
      intro b₃ hpage hphys k hk
      rw [hpage, hslot.1, hphys, hslot.2]
      exact hheld hp k hk
    split_ifs at hpresent ⊢
    · exact hheld₂ b₂ rfl rfl
    · exact hheld₂ b₂ rfl rfl
    · have hwrite := b₂.pmem_write_same (b₂.swap_offset j) g.base g.size
      generalize b₂.pmem_write (b₂.swap_offset j) g.base g.size = r at hwrite hpresent
      obtain ⟨ok, b₃⟩ := r
      cases ok with
      | false => exact hheld₂ b₃ hwrite.page hwrite.phys
      | true =>
        dsimp only at hpresent
        rw [evict_present] at hpresent
        cases hpresent
  · rw [swap_out_same hmay] at hpresent ⊢
    exact hheld hpresent

end Backing

end graceos.sasy
