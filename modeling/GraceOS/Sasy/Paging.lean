import GraceOS.Sasy.Calls

/-!
# Work on one segment

What is done to the memory of one segment leaves the others alone: only pages of its own range are
mapped and unmapped.
-/

namespace graceos.sasy

open mm machine

/-- The virtual page `v` is one of the segment. -/
def Segment.Covers (g : Segment) (v : Nat) : Prop :=
  ∃ k < g.pages, v = vpage ((g.base + k * PAGE_SIZE) % 2 ^ 64)

namespace Backing

/-- What may differ after work on the segment `j` with the descriptor `g`. -/
structure Local (g : Segment) (j : Nat) (b b' : Backing) : Prop where
  page : ∀ v, ¬ g.Covers v → b'.map.page v = b.map.page v
  present : ∀ i, i ≠ j → b'.present i = b.present i
  phys : ∀ i, i ≠ j → b'.phys i = b.phys i
  swap_id : ∀ i, i ≠ j → b'.swap_id i = b.swap_id i

variable {g : Segment} {i j : Nat} {b b' b'' : Backing}

theorem Local.refl : Local g j b b := ⟨fun _ _ => rfl, fun _ _ => rfl, fun _ _ => rfl, fun _ _ => rfl⟩

theorem Local.trans (hl : Local g j b b') (hl' : Local g j b' b'') : Local g j b b'' :=
  ⟨fun v hv => (hl'.page v hv).trans (hl.page v hv), fun i hi => (hl'.present i hi).trans (hl.present i hi),
    fun i hi => (hl'.phys i hi).trans (hl.phys i hi), fun i hi => (hl'.swap_id i hi).trans (hl.swap_id i hi)⟩

/-- Descriptors and page map are the same. -/
structure Same (b b' : Backing) : Prop where
  page : b'.map.page = b.map.page
  present : b'.present = b.present
  phys : b'.phys = b.phys
  swap_id : b'.swap_id = b.swap_id

theorem Same.refl : Same b b := ⟨rfl, rfl, rfl, rfl⟩

theorem Same.trans (hs : Same b b') (hs' : Same b' b'') : Same b b'' :=
  ⟨hs'.page.trans hs.page, hs'.present.trans hs.present, hs'.phys.trans hs.phys, hs'.swap_id.trans hs.swap_id⟩

theorem Same.local (hs : Same b b') : Local g j b b' :=
  ⟨fun v _ => congrFun hs.page v, fun i _ => congrFun hs.present i, fun i _ => congrFun hs.phys i,
    fun i _ => congrFun hs.swap_id i⟩

/-- The page map alone differs, at the page of an address. -/
structure Remap (virt : Nat) (b b' : Backing) : Prop where
  page : ∀ v, v ≠ vpage virt → b'.map.page v = b.map.page v
  present : b'.present = b.present
  phys : b'.phys = b.phys
  swap_id : b'.swap_id = b.swap_id

theorem Remap.local {virt : Nat} (hr : Remap virt b b') (hc : g.Covers (vpage virt)) : Local g j b b' :=
  ⟨fun v hv => hr.page v (fun heq => hv (heq ▸ hc)), fun i _ => congrFun hr.present i,
    fun i _ => congrFun hr.phys i, fun i _ => congrFun hr.swap_id i⟩

theorem pmm_alloc_page_same (b : Backing) : Same b b.pmm_alloc_page.2 := ⟨rfl, rfl, rfl, rfl⟩
theorem pmm_free_page_same (b : Backing) (p : Nat) : Same b (b.pmm_free_page p) := ⟨rfl, rfl, rfl, rfl⟩

theorem get_table_same (b : Backing) (there : Bool) : Same b (b.get_table there).2 := by
  rw [get_table]
  split
  · exact .refl
  · exact b.pmm_alloc_page_same

theorem Same.remap {virt : Nat} (hs : Same b b') : Remap virt b b' :=
  ⟨fun v _ => congrFun hs.page v, hs.present, hs.phys, hs.swap_id⟩

/-- The page map is changed. -/
def enter (b : Backing) (set : PageMap → PageMap) : Backing := { b with map := set b.map }

theorem Same.enter (hs : Same b b') {set : PageMap → PageMap} (hpage : (set b'.map).page = b'.map.page) :
    Same b (b'.enter set) :=
  ⟨hpage.trans hs.page, hs.present, hs.phys, hs.swap_id⟩

theorem Same.get_table (hs : Same b b') (there : Bool) : Same b (b'.get_table there).2 :=
  hs.trans (b'.get_table_same there)

/-- The tables that `vmm_map` finds or makes on its way down. -/
def pdpt_of (b : Backing) (v : Nat) : Bool × Backing := b.get_table (b.map.pdpt (v / 2 ^ 27))
def pd_of (b : Backing) (v : Nat) : Bool × Backing :=
  let b := b.enter fun m => { m with pdpt := Function.update m.pdpt (v / 2 ^ 27) true }
  b.get_table (b.map.pd (v / 2 ^ 18))
def pt_of (b : Backing) (v : Nat) : Bool × Backing :=
  let b := b.enter fun m => { m with pd := Function.update m.pd (v / 2 ^ 18) true }
  b.get_table (b.map.pt (v / 2 ^ 9))
def leaf_of (b : Backing) (v phys : Nat) : Backing :=
  (b.enter fun m => { m with pt := Function.update m.pt (v / 2 ^ 9) true }).enter fun m =>
    { m with page := Function.update m.page v (some (align_down phys PAGE_SIZE)) }

theorem vmm_map_eq (b : Backing) (virt phys : Nat) : b.vmm_map virt phys =
    let v := vpage virt
    let r₁ := b.pdpt_of v
    if !r₁.1 then r₁.2 else
    let r₂ := r₁.2.pd_of v
    if !r₂.1 then r₂.2 else
    let r₃ := r₂.2.pt_of v
    if !r₃.1 then r₃.2 else r₃.2.leaf_of v phys := rfl

theorem vmm_map_remap (b : Backing) (virt phys : Nat) : Remap virt b (b.vmm_map virt phys) := by
  rw [vmm_map_eq]
  dsimp only
  have hpdpt : Same b (b.pdpt_of (vpage virt)).2 := Same.refl.get_table _
  generalize b.pdpt_of (vpage virt) = r₁ at hpdpt
  have hpd : Same b (r₁.2.pd_of (vpage virt)).2 := (hpdpt.enter rfl).get_table _
  generalize r₁.2.pd_of (vpage virt) = r₂ at hpd
  have hpt : Same b (r₂.2.pt_of (vpage virt)).2 := (hpd.enter rfl).get_table _
  generalize r₂.2.pt_of (vpage virt) = r₃ at hpt
  split_ifs
  · exact hpdpt.remap
  · exact hpd.remap
  · exact hpt.remap
  · refine ⟨fun v hv => ?_, hpt.present, hpt.phys, hpt.swap_id⟩
    simp only [leaf_of, enter, Function.update_of_ne hv]
    exact congrFun hpt.page v

theorem vmm_unmap_remap (b : Backing) (virt : Nat) : Remap virt b (b.vmm_unmap virt) :=
  ⟨fun v hv => by simp [vmm_unmap, hv], rfl, rfl, rfl⟩

theorem unmap_pages_local {n : Nat} (hn : n ≤ g.pages) (b : Backing) : Local g j b (b.unmap_pages g.base n) := by
  have hcover : ∀ a ∈ page_addrs g.base n, g.Covers (vpage a) := by
    intro a ha
    obtain ⟨k, hk, rfl⟩ := List.mem_map.mp ha
    exact ⟨k, by have := List.mem_range.mp hk; omega, rfl⟩
  rw [unmap_pages]
  generalize page_addrs g.base n = addrs at hcover
  induction addrs generalizing b with
  | nil => exact .refl
  | cons a addrs ih =>
    exact ((b.vmm_unmap_remap a).local (hcover a List.mem_cons_self)).trans
      (ih (b.vmm_unmap a) fun x hx => hcover x (List.mem_cons_of_mem a hx))

theorem free_pages_same (b : Backing) (phys n : Nat) : Same b (b.free_pages phys n) := by
  rw [free_pages]
  generalize page_addrs phys n = addrs
  induction addrs generalizing b with
  | nil => exact .refl
  | cons a addrs ih => exact (b.pmm_free_page_same a).trans (ih (b.pmm_free_page a))

theorem free_frames_same (b : Backing) (g : Segment) (i : Nat) : Same b (b.free_frames g i) := by
  rw [free_frames]
  split
  · exact free_pages_same _ _ _
  · exact .refl

theorem alloc_pages_same (first k n : Nat) (b : Backing) : Same b (alloc_pages first k n b).2 := by
  induction n generalizing first k b with
  | zero => exact .refl
  | succ n ih =>
    have halloc := b.pmm_alloc_page_same
    rw [alloc_pages]
    generalize b.pmm_alloc_page = r at halloc
    obtain ⟨page, b₁⟩ := r
    dsimp only at halloc ⊢
    split_ifs
    · exact halloc.trans (free_pages_same _ _ _)
    · exact halloc.trans (ih _ _ _)
    · exact (halloc.trans (free_pages_same _ _ _)).trans (pmm_free_page_same _ _)
    · exact halloc.trans (ih _ _ _)

theorem map_pages_local {phys k n : Nat} (hn : k + n = g.pages) (b : Backing) :
    Local g j b (map_pages g.base phys g.pages k n b).2 := by
  induction n generalizing k b with
  | zero => exact .refl
  | succ n ih =>
    have hmap : Local g j b (b.vmm_map ((g.base + k * PAGE_SIZE) % 2 ^ 64) ((phys + k * PAGE_SIZE) % 2 ^ 64)) :=
      (b.vmm_map_remap _ _).local ⟨k, by omega, rfl⟩
    rw [map_pages]
    split
    · exact (hmap.trans (unmap_pages_local (by omega) _)).trans (free_pages_same _ _ _).local
    · exact hmap.trans (ih (by omega) _)

theorem fill_same (b : Backing) (base : Nat) (value : Nat → UInt8) (n : Nat) : Same b (b.fill base value n) := by
  induction n with
  | zero => exact .refl
  | succ n ih => exact ih.trans ⟨rfl, rfl, rfl, rfl⟩

theorem swap_free_same (b : Backing) (id : Nat) : Same b (b.swap_free id) := by
  rw [swap_free]
  split
  · exact .refl
  · split
    · exact .refl
    · exact ⟨rfl, rfl, rfl, rfl⟩

theorem swap_alloc_same (b : Backing) (size : Nat) : Same b (b.swap_alloc size).2 := by
  rw [swap_alloc]
  split
  · exact .refl
  · dsimp only
    split
    · exact .refl
    · split
      · exact .refl
      · exact ⟨rfl, rfl, rfl, rfl⟩

theorem pmem_read_same (b : Backing) (offset base size : Nat) : Same b (b.pmem_read offset base size).2 := by
  rw [pmem_read]
  split_ifs
  · exact .refl
  · exact ⟨rfl, rfl, rfl, rfl⟩
  · exact (b.fill_same _ _ _).trans ⟨rfl, rfl, rfl, rfl⟩

theorem pmem_write_same (b : Backing) (offset base size : Nat) : Same b (b.pmem_write offset base size).2 := by
  rw [pmem_write]
  split_ifs
  · exact .refl
  · exact ⟨rfl, rfl, rfl, rfl⟩
  · exact ⟨rfl, rfl, rfl, rfl⟩

theorem set_present_local (b : Backing) (flag : Bool) : Local g j b (b.set_present j flag) :=
  ⟨fun _ _ => rfl, fun i hi => by simp [set_present, hi], fun _ _ => rfl, fun _ _ => rfl⟩

theorem set_phys_local (b : Backing) (phys : Nat) : Local g j b (b.set_phys j phys) :=
  ⟨fun _ _ => rfl, fun _ _ => rfl, fun i hi => by simp [set_phys, hi], fun _ _ => rfl⟩

theorem set_swap_id_local (b : Backing) (id : Nat) : Local g j b (b.set_swap_id j id) :=
  ⟨fun _ _ => rfl, fun _ _ => rfl, fun _ _ => rfl, fun i hi => by simp [set_swap_id, hi]⟩

theorem evict_local (b : Backing) : Local g j b (b.evict g j) := by
  have hunmap : Local g j b (b.unmap_segment g) := by
    rw [unmap_segment]
    split
    · exact unmap_pages_local (le_refl _) b
    · exact .refl
  exact (hunmap.trans (free_frames_same _ g j).local).trans ((set_phys_local _ 0).trans (set_present_local _ false))

/-- The slot of swap space that `swap_out` writes to. -/
def slot_of (b : Backing) (g : Segment) (i : Nat) : Nat × Backing :=
  if b.swap_id i = 0 then b.swap_alloc g.size else (b.swap_id i, b)

theorem slot_of_same (b : Backing) (g : Segment) (i : Nat) : Same b (b.slot_of g i).2 := by
  rw [slot_of]
  split
  · exact b.swap_alloc_same g.size
  · exact .refl

theorem swap_out_eq (hready : b.swap_ready = true) (hpresent : b.present i = true) (hlocked : g.locked = 0)
    (hswap : g.has SEG_FLAG_NOSWAP = false) : b.swap_out g i =
    let b₂ := (b.slot_of g i).2.set_swap_id i (b.slot_of g i).1
    if (b.slot_of g i).1 = 0 then (false, b₂)
    else if !b₂.swap_fits g i then (false, b₂)
    else
      match b₂.pmem_write (b₂.swap_offset i) g.base g.size with
      | (false, b₃) => (false, b₃)
      | (true, b₃) => (true, b₃.evict g i) := by
  rw [swap_out]
  simp only [hready, hpresent, hlocked, hswap, Bool.not_true, Bool.false_eq_true, if_false, gt_iff_lt, lt_irrefl]
  rfl

theorem swap_out_same (hno : ¬ (b.swap_ready = true ∧ b.present i = true ∧ g.locked = 0 ∧
    g.has SEG_FLAG_NOSWAP = false)) : (b.swap_out g i).2 = b := by
  rw [swap_out]
  split
  · rfl
  · split
    · rfl
    · split
      · rfl
      · split
        · rfl
        · next hready hpresent hlocked hswap =>
          exact absurd ⟨by simpa using hready, by simpa using hpresent, by omega, by simpa using hswap⟩ hno

theorem swap_out_local (b : Backing) : Local g j b (b.swap_out g j).2 := by
  by_cases hmay : b.swap_ready = true ∧ b.present j = true ∧ g.locked = 0 ∧ g.has SEG_FLAG_NOSWAP = false
  · obtain ⟨hready, hpresent, hlocked, hswap⟩ := hmay
    rw [swap_out_eq hready hpresent hlocked hswap]
    have hslot : Local g j b ((b.slot_of g j).2.set_swap_id j (b.slot_of g j).1) :=
      (b.slot_of_same g j).local.trans (set_swap_id_local _ _)
    dsimp only
    generalize (b.slot_of g j).2.set_swap_id j (b.slot_of g j).1 = b₂ at hslot
    split_ifs
    · exact hslot
    · exact hslot
    · have hwrite := b₂.pmem_write_same (b₂.swap_offset j) g.base g.size
      generalize b₂.pmem_write (b₂.swap_offset j) g.base g.size = r at hwrite
      obtain ⟨ok, b₃⟩ := r
      cases ok with
      | false => exact hslot.trans hwrite.local
      | true => exact (hslot.trans hwrite.local).trans (evict_local b₃)
  · rw [swap_out_same hmay]
    exact .refl

/-- Only the swap slot of the segment `j` may differ. -/
structure Loaded (j : Nat) (b b' : Backing) : Prop where
  page : b'.map.page = b.map.page
  present : b'.present = b.present
  phys : b'.phys = b.phys
  swap_id : ∀ i, i ≠ j → b'.swap_id i = b.swap_id i

theorem Same.loaded (hs : Same b b') : Loaded j b b' := ⟨hs.page, hs.present, hs.phys, fun i _ => congrFun hs.swap_id i⟩

theorem Loaded.local (hl : Loaded j b b') : Local g j b b' :=
  ⟨fun v _ => congrFun hl.page v, fun i _ => congrFun hl.present i, fun i _ => congrFun hl.phys i, hl.swap_id⟩

theorem swap_read_loaded (b : Backing) : Loaded j b (b.swap_read g j).2 := by
  rw [swap_read]
  split_ifs
  · exact Same.refl.loaded
  · exact Same.refl.loaded
  · exact Same.refl.loaded
  · exact Same.refl.loaded
  · have hread := b.pmem_read_same (b.swap_offset j) g.base g.size
    generalize b.pmem_read (b.swap_offset j) g.base g.size = r at hread
    obtain ⟨ok, b₁⟩ := r
    dsimp only at hread
    cases ok with
    | false => exact hread.loaded
    | true =>
      have hfree := (b₁.set_swap_id j 0).swap_free_same (b₁.swap_id j)
      refine ⟨hfree.page.trans hread.page, hfree.present.trans hread.present, hfree.phys.trans hread.phys,
        fun i hi => ?_⟩
      refine (congrFun hfree.swap_id i).trans ?_
      rw [← hread.swap_id]
      simp [set_swap_id, hi]

theorem load_contents_loaded (b : Backing) : Loaded j b (b.load_contents g j).2 := by
  rw [load_contents]
  split_ifs
  · exact Same.refl.loaded
  · exact b.swap_read_loaded
  · exact (b.fill_same g.base (fun _ => 0) g.pages).loaded
  · exact Same.refl.loaded

theorem map_pages_some_local (b : Backing) (first : Nat) :
    Local g j b (map_pages g.base first g.pages 0 g.pages (b.set_phys j first)).2 :=
  (set_phys_local b first).trans (map_pages_local (by omega) _)

theorem sasy_pagein_local (b : Backing) : Local g j b (b.sasy_pagein g j).2 := by
  rw [sasy_pagein]
  split
  · exact .refl
  · have halloc := alloc_pages_same 0 0 g.pages b
    generalize alloc_pages 0 0 g.pages b = r at halloc
    obtain ⟨first | first, b₁⟩ := r
    · exact halloc.local
    · have hmap : Local g j b (map_pages g.base first g.pages 0 g.pages (b₁.set_phys j first)).2 :=
        halloc.local.trans (map_pages_some_local b₁ first)
      dsimp only
      generalize map_pages g.base first g.pages 0 g.pages (b₁.set_phys j first) = r₂ at hmap
      obtain ⟨ok, b₂⟩ := r₂
      cases ok with
      | false => exact hmap.trans (set_phys_local b₂ 0)
      | true =>
        have hload := hmap.trans (b₂.load_contents_loaded (g := g)).local
        dsimp only
        generalize b₂.load_contents g j = r₃ at hload
        obtain ⟨ok, b₃⟩ := r₃
        cases ok with
        | false => exact hload
        | true => exact hload.trans (set_present_local b₃ true)

theorem sasy_map_now_eq (b : Backing) (g : Segment) (i : Nat) : b.sasy_map_now g i =
    match alloc_pages 0 0 g.pages b with
    | (none, b₁) => (false, b₁)
    | (some first, b₁) =>
      match map_pages g.base first g.pages 0 g.pages (b₁.set_phys i first) with
      | (false, b₂) => (false, b₂)
      | (true, b₂) => (true, (if g.has SEG_FLAG_ZEROED then b₂.zero_fill g else b₂).set_present i true) := by
  rw [sasy_map_now, map_segment]
  cases alloc_pages 0 0 g.pages b with
  | mk o b₁ => cases o <;> rfl

theorem sasy_map_now_local (b : Backing) : Local g j b (b.sasy_map_now g j).2 := by
  rw [sasy_map_now_eq]
  have halloc := alloc_pages_same 0 0 g.pages b
  generalize alloc_pages 0 0 g.pages b = r at halloc
  obtain ⟨first | first, b₁⟩ := r
  · exact halloc.local
  · have hmap : Local g j b (map_pages g.base first g.pages 0 g.pages (b₁.set_phys j first)).2 :=
      halloc.local.trans (map_pages_some_local b₁ first)
    dsimp only
    generalize map_pages g.base first g.pages 0 g.pages (b₁.set_phys j first) = r₂ at hmap
    obtain ⟨ok, b₂⟩ := r₂
    cases ok with
    | false => exact hmap
    | true =>
      refine hmap.trans (Local.trans ?_ (set_present_local _ true))
      split
      · exact (b₂.fill_same _ _ _).local
      · exact .refl

theorem discard_local (b : Backing) : Local g j b (b.discard g j) := by
  have hunmap : Local g j b (if b.present j then b.unmap_segment g else b) := by
    split
    · rw [unmap_segment]
      split
      · exact unmap_pages_local (le_refl _) b
      · exact .refl
    · exact .refl
  have hfree : Local g j b ((if b.present j then b.unmap_segment g else b).free_frames g j) :=
    hunmap.trans (free_frames_same _ g j).local
  rw [discard]
  generalize (if b.present j then b.unmap_segment g else b).free_frames g j = b₁ at hfree
  have hswap : Local g j b (if b₁.swap_id j ≠ 0 then b₁.swap_free (b₁.swap_id j) else b₁) := by
    refine hfree.trans ?_
    split
    · exact (b₁.swap_free_same _).local
    · exact .refl
  exact hswap.trans ((set_phys_local _ 0).trans ((set_present_local _ false).trans (set_swap_id_local _ 0)))

theorem trim_step (b : Backing) (virt phys : Nat) : Remap virt b ((b.vmm_unmap virt).pmm_free_page phys) :=
  ⟨(b.vmm_unmap_remap virt).page, rfl, rfl, rfl⟩

theorem trim_remap (b : Backing) (new_pages : Nat) :
    (b.trim g j new_pages).present = b.present ∧ (b.trim g j new_pages).phys = b.phys ∧
    (b.trim g j new_pages).swap_id = b.swap_id ∧
    ∀ v, (∀ k, new_pages ≤ k → k < g.pages → v ≠ vpage ((g.base + k * PAGE_SIZE) % 2 ^ 64)) →
      (b.trim g j new_pages).map.page v = b.map.page v := by
  rw [trim]
  have hmem : ∀ k ∈ List.range' new_pages (g.pages - new_pages), new_pages ≤ k ∧ k < g.pages := by
    intro k hk
    have := List.mem_range'_1.mp hk
    omega
  generalize List.range' new_pages (g.pages - new_pages) = ks at hmem
  induction ks generalizing b with
  | nil => exact ⟨rfl, rfl, rfl, fun _ _ => rfl⟩
  | cons k ks ih =>
    have hstep := b.trim_step ((g.base + k * PAGE_SIZE) % 2 ^ 64) ((b.phys j + k * PAGE_SIZE) % 2 ^ 64)
    obtain ⟨hpresent, hphys, hswap, hpage⟩ := ih _ fun x hx => hmem x (List.mem_cons_of_mem k hx)
    refine ⟨hpresent.trans hstep.present, hphys.trans hstep.phys, hswap.trans hstep.swap_id, fun v hv => ?_⟩
    have hk := hmem k List.mem_cons_self
    exact (hpage v hv).trans (hstep.page v (hv k hk.1 hk.2))

theorem trim_local (b : Backing) (new_pages : Nat) : Local g j b (b.trim g j new_pages) := by
  obtain ⟨hpresent, hphys, hswap, hpage⟩ := b.trim_remap (g := g) (j := j) new_pages
  refine ⟨fun v hv => hpage v fun k _ hk heq => hv ⟨k, hk, heq⟩, fun i _ => congrFun hpresent i,
    fun i _ => congrFun hphys i, fun i _ => congrFun hswap i⟩

end Backing

end graceos.sasy
