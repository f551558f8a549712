import GraceOS.Sasy.Locked

/-!
# Pages of segments that are not resident

Every page that is mapped belongs to a resident segment, unless it was mapped before. The functions
that fail halfway take back the pages they have mapped; only a page-in whose contents cannot be read
does not.
-/

namespace graceos.sasy

open mm machine

namespace Backing

variable {g : Segment} {b b' b'' : Backing} {i j k m : Nat}

/-- Only frames and page map differ. -/
def Remapped (b b' : Backing) : Prop := ∃ frames map, b' = { b with frames := frames, map := map }

theorem Remapped.refl : Remapped b b := ⟨b.frames, b.map, rfl⟩

theorem Remapped.trans (h : Remapped b b') (h' : Remapped b' b'') : Remapped b b'' := by
  obtain ⟨frames, map, rfl⟩ := h
  obtain ⟨frames', map', rfl⟩ := h'
  exact ⟨frames', map', rfl⟩

theorem get_table_remapped (b : Backing) (there : Bool) : Remapped b (b.get_table there).2 := by
  rw [get_table]
  split
  · exact .refl
  · exact ⟨_, b.map, rfl⟩

theorem enter_remapped (b : Backing) (set : PageMap → PageMap) : Remapped b (b.enter set) := ⟨b.frames, _, rfl⟩

theorem vmm_map_remapped (b : Backing) (virt phys : Nat) : Remapped b (b.vmm_map virt phys) := by
  rw [vmm_map_eq]
  dsimp only
  have hpdpt : Remapped b (b.pdpt_of (vpage virt)).2 := get_table_remapped _ _
  generalize b.pdpt_of (vpage virt) = r₁ at hpdpt
  have hpd : Remapped b (r₁.2.pd_of (vpage virt)).2 :=
    (hpdpt.trans (enter_remapped _ _)).trans (get_table_remapped _ _)
  generalize r₁.2.pd_of (vpage virt) = r₂ at hpd
  have hpt : Remapped b (r₂.2.pt_of (vpage virt)).2 :=
    (hpd.trans (enter_remapped _ _)).trans (get_table_remapped _ _)
  generalize r₂.2.pt_of (vpage virt) = r₃ at hpt
  split_ifs
  · exact hpdpt
  · exact hpd
  · exact hpt
  · exact (hpt.trans (enter_remapped _ _)).trans (enter_remapped _ _)

theorem unmap_pages_remapped (b : Backing) (base n : Nat) : Remapped b (b.unmap_pages base n) := by
  rw [unmap_pages]
  generalize page_addrs base n = addrs
  induction addrs generalizing b with
  | nil => exact .refl
  | cons a addrs ih => exact Remapped.trans ⟨b.frames, _, rfl⟩ (ih (b.vmm_unmap a))

theorem free_pages_remapped (b : Backing) (phys n : Nat) : Remapped b (b.free_pages phys n) := by
  rw [free_pages]
  generalize page_addrs phys n = addrs
  induction addrs generalizing b with
  | nil => exact .refl
  | cons a addrs ih => exact Remapped.trans ⟨_, b.map, rfl⟩ (ih (b.pmm_free_page a))

theorem alloc_pages_remapped (first k n : Nat) (b : Backing) : Remapped b (alloc_pages first k n b).2 := by
  induction n generalizing first k b with
  | zero => exact .refl
  | succ n ih =>
    have halloc : Remapped b b.pmm_alloc_page.2 := ⟨_, b.map, rfl⟩
    rw [alloc_pages]
    generalize b.pmm_alloc_page = r at halloc
    obtain ⟨page, b₁⟩ := r
    dsimp only at halloc ⊢
    split_ifs
    · exact halloc.trans (free_pages_remapped _ _ _)
    · exact halloc.trans (ih _ _ _)
    · exact (halloc.trans (free_pages_remapped _ _ _)).trans ⟨_, _, rfl⟩
    · exact halloc.trans (ih _ _ _)

theorem map_pages_remapped (virt phys total k n : Nat) (b : Backing) :
    Remapped b (map_pages virt phys total k n b).2 := by
  induction n generalizing k b with
  | zero => exact .refl
  | succ n ih =>
    have hmap := b.vmm_map_remapped ((virt + k * PAGE_SIZE) % 2 ^ 64) ((phys + k * PAGE_SIZE) % 2 ^ 64)
    rw [map_pages]
    split
    · exact (hmap.trans (unmap_pages_remapped _ _ _)).trans (free_pages_remapped _ _ _)
    · exact hmap.trans (ih _ _)

/-- The contents of a segment can be had: they are not in the swap space, or they can be read from it. -/
def Readable (b : Backing) (g : Segment) (i : Nat) : Prop :=
  b.present i = false → g.type = .code ∨ b.swap_id i = 0 ∨
    (b.swap_ready = true ∧ b.swap_fits g i = true ∧ b.pmem_accepts (b.swap_offset i) g.size = true ∧
      b.works b.transfers = true)

theorem Readable.load_contents (hr : b.Readable g i) (habsent : b.present i = false) :
    (b.load_contents g i).1 = true := by
  rw [Backing.load_contents]
  split_ifs with htype hswap hzero
  · rfl
  · obtain ⟨hready, hfits, haccepts, hworks⟩ := ((hr habsent).resolve_left htype).resolve_left hswap
    rw [swap_read]
    simp [hready, hswap, habsent, hfits, pmem_read, haccepts, hworks]
  · rfl
  · rfl

theorem unmap_pages_none (hg : g.InSpace) {n : Nat} (hn : n ≤ g.pages) (b : Backing) (hm : m < g.pages) :
    (b.unmap_pages g.base n).map.page (vpage ((g.base + m * PAGE_SIZE) % 2 ^ 64)) =
      if m < n then none else b.map.page (vpage ((g.base + m * PAGE_SIZE) % 2 ^ 64)) := by
  induction n with
  | zero => rfl
  | succ n ih =>
    have hstep : b.unmap_pages g.base (n + 1) =
        (b.unmap_pages g.base n).vmm_unmap ((g.base + n * PAGE_SIZE) % 2 ^ 64) := by
      simp [unmap_pages, page_addrs, List.range_succ, List.foldl_append]
    rw [hstep, vmm_unmap]
    have hv := (hg.vpage hm).2
    have hv' := (hg.vpage (show n < g.pages by omega)).2
    by_cases hmn : m = n
    · subst hmn
      simp
    · have hne : vpage ((g.base + m * PAGE_SIZE) % 2 ^ 64) ≠ vpage ((g.base + n * PAGE_SIZE) % 2 ^ 64) := by omega
      simp only [Function.update_of_ne hne]
      rw [ih (by omega)]
      by_cases hlt : m < n
      · rw [if_pos hlt, if_pos (by omega)]
      · rw [if_neg hlt, if_neg (by omega)]

/-- Mapping that fails leaves no page behind. -/
theorem map_pages_fail (hg : g.InSpace) {p n : Nat} (hn : k + n = g.pages)
    (hfail : (map_pages g.base p g.pages k n b).1 = false) (hm : m < g.pages)
    (hnone : k ≤ m → b.map.page (vpage ((g.base + m * PAGE_SIZE) % 2 ^ 64)) = none) :
    (map_pages g.base p g.pages k n b).2.map.page (vpage ((g.base + m * PAGE_SIZE) % 2 ^ 64)) = none := by
  induction n generalizing k b with
  | zero => simp [map_pages] at hfail
  | succ n ih =>
    have hk : k < g.pages := by omega
    have hmap := b.vmm_map_remap ((g.base + k * PAGE_SIZE) % 2 ^ 64) ((p + k * PAGE_SIZE) % 2 ^ 64)
    have hv := (hg.vpage hm).2
    have hv' := (hg.vpage hk).2
    have hafter : k + 1 ≤ m → (b.vmm_map ((g.base + k * PAGE_SIZE) % 2 ^ 64)
        ((p + k * PAGE_SIZE) % 2 ^ 64)).map.page (vpage ((g.base + m * PAGE_SIZE) % 2 ^ 64)) = none := by
      intro hkm
      rw [hmap.page _ (by omega)]
      exact hnone (by omega)
    rw [map_pages] at hfail ⊢
    split at hfail
    · next hmiss =>
      rw [if_pos hmiss]
      dsimp only
      rw [(free_pages_same _ _ _).page, unmap_pages_none hg (by omega) _ hm]
      split
      · rfl
      · exact hafter (by omega)
    · next hok =>
      rw [if_neg hok]
      exact ih (by omega) hfail fun hkm => hafter hkm

/-- A page-in that fails leaves no page behind, where the contents can be had. -/
theorem sasy_pagein_fail (hg : g.InSpace) (hr : b.Readable g j) (hfail : (b.sasy_pagein g j).1 = false)
    {v : Nat} (hv : g.Covers v) (hnone : b.map.page v = none) : (b.sasy_pagein g j).2.map.page v = none := by
  obtain ⟨m, hm, rfl⟩ := hv
  rw [sasy_pagein] at hfail ⊢
  split at hfail
  · cases hfail
  · next habsent =>
    have habsent' : b.present j = false := by simpa using habsent
    rw [if_neg habsent]
    have hsame := alloc_pages_same 0 0 g.pages b
    have hrem := alloc_pages_remapped 0 0 g.pages b
    generalize alloc_pages 0 0 g.pages b = r at hfail hsame hrem
    obtain ⟨first | first, b₁⟩ := r
    · dsimp only at hsame ⊢
      rw [hsame.page]
      exact hnone
    · dsimp only at hfail hsame hrem ⊢
      have hnone₁ : (b₁.set_phys j first).map.page (vpage ((g.base + m * PAGE_SIZE) % 2 ^ 64)) = none :=
        (congrFun hsame.page _).trans hnone
      have hmiss := fun hmap => map_pages_fail (b := b₁.set_phys j first) (k := 0) (p := first)
          (n := g.pages) hg (by omega)
        hmap hm fun _ => hnone₁
      have hrem₂ := map_pages_remapped g.base first g.pages 0 g.pages (b₁.set_phys j first)
      generalize map_pages g.base first g.pages 0 g.pages (b₁.set_phys j first) = r₂ at hfail hmiss hrem₂
      obtain ⟨ok, b₂⟩ := r₂
      cases ok with
      | false => exact hmiss rfl
      | true =>
        -- nothing that decides about the contents has changed
        have hr₂ : b₂.Readable g j ∧ b₂.present j = false := by
          obtain ⟨fr, mp, rfl⟩ := hrem
          obtain ⟨fr', mp', hb₂⟩ := hrem₂
          dsimp only at hb₂
          subst hb₂
          exact ⟨hr, habsent'⟩
        have hload := hr₂.1.load_contents hr₂.2
        dsimp only at hfail
        generalize b₂.load_contents g j = r₃ at hfail hload
        obtain ⟨ok, b₃⟩ := r₃
        dsimp only at hload
        subst hload
        cases hfail

theorem sasy_map_now_fail (hg : g.InSpace) (hfail : (b.sasy_map_now g j).1 = false)
    {v : Nat} (hv : g.Covers v) (hnone : b.map.page v = none) : (b.sasy_map_now g j).2.map.page v = none := by
  obtain ⟨m, hm, rfl⟩ := hv
  rw [sasy_map_now_eq] at hfail ⊢
  have hsame := alloc_pages_same 0 0 g.pages b
  generalize alloc_pages 0 0 g.pages b = r at hfail hsame
  obtain ⟨first | first, b₁⟩ := r
  · dsimp only at hsame ⊢
    rw [hsame.page]
    exact hnone
  · dsimp only at hfail hsame ⊢
    have hnone₁ : (b₁.set_phys j first).map.page (vpage ((g.base + m * PAGE_SIZE) % 2 ^ 64)) = none :=
      (congrFun hsame.page _).trans hnone
    have hmiss := fun hmap => map_pages_fail (b := b₁.set_phys j first) (k := 0) (p := first)
        (n := g.pages) hg (by omega)
      hmap hm fun _ => hnone₁
    generalize map_pages g.base first g.pages 0 g.pages (b₁.set_phys j first) = r₂ at hfail hmiss
    obtain ⟨ok, b₂⟩ := r₂
    cases ok with
    | false => exact hmiss rfl
    | true => cases hfail

theorem unmap_segment_none (hg : g.InSpace) (b : Backing) {v : Nat} (hv : g.Covers v) :
    (b.unmap_segment g).map.page v = none := by
  obtain ⟨m, hm, rfl⟩ := hv
  have hend : g.base < (g.base + g.size) % 2 ^ 64 := by
    have hhigh := hg.high
    have hspace : SASY_BASE_ADDR + SASY_MAX_SIZE < 2 ^ 64 := by decide
    rw [Nat.mod_eq_of_lt (by omega)]
    simp only [Segment.pages, PAGE_SIZE] at hm
    omega
  rw [unmap_segment, if_pos hend, unmap_pages_none hg (le_refl _) b hm, if_pos hm]

theorem evict_none (hg : g.InSpace) (b : Backing) {v : Nat} (hv : g.Covers v) : (b.evict g j).map.page v = none := by
  have hunmap := unmap_segment_none hg b hv
  rw [← (free_frames_same (b.unmap_segment g) g j).page] at hunmap
  exact hunmap

theorem swap_out_pages (hg : g.InSpace) (b : Backing) {v : Nat} (hv : g.Covers v) :
    ((b.swap_out g j).2.map.page v = b.map.page v ∧ (b.swap_out g j).2.present j = b.present j) ∨
      (b.swap_out g j).2.map.page v = none := by
  by_cases hmay : b.swap_ready = true ∧ b.present j = true ∧ g.locked = 0 ∧ g.has SEG_FLAG_NOSWAP = false
  · obtain ⟨hready, hpresent, hlocked, hswap⟩ := hmay
    rw [swap_out_eq hready hpresent hlocked hswap]
    have hslot : ((b.slot_of g j).2.set_swap_id j (b.slot_of g j).1).map.page = b.map.page ∧
        ((b.slot_of g j).2.set_swap_id j (b.slot_of g j).1).present = b.present := by
      have hsame := b.slot_of_same g j
      exact ⟨hsame.page, hsame.present⟩
    dsimp only
    generalize (b.slot_of g j).2.set_swap_id j (b.slot_of g j).1 = b₂ at hslot
    split_ifs
    · exact .inl ⟨congrFun hslot.1 v, congrFun hslot.2 j⟩
    · exact .inl ⟨congrFun hslot.1 v, congrFun hslot.2 j⟩
    · have hwrite := b₂.pmem_write_same (b₂.swap_offset j) g.base g.size
      generalize b₂.pmem_write (b₂.swap_offset j) g.base g.size = r at hwrite
      obtain ⟨ok, b₃⟩ := r
      dsimp only at hwrite
      cases ok with
      | false =>
        exact .inl ⟨congrFun (hwrite.page.trans hslot.1) v, congrFun (hwrite.present.trans hslot.2) j⟩
      | true => exact .inr (evict_none hg b₃ hv)
  · rw [swap_out_same hmay]
    exact .inl ⟨rfl, rfl⟩

theorem discard_none (hg : g.InSpace) (b : Backing) {v : Nat} (hv : g.Covers v)
    (hnone : b.present j = false → b.map.page v = none) : (b.discard g j).map.page v = none := by
  have hunmap : (if b.present j then b.unmap_segment g else b).map.page v = none := by
    split
    · exact unmap_segment_none hg b hv
    · next habsent => exact hnone (by simpa using habsent)
  rw [← (free_frames_same _ g j).page] at hunmap
  rw [discard]
  generalize (if b.present j then b.unmap_segment g else b).free_frames g j = b₁ at hunmap
  change (if b₁.swap_id j ≠ 0 then b₁.swap_free (b₁.swap_id j) else b₁).map.page v = none
  split
  · exact (congrFun (b₁.swap_free_same _).page v).trans hunmap
  · exact hunmap

/-- The pages that a shrinking segment gives up. -/
theorem trim_none (b : Backing) (n : Nat) (hm : m < g.pages) (hn : n ≤ m) :
    (b.trim g j n).map.page (vpage ((g.base + m * PAGE_SIZE) % 2 ^ 64)) = none := by
  have hmem : m ∈ List.range' n (g.pages - n) := List.mem_range'_1.mpr (by omega)
  rw [trim]
  generalize List.range' n (g.pages - n) = ks at hmem
  have hdone : ∀ (ks : List Nat) (b : Backing), b.map.page (vpage ((g.base + m * PAGE_SIZE) % 2 ^ 64)) = none →
      (ks.foldl (fun b k => (b.vmm_unmap ((g.base + k * PAGE_SIZE) % 2 ^ 64)).pmm_free_page
        ((b.phys j + k * PAGE_SIZE) % 2 ^ 64)) b).map.page (vpage ((g.base + m * PAGE_SIZE) % 2 ^ 64)) = none := by
    intro ks
    induction ks with
    | nil => exact fun b hb => hb
    | cons k ks ih =>
      intro b hb
      refine ih _ ?_
      simp only [vmm_unmap, pmm_free_page, Function.update_apply]
      split
      · rfl
      · exact hb
  induction ks generalizing b with
  | nil => simp at hmem
  | cons k ks ih =>
    rw [List.foldl_cons]
    by_cases hkm : m = k
    · subst hkm
      exact hdone ks _ (by simp [vmm_unmap, pmm_free_page])
    · exact ih _ ((List.mem_cons.mp hmem).resolve_left hkm)

end Backing

namespace Sasy

variable {s s' : Sasy} {initial : Nat → Option Nat} {g : Segment} {h i j v addr : Nat}

/-- Pages that were not mapped before are mapped for resident segments only. -/
def Only (initial : Nat → Option Nat) (s : Sasy) : Prop :=
  ∀ v, initial v = none → s.backing.map.page v ≠ none →
    ∃ i, (s.segment i).id ≠ 0 ∧ s.backing.present i = true ∧ (s.segment i).Covers v

theorem Only.work (ho : s.Only initial) (hw : Works j g s s')
    (hold : (s.segment j).id ≠ 0 → s.backing.present j = true → ∀ v, (s.segment j).Covers v → g.Covers v)
    (hown : ∀ v, initial v = none → g.Covers v → s'.backing.map.page v ≠ none →
      (s'.segment j).id ≠ 0 ∧ s'.backing.present j = true ∧ (s'.segment j).Covers v) : s'.Only initial := by
  intro v hv hpage
  by_cases hcover : g.Covers v
  · exact ⟨j, hown v hv hcover hpage⟩
  · rw [hw.backing.page v hcover] at hpage
    obtain ⟨i, hlive, hpresent, hi⟩ := ho v hv hpage
    have hij : i ≠ j := by
      rintro rfl
      exact hcover (hold hlive hpresent v hi)
    refine ⟨i, ?_, ?_, ?_⟩
    · rw [hw.others i hij]
      exact hlive
    · rw [hw.backing.present i hij]
      exact hpresent
    · rw [hw.others i hij]
      exact hi

theorem Only.none_of_away (ho : s.Only initial) (hv : initial v = none)
    (haway : ∀ i, (s.segment i).id ≠ 0 → s.backing.present i = true → ¬ (s.segment i).Covers v) :
    s.backing.map.page v = none := by
  by_contra hpage
  obtain ⟨i, hlive, hpresent, hi⟩ := ho v hv hpage
  exact haway i hlive hpresent hi

theorem Only.none_of_absent (ho : s.Only initial) (ha : s.table.Apart) (hlive : (s.segment j).id ≠ 0)
    (habsent : s.backing.present j = false) (hv : initial v = none) (hcover : (s.segment j).Covers v) :
    s.backing.map.page v = none := by
  refine ho.none_of_away hv fun i hi hp hc => ?_
  have hij : i ≠ j := by
    rintro rfl
    rw [habsent] at hp
    cases hp
  exact away_of ha hlive i hij hi v hc hcover

theorem Only.of_table (ho : s.Only initial) {t : Table}
    (hsame : ∀ i, (s.segment i).id ≠ 0 → s.backing.present i = true → (t.segments i).id ≠ 0 ∧
      (t.segments i).base = (s.segment i).base ∧ (t.segments i).size = (s.segment i).size) :
    Only initial ⟨t, s.backing⟩ := by
  intro v hv hpage
  obtain ⟨i, hlive, hpresent, k, hk, hkv⟩ := ho v hv hpage
  obtain ⟨hid, hbase, hsize⟩ := hsame i hlive hpresent
  refine ⟨i, hid, hpresent, k, ?_, ?_⟩
  · simp only [segment, Segment.pages, hsize] at hk ⊢
    exact hk
  · simp only [segment, hbase] at hkv ⊢
    exact hkv

section Calls

variable (ho : s.Only initial) (ha : s.table.Apart)
include ho ha

theorem Only.pagein (hlive : (s.segment j).id ≠ 0) (hr : s.backing.Readable (s.segment j) j) :
    Only initial ⟨s.table, (s.backing.sasy_pagein (s.segment j) j).2⟩ := by
  by_cases hpresent : s.backing.present j = true
  · rw [Backing.sasy_pagein, if_pos hpresent]
    exact ho
  · have habsent : s.backing.present j = false := by simpa using hpresent
    have hpresent' := (Backing.sasy_pagein_spec (g := s.segment j) (b := s.backing) (j := j) (ha.inSpace hlive)
      fun hp => absurd hp hpresent).1
    have hw : Works j (s.segment j) s ⟨s.table, (s.backing.sasy_pagein (s.segment j) j).2⟩ :=
      ⟨fun _ _ => rfl, s.backing.sasy_pagein_local, away_of ha hlive⟩
    refine ho.work hw (fun _ _ _ hc => hc) fun v hv hc hpage => ?_
    cases hok : (s.backing.sasy_pagein (s.segment j) j).1 with
    | true => exact ⟨hlive, hpresent'.trans hok, hc⟩
    | false =>
      exact absurd (Backing.sasy_pagein_fail (ha.inSpace hlive) hr hok hc
        (ho.none_of_absent ha hlive habsent hv hc)) hpage

theorem Only.swap_out (hlive : (s.segment j).id ≠ 0) :
    Only initial ⟨s.table, (s.backing.swap_out (s.segment j) j).2⟩ := by
  have hw : Works j (s.segment j) s ⟨s.table, (s.backing.swap_out (s.segment j) j).2⟩ :=
    ⟨fun _ _ => rfl, s.backing.swap_out_local, away_of ha hlive⟩
  refine ho.work hw (fun _ _ _ hc => hc) fun v hv hc hpage => ?_
  rcases s.backing.swap_out_pages (g := s.segment j) (j := j) (ha.inSpace hlive) hc with ⟨hsame, hpresent⟩ | hnone
  · refine ⟨hlive, ?_, hc⟩
    dsimp only at hpage ⊢
    rw [hpresent]
    cases hp : s.backing.present j with
    | true => rfl
    | false => exact absurd (hsame.trans (ho.none_of_absent ha hlive hp hv hc)) hpage
  · exact absurd hnone hpage

theorem Only.evict (hlive : (s.segment j).id ≠ 0) : Only initial ⟨s.table, s.backing.evict (s.segment j) j⟩ := by
  have hw : Works j (s.segment j) s ⟨s.table, s.backing.evict (s.segment j) j⟩ :=
    ⟨fun _ _ => rfl, s.backing.evict_local, away_of ha hlive⟩
  exact ho.work hw (fun _ _ _ hc => hc) fun v _ hc hpage =>
    absurd (s.backing.evict_none (ha.inSpace hlive) hc) hpage

omit ho ha in
theorem each_segment_only {f : Segment → Nat → Backing → Backing} {t : Table}
    (hpass : ∀ j b, (t.segments j).id ≠ 0 → Only initial ⟨t, b⟩ → Only initial ⟨t, f (t.segments j) j b⟩)
    (fuel j : Nat) {b : Backing} (ho : Only initial ⟨t, b⟩) : Only initial ⟨t, each_segment f t fuel j b⟩ := by
  induction fuel generalizing j b with
  | zero => exact ho
  | succ fuel ih =>
    rw [each_segment]
    split
    · exact ih (j + 1) ho
    · next hlive => exact ih (j + 1) (hpass j b hlive ho)

theorem Only.sasy_pressure : s.sasy_pressure.Only initial := by
  rw [Sasy.sasy_pressure]
  refine each_segment_only (fun j b hlive ho => ?_) _ _ (each_segment_only (fun j b hlive ho => ?_) _ _ ho)
  · split
    · exact ho.swap_out ha hlive
    · exact ho
  · split
    · rw [Backing.sasy_pageout]
      split_ifs
      · exact ho
      · exact ho
      · exact ho.evict ha hlive
      · exact ho.swap_out ha hlive
    · exact ho

theorem Only.sasy_free (hl : s.table.Linked) (h : Nat) : (s.sasy_free h).Only initial := by
  rw [Sasy.sasy_free]
  cases hget : s.table.handle_get_segment h with
  | none => exact ho
  | some j =>
    have hlive : (s.segment j).id ≠ 0 := (hl.live hget).1
    have hsegs := (Table.release_segments hget).1
    have hself : (s.table.release h j).segments j = { s.segment j with refcnt := (s.segment j).refcnt - 1 } := by
      rw [hsegs, Function.update_self]
      rfl
    have hother : ∀ k, k ≠ j → (s.table.release h j).segments k = s.segment k := fun k hkj => by
      rw [hsegs, Function.update_of_ne hkj]
      rfl
    dsimp only
    split
    · have hcover : ∀ v, ((s.table.release h j).segments j).Covers v ↔ (s.segment j).Covers v := by
        intro v
        rw [hself]
        rfl
      have hspace : ((s.table.release h j).segments j).InSpace := by
        rw [hself]
        exact ⟨(ha.inSpace hlive).low, (ha.inSpace hlive).high, (ha.inSpace hlive).base_aligned,
          (ha.inSpace hlive).size_aligned⟩
      have hw : Works j ((s.table.release h j).segments j) s ⟨(s.table.release h j).reclaim j,
          s.backing.discard ((s.table.release h j).segments j) j⟩ := by
        refine ⟨fun i hi => ?_, s.backing.discard_local, fun i hij hi v hc hc' => ?_⟩
        · rw [segment, Table.reclaim_segments, if_neg hi, hother i hi]
        · exact away_of ha hlive i hij hi v hc ((hcover v).mp hc')
      refine ho.work hw (fun _ _ v hc => (hcover v).mpr hc) fun v hv hc hpage => ?_
      exact absurd (s.backing.discard_none hspace hc fun habsent =>
        ho.none_of_absent ha hlive habsent hv ((hcover v).mp hc)) hpage
    · refine ho.of_table fun k hk _ => ?_
      by_cases hkj : k = j
      · subst hkj
        rw [hself]
        exact ⟨hk, rfl, rfl⟩
      · rw [hother k hkj]
        exact ⟨hk, rfl, rfl⟩

theorem Only.sasy_resize (hl : s.table.Linked) (h new_size : Nat) : (s.sasy_resize h new_size).2.Only initial := by
  rw [Sasy.sasy_resize]
  cases hget : s.table.handle_get_segment h with
  | none => exact ho
  | some j =>
    have hlive : (s.segment j).id ≠ 0 := (hl.live hget).1
    have hself : (s.table.set_segment j { s.segment j with size := align_up new_size PAGE_SIZE }).segments j =
        { s.segment j with size := align_up new_size PAGE_SIZE } := by simp [Table.set_segment]
    have hother : ∀ k, k ≠ j → (s.table.set_segment j
        { s.segment j with size := align_up new_size PAGE_SIZE }).segments k = s.segment k := fun k hkj => by
      simp [Table.set_segment, segment, hkj]
    dsimp only
    generalize s.table.set_segment j { s.segment j with size := align_up new_size PAGE_SIZE } = t at hself hother
    have habsent : ¬ s.backing.present j = true → Only initial ⟨t, s.backing⟩ := fun hp =>
      ho.of_table fun k hk hpk => by
        have hkj : k ≠ j := by
          rintro rfl
          exact hp hpk
        rw [hother k hkj]
        exact ⟨hk, rfl, rfl⟩
    split_ifs with hlocked htype hsame hgrow hpresent hpresent
    · exact ho
    · exact ho
    · exact ho
    · exact ho
    · exact habsent hpresent
    · have hw : Works j (s.segment j) s ⟨t,
          s.backing.trim (s.segment j) j (align_up new_size PAGE_SIZE / PAGE_SIZE)⟩ :=
        ⟨hother, s.backing.trim_local _, away_of ha hlive⟩
      refine ho.work hw (fun _ _ _ hc => hc) fun v hv hc hpage => ?_
      obtain ⟨m, hm, rfl⟩ := hc
      by_cases hmn : align_up new_size PAGE_SIZE / PAGE_SIZE ≤ m
      · exact absurd (s.backing.trim_none _ hm hmn) hpage
      · refine ⟨?_, ?_, m, ?_, ?_⟩
        · rw [segment, hself]
          exact hlive
        · dsimp only
          rw [(Backing.trim_remap _ _).1]
          exact hpresent
        · rw [segment, hself]
          simp only [Segment.pages]
          omega
        · change _ = vpage (((t.segments j).base + m * PAGE_SIZE) % 2 ^ 64)
          rw [hself]
    · exact habsent hpresent

theorem Only.sasy_lock (hl : s.table.Linked)
    (hr : ∀ i, s.table.handle_get_segment h = some i → s.backing.Readable (s.segment i) i) :
    (s.sasy_lock h).2.Only initial := by
  rw [Sasy.sasy_lock]
  cases hget : s.table.handle_get_segment h with
  | none => exact ho
  | some j =>
    have hpage := ho.pagein ha (hl.live hget).1 (hr j hget)
    dsimp only
    generalize s.backing.sasy_pagein (s.segment j) j = r at hpage
    obtain ⟨ok, b⟩ := r
    cases ok with
    | false => exact hpage
    | true =>
      refine hpage.of_table fun k hk _ => ?_
      by_cases hkj : k = j
      · subst hkj
        simpa [segment, Table.lock, Table.set_segment] using hk
      · simpa [segment, Table.lock, Table.set_segment, hkj] using hk

theorem Only.sasy_unlock (hl : s.table.Linked) (h : Nat) : (s.sasy_unlock h).Only initial := by
  rw [Sasy.sasy_unlock]
  cases hget : s.table.handle_get_segment h with
  | none => exact ho
  | some j =>
    have hlive : (s.segment j).id ≠ 0 := (hl.live hget).1
    have hdropped : Only initial ⟨s.table.unlock j, s.backing⟩ := ho.of_table fun k hk _ => by
      by_cases hkj : k = j
      · subst hkj
        simpa [segment, Table.unlock, Table.set_segment] using hk
      · simpa [segment, Table.unlock, Table.set_segment, hkj] using hk
    have hlive' : (Sasy.segment ⟨s.table.unlock j, s.backing⟩ j).id ≠ 0 := by
      rw [segment, Table.unlock_id]
      exact hlive
    have hswap := hdropped.swap_out (ha.unlock j) hlive'
    dsimp only
    split
    · rw [Backing.swap_schedule]
      split
      · exact hswap
      · exact hdropped
    · exact hdropped

/-- A new segment; one that is mapped at once needs its handle. -/
theorem Only.sasy_create_ex (size : Nat) (type : SegType) (flags : BitVec 32) (pid : Nat)
    (hfits : s.table.free_slot.isSome → s.table.next_segment_base + align_up size PAGE_SIZE < 2 ^ 64)
    (hid : s.table.next_segment_id ≠ 0)
    (hhandle : type = .fixed ∨ type = .physical → s.table.free_handle.isSome) :
    (s.sasy_create_ex size type flags pid).2.Only initial := by
  rw [Sasy.sasy_create_ex]
  split
  · exact ho
  · cases hslot : s.table.free_slot with
    | none => exact ho
    | some j =>
      have hfits := hfits (by simp [hslot])
      have hdead : (s.segment j).id = 0 := (Table.free_slot_some hslot).2
      have hother : ∀ k, k ≠ j → (s.table.new_segment j size type flags).segments k = s.segment k := fun k hkj => by
        simp [Table.new_segment, Table.set_segment, segment, hkj]
      have hlive : ((s.table.new_segment j size type flags).segments j).id ≠ 0 := by
        simpa [Table.new_segment, Table.set_segment] using hid
      -- nothing is mapped: only the fields of the slot change
      have hfields : ∀ {t : Table} {b : Backing}, (∀ k, k ≠ j → t.segments k = s.segment k) →
          b.map.page = s.backing.map.page → (∀ k, k ≠ j → b.present k = s.backing.present k) →
          Only initial ⟨t, b⟩ := by
        intro t b hsegs hpage hpresent v hv hne
        dsimp only at hne
        rw [hpage] at hne
        obtain ⟨i, hi, hp, hc⟩ := ho v hv hne
        have hij : i ≠ j := by
          rintro rfl
          exact hi hdead
        refine ⟨i, ?_, (hpresent i hij).trans hp, ?_⟩
        · rw [segment, hsegs i hij]
          exact hi
        · rw [segment, hsegs i hij]
          exact hc
      have hcleared : ∀ {b : Backing} k, k ≠ j →
          (Sasy.free_segment ⟨s.table.new_segment j size type flags, b⟩ j).segment k =
          s.segment k := fun k hkj => by
        rw [← hother k hkj]
        simp [segment, free_segment, Table.free_segment, Table.set_segment, hkj]
      have hback : Only initial (Sasy.free_segment ⟨s.table.new_segment j size type flags,
          (s.backing.set_present j false).set_swap_id j 0⟩ j) :=
        hfields (fun k hkj => hcleared k hkj) rfl fun k hkj => by
          simp [Backing.set_present, Backing.set_swap_id, Backing.set_phys, hkj]
      dsimp only
      rw [Sasy.sasy_place]
      split_ifs with hfull htype
      · exact hback
      · -- the segment is mapped at once
        obtain ⟨hh, hfree⟩ := Option.isSome_iff_exists.mp (hhandle (by
          simpa [segment, Table.new_segment, Table.set_segment] using htype))
        obtain ⟨hmod, -⟩ := ha.next_base hfits
        have hbase : ((s.table.new_segment j size type flags).segments j).base = s.table.next_segment_base := by
          simp [Table.new_segment, Table.set_segment]
        have hsize : ((s.table.new_segment j size type flags).segments j).size = align_up size PAGE_SIZE := by
          simp [Table.new_segment, Table.set_segment]
        have hspace : ((s.table.new_segment j size type flags).segments j).InSpace := by
          refine ⟨hbase ▸ ha.next.1, ?_, hbase ▸ ha.next.2.2, hsize ▸ Table.align_up_mod size⟩
          simp only [Table.new_segment] at hfull
          rw [hbase, hsize]
          omega
        have haway : ∀ i, (s.segment i).id ≠ 0 → ∀ v, (s.segment i).Covers v →
            ¬ ((s.table.new_segment j size type flags).segments j).Covers v := fun i hi v hv => by
          refine (ha.inSpace hi).apart hspace (.inl ?_) hv
          rw [hbase]
          exact (ha.within i hi).2.1
        have hnone : ∀ v, initial v = none → ((s.table.new_segment j size type flags).segments j).Covers v →
            s.backing.map.page v = none := fun v hv hc =>
          ho.none_of_away hv fun i hi _ hci => haway i hi v hci hc
        have hlocal : Backing.Local ((s.table.new_segment j size type flags).segments j) j s.backing
            ((s.backing.set_present j false).set_swap_id j 0) :=
          (Backing.set_present_local _ false).trans (Backing.set_swap_id_local _ 0)
        have hmap := hlocal.trans (Backing.sasy_map_now_local ((s.backing.set_present j false).set_swap_id j 0))
        have hspec := (Backing.sasy_map_now_spec (j := j) (b := (s.backing.set_present j false).set_swap_id j 0) hspace
          (by simp [Backing.set_present, Backing.set_swap_id])).1
        have hfail := fun v => Backing.sasy_map_now_fail (b := (s.backing.set_present j false).set_swap_id j 0)
          (j := j) (v := v) hspace
        simp only [segment] at hmap hspec hfail ⊢
        generalize Backing.sasy_map_now ((s.backing.set_present j false).set_swap_id j 0)
          ((s.table.new_segment j size type flags).segments j) j = r at hmap hspec hfail
        obtain ⟨ok, b₁⟩ := r
        dsimp only at hmap hspec hfail ⊢
        cases ok with
        | false =>
          have hw : Works j ((s.table.new_segment j size type flags).segments j) s
              (Sasy.free_segment ⟨s.table.new_segment j size type flags, b₁⟩ j) :=
            ⟨fun k hkj => hcleared k hkj, hmap.trans ((Backing.set_phys_local _ 0).trans
              ((Backing.set_present_local _ false).trans (Backing.set_swap_id_local _ 0))),
              fun i _ hi => haway i hi⟩
          refine ho.work hw (fun hj => absurd hdead hj) fun v hv hc hpage => ?_
          exact absurd (hfail v rfl hc (hnone v hv hc)) hpage
        | true =>
          have hfree' : (s.table.new_segment j size type flags).free_handle = some hh := hfree
          dsimp only
          rw [Table.handle_alloc, hfree']
          dsimp only
          have hne : hh ≠ INVALID_HANDLE := by
            have := (Table.free_handle_some hfree).1
            have := Table.max_handles_lt
            omega
          rw [if_neg hne]
          have hw : Works j ((s.table.new_segment j size type flags).segments j) s
              ⟨{ s.table.new_segment j size type flags with
                  handles := Function.update (s.table.new_segment j size type flags).handles hh ⟨j, 1, pid, true⟩
                  next_handle := (hh + 1) % MAX_HANDLES }, b₁⟩ :=
            ⟨hother, hmap, fun i _ hi => haway i hi⟩
          exact ho.work hw (fun hj => absurd hdead hj) fun v _ hc _ => ⟨hlive, hspec, hc⟩
      · dsimp only
        have hkeeps := (Table.handle_alloc_keeps (s.table.new_segment j size type flags) j pid).1
        generalize (s.table.new_segment j size type flags).handle_alloc j pid = r at hkeeps
        obtain ⟨h', t⟩ := r
        dsimp only at hkeeps ⊢
        split
        · exact hback
        · refine hfields (fun k hkj => ?_) rfl fun k hkj => ?_
          · rw [hkeeps, hother k hkj]
          · simp [Backing.set_present, Backing.set_swap_id, hkj]

theorem Only.fault (hr : ∀ i, s.table.sasy_find_segment addr = some i → s.backing.Readable (s.segment i) i) :
    (s.loader_handle_fault addr).Only initial := by
  rw [loader_handle_fault]
  cases hfind : s.table.sasy_find_segment addr with
  | none => exact ho
  | some j => exact ho.pagein ha ((ha.find addr j).mp hfind).1 (hr j hfind)

end Calls

end Sasy

end graceos.sasy
