import GraceOS.Mm.PageTables

/-!
# Mapping and unmapping a page

In every state that the calls of the manager can build, `vmm_map` and `vmm_unmap` change what
`vmm_translate` answers as an update of a map from pages to frames would.
-/

namespace graceos.mm

open radix machine

theorem align_down_page {x : BitVec 64} (hx : x.toNat % 4096 = 0) : ALIGN_DOWN_4K x = x := by
  have hbits : ∀ i < 64, (~~~0xFFF#64).getLsbD i = decide (12 ≤ i) := by decide
  apply BitVec.eq_of_getLsbD_eq
  intro i hi
  rw [ALIGN_DOWN_4K, BitVec.getLsbD_and, hbits i hi]
  by_cases hlow : i < 12
  · rw [low_bit hx hlow, Bool.false_and]
  · simp only [show 12 ≤ i by omega, decide_true, Bool.and_true]

theorem offset_toNat {v o : BitVec 64} (hv : v.toNat % 4096 = 0) (ho : o.toNat < 4096) :
    (v + o).toNat = v.toNat + o.toNat := by
  have := v.isLt
  rw [BitVec.toNat_add]
  exact Nat.mod_eq_of_lt (by omega)

theorem offset_page {v o : BitVec 64} (hv : v.toNat % 4096 = 0) (ho : o.toNat < 4096) : page (v + o) = page v := by
  simp only [page, offset_toNat hv ho]
  omega

theorem page_indices {v w : BitVec 64} (h : page w = page v) : key1 w = key1 v ∧ key2 w = key2 v ∧ key3 w = key3 v ∧
    PML4_INDEX w = PML4_INDEX v ∧ PDPT_INDEX w = PDPT_INDEX v ∧ PD_INDEX w = PD_INDEX v ∧ PT_INDEX w = PT_INDEX v := by
  have h1 : key1 w = key1 v := by rw [key1, key1, h]
  have h2 : key2 w = key2 v := by rw [key2, key2, h]
  have h3 : key3 w = key3 v := by rw [key3, key3, h]
  have hw := keys w
  have hv := keys v
  exact ⟨h1, h2, h3, by omega, by omega, by omega, by omega⟩

theorem frame_offset {v p o flags : BitVec 64} (hv : v.toNat % 4096 = 0) (ho : o.toNat < 4096)
    (hp : p.toNat % 4096 = 0) (hlt : p.toNat < 2 ^ 52) (hflags : flags &&& VMM_ADDR_MASK = 0) :
    (((p &&& VMM_ADDR_MASK) ||| flags ||| VMM_PRESENT) &&& VMM_ADDR_MASK) ||| ((v + o) &&& 0xFFF#64) = p + o := by
  have hframe : ((p &&& VMM_ADDR_MASK) ||| flags ||| VMM_PRESENT) &&& VMM_ADDR_MASK = p := by
    rw [and_mask hp hlt, BitVec.and_or_distrib_right, BitVec.and_or_distrib_right, and_mask hp hlt, hflags,
      show VMM_PRESENT &&& VMM_ADDR_MASK = 0#64 by decide, show (0 : BitVec 64) = 0#64 from rfl, BitVec.or_zero,
      BitVec.or_zero]
  have hoffset : (v + o) &&& 0xFFF#64 = o := by
    apply BitVec.eq_of_toNat_eq
    rw [BitVec.toNat_and, offset_toNat hv ho, show (0xFFF#64).toNat = 2 ^ 12 - 1 by decide,
      Nat.and_two_pow_sub_one_eq_mod]
    omega
  rw [hframe, hoffset]
  apply BitVec.eq_of_toNat_eq
  rw [offset_toNat hp ho, BitVec.toNat_or, show p.toNat = 2 ^ 12 * (p.toNat / 4096) by omega]
  exact (Nat.two_pow_add_eq_or_of_lt ho _).symm

namespace Vmm

variable {frames : Nat → Nat} {s : Vmm}

theorem view_leaf {w : BitVec 64} (hw : s.NoHuge w) : s.view w =
    match s.table 3 (key3 w) with
    | none => 0
    | some pt => if !present (s.mem (slot pt (PT_INDEX w))) then 0
        else (s.mem (slot pt (PT_INDEX w)) &&& VMM_ADDR_MASK) ||| (w &&& 0xFFF#64) := by
  have h2 := s.table_two w
  have h3 := s.table_three w
  rw [view]
  cases hpdpt : s.table 1 (key1 w) with
  | none =>
    rw [h3, h2, hpdpt]
    rfl
  | some pdpt =>
    dsimp only
    rw [if_neg (by rw [hw.2.1 pdpt hpdpt]; simp)]
    cases hpd : s.table 2 (key2 w) with
    | none =>
      rw [h3, hpd]
      rfl
    | some pd =>
      dsimp only
      exact if_neg (by rw [hw.2.2 pd hpd]; simp)

theorem NoHuge.of_page {v w : BitVec 64} (hv : s.NoHuge v) (h : page w = page v) : s.NoHuge w := by
  obtain ⟨h1, h2, -, i1, i2, i3, -⟩ := page_indices h
  rw [NoHuge, h1, h2, i1, i2, i3]
  exact hv

theorem NoHuge.set_leaf {v : BitVec 64} (hv : s.NoHuge v) (hs : s.Sound frames) {k pt i : Nat} (hk : k < 512 ^ 3)
    (ht : s.table 3 k = some pt) (hi : i < 512) (e : BitVec 64) : (s.set (slot pt i) e).NoHuge v := by
  obtain ⟨-, hwalk, hslot⟩ := hs.set_leaf hk ht hi e
  obtain ⟨hlt1, hlt2, -⟩ := keys_lt v
  obtain ⟨i1, i2, i3, -⟩ := index_lt v
  refine ⟨?_, fun t ht' => ?_, fun t ht' => ?_⟩
  · rw [show (s.set (slot pt i) e).kernel_pml4 = s.kernel_pml4 from rfl,
      hslot 0 (by omega) 0 s.kernel_pml4 (by omega) rfl _ i1 (by omega)]
    exact hv.1
  · rw [hwalk 1 (by omega) _ hlt1] at ht'
    rw [hslot 1 (by omega) _ t hlt1 ht' _ i2 (by omega)]
    exact hv.2.1 t ht'
  · rw [hwalk 2 (by omega) _ hlt2] at ht'
    rw [hslot 2 (by omega) _ t hlt2 ht' _ i3 (by omega)]
    exact hv.2.2 t ht'

section Page

variable (hf : FreshFrames frames s.kernel_pml4) (hs : s.Sound frames) {v : BitVec 64} (hv : v.toNat % 4096 = 0)
include hs hv

include hf in
theorem Sound.map_view_of (hhuge : s.NoHuge v) (hne : (s.last_table frames v true).1 ≠ 0) {p flags : BitVec 64}
    (hp : p.toNat % 4096 = 0) (hlt : p.toNat < 2 ^ 52) (hflags : flags &&& VMM_ADDR_MASK = 0) :
    (∀ o : BitVec 64, o.toNat < 4096 → (s.vmm_map frames v p flags).view (v + o) = p + o) ∧
    ∀ w, page w ≠ page v → (s.vmm_map frames v p flags).view w = s.view w := by
  obtain ⟨hg, htable, -⟩ := hs.last_table hf v
  rw [vmm_map_eq hs.root, align_down_page hv, align_down_page hp]
  dsimp only at hg htable hne ⊢
  rw [if_neg hne]
  generalize s.last_table frames v true = r at hg htable hne
  have htable := htable.resolve_left hne
  refine ⟨fun o ho => ?_, fun w hw => ?_⟩
  · have hpage := offset_page hv ho
    obtain ⟨-, -, h3, -, -, -, hpt⟩ := page_indices hpage
    have hwalk := (hg.sound.set_leaf (keys_lt v).2.2 htable (index_lt v).2.2.2
      ((p &&& VMM_ADDR_MASK) ||| flags ||| VMM_PRESENT)).2.1
    rw [view_leaf (((hg.noHuge hhuge).set_leaf hg.sound (keys_lt v).2.2 htable (index_lt v).2.2.2 _).of_page
      hpage), h3, hwalk 3 (by omega) _ (keys_lt v).2.2, htable]
    dsimp only
    rw [hpt, show (r.2.set (slot r.1 (PT_INDEX v)) ((p &&& VMM_ADDR_MASK) ||| flags ||| VMM_PRESENT)).mem
      (slot r.1 (PT_INDEX v)) = (p &&& VMM_ADDR_MASK) ||| flags ||| VMM_PRESENT by simp [set], if_neg]
    · exact frame_offset hv ho hp hlt hflags
    · rw [present_eq, BitVec.getLsbD_or, show VMM_PRESENT.getLsbD 0 = true by decide, Bool.or_true]
      decide
  · rw [hg.sound.set_leaf_view htable hw, hg.view]

include hf in
theorem Sound.map_view (hhuge : s.NoHuge v) (halloc : ∀ j < 3, frames (s.asked + j) ≠ 0) {p flags : BitVec 64}
    (hp : p.toNat % 4096 = 0) (hlt : p.toNat < 2 ^ 52) (hflags : flags &&& VMM_ADDR_MASK = 0) :
    (∀ o : BitVec 64, o.toNat < 4096 → (s.vmm_map frames v p flags).view (v + o) = p + o) ∧
    ∀ w, page w ≠ page v → (s.vmm_map frames v p flags).view w = s.view w :=
  hs.map_view_of hf hv hhuge ((hs.last_table hf v).2.2 hhuge halloc) hp hlt hflags

theorem Sound.unmap_view (hhuge : s.NoHuge v) :
    (∀ o : BitVec 64, o.toNat < 4096 → (s.vmm_unmap frames v).view (v + o) = 0) ∧
    ∀ w, page w ≠ page v → (s.vmm_unmap frames v).view w = s.view w := by
  rw [vmm_unmap_eq hs.root, align_down_page hv]
  cases htable : s.table 3 (key3 v) with
  | none =>
    refine ⟨fun o ho => ?_, fun _ _ => rfl⟩
    have hpage := offset_page hv ho
    rw [view_leaf (hhuge.of_page hpage), (page_indices hpage).2.2.1, htable]
  | some pt =>
    dsimp only
    split
    · refine ⟨fun o ho => ?_, fun w hw => hs.set_leaf_view htable hw 0⟩
      have hpage := offset_page hv ho
      obtain ⟨-, -, h3, -, -, -, hpt⟩ := page_indices hpage
      have hwalk := (hs.set_leaf (keys_lt v).2.2 htable (index_lt v).2.2.2 0).2.1
      rw [view_leaf ((hhuge.set_leaf hs (keys_lt v).2.2 htable (index_lt v).2.2.2 0).of_page hpage), h3,
        hwalk 3 (by omega) _ (keys_lt v).2.2, htable]
      dsimp only
      rw [hpt, show (s.set (slot pt (PT_INDEX v)) 0).mem (slot pt (PT_INDEX v)) = 0 by simp [set]]
      rfl
    · next habsent =>
      refine ⟨fun o ho => ?_, fun _ _ => rfl⟩
      have hpage := offset_page hv ho
      obtain ⟨-, -, h3, -, -, -, hpt⟩ := page_indices hpage
      rw [view_leaf (hhuge.of_page hpage), h3, htable]
      dsimp only
      rw [hpt, if_pos (by simpa using habsent)]

end Page

theorem start_entry {pml4 : Nat} (mem : Nat → BitVec 64) {i : Nat} (hi : i < 512) :
    (Vmm.start mem pml4).mem (slot pml4 i) = 0 := by
  simp only [Vmm.start]
  rw [if_pos]
  simp only [slot]
  omega

theorem start_sound {pml4 : Nat} (mem : Nat → BitVec 64) (hroot : pml4 ≠ 0) (halign : pml4 % 4096 = 0) :
    (Vmm.start mem pml4).Sound frames := by
  have hzero := fun i (hi : i < 512) => @start_entry pml4 mem i hi
  have hnone : ∀ l k, k < 512 ^ (l + 1) → (Vmm.start mem pml4).table (l + 1) k = none := by
    intro l
    induction l with
    | zero =>
      intro k hk
      change next ((Vmm.start mem pml4).mem (slot pml4 (k % 512))) = none
      rw [hzero _ (Nat.mod_lt _ (by omega))]
      exact next_zero
    | succ l ih =>
      intro k hk
      change ((Vmm.start mem pml4).table (l + 1) (k / 512)).bind _ = none
      rw [ih (k / 512) (div_lt_pow hk)]
      rfl
  -- the root is the only table
  have honly : ∀ l k t, k < 512 ^ l → (Vmm.start mem pml4).table l k = some t → l = 0 ∧ t = pml4 := by
    intro l k t hk ht
    cases l with
    | zero => exact ⟨rfl, by simpa [table, walk, Vmm.start] using ht.symm⟩
    | succ l =>
      rw [hnone l k hk] at ht
      cases ht
  refine ⟨hroot, ⟨fun l _ k t hk ht => ?_, fun l _ l' _ k k' t hk hk' ht ht' => ?_⟩, fun l _ k t hk ht => ?_,
    fun l _ k t hk ht i hi => ?_⟩
  · rw [(honly l k t hk ht).2]
    exact halign
  · obtain ⟨rfl, -⟩ := honly l k t hk ht
    obtain ⟨rfl, -⟩ := honly l' k' t hk' ht'
    exact ⟨rfl, by omega⟩
  · exact .inl (honly l k t hk ht).2
  · rw [(honly l k t hk ht).2, hzero i hi]
    exact ⟨by decide, by decide⟩

end Vmm

/-- In every state built by the calls of the manager, a call changes the translation of the addresses
of its page and of no other, where its flags have no bits of an address. -/
theorem vmm_refines_page_map {frames : Nat → Nat} {pml4 : Nat} (mem : Nat → BitVec 64) (hroot : pml4 ≠ 0)
    (halign : pml4 % 4096 = 0) (hf : Vmm.FreshFrames frames pml4) (calls : List VmmCall) :
    let s := run (Vmm.step frames) (.start mem pml4) calls
    ∀ v : BitVec 64, v.toNat % 4096 = 0 → s.NoHuge v →
      (∀ p flags : BitVec 64, p.toNat % 4096 = 0 → p.toNat < 2 ^ 52 → flags &&& VMM_ADDR_MASK = 0 →
        (∀ j < 3, frames (s.asked + j) ≠ 0) →
        (∀ o : BitVec 64, o.toNat < 4096 →
          (s.vmm_map frames v p flags).vmm_translate frames (v + o) = p + o) ∧
        ∀ w : BitVec 64, w.toNat / 4096 % 2 ^ 36 ≠ v.toNat / 4096 % 2 ^ 36 →
          (s.vmm_map frames v p flags).vmm_translate frames w = s.vmm_translate frames w) ∧
      (∀ o : BitVec 64, o.toNat < 4096 → (s.vmm_unmap frames v).vmm_translate frames (v + o) = 0) ∧
      ∀ w : BitVec 64, w.toNat / 4096 % 2 ^ 36 ≠ v.toNat / 4096 % 2 ^ 36 →
        (s.vmm_unmap frames v).vmm_translate frames w = s.vmm_translate frames w := by
  intro s v hv hhuge
  obtain ⟨hs, hpml4⟩ := Vmm.Sound.run (s := .start mem pml4) hf (Vmm.start_sound mem hroot halign) calls
  have hf' : Vmm.FreshFrames frames s.kernel_pml4 := hpml4 ▸ hf
  refine ⟨fun p flags hp hlt hflags halloc => ?_, ?_⟩
  · obtain ⟨hmapped, hothers⟩ := hs.map_view hf' hv hhuge halloc hp hlt hflags
    have hroot' := (hs.vmm_map hf' v p flags).1.root
    refine ⟨fun o ho => ?_, fun w hw => ?_⟩
    · rw [Vmm.translate_view hroot', hmapped o ho]
    · rw [Vmm.translate_view hroot', Vmm.translate_view hs.root, hothers w hw]
  · obtain ⟨hunmapped, hothers⟩ := hs.unmap_view hv hhuge
    have hroot' := (hs.vmm_unmap v).1.root
    refine ⟨fun o ho => ?_, fun w hw => ?_⟩
    · rw [Vmm.translate_view hroot', hunmapped o ho]
    · rw [Vmm.translate_view hroot', Vmm.translate_view hs.root, hothers w hw]

/-- Frames from the second megabyte on, a thousand of them. -/
def next_frames (n : Nat) : Nat := if n < 1000 then 0x200000 + n * 4096 else 0

theorem next_frames_fresh : Vmm.FreshFrames next_frames 0x1000 := by
  have hsome : ∀ n, next_frames n = 0 ∨ (n < 1000 ∧ next_frames n = 0x200000 + n * 4096) := by
    intro n
    rw [next_frames]
    split
    · next hn => exact .inr ⟨hn, rfl⟩
    · exact .inl rfl
  refine ⟨fun n => ?_, fun n => ?_, fun n hn => ⟨?_, fun j hj => ?_⟩⟩
  · have := hsome n
    omega
  · have := hsome n
    omega
  · have := hsome n
    omega
  · have := hsome n
    have := hsome j
    omega

/-- A page is mapped next to one that was mapped before. -/
theorem neighbour_page_mapped :
    (run (Vmm.step next_frames) (.start (fun _ => 0) 0x1000) [.map 0x400000 0x800000 3]).NoHuge 0x401000 ∧
    ((run (Vmm.step next_frames) (.start (fun _ => 0) 0x1000) [.map 0x400000 0x800000 3]).vmm_map next_frames
      0x401000 0x900000 3).vmm_translate next_frames 0x401234 = 0x900234 := by
  have hhuge : (run (Vmm.step next_frames) (.start (fun _ => 0) 0x1000) [.map 0x400000 0x800000 3]).NoHuge
      0x401000 := by
    refine ⟨by decide +kernel, fun pdpt hpdpt => ?_, fun pd hpd => ?_⟩
    · have heq : some 0x200000 = some pdpt := Eq.trans (by decide +kernel) hpdpt
      cases heq
      decide +kernel
    · have heq : some 0x201000 = some pd := Eq.trans (by decide +kernel) hpd
      cases heq
      decide +kernel
  refine ⟨hhuge, ?_⟩
  exact ((vmm_refines_page_map (fun _ => 0) (by decide) (by decide) next_frames_fresh [.map 0x400000 0x800000 3]
    0x401000 (by decide) hhuge).1 0x900000 3 (by decide) (by decide) (by decide) (by decide +kernel)).1 0x234
    (by decide)

/-- A flag that is a bit of the address moves the frame. -/
theorem address_flag_moves_frame : 0x1001#64 &&& VMM_HUGE = 0 ∧
    ¬ ((Vmm.vmm_map next_frames (.start (fun _ => 0) 0x1000) 0x400000 0x800000 0x1001).vmm_translate next_frames
      0x400000 = 0x800000) := by
  decide +kernel

end graceos.mm
