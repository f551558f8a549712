import GraceOS.Sasy.TakeFrames

/-!
# Mapping that fails

The second loop maps the frames that were taken. Each table that is missing takes one more; when there is none, the
pages are unmapped and the frames given back, but not the tables.
-/

namespace graceos.sasy

open mm machine

namespace Backing

variable {b b₀ : Backing} {g : Segment} {i k n first : Nat}

/-! ## Tables -/

theorem Taken.congr (h : Taken b₀ b first k) {b' : Backing} (hframes : b'.frames = b.frames) : Taken b₀ b' first k :=
  ⟨hframes ▸ h.same, h.aligned, h.words, h.managed, h.free, hframes ▸ h.test⟩

/-- The three tables above a page are there. -/
structure Reaches (m : PageMap) (v : Nat) : Prop where
  pdpt : m.pdpt (v / 2 ^ 27) = true
  pd : m.pd (v / 2 ^ 18) = true
  pt : m.pt (v / 2 ^ 9) = true

theorem update_there {there : Nat → Bool} {x : Nat} (h : there x = true) : Function.update there x true = there := by
  rw [← h]
  exact Function.update_eq_self x there

theorem pdpt_of_there {v : Nat} (h : b.map.pdpt (v / 2 ^ 27) = true) : b.pdpt_of v = (true, b) := by
  rw [pdpt_of, h]
  rfl

theorem pd_of_eq {v : Nat} (h : b.map.pdpt (v / 2 ^ 27) = true) : b.pd_of v = b.get_table (b.map.pd (v / 2 ^ 18)) := by
  rw [pd_of, enter, update_there h]

theorem pt_of_eq {v : Nat} (h : b.map.pd (v / 2 ^ 18) = true) : b.pt_of v = b.get_table (b.map.pt (v / 2 ^ 9)) := by
  rw [pt_of, enter, update_there h]

theorem get_table_there (b : Backing) : b.get_table true = (true, b) := rfl

theorem get_table_stuck (h : b.frames.Exhausted) : b.get_table false = (false, b) := by
  rw [get_table, alloc_exhausted h]
  rfl

theorem vmm_map_reached {virt : Nat} (h : Reaches b.map (vpage virt)) (phys : Nat) : b.vmm_map virt phys =
    b.enter fun m => { m with page := Function.update m.page (vpage virt) (some (align_down phys PAGE_SIZE)) } := by
  rw [vmm_map_eq]
  simp only [pdpt_of_there h.pdpt, pd_of_eq h.pdpt, h.pd, pt_of_eq h.pd, h.pt, get_table_there, Bool.not_true,
    Bool.false_eq_true, if_false]
  rw [leaf_of, enter, enter, update_there h.pt, enter]

theorem translate_reached {virt phys : Nat} (h : Reaches b.map (vpage virt)) (hvirt : virt % PAGE_SIZE = 0)
    (hphys : phys % PAGE_SIZE = 0) : (b.vmm_map virt phys).vmm_translate virt = phys := by
  rw [vmm_map_reached h, vmm_translate, enter]
  dsimp only
  rw [Function.update_self]
  dsimp only
  rw [hvirt, Nat.add_zero, align_down, Nat.div_mul_cancel (Nat.dvd_of_mod_eq_zero hphys)]

theorem Reaches.mapped_iff {virt : Nat} (h : Reaches b.map (vpage virt)) (phys v : Nat) :
    Reaches (b.vmm_map virt phys).map v ↔ Reaches b.map v := by
  rw [vmm_map_reached h]
  exact ⟨fun h => ⟨h.pdpt, h.pd, h.pt⟩, fun h => ⟨h.pdpt, h.pd, h.pt⟩⟩

theorem vmm_map_stuck {virt : Nat} (h : b.frames.Exhausted) (hnot : ¬ Reaches b.map (vpage virt)) (phys : Nat) :
    b.vmm_map virt phys = b := by
  rw [vmm_map_eq]
  dsimp only
  cases hpdpt : b.map.pdpt (vpage virt / 2 ^ 27) with
  | false =>
    rw [pdpt_of, hpdpt, get_table_stuck h]
    rfl
  | true =>
    simp only [pdpt_of_there hpdpt, pd_of_eq hpdpt]
    cases hpd : b.map.pd (vpage virt / 2 ^ 18) with
    | false =>
      rw [get_table_stuck h]
      rfl
    | true =>
      simp only [get_table_there, pt_of_eq hpd]
      cases hpt : b.map.pt (vpage virt / 2 ^ 9) with
      | false =>
        rw [get_table_stuck h]
        rfl
      | true => exact absurd ⟨hpdpt, hpd, hpt⟩ hnot

theorem vmm_map_exhausted (h : b.frames.Exhausted) (virt phys : Nat) : (b.vmm_map virt phys).frames = b.frames := by
  by_cases hreach : Reaches b.map (vpage virt)
  · rw [vmm_map_reached hreach]
    rfl
  · rw [vmm_map_stuck h hreach]

theorem unmap_pages_frames (b : Backing) (base n : Nat) : (b.unmap_pages base n).frames = b.frames := by
  rw [unmap_pages]
  generalize page_addrs base n = addrs
  induction addrs generalizing b with
  | nil => rfl
  | cons a addrs ih => exact ih (b.vmm_unmap a)

theorem map_pages_frames (hexhausted : b.frames.Exhausted) {virt phys total : Nat} (h : Taken b₀ b phys total)
    (hfail : (map_pages virt phys total k n b).1 = false) (f : Nat) :
    (map_pages virt phys total k n b).2.frames.pmm.bitmap_test f = b₀.frames.pmm.bitmap_test f := by
  induction n generalizing k b with
  | zero => cases hfail
  | succ n ih =>
    have hmap := vmm_map_exhausted hexhausted ((virt + k * PAGE_SIZE) % 2 ^ 64) ((phys + k * PAGE_SIZE) % 2 ^ 64)
    rw [map_pages] at hfail ⊢
    split at hfail
    · next hmiss =>
      rw [if_pos hmiss]
      exact (h.congr ((unmap_pages_frames _ _ _).trans hmap)).free_pages f
    · next hok =>
      rw [if_neg hok]
      exact ih (by rw [hmap]; exact hexhausted) (h.congr hmap) hfail

theorem unmap_pages_page (b : Backing) (base n v : Nat) : (b.unmap_pages base n).map.page v =
    if ∃ j < n, v = vpage ((base + j * PAGE_SIZE) % 2 ^ 64) then none else b.map.page v := by
  induction n with
  | zero => simp [unmap_pages, page_addrs]
  | succ n ih =>
    have hstep : b.unmap_pages base (n + 1) = (b.unmap_pages base n).vmm_unmap ((base + n * PAGE_SIZE) % 2 ^ 64) := by
      simp [unmap_pages, page_addrs, List.range_succ, List.foldl_append]
    rw [hstep, vmm_unmap]
    dsimp only
    by_cases hv : v = vpage ((base + n * PAGE_SIZE) % 2 ^ 64)
    · rw [hv, Function.update_self, if_pos ⟨n, Nat.lt_succ_self n, rfl⟩]
    · rw [Function.update_of_ne hv, ih]
      refine if_congr ⟨?_, ?_⟩ rfl rfl
      · rintro ⟨j, hj, rfl⟩
        exact ⟨j, by omega, rfl⟩
      · rintro ⟨j, hj, rfl⟩
        refine ⟨j, Nat.lt_of_le_of_ne (Nat.le_of_lt_succ hj) ?_, rfl⟩
        rintro rfl
        exact hv rfl

section Mapping

variable {virt phys total m v : Nat}

theorem cleanup_page (b : Backing) (virt phys total k v : Nat) :
    ((b.unmap_pages virt (k + 1)).free_pages phys total).map.page v =
    if ∃ j < k + 1, v = vpage ((virt + j * PAGE_SIZE) % 2 ^ 64) then none else b.map.page v := by
  rw [(free_pages_same _ _ _).page, unmap_pages_page]

theorem page_addr_aligned {a : Nat} (ha : a % PAGE_SIZE = 0) (k : Nat) :
    (a + k * PAGE_SIZE) % 2 ^ 64 % PAGE_SIZE = 0 := by
  have hpage : PAGE_SIZE = 4096 := rfl
  rw [hpage] at ha ⊢
  omega

theorem map_pages_turn (hvirt : virt % PAGE_SIZE = 0) (hphys : phys % PAGE_SIZE = 0)
    (hreach : Reaches b.map (vpage ((virt + k * PAGE_SIZE) % 2 ^ 64))) :
    map_pages virt phys total k (n + 1) b = map_pages virt phys total (k + 1) n
      (b.vmm_map ((virt + k * PAGE_SIZE) % 2 ^ 64) ((phys + k * PAGE_SIZE) % 2 ^ 64)) := by
  rw [map_pages,
    if_neg (not_not.mpr (translate_reached hreach (page_addr_aligned hvirt k) (page_addr_aligned hphys k)))]

theorem map_pages_reached (hvirt : virt % PAGE_SIZE = 0) (hphys : phys % PAGE_SIZE = 0)
    (hall : ∀ j, k ≤ j → j < k + n → Reaches b.map (vpage ((virt + j * PAGE_SIZE) % 2 ^ 64))) :
    (map_pages virt phys total k n b).1 = true := by
  induction n generalizing k b with
  | zero => rfl
  | succ n ih =>
    have hreach := hall k (le_refl k) (by omega)
    rw [map_pages_turn hvirt hphys hreach]
    exact ih fun j hj hlt => (hreach.mapped_iff _ _).mpr (hall j (by omega) (by omega))

/-- Without frames for tables, the mapping fails at the first page without its tables, and only the pages up to that
one are unmapped. -/
theorem map_pages_stuck (hexhausted : b.frames.Exhausted) (hvirt : virt % PAGE_SIZE = 0) (hphys : phys % PAGE_SIZE = 0)
    (hkm : k ≤ m) (hmn : m < k + n)
    (hready : ∀ j, k ≤ j → j < m → Reaches b.map (vpage ((virt + j * PAGE_SIZE) % 2 ^ 64)))
    (hnot : ¬ Reaches b.map (vpage ((virt + m * PAGE_SIZE) % 2 ^ 64)))
    (hnone : b.map.page (vpage ((virt + m * PAGE_SIZE) % 2 ^ 64)) = none) (hpos : (phys + m * PAGE_SIZE) % 2 ^ 64 ≠ 0) :
    (map_pages virt phys total k n b).1 = false ∧ ∀ v, (∀ j ≤ m, v ≠ vpage ((virt + j * PAGE_SIZE) % 2 ^ 64)) →
      (map_pages virt phys total k n b).2.map.page v = b.map.page v := by
  induction n generalizing k b with
  | zero => omega
  | succ n ih =>
    rcases Nat.eq_or_lt_of_le hkm with rfl | hlt
    · rw [map_pages, vmm_map_stuck hexhausted hnot]
      have hmiss : b.vmm_translate ((virt + k * PAGE_SIZE) % 2 ^ 64) = 0 := by
        rw [vmm_translate, hnone]
      rw [hmiss, if_pos (Ne.symm hpos)]
      refine ⟨rfl, fun v hv => ?_⟩
      rw [cleanup_page, if_neg]
      rintro ⟨j, hj, rfl⟩
      exact hv j (by omega) rfl
    · have hreach := hready k (le_refl k) hlt
      rw [map_pages_turn hvirt hphys hreach]
      have hne : vpage ((virt + m * PAGE_SIZE) % 2 ^ 64) ≠ vpage ((virt + k * PAGE_SIZE) % 2 ^ 64) :=
        fun heq => hnot (by rw [heq]; exact hreach)
      obtain ⟨hfail, hpages⟩ :=
        @ih (b.vmm_map ((virt + k * PAGE_SIZE) % 2 ^ 64) ((phys + k * PAGE_SIZE) % 2 ^ 64)) (k + 1)
        (by rw [vmm_map_exhausted hexhausted]; exact hexhausted) hlt (by omega)
        (fun j hj hjm => (hreach.mapped_iff _ _).mpr (hready j (by omega) hjm))
        (fun hthere => hnot ((hreach.mapped_iff _ _).mp hthere))
        ((Remap.page (vmm_map_remap b _ _) _ hne).trans hnone)
      refine ⟨hfail, fun v hv => ?_⟩
      rw [hpages v hv, (vmm_map_remap b _ _).page v (hv k hlt.le)]

/-- Without frames for tables, a mapping that fails does so at a page without its tables. The pages before have theirs,
or were mapped already. -/
theorem map_pages_missed (hexhausted : b.frames.Exhausted) (hvirt : virt % PAGE_SIZE = 0) (hphys : phys % PAGE_SIZE = 0)
    (hpos : ∀ j < k + n, (phys + j * PAGE_SIZE) % 2 ^ 64 ≠ 0) (hfail : (map_pages virt phys total k n b).1 = false) :
    ∃ m, k ≤ m ∧ m < k + n ∧ ¬ Reaches b.map (vpage ((virt + m * PAGE_SIZE) % 2 ^ 64)) ∧
      (∀ j ≤ m, (map_pages virt phys total k n b).2.map.page (vpage ((virt + j * PAGE_SIZE) % 2 ^ 64)) = none) ∧
      ∀ j, k ≤ j → j < m → Reaches b.map (vpage ((virt + j * PAGE_SIZE) % 2 ^ 64)) ∨
        b.map.page (vpage ((virt + j * PAGE_SIZE) % 2 ^ 64)) ≠ none := by
  induction n generalizing k b with
  | zero => cases hfail
  | succ n ih =>
    by_cases hreach : Reaches b.map (vpage ((virt + k * PAGE_SIZE) % 2 ^ 64))
    · rw [map_pages_turn hvirt hphys hreach] at hfail ⊢
      obtain ⟨m, hkm, hmn, hnot, hnone, hbefore⟩ := @ih _ (k + 1)
        (by rw [vmm_map_exhausted hexhausted]; exact hexhausted) (fun j hj => hpos j (by omega)) hfail
      refine ⟨m, by omega, by omega, fun hthere => hnot ((hreach.mapped_iff _ _).mpr hthere), hnone, fun j hj hjm => ?_⟩
      by_cases hsame : vpage ((virt + j * PAGE_SIZE) % 2 ^ 64) = vpage ((virt + k * PAGE_SIZE) % 2 ^ 64)
      · exact .inl (by rw [hsame]; exact hreach)
      · have hjk : j ≠ k := fun heq => hsame (heq ▸ rfl)
        rcases hbefore j (by omega) hjm with hthere | hmapped
        · exact .inl ((hreach.mapped_iff _ _).mp hthere)
        · rw [(vmm_map_remap b _ _).page _ hsame] at hmapped
          exact .inr hmapped
    · rw [map_pages, vmm_map_stuck hexhausted hreach] at hfail ⊢
      split at hfail
      · next hmiss =>
        rw [if_pos hmiss]
        refine ⟨k, le_refl k, by omega, hreach, fun j hj => ?_, fun j hj hjm => absurd hjm (not_lt.mpr hj)⟩
        rw [cleanup_page, if_pos ⟨j, by omega, rfl⟩]
      · next hhit =>
        rw [if_neg hhit]
        obtain ⟨m, hkm, hmn, hnot, hnone, hbefore⟩ := ih hexhausted (fun j hj => hpos j (by omega)) hfail
        refine ⟨m, by omega, by omega, hnot, hnone, fun j hj hjm => ?_⟩
        by_cases hjk : j = k
        · subst hjk
          refine .inr fun hblank => ?_
          rw [not_not, vmm_translate, hblank] at hhit
          exact hpos j (by omega) hhit.symm
        · exact hbefore j (by omega) hjm

end Mapping

/-! ## Frames in use -/

section Used

variable {f j : Nat}

/-- The bitmap has the frame in use. -/
def Used (b : Backing) (f : Nat) : Prop := b.frames.pmm.bitmap_test f = true

theorem Used.alloc (h : b.Used f) : b.pmm_alloc_page.2.Used f := by
  change b.frames.pmm_alloc_page.2.pmm.bitmap_test f = true
  rw [Phys.pmm_alloc_page]
  split
  · exact h
  split
  · next i _ =>
    have hset := Pmm.bitmap_test_set (p := b.frames.pmm) i f
    change ((b.frames.pmm.bitmap_set i).count_up).bitmap_test f = true
    refine (show ((b.frames.pmm.bitmap_set i).count_up).bitmap_test f = _ from hset).trans ?_
    rw [show b.frames.pmm.bitmap_test f = true from h, Bool.or_true]
  · exact h

theorem Used.get_table (h : b.Used f) (there : Bool) : (b.get_table there).2.Used f := by
  rw [Backing.get_table]
  split
  · exact h
  · exact h.alloc

theorem Used.vmm_map (h : b.Used f) (virt phys : Nat) : (b.vmm_map virt phys).Used f := by
  rw [vmm_map_eq]
  dsimp only
  have hpdpt : (b.pdpt_of (vpage virt)).2.Used f := h.get_table _
  generalize b.pdpt_of (vpage virt) = r₁ at hpdpt
  have hpd : (r₁.2.pd_of (vpage virt)).2.Used f := Used.get_table (show (r₁.2.enter _).Used f from hpdpt) _
  generalize r₁.2.pd_of (vpage virt) = r₂ at hpd
  have hpt : (r₂.2.pt_of (vpage virt)).2.Used f := Used.get_table (show (r₂.2.enter _).Used f from hpd) _
  generalize r₂.2.pt_of (vpage virt) = r₃ at hpt
  split_ifs
  · exact hpdpt
  · exact hpd
  · exact hpt
  · exact hpt

/-- Other frames that are freed do not matter. -/
theorem Used.free_pages (h : b.Used f) {phys n : Nat}
    (haway : ∀ j < n, f ≠ (phys + j * PAGE_SIZE) % 2 ^ 64 / PAGE_SIZE) :
    (b.free_pages phys n).Used f := by
  rw [Backing.free_pages]
  have hmem : ∀ a ∈ page_addrs phys n, f ≠ a / PAGE_SIZE := by
    intro a ha
    obtain ⟨j, hj, rfl⟩ := List.mem_map.mp ha
    exact haway j (List.mem_range.mp hj)
  generalize page_addrs phys n = addrs at hmem
  induction addrs generalizing b with
  | nil => exact h
  | cons a addrs ih =>
    refine ih ?_ fun x hx => hmem x (List.mem_cons_of_mem a hx)
    change (b.frames.pmm.pmm_free_page a).bitmap_test f = true
    have hne := hmem a List.mem_cons_self
    rw [Pmm.pmm_free_page]
    split
    · exact h
    split
    · exact h
    split
    · exact h
    · by_cases hframe : a / PAGE_SIZE < b.frames.pmm.frames
      · have hclear := Pmm.bitmap_test_clear (p := b.frames.pmm) hframe f
        refine (show ((b.frames.pmm.bitmap_clear (a / PAGE_SIZE)).count_down).bitmap_test f = _ from hclear).trans ?_
        rw [decide_eq_false hne, show b.frames.pmm.bitmap_test f = true from h]
        rfl
      · have hsame : b.frames.pmm.bitmap_clear (a / PAGE_SIZE) = b.frames.pmm := if_pos (not_lt.mp hframe)
        rw [hsame]
        exact h

theorem Used.map_pages (h : b.Used f) {virt phys total : Nat}
    (haway : (map_pages virt phys total k n b).1 = false → ∀ j < total,
    f ≠ (phys + j * PAGE_SIZE) % 2 ^ 64 / PAGE_SIZE) :
    (map_pages virt phys total k n b).2.Used f := by
  induction n generalizing k b with
  | zero => exact h
  | succ n ih =>
    have hmap := h.vmm_map ((virt + k * PAGE_SIZE) % 2 ^ 64) ((phys + k * PAGE_SIZE) % 2 ^ 64)
    rw [Backing.map_pages] at haway ⊢
    split
    · next hmiss =>
      rw [if_pos hmiss] at haway
      refine Used.free_pages ?_ (haway rfl)
      rw [Used, unmap_pages_frames]
      exact hmap
    · next hok =>
      rw [if_neg hok] at haway
      exact ih hmap haway

/-- A page without its tables takes the next frame. -/
theorem vmm_map_asks (hused : b.pmm_alloc_page.2.Used j) {virt : Nat}
    (hnot : ¬ Reaches b.map (vpage virt)) (phys : Nat) :
    (b.vmm_map virt phys).Used j := by
  have hasks : (b.get_table false).2.Used j := hused
  rw [vmm_map_eq]
  dsimp only
  cases hpdpt : b.map.pdpt (vpage virt / 2 ^ 27) with
  | false =>
    have hfirst : (b.pdpt_of (vpage virt)).2.Used j := by
      rw [pdpt_of, hpdpt]
      exact hasks
    generalize b.pdpt_of (vpage virt) = r₁ at hfirst
    have hpd : (r₁.2.pd_of (vpage virt)).2.Used j := Used.get_table (show (r₁.2.enter _).Used j from hfirst) _
    generalize r₁.2.pd_of (vpage virt) = r₂ at hpd
    have hpt : (r₂.2.pt_of (vpage virt)).2.Used j := Used.get_table (show (r₂.2.enter _).Used j from hpd) _
    generalize r₂.2.pt_of (vpage virt) = r₃ at hpt
    split_ifs
    · exact hfirst
    · exact hpd
    · exact hpt
    · exact hpt
  | true =>
    simp only [pdpt_of_there hpdpt, pd_of_eq hpdpt, Bool.not_true, Bool.false_eq_true, if_false]
    cases hpd : b.map.pd (vpage virt / 2 ^ 18) with
    | false =>
      generalize b.get_table false = r₂ at hasks
      have hpt : (r₂.2.pt_of (vpage virt)).2.Used j := Used.get_table (show (r₂.2.enter _).Used j from hasks) _
      generalize r₂.2.pt_of (vpage virt) = r₃ at hpt
      split_ifs
      · exact hasks
      · exact hpt
      · exact hpt
    | true =>
      simp only [get_table_there, pt_of_eq hpd, Bool.not_true, Bool.false_eq_true, if_false]
      cases hpt : b.map.pt (vpage virt / 2 ^ 9) with
      | false =>
        generalize b.get_table false = r₃ at hasks
        split_ifs
        · exact hasks
        · exact hasks
      | true => exact absurd ⟨hpdpt, hpd, hpt⟩ hnot

theorem map_pages_asks (hnext : b.pmm_alloc_page.2.Used j) {virt phys total : Nat} (hvirt : virt % PAGE_SIZE = 0)
    (hphys : phys % PAGE_SIZE = 0) (haway : ∀ x < total, j ≠ (phys + x * PAGE_SIZE) % 2 ^ 64 / PAGE_SIZE)
    (hfail : (map_pages virt phys total k n b).1 = false) : (map_pages virt phys total k n b).2.Used j := by
  induction n generalizing k b with
  | zero => cases hfail
  | succ n ih =>
    by_cases hreach : Reaches b.map (vpage ((virt + k * PAGE_SIZE) % 2 ^ 64))
    · rw [map_pages_turn hvirt hphys hreach] at hfail ⊢
      refine ih ?_ hfail
      rw [vmm_map_reached hreach]
      exact hnext
    · have hused := vmm_map_asks hnext hreach ((phys + k * PAGE_SIZE) % 2 ^ 64)
      rw [map_pages]
      split
      · refine Used.free_pages ?_ haway
        rw [Used, unmap_pages_frames]
        exact hused
      · exact hused.map_pages fun _ => haway

end Used

theorem map_pages_none {virt phys total v : Nat} (hfail : (map_pages virt phys total k n b).1 = false)
    (hnone : (∀ j < k, v ≠ vpage ((virt + j * PAGE_SIZE) % 2 ^ 64)) → b.map.page v = none) :
    (map_pages virt phys total k n b).2.map.page v = none := by
  induction n generalizing k b with
  | zero => cases hfail
  | succ n ih =>
    have hmap := b.vmm_map_remap ((virt + k * PAGE_SIZE) % 2 ^ 64) ((phys + k * PAGE_SIZE) % 2 ^ 64)
    have hafter : (∀ j < k + 1, v ≠ vpage ((virt + j * PAGE_SIZE) % 2 ^ 64)) →
        (b.vmm_map ((virt + k * PAGE_SIZE) % 2 ^ 64) ((phys + k * PAGE_SIZE) % 2 ^ 64)).map.page v = none := by
      intro hv
      rw [hmap.page v (hv k (Nat.lt_succ_self k))]
      exact hnone fun j hj => hv j (by omega)
    rw [map_pages] at hfail ⊢
    split at hfail
    · next hmiss =>
      rw [if_pos hmiss]
      dsimp only
      rw [(free_pages_same _ _ _).page, unmap_pages_page]
      split
      · rfl
      · next hout => exact hafter fun j hj heq => hout ⟨j, hj, heq⟩
    · next hok =>
      rw [if_neg hok]
      exact ih hfail hafter

end Backing

end graceos.sasy
