import GraceOS.Mm.Pmm

/-!
# Frames are not shared

As long as a frame is free whenever one is asked for, the pages handed out are distinct frames
outside of what was reserved. The fallback breaks this: it hands out an address inside the kernel
heap, and `pmm_free_page` then frees the frame around it.
-/

namespace graceos.mm

open machine

/-- What the users of the manager do. -/
inductive PageCall where
  | alloc_page
  | alloc_page_low
  | free_page (phys_addr : Nat)

/-- The allocators and the pages that were handed out and not given back. -/
structure Paging where
  phys : Phys
  live : List Nat

/-- An answer of an allocating function; null is not a page. -/
def Paging.take (s : Paging) (r : Nat × Phys) : Paging :=
  ⟨r.2, if r.1 = 0 then s.live else r.1 :: s.live⟩

def Paging.step (s : Paging) : PageCall → Paging
  | .alloc_page => s.take s.phys.pmm_alloc_page
  | .alloc_page_low => s.take s.phys.pmm_alloc_page_low
  | .free_page phys_addr => ⟨s.phys.pmm_free_page phys_addr, s.live.erase phys_addr⟩

/-- Callers give back only what they have. -/
def Paging.Allows (s : Paging) : PageCall → Prop
  | .free_page phys_addr => phys_addr ∈ s.live
  | _ => True

/-- No block of the kernel heap can hold a page. -/
def Kheap.Crowded (h : Kheap) : Prop :=
  ∀ ts, h.Intact ts → ∀ t ∈ ts, t.free = true → t.size < HEADER_SIZE + PAGE_SIZE + FOOTER_SIZE

/-- The bitmap has a free frame for `pmm_alloc_page`, or the heap has no room to fall back on. -/
def Paging.Supplied (s : Paging) : PageCall → Prop
  | .alloc_page => (s.phys.pmm.ready = true ∧ ∃ i < s.phys.pmm.max_frames, s.phys.pmm.bitmap_test i = false) ∨
      s.phys.heap.Crowded
  | .alloc_page_low => s.phys.pmm.ready = true ∨ s.phys.heap.Crowded
  | .free_page _ => True

/-- The address range `[a, a + PAGE_SIZE)` avoids `[first, last)`. -/
def PageOutside (a first last : Nat) : Prop := a + PAGE_SIZE ≤ first ∨ last ≤ a

/-- The frames that were reserved: the kernel with the bitmap, and the heap. -/
def Phys.Reserved (s : Phys) (frame : Nat) : Prop :=
  frame * PAGE_SIZE < s.pmm.kernel_reserved_end ∨
    s.heap.heap_base ≤ frame * PAGE_SIZE ∧ frame * PAGE_SIZE < s.heap.heap_limit

/-- What initialisation leaves: a manager that is offline and empty or online, and a heap that is
missing or intact. -/
structure Phys.Booted (s₀ : Phys) : Prop where
  counted : s₀.pmm.frames = s₀.pmm.max_frames
  offline : s₀.pmm.ready = false → s₀.pmm.max_frames = 0
  heap : s₀.heap.heap_start = 0 ∨ ∃ ts, s₀.heap.Intact ts
  heap_base : s₀.heap.heap_base % PAGE_SIZE = 0

/-- Since the state `s₀` only the bitmap has changed. Reserved frames and the frames of live pages
are marked, and live pages are distinct frames that are not reserved. -/
structure Paging.Sound (s₀ : Phys) (s : Paging) : Prop where
  same : Pmm.Same s₀.pmm s.phys.pmm
  heap : s.phys.heap = s₀.heap
  reserved : s₀.pmm.ready = true → ∀ f, s₀.Reserved f → s.phys.pmm.bitmap_test f = true
  live : ∀ a ∈ s.live, ∃ f, a = f * PAGE_SIZE ∧ f < s₀.pmm.max_frames ∧
    s.phys.pmm.bitmap_test f = true ∧ ¬ s₀.Reserved f
  nodup : s.live.Nodup

section Steps

variable {s₀ : Phys} {s : Paging}

theorem Kheap.Crowded.fallback {h : Kheap} (hfull : h.Crowded)
    (hheap : h.heap_start = 0 ∨ ∃ ts, h.Intact ts) : h.simple_fallback_alloc = (0, h) := by
  rw [Kheap.simple_fallback_alloc]
  rcases hheap with hzero | ⟨ts, hin⟩
  · rw [Kheap.kmalloc, if_pos (.inl hzero)]
    rfl
  · obtain ⟨r, h', hrun, -, -, ⟨rfl, rfl⟩ | ⟨ts', b, t, -, -, ⟨u, hu, hfree, hfits⟩, -⟩⟩ :=
      hin.kmalloc PAGE_SIZE
    · rw [hrun]
      rfl
    · obtain ⟨xs, ys, rfl, -⟩ := exists_of_mem_placed hu
      have hsmall := hfull _ hin u (by simp) hfree
      omega

/-- A frame found in the bitmap is handed out. -/
theorem Paging.Sound.taken {limit i : Nat} (h : s.Sound s₀) (hready : s₀.pmm.ready = true)
    (hlimit : limit ≤ s.phys.pmm.max_frames) (hfree : s.phys.pmm.free_frame limit = some i) :
    (s.take (i * PAGE_SIZE, { s.phys with pmm := (s.phys.pmm.bitmap_set i).count_up })).Sound s₀ := by
  obtain ⟨hlt, htest⟩ := Pmm.free_frame_some hfree
  have hmarked : ∀ f, ((s.phys.pmm.bitmap_set i).count_up).bitmap_test f =
      (decide (f = i) || s.phys.pmm.bitmap_test f) := fun f => Pmm.bitmap_test_set i f
  have hold : ∀ a ∈ s.live, ∃ f, a = f * PAGE_SIZE ∧ f < s₀.pmm.max_frames ∧
      (s.phys.pmm.bitmap_set i).count_up.bitmap_test f = true ∧ ¬ s₀.Reserved f := by
    intro a ha
    obtain ⟨f, rfl, hf, htestf, hnres⟩ := h.live a ha
    exact ⟨f, rfl, hf, by rw [hmarked, htestf, Bool.or_true], hnres⟩
  refine ⟨h.same.trans ((Pmm.same_bitmap_set i).trans Pmm.same_count_up), h.heap,
    fun _ f hf => ?_, ?_, ?_⟩
  · have hmark := hmarked f
    rw [h.reserved hready f hf, Bool.or_true] at hmark
    exact hmark
  · simp only [Paging.take]
    split
    · exact hold
    · intro a ha
      rcases List.mem_cons.mp ha with rfl | ha
      · refine ⟨i, rfl, by rw [← h.same.2.1]; omega, by rw [hmarked]; simp, fun hi => ?_⟩
        exact absurd ((h.reserved hready i hi).symm.trans htest) (by simp)
      · exact hold a ha
  · simp only [Paging.take]
    split
    · exact h.nodup
    · refine List.nodup_cons.mpr ⟨fun hmem => ?_, h.nodup⟩
      obtain ⟨f, hf, -, htestf, -⟩ := h.live _ hmem
      obtain rfl : i = f := Nat.eq_of_mul_eq_mul_right (by decide) hf
      exact absurd (htestf.symm.trans htest) (by simp)

theorem Paging.Sound.fallback (h : s.Sound s₀) (hbooted : s₀.Booted) (hfull : s.phys.heap.Crowded) :
    (s.take s.phys.fallback).Sound s₀ := by
  have hnone : s.phys.fallback = (0, s.phys) := by
    rw [Phys.fallback, hfull.fallback (h.heap ▸ hbooted.heap)]
  rw [hnone, Paging.take, if_pos rfl]
  exact h

theorem Paging.Sound.free_page {phys_addr : Nat} (h : s.Sound s₀) (hbooted : s₀.Booted)
    (hlive : phys_addr ∈ s.live) : (s.step (.free_page phys_addr)).Sound s₀ := by
  obtain ⟨f, rfl, hf, htest, hnres⟩ := h.live phys_addr hlive
  have hframe : f * PAGE_SIZE / PAGE_SIZE = f := Nat.mul_div_cancel f (by decide)
  have hmax : f < s.phys.pmm.max_frames := h.same.2.1.symm ▸ hf
  have hframes : f < s.phys.pmm.frames := by rwa [h.same.1, hbooted.counted]
  rw [Paging.step, Phys.pmm_free_page, Pmm.pmm_free_page, hframe]
  by_cases hready : s.phys.pmm.ready = true
  · rw [if_neg (by simp [hready]), if_neg (by omega), if_neg (by simp [htest])]
    have hcleared : ∀ g, ((s.phys.pmm.bitmap_clear f).count_down).bitmap_test g =
        (!decide (g = f) && s.phys.pmm.bitmap_test g) := fun g => Pmm.bitmap_test_clear hframes g
    refine ⟨h.same.trans ((Pmm.same_bitmap_clear f).trans Pmm.same_count_down), h.heap,
      fun hr g hg => ?_, fun a ha => ?_, h.nodup.erase _⟩
    · have hne : g ≠ f := fun heq => hnres (heq ▸ hg)
      simp only [hcleared, hne, h.reserved hr g hg]
      rfl
    · obtain ⟨hne, hmem⟩ := h.nodup.mem_erase_iff.mp ha
      obtain ⟨g, rfl, hg, htestg, hnresg⟩ := h.live a hmem
      have hgf : g ≠ f := fun heq => hne (heq ▸ rfl)
      refine ⟨g, rfl, hg, ?_, hnresg⟩
      simp only [hcleared, hgf, htestg]
      rfl
  · rw [if_pos (by simp [hready])]
    exact ⟨h.same, h.heap, h.reserved, fun a ha => h.live a (List.mem_of_mem_erase ha), h.nodup.erase _⟩

theorem Paging.Sound.step (h : s.Sound s₀) (hbooted : s₀.Booted) {call : PageCall}
    (hallows : s.Allows call) (hsupplied : s.Supplied call) : (s.step call).Sound s₀ := by
  have hready := h.same.2.2.1
  cases call with
  | alloc_page =>
    rw [Paging.step, Phys.pmm_alloc_page]
    cases hr : s.phys.pmm.ready with
    | true =>
      rw [if_neg (by simp)]
      cases hfree : s.phys.pmm.free_frame s.phys.pmm.max_frames with
      | some i => exact h.taken (hready ▸ hr) (le_refl _) hfree
      | none =>
        refine h.fallback hbooted (hsupplied.resolve_left fun ⟨_, i, hi, htest⟩ => ?_)
        have hall := List.find?_eq_none.mp hfree i (List.mem_range.mpr hi)
        simp [htest] at hall
    | false =>
      rw [if_pos (by simp)]
      exact h.fallback hbooted (hsupplied.resolve_left fun hc => absurd (hr.symm.trans hc.1) (by simp))
  | alloc_page_low =>
    rw [Paging.step, Phys.pmm_alloc_page_low]
    cases hr : s.phys.pmm.ready with
    | true =>
      rw [if_neg (by simp)]
      cases hfree : s.phys.pmm.free_frame (min (0x1000000 / PAGE_SIZE) s.phys.pmm.max_frames) with
      | some i => exact h.taken (hready ▸ hr) (Nat.min_le_right _ _) hfree
      | none =>
        rw [Paging.take, if_pos rfl]
        exact h
    | false =>
      rw [if_pos (by simp)]
      exact h.fallback hbooted (hsupplied.resolve_left fun hc => absurd (hr.symm.trans hc) (by simp))
  | free_page phys_addr => exact h.free_page hbooted hallows

end Steps

/-! ## Start -/

section Boot

variable {mb_addr total_memory kernel_end_symbol : Nat}

theorem Pmm.frame_count_le (total_memory : Nat) : frame_count total_memory ≤ 2 ^ 24 := by
  simp only [frame_count, PAGE_SIZE]
  split_ifs <;> omega

/-- The manager after its initialisation: as it was, or ready with the kernel marked. -/
theorem Pmm.pmm_init_spec {p q : Pmm} (hq : q = p.pmm_init mb_addr total_memory kernel_end_symbol) :
    (mb_addr < 0x1000 ∧ q = p) ∨ (q.ready = true ∧ q.frames = q.max_frames ∧
      q.max_frames = frame_count total_memory ∧
      q.kernel_reserved_end =
        (kernel_end kernel_end_symbol q.max_frames + PAGE_SIZE - 1) / PAGE_SIZE * PAGE_SIZE ∧
      ∀ f, f * PAGE_SIZE < q.kernel_reserved_end → q.bitmap_test f = true) := by
  rw [pmm_init] at hq
  split at hq
  · next hnull => exact .inl ⟨by omega, hq⟩
  · right
    generalize frame_count total_memory = n at hq ⊢
    simp only at hq
    generalize hk : (kernel_end kernel_end_symbol n + PAGE_SIZE - 1) / PAGE_SIZE = k at hq
    generalize hp₂ : (List.range' k (n - k)).foldl mark_free (p.lay_out n k) = p₂ at hq
    have hsame : Same (p.lay_out n k) ((List.range k).foldl mark_used p₂) :=
      (hp₂ ▸ same_foldl (fun _ _ => same_mark_free _) _).trans (same_foldl (fun _ _ => same_mark_used _) _)
    have hqmax : q.max_frames = n := by
      rw [hq]
      exact hsame.2.1
    have hqend : q.kernel_reserved_end = k * PAGE_SIZE := by
      rw [hq]
      exact hsame.2.2.2
    refine ⟨by rw [hq], ?_, hqmax, ?_, fun f hf => ?_⟩
    · rw [hqmax, hq]
      exact hsame.1
    · rw [hqend, hqmax, hk]
    · have hlt : f < k := by
        rw [hqend] at hf
        exact Nat.lt_of_mul_lt_mul_right hf
      have hmark := bitmap_test_foldl_mark_used (p := p₂) (List.range k) f
      rw [decide_eq_true (List.mem_range.mpr hlt), Bool.true_or] at hmark
      rw [hq]
      exact hmark

theorem Kheap.region_spec {reserved_end phys_total base limit : Nat} (hend : reserved_end % PAGE_SIZE = 0)
    (htotal : phys_total % PAGE_SIZE = 0) (hbound : reserved_end ≤ 2 ^ 50) (hbound' : phys_total ≤ 2 ^ 50)
    (hregion : region reserved_end phys_total = (base, limit)) :
    0 < base ∧ base ≤ limit ∧ limit < 2 ^ 64 ∧ base % PAGE_SIZE = 0 ∧ limit % PAGE_SIZE = 0 := by
  have hstart : 0 < raw_start reserved_end ∧ raw_start reserved_end ≤ 2 ^ 50 ∧
      raw_start reserved_end % PAGE_SIZE = 0 := by
    unfold raw_start
    split
    · exact ⟨by omega, hbound, hend⟩
    · decide
  simp only [region, Prod.mk.injEq] at hregion
  generalize raw_start reserved_end = raw at hstart hregion
  have hrange : raw + raw_size raw phys_total ≤ 2 ^ 51 ∧ raw_size raw phys_total % PAGE_SIZE = 0 := by
    have hcases : raw_size raw phys_total = 0x2000000 ∨ raw_size raw phys_total = 0 ∨
        (raw < phys_total ∧ raw_size raw phys_total = phys_total - raw) := by
      unfold raw_size
      split_ifs <;> simp_all [KHEAP_INITIAL_SIZE]
    simp only [PAGE_SIZE] at *
    omega
  generalize raw_size raw phys_total = size at hrange hregion
  simp only [align_up, align_down, PAGE_SIZE] at *
  obtain ⟨rfl, rfl⟩ := hregion
  omega

/-- Initialisation leaves the reserved frames marked. -/
theorem boot_sound (mem : Mem) (bitmap : Nat → BitVec 8) (mb_addr total_memory : Nat)
    (hsymbol : kernel_end_symbol < 2 ^ 48) :
    let s₀ := Phys.boot mem bitmap mb_addr total_memory kernel_end_symbol
    s₀.Booted ∧ (s₀.pmm.ready = true →
      Pmm.kernel_end kernel_end_symbol s₀.pmm.max_frames ≤ s₀.pmm.kernel_reserved_end) ∧
    Paging.Sound s₀ ⟨s₀, []⟩ := by
  intro s₀
  generalize hq : (Phys.off mem bitmap).pmm.pmm_init mb_addr total_memory kernel_end_symbol = q
  have hs₀ : s₀ = Phys.kheap_init ⟨q, (Phys.off mem bitmap).heap⟩ := by rw [← hq]; rfl
  clear_value s₀
  have hspec := Pmm.pmm_init_spec hq.symm
  have hcount : q.frames = q.max_frames ∧ q.max_frames ≤ 2 ^ 24 ∧ (q.ready = false → q.max_frames = 0) := by
    rcases hspec with ⟨-, rfl⟩ | ⟨hr, hf, hm, -⟩
    · exact ⟨rfl, by simp [Phys.off], fun _ => rfl⟩
    · exact ⟨hf, hm ▸ Pmm.frame_count_le total_memory, fun hn => absurd (hr.symm.trans hn) (by simp)⟩
  have hkernel : q.kernel_reserved_end % PAGE_SIZE = 0 ∧ q.kernel_reserved_end ≤ 2 ^ 50 ∧
      (q.ready = true → Pmm.kernel_end kernel_end_symbol q.max_frames ≤ q.kernel_reserved_end) ∧
      (q.ready = true → ∀ f, f * PAGE_SIZE < q.kernel_reserved_end → q.bitmap_test f = true) := by
    rcases hspec with ⟨-, rfl⟩ | ⟨hr, -, hm, hend, hmarked⟩
    · exact ⟨rfl, by simp [Phys.off], by simp [Phys.off], by simp [Phys.off]⟩
    · have hmax := hcount.2.1
      refine ⟨?_, ?_, fun _ => ?_, fun _ => hmarked⟩ <;> rw [hend] <;>
        simp only [Pmm.kernel_end, align_up, PAGE_SIZE] <;> omega
  obtain ⟨base, limit, hregion⟩ : ∃ base limit, Kheap.region q.kernel_reserved_end q.pmm_total = (base, limit) :=
    ⟨_, _, rfl⟩
  obtain ⟨hlow, hle, hhigh, hbase, hlimit⟩ := Kheap.region_spec hkernel.1 (by simp [Pmm.pmm_total])
    hkernel.2.1 (by simp only [Pmm.pmm_total, PAGE_SIZE]; omega) hregion
  have hsize : (limit + 2 ^ 64 - base) % 2 ^ 64 = limit - base := by omega
  simp only [Phys.kheap_init, Kheap.kheap_init, hregion] at hs₀
  by_cases hroom : limit - base < HEADER_SIZE + FOOTER_SIZE
  · -- no heap, and nothing more is reserved
    obtain rfl : base = limit := by
      simp only [HEADER_SIZE, FOOTER_SIZE, PAGE_SIZE] at hroom hbase hlimit
      omega
    simp only [Kheap.format, hsize, if_pos hroom] at hs₀
    subst hs₀
    refine ⟨⟨hcount.1, hcount.2.2, .inl rfl, hbase⟩, hkernel.2.2.1, Pmm.Same.refl _, rfl, fun hr f hf => ?_,
      by simp, by simp⟩
    rcases hf with hf | hf
    · exact hkernel.2.2.2 hr f hf
    · exact absurd hf.2 (by simpa using hf.1)
  · obtain ⟨hin, hb, hl⟩ := Kheap.format_intact (h := (Phys.off mem bitmap).heap) hlow hhigh hbase hlimit
      (by omega)
    rw [hb, hl, hsize, if_neg hroom] at hs₀
    have hsame : Pmm.Same q (q.pmm_reserve_range base (limit - base)) := by
      rw [Pmm.pmm_reserve_range]
      split
      · exact Pmm.Same.refl q
      · exact Pmm.same_foldl (fun _ _ => Pmm.same_mark_used _) _
    rw [hs₀]
    refine ⟨⟨hsame.1.trans (hcount.1.trans hsame.2.1.symm), fun hr => ?_, .inr ⟨_, hin⟩,
      (congrArg (· % PAGE_SIZE) hb).trans hbase⟩, fun hr => ?_,
      Pmm.Same.refl _, rfl, fun hr f hf => ?_, by simp, by simp⟩
    · exact hsame.2.1.trans (hcount.2.2 (hsame.2.2.1 ▸ hr))
    · rw [hsame.2.1, hsame.2.2.2]
      exact hkernel.2.2.1 (hsame.2.2.1 ▸ hr)
    · have hready : q.ready = true := hsame.2.2.1 ▸ hr
      simp only [Phys.Reserved, hb, hl, hsame.2.2.2] at hf
      simp only [Pmm.pmm_reserve_range]
      rw [if_neg (by simp only [hready, HEADER_SIZE, FOOTER_SIZE] at hroom ⊢; simp; omega),
        Pmm.bitmap_test_foldl_mark_used]
      rcases hf with hf | hf
      · rw [hkernel.2.2.2 hready f hf, Bool.or_true]
      · rw [decide_eq_true, Bool.true_or]
        rw [List.mem_range'_1]
        simp only [PAGE_SIZE] at *
        omega

end Boot

/-- The state from which the users of the manager start. -/
def Paging.start (mem : Mem) (bitmap : Nat → BitVec 8) (mb_addr total_memory kernel_end_symbol : Nat) : Paging :=
  ⟨Phys.boot mem bitmap mb_addr total_memory kernel_end_symbol, []⟩

/-- Live pages are aligned, keep clear of the kernel, the bitmap and the heap, and lie apart. -/
def Paging.Exclusive (s₀ : Phys) (kernel_end_symbol : Nat) (s : Paging) : Prop :=
  (∀ a ∈ s.live, a % PAGE_SIZE = 0 ∧
    PageOutside a 0 (Pmm.kernel_end kernel_end_symbol s₀.pmm.max_frames) ∧
    PageOutside a s₀.heap.heap_base s₀.heap.heap_limit) ∧
  s.live.Pairwise fun a b => PageOutside a b (b + PAGE_SIZE)

/-- In a run in which the fallback never succeeds, frames are not shared. -/
theorem frames_not_shared (mem : Mem) (bitmap : Nat → BitVec 8) (mb_addr total_memory : Nat)
    {kernel_end_symbol : Nat} (hsymbol : kernel_end_symbol < 2 ^ 48) {calls : List PageCall}
    (hallowed : Along Paging.step (fun s call => s.Allows call ∧ s.Supplied call)
      (Paging.start mem bitmap mb_addr total_memory kernel_end_symbol) calls) :
    Paging.Exclusive (Phys.boot mem bitmap mb_addr total_memory kernel_end_symbol) kernel_end_symbol
      (run Paging.step (Paging.start mem bitmap mb_addr total_memory kernel_end_symbol) calls) := by
  obtain ⟨hbooted, hkernel, hstart⟩ :=
    boot_sound mem bitmap mb_addr total_memory hsymbol
  rw [Paging.start] at hallowed ⊢
  generalize Phys.boot mem bitmap mb_addr total_memory kernel_end_symbol = s₀ at *
  have hsound := hallowed.invariant (I := Paging.Sound s₀)
    (fun s call hs hcall => hs.step hbooted hcall.1 hcall.2) hstart
  generalize run Paging.step ⟨s₀, []⟩ calls = s at hsound
  refine ⟨fun a ha => ?_, List.Pairwise.imp_of_mem ?_ hsound.nodup⟩
  · obtain ⟨f, rfl, hf, -, hnres⟩ := hsound.live a ha
    have hready : s₀.pmm.ready = true := by
      by_contra hoff
      have := hbooted.offline (by simpa using hoff)
      omega
    have hend := hkernel hready
    simp only [Phys.Reserved, not_or, not_and, Nat.not_lt] at hnres
    refine ⟨Nat.mul_mod_left f PAGE_SIZE, .inr (hend.trans hnres.1), ?_⟩
    have hbase := hbooted.heap_base
    have hheap := hnres.2
    simp only [PageOutside, PAGE_SIZE] at hbase hheap ⊢
    by_cases hbelow : s₀.heap.heap_base ≤ f * 4096
    · exact .inr (hheap hbelow)
    · omega
  · intro a b ha hb hne
    obtain ⟨f, rfl, -⟩ := hsound.live a ha
    obtain ⟨g, rfl, -⟩ := hsound.live b hb
    simp only [PageOutside, PAGE_SIZE] at *
    omega

/-- Three frames, two of them the kernel's: the third one is handed out, given back and handed out
again. -/
theorem third_frame_not_shared :
    let s := Paging.start (fun _ => 0) (fun _ => 0) 0x1000 0x3000 0x1000
    let calls := [PageCall.alloc_page, .free_page 0x2000, .alloc_page]
    (run Paging.step s calls).live = [0x2000] ∧
      Paging.Exclusive s.phys 0x1000 (run Paging.step s calls) := by
  refine ⟨by decide +kernel, frames_not_shared _ _ _ _ (by decide) ⟨⟨trivial, .inl ?_⟩, ⟨?_, trivial⟩,
    ⟨trivial, .inl ?_⟩, trivial⟩⟩
  · exact ⟨by decide +kernel, 2, by decide +kernel, by decide +kernel⟩
  · change 0x2000 ∈ _
    decide +kernel
  · exact ⟨by decide +kernel, 2, by decide +kernel, by decide +kernel⟩

theorem boot_fields (mem : Mem) (bitmap : Nat → BitVec 8) {mb_addr : Nat} (hmb : 0x1000 ≤ mb_addr)
    (total_memory kernel_end_symbol : Nat) :
    let s₀ := Phys.boot mem bitmap mb_addr total_memory kernel_end_symbol
    s₀.pmm.ready = true ∧ s₀.pmm.max_frames = Pmm.frame_count total_memory ∧
      s₀.pmm.kernel_reserved_end = (Pmm.kernel_end kernel_end_symbol (Pmm.frame_count total_memory) +
        PAGE_SIZE - 1) / PAGE_SIZE * PAGE_SIZE ∧
      s₀.heap = (Phys.off mem bitmap).heap.kheap_init s₀.pmm.kernel_reserved_end s₀.pmm.pmm_total := by
  intro s₀
  generalize hq : (Phys.off mem bitmap).pmm.pmm_init mb_addr total_memory kernel_end_symbol = q
  have hs₀ : s₀ = Phys.kheap_init ⟨q, (Phys.off mem bitmap).heap⟩ := by rw [← hq]; rfl
  obtain ⟨hnull, -⟩ | ⟨hr, -, hm, hend, -⟩ := Pmm.pmm_init_spec hq.symm
  · omega
  rw [hm] at hend
  have hsame : Pmm.Same q s₀.pmm := by
    rw [hs₀, Phys.kheap_init]
    dsimp only
    split
    · exact Pmm.Same.refl q
    · rw [Pmm.pmm_reserve_range]
      split
      · exact Pmm.Same.refl q
      · exact Pmm.same_foldl (fun _ _ => Pmm.same_mark_used _) _
  refine ⟨hsame.2.2.1.trans hr, hsame.2.1.trans hm, hsame.2.2.2.trans hend, ?_⟩
  rw [Pmm.pmm_total, hsame.2.1, hsame.2.2.2, hs₀]
  rfl

/-- On 8 MB with a kernel that ends just below 4 MB the heap takes all the rest. The first page is
taken from the heap, and is not aligned. -/
theorem fallback_page_unaligned :
    let s := Paging.start (fun _ => 0) (fun _ => 0) 0x1000 0x800000 0x3ff000
    Along Paging.step Paging.Allows s [.alloc_page] ∧ (s.step .alloc_page).live = [0x400020] ∧
      ¬ Paging.Exclusive s.phys 0x3ff000 (run Paging.step s [.alloc_page]) := by
  intro s
  have hmb : 0x1000 ≤ 0x1000 := le_refl _
  have hsymbol : 0x3ff000 < 2 ^ 48 := by decide
  obtain ⟨hready, hmax, hend, hheap⟩ := boot_fields (fun _ => 0) (fun _ => 0) hmb 0x800000 0x3ff000
  obtain ⟨-, -, hsound⟩ := boot_sound (fun _ => 0) (fun _ => 0) 0x1000 0x800000 hsymbol
  change s.phys.pmm.ready = true at hready
  change s.phys.pmm.max_frames = 2048 at hmax
  change s.phys.pmm.kernel_reserved_end = 0x400000 at hend
  change s.phys.heap = (Phys.off (fun _ => 0) fun _ => 0).heap.kheap_init s.phys.pmm.kernel_reserved_end
    s.phys.pmm.pmm_total at hheap
  have hreserved : ∀ f, s.phys.Reserved f → s.phys.pmm.bitmap_test f = true := hsound.reserved hready
  have hempty : s.live = [] := rfl
  clear_value s
  rw [show s.phys.pmm.pmm_total = 0x800000 by rw [Pmm.pmm_total, hmax]; rfl, hend] at hheap
  have hbase : s.phys.heap.heap_base = 0x400000 := by rw [hheap]; decide +kernel
  have hlimit : s.phys.heap.heap_limit = 0x800000 := by rw [hheap]; decide +kernel
  have hnone : s.phys.pmm.free_frame s.phys.pmm.max_frames = none := by
    refine List.find?_eq_none.mpr fun i hi => ?_
    have hi' := List.mem_range.mp hi
    have hres : s.phys.Reserved i := by
      simp only [Phys.Reserved, hend, hbase, hlimit, PAGE_SIZE]
      omega
    simp [hreserved i hres]
  have hpage : s.phys.pmm_alloc_page.1 = 0x400020 := by
    simp only [Phys.pmm_alloc_page, hready, hnone, Phys.fallback, Bool.not_true, Bool.false_eq_true,
      if_false, hheap]
    decide +kernel
  have hlive : (s.step .alloc_page).live = [0x400020] := by
    rw [Paging.step, Paging.take, hpage, hempty]
    rfl
  refine ⟨⟨trivial, trivial⟩, hlive, fun hexcl => ?_⟩
  have haligned := (hexcl.1 0x400020 (by rw [run_cons, run_nil, hlive]; simp)).1
  exact absurd haligned (by decide)

end graceos.mm
