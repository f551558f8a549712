import GraceOS.Sasy.Unmapped

/-!
# Frames for a segment

The first loop of `sasy_map_now` and `sasy_pagein` takes contiguous frames, or gives everything back that the bitmap has
given.
-/

namespace graceos.mm.Phys

/-- No page is to be had, neither from the bitmap nor from the kernel heap. -/
def Exhausted (s : Phys) : Prop := s.pmm_alloc_page = (0, s)

/-- The next page is a frame of the bitmap, other than the first one, and its address is a word. -/
def FromBitmap (s : Phys) : Prop :=
  s.pmm.ready = true ∧ ∃ i, s.pmm.free_frame s.pmm.max_frames = some i ∧ 0 < i ∧ i * PAGE_SIZE < 2 ^ 64

/-- The next page is the first one, or lies behind the `k` from `first` on. -/
def Follows (first k : Nat) (s : Phys) : Prop := k = 0 ∨ s.pmm_alloc_page.1 = first + k * PAGE_SIZE

/-- The `n` pages behind the `k` from `first` on come from the bitmap, until there is none at all or one that does not
lie behind the others. -/
def Plain : (first k n : Nat) → Phys → Prop
  | _, _, 0, _ => True
  | first, k, n + 1, s => s.Exhausted ∨ s.FromBitmap ∧ (s.Follows first k →
      Plain (if k = 0 then s.pmm_alloc_page.1 else first) (k + 1) n s.pmm_alloc_page.2)

/-- The `n` pages behind the `k` from `first` on are given. -/
def Gets : (first k n : Nat) → Phys → Prop
  | _, _, 0, _ => True
  | first, k, n + 1, s => s.pmm_alloc_page.1 ≠ 0 ∧ s.Follows first k ∧
      Gets (if k = 0 then s.pmm_alloc_page.1 else first) (k + 1) n s.pmm_alloc_page.2

/-- The allocator after `n` pages. -/
def after : (n : Nat) → Phys → Phys
  | 0, s => s
  | n + 1, s => after n s.pmm_alloc_page.2

end graceos.mm.Phys

namespace graceos.sasy

open mm machine

namespace Backing

variable {b b₀ : Backing} {g : Segment} {i k n first : Nat}

theorem alloc_exhausted (h : b.frames.Exhausted) : b.pmm_alloc_page = (0, b) := by
  rw [pmm_alloc_page, h]
  rfl

theorem alloc_from_bitmap (h : b.frames.FromBitmap) : ∃ j, 0 < j ∧ j * PAGE_SIZE < 2 ^ 64 ∧
    b.frames.pmm_alloc_page.1 = j * PAGE_SIZE ∧ b.pmm_alloc_page.1 = j * PAGE_SIZE ∧
    b.pmm_alloc_page.2.frames = b.frames.pmm_alloc_page.2 ∧
    b.frames.pmm.Manages j ∧ b.frames.pmm.bitmap_test j = false ∧
    Pmm.Same b.frames.pmm b.pmm_alloc_page.2.frames.pmm ∧
    ∀ f, b.pmm_alloc_page.2.frames.pmm.bitmap_test f = (decide (f = j) || b.frames.pmm.bitmap_test f) := by
  obtain ⟨hready, j, hfree, hpos, hword⟩ := h
  obtain ⟨hlt, htest⟩ := Pmm.free_frame_some hfree
  have halloc : b.frames.pmm_alloc_page =
      (j * PAGE_SIZE, { b.frames with pmm := (b.frames.pmm.bitmap_set j).count_up }) := by
    rw [Phys.pmm_alloc_page, if_neg (by simp [hready]), hfree]
  have hframes : j < b.frames.pmm.frames := by
    by_contra hnot
    rw [Pmm.bitmap_test, if_pos (Nat.not_lt.mp hnot)] at htest
    cases htest
  rw [pmm_alloc_page, halloc]
  refine ⟨j, hpos, hword, rfl, Nat.mod_eq_of_lt hword, rfl, ⟨hready, hlt, hframes⟩, htest, ?_, fun f => ?_⟩
  · exact (Pmm.same_bitmap_set j).trans Pmm.same_count_up
  · exact Pmm.bitmap_test_set j f

/-! ## Frames that are given back -/

theorem free_page_test {a : Nat} (hm : b.frames.pmm.Manages (a / PAGE_SIZE)) (f : Nat) :
    (b.pmm_free_page a).frames.pmm.bitmap_test f = (b.frames.pmm.bitmap_test f && !decide (f = a / PAGE_SIZE)) := by
  obtain ⟨hready, hmax, hframes⟩ := hm
  change (b.frames.pmm.pmm_free_page a).bitmap_test f = _
  rw [Pmm.pmm_free_page, if_neg (by simp [hready]), if_neg (by omega)]
  split
  · next hfree =>
    by_cases hf : f = a / PAGE_SIZE
    · subst hf
      simpa using hfree
    · simp [hf]
  · have hclear : ((b.frames.pmm.bitmap_clear (a / PAGE_SIZE)).count_down).bitmap_test f =
        (!decide (f = a / PAGE_SIZE) && b.frames.pmm.bitmap_test f) := Pmm.bitmap_test_clear hframes f
    rw [hclear, Bool.and_comm]

theorem free_foldl_test (addrs : List Nat) (hm : ∀ a ∈ addrs, b.frames.pmm.Manages (a / PAGE_SIZE)) (f : Nat) :
    (addrs.foldl Backing.pmm_free_page b).frames.pmm.bitmap_test f =
      (b.frames.pmm.bitmap_test f && !decide (∃ a ∈ addrs, f = a / PAGE_SIZE)) := by
  induction addrs generalizing b with
  | nil => simp
  | cons a addrs ih =>
    have hsame : Pmm.Same b.frames.pmm (b.pmm_free_page a).frames.pmm := Pmm.same_pmm_free_page a
    rw [List.foldl_cons, ih fun x hx => hsame.manages.mpr (hm x (List.mem_cons_of_mem a hx)),
      free_page_test (hm a List.mem_cons_self)]
    simp only [List.mem_cons, exists_eq_or_imp, Bool.and_assoc]
    by_cases hf : f = a / PAGE_SIZE <;> simp [hf]

theorem free_foldl_same (addrs : List Nat) (b : Backing) :
    Pmm.Same b.frames.pmm (addrs.foldl Backing.pmm_free_page b).frames.pmm := by
  induction addrs generalizing b with
  | nil => exact .refl _
  | cons a addrs ih => exact (Pmm.same_pmm_free_page a).trans (ih (b.pmm_free_page a))

/-- Of the state `b₀`, the `k` frames from `first` on are taken. -/
structure Taken (b₀ b : Backing) (first k : Nat) : Prop where
  same : Pmm.Same b₀.frames.pmm b.frames.pmm
  aligned : first % PAGE_SIZE = 0
  words : first + k * PAGE_SIZE ≤ 2 ^ 64
  managed : ∀ j < k, b₀.frames.pmm.Manages (first / PAGE_SIZE + j)
  free : ∀ j < k, b₀.frames.pmm.bitmap_test (first / PAGE_SIZE + j) = false
  test : ∀ f, b.frames.pmm.bitmap_test f = (b₀.frames.pmm.bitmap_test f || decide (∃ j < k, f = first / PAGE_SIZE + j))

theorem Taken.frame (h : Taken b₀ b first k) {j : Nat} (hj : j < k) :
    (first + j * PAGE_SIZE) % 2 ^ 64 / PAGE_SIZE = first / PAGE_SIZE + j := by
  have hwords := h.words
  have haligned := h.aligned
  have hpage : PAGE_SIZE = 4096 := rfl
  rw [hpage] at hwords haligned ⊢
  omega

theorem Taken.free_pages_test (h : Taken b₀ b first k) {b' : Backing}
    (hsame : Pmm.Same b.frames.pmm b'.frames.pmm) (f : Nat) :
    (b'.free_pages first k).frames.pmm.bitmap_test f =
      (b'.frames.pmm.bitmap_test f && !decide (∃ j < k, f = first / PAGE_SIZE + j)) := by
  have hmem : ∀ a, a ∈ page_addrs first k ↔ ∃ j < k, a = (first + j * PAGE_SIZE) % 2 ^ 64 := by
    intro a
    simp only [page_addrs, List.mem_map, List.mem_range]
    exact exists_congr fun j => and_congr_right fun _ => eq_comm
  have hmanaged : ∀ a ∈ page_addrs first k, b'.frames.pmm.Manages (a / PAGE_SIZE) := by
    intro a ha
    obtain ⟨j, hj, rfl⟩ := (hmem a).mp ha
    rw [h.frame hj]
    exact (h.same.trans hsame).manages.mpr (h.managed j hj)
  rw [Backing.free_pages, free_foldl_test (page_addrs first k) hmanaged f]
  have hiff : (∃ a ∈ page_addrs first k, f = a / PAGE_SIZE) ↔ ∃ j < k, f = first / PAGE_SIZE + j := by
    constructor
    · rintro ⟨a, ha, rfl⟩
      obtain ⟨j, hj, rfl⟩ := (hmem a).mp ha
      exact ⟨j, hj, h.frame hj⟩
    · rintro ⟨j, hj, rfl⟩
      exact ⟨_, (hmem _).mpr ⟨j, hj, rfl⟩, (h.frame hj).symm⟩
  simp only [hiff]

theorem Taken.free_pages (h : Taken b₀ b first k) (f : Nat) :
    (b.free_pages first k).frames.pmm.bitmap_test f = b₀.frames.pmm.bitmap_test f := by
  rw [h.free_pages_test (.refl _), h.test]
  by_cases hf : ∃ j < k, f = first / PAGE_SIZE + j
  · obtain ⟨j, hj, rfl⟩ := id hf
    simp only [h.free j hj, hf, decide_true, Bool.not_true, Bool.and_false]
  · simp only [hf, decide_false, Bool.not_false, Bool.and_true, Bool.or_false]

theorem Taken.start (b : Backing) : Taken b b 0 0 :=
  ⟨.refl _, rfl, by decide, fun j hj => absurd hj (Nat.not_lt_zero j), fun j hj => absurd hj (Nat.not_lt_zero j),
    fun f => by simp⟩

/-- The next frame of the bitmap is the one behind those that are taken. -/
theorem Taken.push (h : Taken b₀ b first k) {b' : Backing} {j : Nat} (hnext : first / PAGE_SIZE + k = j)
    (hword : j * PAGE_SIZE < 2 ^ 64) (hmanaged : b.frames.pmm.Manages j) (hfree : b.frames.pmm.bitmap_test j = false)
    (hsame : Pmm.Same b.frames.pmm b'.frames.pmm)
    (htest : ∀ f, b'.frames.pmm.bitmap_test f = (decide (f = j) || b.frames.pmm.bitmap_test f)) :
    Taken b₀ b' first (k + 1) := by
  have hfree₀ : b₀.frames.pmm.bitmap_test j = false := by
    have hold := h.test j
    rw [hfree] at hold
    exact (Bool.or_eq_false_iff.mp hold.symm).1
  have hcases : ∀ x < k + 1, x < k ∨ first / PAGE_SIZE + x = j := by omega
  refine ⟨h.same.trans hsame, h.aligned, ?_, fun x hx => ?_, fun x hx => ?_, fun f => ?_⟩
  · have haligned := h.aligned
    have hpage : PAGE_SIZE = 4096 := rfl
    rw [hpage] at haligned hnext hword ⊢
    omega
  · rcases hcases x hx with hold | hnew
    · exact h.managed x hold
    · rw [hnew]
      exact h.same.manages.mp hmanaged
  · rcases hcases x hx with hold | hnew
    · exact h.free x hold
    · rw [hnew]
      exact hfree₀
  · rw [htest, h.test]
    by_cases hf : f = j
    · have hin : ∃ x < k + 1, f = first / PAGE_SIZE + x := ⟨k, Nat.lt_succ_self k, by omega⟩
      simp only [hf, decide_true, Bool.true_or]
      rw [← hf, decide_eq_true hin, Bool.or_true]
    · have hiff : (∃ x < k + 1, f = first / PAGE_SIZE + x) ↔ ∃ x < k, f = first / PAGE_SIZE + x := by
        constructor
        · rintro ⟨x, hx, rfl⟩
          exact ⟨x, (hcases x hx).resolve_right hf, rfl⟩
        · rintro ⟨x, hx, rfl⟩
          exact ⟨x, by omega, rfl⟩
      simp only [hf, decide_false, Bool.false_or, hiff]

/-- The first loop: the frames are taken, or none is. -/
theorem alloc_pages_spec (h : Taken b₀ b first k) (hfirst : k = 0 → first = 0) (hplain : b.frames.Plain first k n) :
    (¬ b.frames.Gets first k n ∧ (alloc_pages first k n b).1 = none ∧
      ∀ f, (alloc_pages first k n b).2.frames.pmm.bitmap_test f = b₀.frames.pmm.bitmap_test f) ∨
    b.frames.Gets first k n ∧ (alloc_pages first k n b).2.frames = b.frames.after n ∧
      ∃ first', (alloc_pages first k n b).1 = some first' ∧ Taken b₀ (alloc_pages first k n b).2 first' (k + n) := by
  induction n generalizing first k b with
  | zero => exact .inr ⟨trivial, rfl, first, rfl, h⟩
  | succ n ih =>
    rw [alloc_pages, Phys.Gets, Phys.after]
    rcases hplain with hnone | ⟨hbitmap, hplain⟩
    · have hzero : b.frames.pmm_alloc_page.1 = 0 := congrArg Prod.fst hnone
      rw [alloc_exhausted hnone]
      dsimp only
      rw [if_pos rfl]
      exact .inl ⟨fun hgets => hgets.1 hzero, rfl, h.free_pages⟩
    obtain ⟨j, hpos, hword, hgiven, haddr, hframes, hmanaged, hfree, hsame, htest⟩ := alloc_from_bitmap hbitmap
    rw [Phys.Follows, hgiven] at hplain ⊢
    rw [← hframes] at hplain ⊢
    generalize b.pmm_alloc_page = r at haddr hframes hsame htest hplain ⊢
    obtain ⟨page, b₁⟩ := r
    dsimp only at haddr hframes hsame htest hplain ⊢
    have hpage : PAGE_SIZE = 4096 := rfl
    have hne : page ≠ 0 := by
      rw [haddr, hpage]
      omega
    rw [← haddr] at hplain ⊢
    rw [if_neg hne]
    by_cases hk : k = 0
    · subst hk
      have hzero := hfirst rfl
      subst hzero
      have hstart : Taken b₀ b page 0 := by
        refine ⟨h.same, by rw [haddr]; exact Nat.mul_mod_left _ _, by omega, fun x hx => absurd hx (Nat.not_lt_zero x),
          fun x hx => absurd hx (Nat.not_lt_zero x), fun f => ?_⟩
        rw [h.test]
        simp
      have hpush : Taken b₀ b₁ page 1 := hstart.push (by rw [haddr, hpage]; omega) hword hmanaged hfree hsame htest
      have hrest := hplain (.inl rfl)
      rw [if_pos rfl] at hrest
      rw [if_pos rfl, if_pos rfl]
      rcases ih hpush (by omega) hrest with ⟨hgets, hfail⟩ | ⟨hgets, hafter, first', hsome, htaken⟩
      · exact .inl ⟨fun hall => hgets hall.2.2, hfail⟩
      · refine .inr ⟨⟨hne, .inl rfl, hgets⟩, hafter, first', hsome, ?_⟩
        have hcount : 0 + (n + 1) = 1 + n := by omega
        rw [hcount]
        exact htaken
    · rw [if_neg hk] at hplain
      rw [if_neg hk, if_neg hk]
      have haligned := h.aligned
      have hwords := h.words
      by_cases hnext : page = (first + k * PAGE_SIZE) % 2 ^ 64
      · rw [if_neg (not_not.mpr hnext)]
        have hbehind : first / PAGE_SIZE + k = j := by
          rw [hpage] at haligned hwords hword haddr hnext ⊢
          omega
        have hfollows : page = first + k * PAGE_SIZE := by
          rw [hpage] at haligned hwords hword haddr hnext ⊢
          omega
        rcases ih (h.push hbehind hword hmanaged hfree hsame htest) (by omega) (hplain (.inr hfollows)) with
          ⟨hgets, hfail⟩ | ⟨hgets, hafter, first', hsome, htaken⟩
        · exact .inl ⟨fun hall => hgets hall.2.2, hfail⟩
        · refine .inr ⟨⟨hne, .inr hfollows, hgets⟩, hafter, first', hsome, ?_⟩
          have hcount : k + (n + 1) = k + 1 + n := by omega
          rw [hcount]
          exact htaken
      · rw [if_pos hnext]
        refine .inl ⟨fun hgets => hnext ?_, rfl, fun f => ?_⟩
        · have hfollows := hgets.2.1.resolve_left hk
          rw [← hfollows]
          rw [haddr]
          exact (Nat.mod_eq_of_lt hword).symm
        have hframe : page / PAGE_SIZE = j := by
          rw [haddr]
          exact Nat.mul_div_cancel j (by decide)
        have hback : Pmm.Same b₁.frames.pmm (b₁.free_pages first k).frames.pmm := by
          rw [Backing.free_pages]
          exact free_foldl_same _ _
        have hmanages : (b₁.free_pages first k).frames.pmm.Manages (page / PAGE_SIZE) := by
          rw [hframe]
          exact (hsame.trans hback).manages.mpr hmanaged
        have hfree₀ := h.test j
        rw [hfree] at hfree₀
        rw [free_page_test hmanages, h.free_pages_test hsame, htest, h.test, hframe]
        by_cases hf : f = j
        · subst hf
          rw [(Bool.or_eq_false_iff.mp hfree₀.symm).1]
          simp
        · by_cases hin : ∃ x < k, f = first / PAGE_SIZE + x
          · obtain ⟨x, hx, rfl⟩ := id hin
            simp only [h.free x hx, hin, decide_true, Bool.not_true, Bool.and_false, Bool.false_and]
          · simp only [hf, hin, decide_false, Bool.false_or, Bool.or_false, Bool.not_false, Bool.and_true]

end Backing

end graceos.sasy
