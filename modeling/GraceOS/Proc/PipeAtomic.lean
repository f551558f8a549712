import GraceOS.Proc.Descriptors

/-!
# A pipe is made whole or not at all

`sys_pipe` opens a slot and two ends, and on an error undoes what it has done so far. The slot is given
back through the counts that the closing of its ends goes through as well.
-/

namespace graceos.proc

open Function

namespace Descriptors

variable {s s' : Descriptors} {p : Ptr} {fd f a : Nat} {file : File}

/-! ## What an end needs -/

/-- A descriptor that `alloc_fd` may hand out. -/
def FreeFd (s : Descriptors) (p : Ptr) (fd : Nat) : Prop := PIPE_FD_BASE ≤ fd ∧ fd < PROC_MAX_FDS ∧ s.fds p fd = none

theorem freeFd_iff : s.FreeFd p fd ↔
    fd ∈ List.range' PIPE_FD_BASE (PROC_MAX_FDS - PIPE_FD_BASE) ∧ (s.fds p fd).isNone = true := by
  have hbound : PIPE_FD_BASE + (PROC_MAX_FDS - PIPE_FD_BASE) = PROC_MAX_FDS := rfl
  rw [FreeFd, List.mem_range'_1, Option.isNone_iff_eq_none, hbound, and_assoc]

theorem alloc_fd_free (h : alloc_fd (s.fds p) = some fd) : s.FreeFd p fd := by
  have hnone := List.find?_some h
  exact freeFd_iff.mpr ⟨List.mem_of_find?_eq_some h, hnone⟩

theorem alloc_fd_isSome_iff : (alloc_fd (s.fds p)).isSome = true ↔ ∃ fd, s.FreeFd p fd := by
  rw [alloc_fd, List.find?_isSome]
  exact exists_congr fun fd => freeFd_iff.symm

theorem kmalloc_eq_some_iff : s.kmalloc a = some f ↔ f = a ∧ a ≠ 0 ∧ a ∉ s.heap := by
  rw [kmalloc]
  split
  · next hno => exact iff_of_false (by simp) fun h => hno.elim h.2.1 h.2.2
  · next hok =>
    rw [not_or] at hok
    rw [Option.some.injEq]
    exact ⟨fun h => ⟨h.symm, hok⟩, fun h => h.1.symm⟩

/-- What opening an end does to the tables. -/
structure Takes (s : Descriptors) (p : Ptr) (file : File) (a fd f : Nat) (s' : Descriptors) : Prop where
  free : s.FreeFd p fd
  block : f = a ∧ a ≠ 0 ∧ a ∉ s.heap
  fds : s'.fds = update s.fds p (update (s.fds p) fd (some f))
  file : s'.file = update s.file f file
  heap : s'.heap = f :: s.heap
  pipes : s'.pipes = s.pipes

theorem open_end_takes (h : s.open_end p file a = some (fd, f, s')) : s.Takes p file a fd f s' := by
  unfold open_end at h
  split at h
  · cases h
  · next fd' hfd =>
    split at h
    · cases h
    · next f' hf =>
      simp only [Option.some.injEq, Prod.mk.injEq] at h
      obtain ⟨rfl, rfl, rfl⟩ := h
      exact ⟨alloc_fd_free hfd, kmalloc_eq_some_iff.mp hf, rfl, rfl, rfl, rfl⟩

theorem open_end_none (h : s.open_end p file a = none) : (∀ fd, ¬ s.FreeFd p fd) ∨ a = 0 ∨ a ∈ s.heap := by
  unfold open_end at h
  split at h
  · next hnone =>
    left
    intro fd hfree
    have hsome := alloc_fd_isSome_iff.mpr ⟨fd, hfree⟩
    rw [hnone] at hsome
    cases hsome
  · next fd hfd =>
    split at h
    · next hf =>
      right
      by_contra hok
      rw [not_or] at hok
      have hsome := kmalloc_eq_some_iff.mpr ⟨rfl, hok⟩
      rw [hf] at hsome
      cases hsome
    · cases h

theorem Takes.drop (h : s.Takes p file a fd f s') : (s'.drop_fd p fd f).fds = s.fds ∧
    (s'.drop_fd p fd f).heap = s.heap := by
  constructor
  · simp only [drop_fd, set_fd, h.fds, update_self, update_idem]
    rw [← h.free.2.2, update_eq_self, update_eq_self]
  · simp only [drop_fd, h.heap]
    rw [List.filter_cons_of_neg (by simp), List.filter_eq_self]
    intro g hg
    simpa using fun hgf : g = f => h.block.2.2 (h.block.1 ▸ hgf ▸ hg)

theorem abandon_fresh {i : Nat} (hi : i < PIPE_TABLE_SIZE) (t : Pipes) (hpipes : s.pipes = update t i Pipes.fresh) :
    (s.abandon i).pipes = update t i { Pipes.fresh with valid := false, readers := 0, writers := 0 } := by
  simp only [abandon, Pipes.pipe_close_read, Pipes.pipe_close_write, slot_cast hi, hpipes, update_self,
    update_idem]
  rfl

/-- Nothing that was in use has changed. -/
structure Undone (s s' : Descriptors) : Prop where
  fds : s'.fds = s.fds
  heap : s'.heap = s.heap
  valid : ∀ i, (s'.pipes i).valid = (s.pipes i).valid
  kept : ∀ i, (s.pipes i).valid = true → s'.pipes i = s.pipes i
  others : ∃ i, ∀ j, j ≠ i → s'.pipes j = s.pipes j

/-- The pair of descriptors holds the ends of a new pipe, and nothing else has changed. -/
structure Made (s : Descriptors) (p : Ptr) (rfd wfd : Nat) (s' : Descriptors) : Prop where
  distinct : rfd ≠ wfd
  rfree : s.FreeFd p rfd
  wfree : s.FreeFd p wfd
  fds : ∀ q fd, ¬ (q = p ∧ (fd = rfd ∨ fd = wfd)) → s'.fds q fd = s.fds q fd
  pipe : ∃ i < PIPE_TABLE_SIZE, (s.pipes i).valid = false ∧
    s'.held p rfd = some ⟨.pipe_read, i⟩ ∧ s'.held p wfd = some ⟨.pipe_write, i⟩ ∧
    (s'.pipes i).valid = true ∧ (s'.pipes i).readers = 1 ∧ (s'.pipes i).writers = 1 ∧ (s'.pipes i).count = 0 ∧
    ∀ j, j ≠ i → s'.pipes j = s.pipes j

/-- All that a pipe needs can be had: a slot, two descriptors and two blocks. -/
structure Offers (s : Descriptors) (p : Ptr) (pipefd_ptr rblock wblock : Nat) : Prop where
  live : p ∈ s.live
  pointer : pipefd_ptr ≠ 0
  slot : ∃ i < PIPE_TABLE_SIZE, (s.pipes i).valid = false
  descriptors : ∃ j k, j ≠ k ∧ s.FreeFd p j ∧ s.FreeFd p k
  read_block : rblock ≠ 0 ∧ rblock ∉ s.heap
  write_block : wblock ≠ 0 ∧ wblock ∉ rblock :: s.heap

theorem Undone.refl (s : Descriptors) : s.Undone s := ⟨rfl, rfl, fun _ => rfl, fun _ _ => rfl, 0, fun _ _ => rfl⟩

theorem Undone.abandon {i : Nat} (hi : i < PIPE_TABLE_SIZE) (hfree : (s.pipes i).valid = false)
    (hfds : s'.fds = s.fds) (hheap : s'.heap = s.heap) (hpipes : s'.pipes = update s.pipes i Pipes.fresh) :
    s.Undone (s'.abandon i) := by
  have hafter := abandon_fresh hi s.pipes hpipes
  refine ⟨hfds, hheap, fun j => ?_, fun j hj => ?_, i, fun j hj => ?_⟩
  · rw [hafter]
    by_cases hij : j = i
    · rw [hij, update_self, hfree]
    · rw [update_of_ne hij]
  · have hij : j ≠ i := by
      rintro rfl
      rw [hfree] at hj
      cases hj
    rw [hafter, update_of_ne hij]
  · rw [hafter, update_of_ne hj]

section Both

variable {i rblock wblock rfd rf wfd wf : Nat} {s₁ s₂ s₃ : Descriptors}

theorem Takes.freeFd (hr : s.Takes p file rblock rfd rf s') (hfd : s.FreeFd p fd) (hne : fd ≠ rfd) :
    s'.FreeFd p fd := by
  refine ⟨hfd.1, hfd.2.1, ?_⟩
  rw [hr.fds, update_self, update_of_ne hne]
  exact hfd.2.2

theorem Takes.freeFd_before (hr : s.Takes p file rblock rfd rf s') (hfd : s'.FreeFd p fd) :
    s.FreeFd p fd ∧ fd ≠ rfd := by
  have hnone := hfd.2.2
  rw [hr.fds, update_self] at hnone
  have hne : fd ≠ rfd := by
    rintro rfl
    rw [update_self] at hnone
    cases hnone
  rw [update_of_ne hne] at hnone
  exact ⟨⟨hfd.1, hfd.2.1, hnone⟩, hne⟩

theorem freeFd_congr (hfds : s'.fds = s.fds) : s'.FreeFd p fd ↔ s.FreeFd p fd := by rw [FreeFd, FreeFd, hfds]

theorem Takes.made (hi : i < PIPE_TABLE_SIZE) (hfree : (s.pipes i).valid = false) (hfds : s₁.fds = s.fds)
    (hpipes : s₁.pipes = update s.pipes i Pipes.fresh) (hr : s₁.Takes p ⟨.pipe_read, i⟩ rblock rfd rf s₂)
    (hw : s₂.Takes p ⟨.pipe_write, i⟩ wblock wfd wf s₃) : s.Made p rfd wfd s₃ := by
  obtain ⟨hwfree, hdistinct⟩ := hr.freeFd_before hw.free
  have hblocks : rf ≠ wf := by
    intro heq
    refine hw.block.2.2 ?_
    rw [hr.heap, heq, hw.block.1]
    exact List.mem_cons_self
  have hpipe : ∀ j, s₃.pipes j = update s.pipes i Pipes.fresh j := fun j => by rw [hw.pipes, hr.pipes, hpipes]
  refine ⟨Ne.symm hdistinct, (freeFd_congr hfds).mp hr.free, (freeFd_congr hfds).mp hwfree, fun q fd hother => ?_,
    i, hi, hfree, ?_, ?_, ?_⟩
  · by_cases hq : q = p
    · subst hq
      have hne : fd ≠ rfd ∧ fd ≠ wfd := by simpa using hother
      rw [hw.fds, update_self, update_of_ne hne.2, hr.fds, update_self,
        update_of_ne hne.1, hfds]
    · rw [hw.fds, update_of_ne hq, hr.fds, update_of_ne hq, hfds]
  · simp [held, hw.fds, hw.file, hr.fds, hr.file, Ne.symm hdistinct, hblocks]
  · simp [held, hw.fds, hw.file]
  · rw [hpipe, update_self]
    refine ⟨rfl, rfl, rfl, rfl, fun j hj => ?_⟩
    rw [hpipe, update_of_ne hj]

end Both

theorem pipe_alloc_none {t : Pipes} (h : t.pipe_alloc = (-1, t)) : ¬ ∃ i < PIPE_TABLE_SIZE, (t i).valid = false := by
  rintro ⟨i, hi, hfree⟩
  rw [Pipes.pipe_alloc] at h
  split at h
  · next j _ => exact absurd (congrArg Prod.fst h) (by simp)
  · next hnone => exact absurd (List.find?_eq_none.mp hnone i (List.mem_range.mpr hi)) (by simp [hfree])

/-- `sys_pipe` either fails and leaves no trace, or makes a pipe; and it makes one whenever all that a pipe needs can
be had. -/
theorem sys_pipe_atomic (s : Descriptors) (p : Ptr) (pipefd_ptr rblock wblock : Nat) :
    match s.sys_pipe p pipefd_ptr rblock wblock with
    | (none, s') => s.Undone s' ∧ ¬ s.Offers p pipefd_ptr rblock wblock
    | (some (rfd, wfd), s') => s.Made p rfd wfd s' ∧ s.Offers p pipefd_ptr rblock wblock := by
  by_cases hcall : p ∉ s.live ∨ pipefd_ptr = 0
  · rw [sys_pipe, if_pos hcall]
    exact ⟨.refl s, fun h => hcall.elim (fun hdead => hdead h.live) h.pointer⟩
  obtain ⟨hlive, hpointer⟩ := not_or.mp hcall
  rcases s.pipes.pipe_alloc_cases with ⟨i, hi, hfree, halloc⟩ | hfull
  · have hnat : ¬((i : Int) < 0) := by omega
    simp only [sys_pipe, if_neg hcall, halloc, if_neg hnat]
    generalize hopened : ({ s with pipes := update s.pipes i Pipes.fresh } : Descriptors) = s₁
    have hfds : s₁.fds = s.fds := hopened ▸ rfl
    have hheap : s₁.heap = s.heap := hopened ▸ rfl
    have hpipes : s₁.pipes = update s.pipes i Pipes.fresh := hopened ▸ rfl
    cases hread : s₁.open_end p ⟨.pipe_read, i⟩ rblock with
    | none =>
      refine ⟨.abandon hi hfree hfds hheap hpipes, fun h => ?_⟩
      obtain ⟨j, k, -, hj, -⟩ := h.descriptors
      rcases open_end_none hread with hnofd | hnull | hused
      · exact hnofd j ((freeFd_congr hfds).mpr hj)
      · exact h.read_block.1 hnull
      · exact h.read_block.2 (hheap ▸ hused)
    | some r =>
      obtain ⟨rfd, rf, s₂⟩ := r
      have hr := open_end_takes hread
      have hheap₂ : s₂.heap = rblock :: s.heap := by rw [hr.heap, hr.block.1, hheap]
      dsimp only
      cases hwrite : s₂.open_end p ⟨.pipe_write, i⟩ wblock with
      | none =>
        obtain ⟨hdrop, hblocks⟩ := hr.drop
        refine ⟨.abandon hi hfree (hdrop.trans hfds) (hblocks.trans hheap) (hr.pipes.trans hpipes), fun h => ?_⟩
        obtain ⟨j, k, hjk, hj, hk⟩ := h.descriptors
        rcases open_end_none hwrite with hnofd | hnull | hused
        · -- the first end takes one of the two descriptors at most
          by_cases hjr : j = rfd
          · exact hnofd k (hr.freeFd ((freeFd_congr hfds).mpr hk) fun hkr => hjk (hjr.trans hkr.symm))
          · exact hnofd j (hr.freeFd ((freeFd_congr hfds).mpr hj) hjr)
        · exact h.write_block.1 hnull
        · exact h.write_block.2 (hheap₂ ▸ hused)
      | some w =>
        obtain ⟨wfd, wf, s₃⟩ := w
        have hw := open_end_takes hwrite
        have hmade := hr.made hi hfree hfds hpipes hw
        refine ⟨hmade, not_not.mp hlive, hpointer, ⟨i, hi, hfree⟩, ⟨rfd, wfd, hmade.distinct, hmade.rfree, hmade.wfree⟩,
          ⟨hr.block.2.1, hheap ▸ hr.block.2.2⟩, hw.block.2.1, hheap₂ ▸ hw.block.2.2⟩
  · simp only [sys_pipe, if_neg hcall, hfull, if_pos (by decide : (-1 : Int) < 0)]
    exact ⟨.refl s, fun h => pipe_alloc_none hfull h.slot⟩

/-- A process whose first descriptor is taken. -/
def one_open : Descriptors :=
  { init with live := {7}, fds := fun _ fd => if fd = 3 then some 1 else none, heap := [1] }

theorem sys_pipe_makes_pipe : one_open.Made 7 4 5 (one_open.sys_pipe 7 4096 2 3).2 ∧ one_open.Offers 7 4096 2 3 := by
  have hatomic := sys_pipe_atomic one_open 7 4096 2 3
  have hresult : (one_open.sys_pipe 7 4096 2 3).1 = some (4, 5) := by decide +kernel
  have hpair : one_open.sys_pipe 7 4096 2 3 = (some (4, 5), (one_open.sys_pipe 7 4096 2 3).2) := Prod.ext hresult rfl
  rw [hpair] at hatomic
  exact hatomic

end Descriptors

end graceos.proc
