import GraceOS.Proc.Pipe
import GraceOS.Proc.Process
import Mathlib.Data.Finset.Prod
import Mathlib.Data.Finset.Card
import Mathlib.Data.Finset.Range

/-!
# Descriptors of pipe ends

The system calls of `syscall.c` that open and close pipe ends, and what forking and dying do to the
descriptors of a process. The ends that `pipe.c` counts are those that `sys_pipe` opened and
`sys_close` did not close; a fork copies descriptors and a death clears them behind its back.
-/

namespace graceos.proc

open machine Function

def PROC_MAX_FDS : Nat := 64
def PIPE_FD_BASE : Nat := 3

/-- `FILE_TYPE_…`. -/
inductive FileType
  | none
  | pipe_read
  | pipe_write
  deriving DecidableEq, Repr

/-- `file_t`. -/
structure File where
  type : FileType
  pipe_id : Int
  deriving DecidableEq, Repr

/-- The descriptor tables of the live processes, the `file_t` objects they point to, and the pipes.
`heap` lists the blocks that are in use. -/
structure Descriptors where
  live : Finset Ptr
  fds : Ptr → Nat → Option Nat
  file : Nat → File
  heap : List Nat
  pipes : Pipes

def alloc_fd (fd_table : Nat → Option Nat) : Option Nat :=
  (List.range' PIPE_FD_BASE (PROC_MAX_FDS - PIPE_FD_BASE)).find? fun i => (fd_table i).isNone

namespace Descriptors

def init : Descriptors := ⟨∅, fun _ _ => none, fun _ => ⟨.none, -1⟩, [], Pipes.pipe_init⟩

variable (s : Descriptors)

def set_fd (p : Ptr) (fd : Nat) (f : Option Nat) : Descriptors :=
  { s with fds := update s.fds p (update (s.fds p) fd f) }

/-- The allocator hands out any block that is not in use; an `a` that is in use, or null, stands for
an allocation that fails. -/
def kmalloc (a : Nat) : Option Nat := if a = 0 ∨ a ∈ s.heap then none else some a

/-- An end of a pipe at the lowest free descriptor. -/
def open_end (p : Ptr) (file : File) (a : Nat) : Option (Nat × Nat × Descriptors) :=
  match alloc_fd (s.fds p) with
  | none => none
  | some fd =>
    match s.kmalloc a with
    | none => none
    | some f => some (fd, f, { s.set_fd p fd (some f) with
        file := update s.file f file
        heap := f :: s.heap })

/-- `kfree(f); fds[fd] = NULL;` -/
def drop_fd (p : Ptr) (fd f : Nat) : Descriptors := { s.set_fd p fd none with heap := s.heap.filter (· ≠ f) }

/-- Both ends of a new pipe are closed again. -/
def abandon (pipe_id : Int) : Descriptors :=
  { s with pipes := (s.pipes.pipe_close_read pipe_id).pipe_close_write pipe_id }

/-- `sys_pipe` by the process `p`; the result is the pair of descriptors, or nothing on an error. -/
def sys_pipe (p : Ptr) (pipefd_ptr rblock wblock : Nat) : Option (Nat × Nat) × Descriptors :=
  if p ∉ s.live ∨ pipefd_ptr = 0 then (none, s)
  else
    let (pipe_id, pipes) := s.pipes.pipe_alloc
    let s := { s with pipes }
    if pipe_id < 0 then (none, s)
    else match s.open_end p ⟨.pipe_read, pipe_id⟩ rblock with
      | none => (none, s.abandon pipe_id)
      | some (rfd, rf, s₁) =>
        match s₁.open_end p ⟨.pipe_write, pipe_id⟩ wblock with
        | none => (none, (s₁.drop_fd p rfd rf).abandon pipe_id)
        | some (wfd, _, s₂) => (some (rfd, wfd), s₂)

/-- What closing a file does to its pipe. -/
def close_file (file : File) : Pipes :=
  match file.type with
  | .pipe_read => s.pipes.pipe_close_read file.pipe_id
  | .pipe_write => s.pipes.pipe_close_write file.pipe_id
  | .none => s.pipes

def sys_close (p : Ptr) (fd : Nat) : Int × Descriptors :=
  if p ∉ s.live ∨ fd < PIPE_FD_BASE ∨ fd ≥ PROC_MAX_FDS then (-1, s)
  else match s.fds p fd with
    | none => (-1, s)
    | some f => (0, { s.drop_fd p fd f with pipes := s.close_file (s.file f) })

/-- `proc_create`: a process without descriptors. -/
def create (child : Ptr) : Descriptors :=
  if child ∈ s.live then s
  else { s with live := insert child s.live, fds := update s.fds child fun _ => none }

/-- `proc_fork` with `copy_fds`: the child shares the files of its parent. -/
def fork (p child : Ptr) : Descriptors :=
  if p ∉ s.live ∨ child ∈ s.live then s
  else { s with live := insert child s.live, fds := update s.fds child (s.fds p) }

/-- `proc_exit` and `proc_terminate`: the descriptors are cleared. -/
def die (p : Ptr) : Descriptors :=
  { s with live := s.live.erase p, fds := update s.fds p fun _ => none }

/-! ## The machine -/

/-- The calls. `terminate` is a call of `proc_terminate` on `p` by anyone. -/
inductive Call where
  | create (child : Ptr)
  | pipe (p : Ptr) (pipefd_ptr rblock wblock : Nat)
  | close (p : Ptr) (fd : Nat)
  | fork (p child : Ptr)
  | exit (p : Ptr)
  | terminate (p : Ptr)

def step : Call → Descriptors
  | .create child => s.create child
  | .pipe p pipefd_ptr rblock wblock => (s.sys_pipe p pipefd_ptr rblock wblock).2
  | .close p fd => (s.sys_close p fd).2
  | .fork p child => s.fork p child
  | .exit p => s.die p
  | .terminate p => s.die p

/-- The file behind a descriptor. -/
def held (p : Ptr) (fd : Nat) : Option File := (s.fds p fd).map s.file

/-- The descriptors of live processes that hold a file. -/
def holders (file : File) : Finset (Ptr × Nat) :=
  (s.live ×ˢ Finset.range PROC_MAX_FDS).filter fun x => s.held x.1 x.2 = some file

/-- The descriptors that hold the read end, and the write end, of a pipe. -/
def readers (i : Nat) : Nat := (s.holders ⟨.pipe_read, i⟩).card
def writers (i : Nat) : Nat := (s.holders ⟨.pipe_write, i⟩).card

/-- The process `p` holds no end of a pipe. -/
def HoldsNoPipe (p : Ptr) : Prop := ∀ fd < PROC_MAX_FDS, ∀ file, s.held p fd = some file → file.type = .none

/-- The calls that keep the counts: no process forks or dies that holds an end of a pipe. -/
def Careful : Call → Prop
  | .fork p child => p ∈ s.live → child ∉ s.live → s.HoldsNoPipe p
  | .exit p => p ∈ s.live → s.HoldsNoPipe p
  | .terminate p => p ∈ s.live → s.HoldsNoPipe p
  | _ => True

variable {s} {s' : Descriptors} {p : Ptr} {fd f : Nat} {file : File}

theorem mem_holders {x : Ptr × Nat} :
    x ∈ s.holders file ↔ (x.1 ∈ s.live ∧ x.2 < PROC_MAX_FDS) ∧ s.held x.1 x.2 = some file := by
  simp only [holders, Finset.mem_filter, Finset.mem_product, Finset.mem_range]

/-! ## Who owns what -/

/-- The files that live processes point to are in use, each is pointed to once, and each is an end of
a pipe. -/
structure Owned (s : Descriptors) : Prop where
  used : ∀ q ∈ s.live, ∀ k < PROC_MAX_FDS, ∀ f, s.fds q k = some f → f ∈ s.heap
  once : ∀ q ∈ s.live, ∀ k < PROC_MAX_FDS, ∀ q' ∈ s.live, ∀ k' < PROC_MAX_FDS, ∀ f,
    s.fds q k = some f → s.fds q' k' = some f → q = q' ∧ k = k'
  pipe : ∀ q ∈ s.live, ∀ k < PROC_MAX_FDS, ∀ f, s.fds q k = some f →
    (s.file f).type ≠ .none ∧ ∃ i < PIPE_TABLE_SIZE, (s.file f).pipe_id = (i : Nat)

theorem fds_set_fd (q : Ptr) (k : Nat) (v : Option Nat) :
    (s.set_fd p fd v).fds q k = if q = p ∧ k = fd then v else s.fds q k := by
  by_cases hq : q = p
  · subst hq
    by_cases hk : k = fd
    · simp [set_fd, hk]
    · simp [set_fd, hk]
  · simp [set_fd, hq]

theorem alloc_fd_some {fd_table : Nat → Option Nat} (h : alloc_fd fd_table = some fd) :
    fd < PROC_MAX_FDS ∧ fd_table fd = none := by
  have hmem := List.mem_of_find?_eq_some h
  have hfree := List.find?_some h
  rw [List.mem_range'_1] at hmem
  simp only [PIPE_FD_BASE, PROC_MAX_FDS] at hmem
  exact ⟨by simp only [PROC_MAX_FDS]; omega, by simpa using hfree⟩

/-- What opening an end does. -/
structure Opens (s : Descriptors) (p : Ptr) (file : File) (fd f : Nat) (s' : Descriptors) : Prop where
  owned : s'.Owned
  live : s'.live = s.live
  pipes : s'.pipes = s.pipes
  fd_lt : fd < PROC_MAX_FDS
  before : s.fds p fd = none
  points : s'.fds p fd = some f
  file_eq : s'.file f = file
  holders : ∀ g, s'.holders g = if g = file then insert (p, fd) (s.holders g) else s.holders g

theorem open_end_opens (hs : s.Owned) (hp : p ∈ s.live) {i a : Nat} (hi : i < PIPE_TABLE_SIZE)
    (htype : file.type ≠ .none) (hid : file.pipe_id = i) (h : s.open_end p file a = some (fd, f, s')) :
    s.Opens p file fd f s' := by
  unfold open_end at h
  split at h
  · cases h
  · next fd' hfd =>
    split at h
    · cases h
    · next f' hf =>
      simp only [Option.some.injEq, Prod.mk.injEq] at h
      obtain ⟨rfl, rfl, rfl⟩ := h
      obtain ⟨hlt, hnone⟩ := alloc_fd_some hfd
      have hfresh : f' ∉ s.heap := by
        unfold kmalloc at hf
        split at hf
        · cases hf
        · next hno =>
          simp only [Option.some.injEq] at hf
          exact fun hmem => hno (.inr (hf ▸ hmem))
      generalize hnew : ({ s.set_fd p fd' (some f') with
        file := update s.file f' file
        heap := f' :: s.heap } : Descriptors) = new
      have hlive : new.live = s.live := by
        subst hnew
        rfl
      have hheap : new.heap = f' :: s.heap := by
        subst hnew
        rfl
      have hfds : ∀ q k, new.fds q k = if q = p ∧ k = fd' then some f' else s.fds q k := by
        subst hnew
        exact fun q k => fds_set_fd q k (some f')
      have hfile : ∀ g, new.file g = if g = f' then file else s.file g := by
        subst hnew
        intro g
        by_cases hg : g = f' <;> simp [hg]
      -- an old descriptor points to an old file
      have hold : ∀ q ∈ s.live, ∀ k < PROC_MAX_FDS, ∀ g, s.fds q k = some g → g ≠ f' :=
        fun q hq k hk g hg heq => hfresh (heq ▸ hs.used q hq k hk g hg)
      refine ⟨⟨?_, ?_, ?_⟩, hlive, by subst hnew; rfl, hlt, hnone, by simp [hfds], by simp [hfile], fun g => ?_⟩
      · intro q hq k hk g hg
        rw [hlive] at hq
        rw [hheap, List.mem_cons]
        rw [hfds] at hg
        split at hg
        · exact .inl (Option.some.inj hg).symm
        · exact .inr (hs.used q hq k hk g hg)
      · intro q hq k hk q' hq' k' hk' g hg hg'
        rw [hlive] at hq hq'
        rw [hfds] at hg hg'
        split at hg
        · next hnewslot =>
          split at hg'
          · next hnewslot' => exact ⟨hnewslot.1.trans hnewslot'.1.symm, hnewslot.2.trans hnewslot'.2.symm⟩
          · exact absurd (Option.some.inj hg).symm (hold q' hq' k' hk' g hg')
        · split at hg'
          · exact absurd (Option.some.inj hg').symm (hold q hq k hk g hg)
          · exact hs.once q hq k hk q' hq' k' hk' g hg hg'
      · intro q hq k hk g hg
        rw [hlive] at hq
        rw [hfds] at hg
        rw [hfile]
        split at hg
        · rw [if_pos (Option.some.inj hg).symm]
          exact ⟨htype, i, hi, hid⟩
        · rw [if_neg (hold q hq k hk g hg)]
          exact hs.pipe q hq k hk g hg
      · have hheld : ∀ q ∈ s.live, ∀ k < PROC_MAX_FDS,
            new.held q k = if q = p ∧ k = fd' then some file else s.held q k := by
          intro q hq k hk
          rw [held, hfds]
          split
          · simp [hfile]
          · rw [held]
            cases hg : s.fds q k with
            | none => rfl
            | some g => simp [hfile, hold q hq k hk g hg]
        have hnot : s.held p fd' = none := by simp [held, hnone]
        ext ⟨q, k⟩
        rw [mem_holders, hlive]
        split
        · next hgfile =>
          rw [Finset.mem_insert, mem_holders, Prod.mk.injEq]
          constructor
          · rintro ⟨⟨hq, hk⟩, hg⟩
            rw [hheld q hq k hk] at hg
            split at hg
            · next hslot => exact .inl hslot
            · exact .inr ⟨⟨hq, hk⟩, hg⟩
          · rintro (⟨rfl, rfl⟩ | ⟨⟨hq, hk⟩, hg⟩)
            · refine ⟨⟨hp, hlt⟩, ?_⟩
              rw [hheld _ hp _ hlt, if_pos ⟨rfl, rfl⟩, hgfile]
            · refine ⟨⟨hq, hk⟩, ?_⟩
              rw [hheld q hq k hk]
              split
              · rw [hgfile]
              · exact hg
        · next hgfile =>
          rw [mem_holders]
          refine and_congr_right fun ⟨hq, hk⟩ => ?_
          dsimp only at hq hk ⊢
          rw [hheld q hq k hk]
          split
          · next hslot =>
            rw [hslot.1, hslot.2, hnot]
            simp [Ne.symm hgfile]
          · exact Iff.rfl

/-- What closing a descriptor does. -/
theorem drop_fd_spec (hs : s.Owned) (hp : p ∈ s.live) (hfd : fd < PROC_MAX_FDS) (hf : s.fds p fd = some f) :
    (s.drop_fd p fd f).Owned ∧ ∀ g, (s.drop_fd p fd f).holders g = (s.holders g).erase (p, fd) := by
  have hfds : ∀ q k, (s.drop_fd p fd f).fds q k = if q = p ∧ k = fd then none else s.fds q k :=
    fun q k => fds_set_fd q k none
  -- what another descriptor points to is another file
  have hother : ∀ q ∈ s.live, ∀ k < PROC_MAX_FDS, ∀ g, (s.drop_fd p fd f).fds q k = some g →
      s.fds q k = some g ∧ g ≠ f := by
    intro q hq k hk g hg
    rw [hfds] at hg
    split at hg
    · cases hg
    · next hne => exact ⟨hg, fun heq => hne (hs.once q hq k hk p hp fd hfd g hg (heq ▸ hf))⟩
  refine ⟨⟨?_, ?_, ?_⟩, fun g => ?_⟩
  · intro q hq k hk g hg
    obtain ⟨hold, hne⟩ := hother q hq k hk g hg
    simpa [drop_fd, hne] using hs.used q hq k hk g hold
  · intro q hq k hk q' hq' k' hk' g hg hg'
    exact hs.once q hq k hk q' hq' k' hk' g (hother q hq k hk g hg).1 (hother q' hq' k' hk' g hg').1
  · intro q hq k hk g hg
    exact hs.pipe q hq k hk g (hother q hq k hk g hg).1
  · ext ⟨q, k⟩
    rw [Finset.mem_erase, mem_holders, mem_holders, held, hfds, ne_eq, Prod.mk.injEq]
    constructor
    · rintro ⟨hx, hg⟩
      split at hg
      · cases hg
      · next hne => exact ⟨hne, hx, hg⟩
    · rintro ⟨hne, hx, hg⟩
      refine ⟨hx, ?_⟩
      rw [if_neg hne]
      exact hg

theorem not_mem_holders (h : s.fds p fd = none) (g : File) : (p, fd) ∉ s.holders g := by
  rw [mem_holders, held, h]
  simp

end Descriptors

/-! ## Counts -/

/-- The counts of a pipe are those of `r` and `w` open ends; a free slot has no open ends. -/
def Pipe.Agrees (p : Pipe) (r w : Nat) : Prop :=
  if p.valid then p.readers = r ∧ p.writers = w else r = 0 ∧ w = 0

theorem Pipe.Agrees.close_read {p : Pipe} {r w : Nat} (h : p.Agrees (r + 1) w) : p.close_read.Agrees r w := by
  cases hvalid : p.valid with
  | false => simp [Agrees, hvalid] at h
  | true =>
    simp only [Agrees, hvalid, if_true] at h
    have hpos : p.readers > 0 := by omega
    rw [Pipe.close_read, if_pos ⟨hvalid, hpos⟩, release]
    dsimp only
    split
    · simp only [Agrees, Bool.false_eq_true, if_false]
      omega
    · simp only [Agrees, hvalid, if_true]
      omega

theorem Pipe.Agrees.close_write {p : Pipe} {r w : Nat} (h : p.Agrees r (w + 1)) : p.close_write.Agrees r w := by
  cases hvalid : p.valid with
  | false => simp [Agrees, hvalid] at h
  | true =>
    simp only [Agrees, hvalid, if_true] at h
    have hpos : p.writers > 0 := by omega
    rw [Pipe.close_write, if_pos ⟨hvalid, hpos⟩, release]
    dsimp only
    split
    · simp only [Agrees, Bool.false_eq_true, if_false]
      omega
    · simp only [Agrees, hvalid, if_true]
      omega

theorem fresh_agrees : Pipes.fresh.Agrees 1 1 := ⟨rfl, rfl⟩

namespace Descriptors

variable {s s' : Descriptors} {p : Ptr} {fd f : Nat} {file : File}

/-- Every pipe counts the descriptors that hold its ends. -/
structure Matched (s : Descriptors) : Prop where
  owned : s.Owned
  counts : ∀ i < PIPE_TABLE_SIZE, (s.pipes i).Agrees (s.readers i) (s.writers i)

/-- The same descriptors of live processes point to the same files. -/
theorem Matched.same_slots (hs : s.Matched) (hfile : s'.file = s.file) (hheap : s'.heap = s.heap)
    (hpipes : s'.pipes = s.pipes)
    (hslots : ∀ q, ∀ k < PROC_MAX_FDS, ∀ f, q ∈ s'.live ∧ s'.fds q k = some f ↔ q ∈ s.live ∧ s.fds q k = some f) :
    s'.Matched := by
  have hholders : ∀ g, s'.holders g = s.holders g := by
    intro g
    ext ⟨q, k⟩
    simp only [mem_holders, held, Option.map_eq_some_iff, hfile]
    constructor
    · rintro ⟨⟨hq, hk⟩, f, hf, hg⟩
      obtain ⟨hq', hf'⟩ := (hslots q k hk f).mp ⟨hq, hf⟩
      exact ⟨⟨hq', hk⟩, f, hf', hg⟩
    · rintro ⟨⟨hq, hk⟩, f, hf, hg⟩
      obtain ⟨hq', hf'⟩ := (hslots q k hk f).mpr ⟨hq, hf⟩
      exact ⟨⟨hq', hk⟩, f, hf', hg⟩
  refine ⟨⟨?_, ?_, ?_⟩, fun i hi => ?_⟩
  · intro q hq k hk g hg
    obtain ⟨hq', hg'⟩ := (hslots q k hk g).mp ⟨hq, hg⟩
    rw [hheap]
    exact hs.owned.used q hq' k hk g hg'
  · intro q hq k hk r hr l hl g hg hg'
    obtain ⟨hq', hold⟩ := (hslots q k hk g).mp ⟨hq, hg⟩
    obtain ⟨hr', hold'⟩ := (hslots r l hl g).mp ⟨hr, hg'⟩
    exact hs.owned.once q hq' k hk r hr' l hl g hold hold'
  · intro q hq k hk g hg
    obtain ⟨hq', hg'⟩ := (hslots q k hk g).mp ⟨hq, hg⟩
    rw [hfile]
    exact hs.owned.pipe q hq' k hk g hg'
  · rw [hpipes, readers, writers, hholders, hholders]
    exact hs.counts i hi

theorem Owned.none_of_holdsNoPipe (hs : s.Owned) (hp : p ∈ s.live) (h : s.HoldsNoPipe p) {k : Nat}
    (hk : k < PROC_MAX_FDS) : s.fds p k = none := by
  cases hf : s.fds p k with
  | none => rfl
  | some f => exact absurd (h k hk (s.file f) (by rw [held, hf]; rfl)) (hs.pipe p hp k hk f hf).1

theorem Matched.insert (hs : s.Matched) {child : Ptr} (hchild : child ∉ s.live) {table : Nat → Option Nat}
    (hempty : ∀ k < PROC_MAX_FDS, table k = none) :
    Matched { s with live := insert child s.live, fds := update s.fds child table } := by
  refine hs.same_slots rfl rfl rfl fun q k hk f => ?_
  dsimp only
  by_cases hq : q = child
  · subst hq
    simp [hempty k hk, hchild]
  · simp [hq]

theorem Matched.die (hs : s.Matched) (hp : p ∈ s.live → s.HoldsNoPipe p) : (s.die p).Matched := by
  refine hs.same_slots rfl rfl rfl fun q k hk f => ?_
  simp only [Descriptors.die]
  by_cases hq : q = p
  · subst hq
    simp only [Finset.mem_erase, ne_eq, not_true_eq_false, false_and, update_self, reduceCtorEq, and_false,
      false_iff, not_and]
    intro hlive
    rw [hs.owned.none_of_holdsNoPipe hlive (hp hlive) hk]
    simp
  · simp [hq]

theorem Matched.fork (hs : s.Matched) {child : Ptr} (hp : p ∈ s.live → child ∉ s.live → s.HoldsNoPipe p) :
    (s.fork p child).Matched := by
  unfold Descriptors.fork
  split
  · exact hs
  · next hgo =>
    rw [not_or, not_not] at hgo
    exact hs.insert hgo.2 fun k hk => hs.owned.none_of_holdsNoPipe hgo.1 (hp hgo.1 hgo.2) hk

theorem Matched.change (hs : s.Matched) (howned : s'.Owned) (i : Nat)
    (hsame : ∀ j, j ≠ i → s'.pipes j = s.pipes j ∧ s'.readers j = s.readers j ∧ s'.writers j = s.writers j)
    (hi : (s'.pipes i).Agrees (s'.readers i) (s'.writers i)) : s'.Matched := by
  refine ⟨howned, fun j hj => ?_⟩
  by_cases hji : j = i
  · rwa [hji]
  · obtain ⟨hpipe, hreaders, hwriters⟩ := hsame j hji
    rw [hpipe, hreaders, hwriters]
    exact hs.counts j hj

theorem slot_cast {i : Nat} (hi : i < PIPE_TABLE_SIZE) : Pipes.slot (i : Int) = some i := by
  rw [Pipes.slot, if_neg (by omega), Int.toNat_natCast]

theorem Matched.close (hs : s.Matched) (p : Ptr) (fd : Nat) : (s.sys_close p fd).2.Matched := by
  unfold sys_close
  split
  · exact hs
  · next hgo =>
    simp only [not_or, not_not, not_lt, ge_iff_le, not_le] at hgo
    obtain ⟨hp, -, hfd⟩ := hgo
    split
    · exact hs
    · next f hf =>
      obtain ⟨howned, hholders⟩ := drop_fd_spec hs.owned hp hfd hf
      obtain ⟨htype, i, hi, hid⟩ := hs.owned.pipe p hp fd hfd f hf
      have hheld : s.held p fd = some (s.file f) := by rw [held, hf]; rfl
      -- only the holders of this end lose one
      have hkeep : ∀ g, g ≠ s.file f → (s.drop_fd p fd f).holders g = s.holders g := by
        intro g hg
        rw [hholders]
        refine Finset.erase_eq_of_notMem fun hmem => hg ?_
        rw [mem_holders, hheld, Option.some.injEq] at hmem
        exact hmem.2.symm
      have hlose : ((s.drop_fd p fd f).holders (s.file f)).card + 1 = (s.holders (s.file f)).card := by
        rw [hholders]
        exact Finset.card_erase_add_one (mem_holders.mpr ⟨⟨hp, hfd⟩, hheld⟩)
      have hcounts := hs.counts i hi
      generalize hfile : s.file f = g at *
      obtain ⟨type, pipe_id⟩ := g
      dsimp only at hid htype
      subst hid
      cases type with
      | none => exact absurd rfl htype
      | pipe_read =>
        refine hs.change ⟨howned.used, howned.once, howned.pipe⟩ i (fun j hj => ?_) ?_
        · refine ⟨?_, congrArg Finset.card (hkeep _ ?_), congrArg Finset.card (hkeep _ (by simp))⟩
          · simp [close_file, Pipes.pipe_close_read, slot_cast hi, hj]
          · simp only [ne_eq, File.mk.injEq, true_and]
            omega
        · have hreaders : s.readers i = ((s.drop_fd p fd f).holders ⟨.pipe_read, i⟩).card + 1 := hlose.symm
          have hwriters : (s.drop_fd p fd f).holders ⟨.pipe_write, i⟩ = s.holders ⟨.pipe_write, i⟩ := hkeep _ (by simp)
          rw [hreaders] at hcounts
          have hclosed := hcounts.close_read
          simp only [close_file, Pipes.pipe_close_read, slot_cast hi, update_self]
          rw [writers, ← hwriters] at hclosed
          exact hclosed
      | pipe_write =>
        refine hs.change ⟨howned.used, howned.once, howned.pipe⟩ i (fun j hj => ?_) ?_
        · refine ⟨?_, congrArg Finset.card (hkeep _ (by simp)), congrArg Finset.card (hkeep _ ?_)⟩
          · simp [close_file, Pipes.pipe_close_write, slot_cast hi, hj]
          · simp only [ne_eq, File.mk.injEq, true_and]
            omega
        · have hwriters : s.writers i = ((s.drop_fd p fd f).holders ⟨.pipe_write, i⟩).card + 1 := hlose.symm
          have hreaders : (s.drop_fd p fd f).holders ⟨.pipe_read, i⟩ = s.holders ⟨.pipe_read, i⟩ := hkeep _ (by simp)
          rw [hwriters] at hcounts
          have hclosed := hcounts.close_write
          simp only [close_file, Pipes.pipe_close_write, slot_cast hi, update_self]
          rw [readers, ← hreaders] at hclosed
          exact hclosed

theorem Matched.abandon (hs : s.Matched) (howned : s'.Owned) {i : Nat} (hi : i < PIPE_TABLE_SIZE)
    (hfree : (s.pipes i).valid = false) (hpipes : s'.pipes = update s.pipes i Pipes.fresh)
    (hholders : ∀ g, s'.holders g = s.holders g) : (s'.abandon i).Matched := by
  have hcounts := hs.counts i hi
  simp only [Pipe.Agrees, hfree, Bool.false_eq_true, if_false] at hcounts
  have habandon : (s'.abandon i).pipes = update s.pipes i Pipes.fresh.close_read.close_write := by
    simp only [Descriptors.abandon, Pipes.pipe_close_read, Pipes.pipe_close_write, slot_cast hi, hpipes,
      update_self, update_idem]
  have hreaders : ∀ j, (s'.abandon i).readers j = s.readers j := fun j => congrArg Finset.card (hholders _)
  have hwriters : ∀ j, (s'.abandon i).writers j = s.writers j := fun j => congrArg Finset.card (hholders _)
  refine hs.change ⟨howned.used, howned.once, howned.pipe⟩ i (fun j hj => ?_) ?_
  · rw [habandon, update_of_ne hj]
    exact ⟨rfl, hreaders j, hwriters j⟩
  · rw [habandon, update_self, hreaders, hwriters, hcounts.1, hcounts.2]
    exact fresh_agrees.close_read.close_write

theorem Matched.pipe (hs : s.Matched) (p : Ptr) (pipefd_ptr rblock wblock : Nat) :
    (s.sys_pipe p pipefd_ptr rblock wblock).2.Matched := by
  unfold sys_pipe
  split
  · exact hs
  · next hgo =>
    rw [not_or, not_not] at hgo
    obtain ⟨hp, -⟩ := hgo
    rcases s.pipes.pipe_alloc_cases with ⟨i, hi, hfree, halloc⟩ | hfull
    · simp only [halloc]
      rw [if_neg (by omega)]
      have howned : Owned { s with pipes := update s.pipes i Pipes.fresh } :=
        ⟨hs.owned.used, hs.owned.once, hs.owned.pipe⟩
      split
      · exact hs.abandon howned hi hfree rfl fun _ => rfl
      · next rfd rf s₁ hread =>
        have hopen := open_end_opens howned hp hi (by simp) rfl hread
        split
        · -- the read end is closed again
          obtain ⟨howned', hdrop⟩ := drop_fd_spec hopen.owned (hopen.live ▸ hp) hopen.fd_lt hopen.points
          refine hs.abandon howned' hi hfree hopen.pipes fun g => ?_
          rw [hdrop, hopen.holders]
          have hnot : (p, rfd) ∉ s.holders g := not_mem_holders hopen.before g
          split
          · exact Finset.erase_insert hnot
          · exact Finset.erase_eq_of_notMem hnot
        · next wfd wf s₂ hwrite =>
          have hopen' := open_end_opens hopen.owned (hopen.live ▸ hp) hi (by simp) rfl hwrite
          have hcounts := hs.counts i hi
          simp only [Pipe.Agrees, hfree, Bool.false_eq_true, if_false] at hcounts
          have hpipes : s₂.pipes = update s.pipes i Pipes.fresh := hopen'.pipes.trans hopen.pipes
          have hholders : ∀ g, g ≠ ⟨.pipe_read, i⟩ → g ≠ ⟨.pipe_write, i⟩ → s₂.holders g = s.holders g := by
            intro g hgread hgwrite
            rw [hopen'.holders, if_neg hgwrite, hopen.holders, if_neg hgread]
            rfl
          refine hs.change hopen'.owned i (fun j hj => ?_) ?_
          · have hne : (j : Int) ≠ i := by omega
            refine ⟨by rw [hpipes, update_of_ne hj], congrArg Finset.card (hholders _ ?_ ?_),
              congrArg Finset.card (hholders _ ?_ ?_)⟩ <;> simp [hne]
          · have hreaders : s₂.readers i = 1 := by
              rw [readers, hopen'.holders, if_neg (by simp), hopen.holders, if_pos rfl,
                Finset.card_insert_of_notMem (not_mem_holders hopen.before _)]
              exact congrArg (· + 1) hcounts.1
            have hwriters : s₂.writers i = 1 := by
              rw [writers, hopen'.holders, if_pos rfl, Finset.card_insert_of_notMem (not_mem_holders hopen'.before _),
                hopen.holders, if_neg (by simp)]
              exact congrArg (· + 1) hcounts.2
            rw [hpipes, update_self, hreaders, hwriters]
            exact fresh_agrees
    · simp only [hfull]
      rw [if_pos (by decide)]
      exact hs

theorem Matched.step (hs : s.Matched) (call : Call) (hcareful : s.Careful call) : (s.step call).Matched := by
  cases call with
  | create child =>
    simp only [Descriptors.step, Descriptors.create]
    split
    · exact hs
    · next hchild => exact hs.insert hchild fun _ _ => rfl
  | pipe p pipefd_ptr rblock wblock => exact hs.pipe p pipefd_ptr rblock wblock
  | close p fd => exact hs.close p fd
  | fork p child => exact hs.fork hcareful
  | exit p => exact hs.die hcareful
  | terminate p => exact hs.die hcareful

theorem init_matched : init.Matched := by
  refine ⟨⟨?_, ?_, ?_⟩, fun i _ => ⟨rfl, rfl⟩⟩
  all_goals
    intro q hq
    simp [init] at hq

/-- The counts of the pipes are those of the descriptors, and everything follows that the counts decide. -/
structure EndsMatch (s : Descriptors) : Prop where
  counts : ∀ i < PIPE_TABLE_SIZE, (s.pipes i).valid = true →
    (s.pipes i).readers = s.readers i ∧ (s.pipes i).writers = s.writers i
  eof : ∀ i < PIPE_TABLE_SIZE, (s.pipes i).valid = true → (s.pipes i).count = 0 →
    ∀ len, (s.pipes.pipe_read i len).1 = 0 ↔ s.holders ⟨.pipe_write, i⟩ = ∅
  broken : ∀ i < PIPE_TABLE_SIZE, (s.pipes i).valid = true →
    ∀ src len, (s.pipes.pipe_write i src len).1 = -1 ↔ s.holders ⟨.pipe_read, i⟩ = ∅
  reuse : ∀ i : Nat, s.pipes.pipe_alloc.1 = i → s.holders ⟨.pipe_read, i⟩ = ∅ ∧ s.holders ⟨.pipe_write, i⟩ = ∅

theorem Matched.endsMatch (hs : s.Matched) : s.EndsMatch := by
  have hcounts : ∀ i < PIPE_TABLE_SIZE, (s.pipes i).valid = true →
      (s.pipes i).readers = s.readers i ∧ (s.pipes i).writers = s.writers i := by
    intro i hi hvalid
    have hagrees := hs.counts i hi
    rwa [Pipe.Agrees, if_pos hvalid] at hagrees
  refine ⟨hcounts, fun i hi hvalid hzero len => ?_, fun i hi hvalid src len => ?_, fun i halloc => ?_⟩
  · rw [Pipes.pipe_read, slot_cast hi]
    simp only [hvalid, Bool.not_true, Bool.false_eq_true, if_false, hzero, if_true]
    have hwriters := (hcounts i hi hvalid).2
    rw [← Finset.card_eq_zero, ← writers]
    split <;> omega
  · rw [Pipes.pipe_write, slot_cast hi]
    have hreaders := (hcounts i hi hvalid).1
    rw [← Finset.card_eq_zero, ← readers]
    simp only [hvalid, Bool.not_true, Bool.false_eq_true, false_or]
    split
    · simp only [true_iff]
      omega
    · dsimp only
      omega
  · rcases s.pipes.pipe_alloc_cases with ⟨j, hj, hfree, heq⟩ | hfull
    · rw [heq] at halloc
      have hji : j = i := Int.ofNat_inj.mp halloc
      subst hji
      have hagrees := hs.counts j hj
      simp only [Pipe.Agrees, hfree, Bool.false_eq_true, if_false] at hagrees
      exact ⟨Finset.card_eq_zero.mp hagrees.1, Finset.card_eq_zero.mp hagrees.2⟩
    · rw [hfull] at halloc
      dsimp only at halloc
      omega

end Descriptors

/-- In every run in which no process forks or dies that holds an end of a pipe, the counts of the pipes
are those of the open descriptors. -/
theorem pipe_counts_match_descriptors (calls : List Descriptors.Call)
    (hcareful : Along Descriptors.step Descriptors.Careful .init calls) :
    (run Descriptors.step .init calls).EndsMatch :=
  (hcareful.invariant (fun _ call hs hcall => Descriptors.Matched.step hs call hcall)
    Descriptors.init_matched).endsMatch

/-- A process opens a pipe, closes both of its ends, forks and exits. -/
def tidy_run : List Descriptors.Call :=
  [.create 1, .pipe 1 8 1 2, .close 1 3, .close 1 4, .fork 1 2, .exit 1]

theorem tidy_run_counts : Along Descriptors.step Descriptors.Careful .init tidy_run ∧
    (run Descriptors.step .init tidy_run).EndsMatch := by
  have hclosed : ∀ fd < PROC_MAX_FDS, (run Descriptors.step .init (tidy_run.take 4)).held 1 fd = none ∧
      (run Descriptors.step .init (tidy_run.take 5)).held 1 fd = none := by decide
  have hcareful : Along Descriptors.step Descriptors.Careful .init tidy_run := by
    refine ⟨trivial, trivial, trivial, trivial, fun _ _ fd hfd file hfile => ?_, fun _ fd hfd file hfile => ?_, trivial⟩
    · cases (hclosed fd hfd).1.symm.trans hfile
    · cases (hclosed fd hfd).2.symm.trans hfile
  exact ⟨hcareful, pipe_counts_match_descriptors tidy_run hcareful⟩

/-- A fork leaves the counts of a pipe behind its descriptors. -/
theorem fork_miscounts_pipe : ¬ ∀ calls, (run Descriptors.step .init calls).EndsMatch := by
  intro h
  have hcounts := (h [.create 1, .pipe 1 8 1 2, .fork 1 2]).counts 0 (by decide) (by decide)
  exact absurd hcounts (by decide)

end graceos.proc
