import GraceOS.Mm.Session
import Mathlib.Data.List.Basic

/-!
# The physical memory manager

A bitmap with a bit for every frame. When no bit is clear, `pmm_alloc_page` falls back on the kernel
heap.
-/

namespace graceos.mm

open machine

/-- The static state of `pmm.c` and `bitmap.c`. -/
structure Pmm where
  bitmap : Nat → BitVec 8
  frames : Nat
  max_frames : Nat
  used_frames : Nat
  ready : Bool
  kernel_reserved_end : Nat

namespace Pmm

variable (p : Pmm)

def bitmap_init (frame_count : Nat) : Pmm :=
  { p with frames := frame_count
           bitmap := fun i => if i < (frame_count + 7) / 8 then 0xFF else p.bitmap i }

def bitmap_set (frame : Nat) : Pmm :=
  if frame ≥ p.frames then p
  else { p with bitmap := Function.update p.bitmap (frame / 8)
                  (p.bitmap (frame / 8) ||| (1#8 <<< (frame % 8))) }

def bitmap_clear (frame : Nat) : Pmm :=
  if frame ≥ p.frames then p
  else { p with bitmap := Function.update p.bitmap (frame / 8)
                  (p.bitmap (frame / 8) &&& ~~~(1#8 <<< (frame % 8))) }

def bitmap_test (frame : Nat) : Bool :=
  if frame ≥ p.frames then true else (p.bitmap (frame / 8) &&& (1#8 <<< (frame % 8))) != 0

/-- `used_frames++` and `used_frames--`. -/
def count_up : Pmm := { p with used_frames := (p.used_frames + 1) % 2 ^ 64 }
def count_down : Pmm :=
  { p with used_frames := if p.used_frames = 0 then 2 ^ 64 - 1 else p.used_frames - 1 }

/-- The body of the loops that mark frames as used, and as free. -/
def mark_used (frame : Nat) : Pmm :=
  if p.bitmap_test frame then p else (p.bitmap_set frame).count_up
def mark_free (frame : Nat) : Pmm :=
  if p.bitmap_test frame then (p.bitmap_clear frame).count_down else p

/-- The number of frames `pmm_init` manages, for the size of memory multiboot reports. -/
def frame_count (total_memory : Nat) : Nat :=
  let max_addr := if total_memory = 0 then 0x8000000 else total_memory
  (if max_addr > 0x1000000000 then 0x1000000000 else max_addr) / PAGE_SIZE

/-- The end of the bitmap, which lies behind the kernel's image. -/
def kernel_end (kernel_end_symbol max_frames : Nat) : Nat :=
  align_up kernel_end_symbol 16 + (max_frames + 7) / 8

/-- The bitmap of `pmm_init` before its loops: every frame is used. -/
def lay_out (max_frames kernel_end_frame : Nat) : Pmm :=
  let p₁ := { p with max_frames := max_frames, used_frames := max_frames }
  { p₁.bitmap_init max_frames with kernel_reserved_end := kernel_end_frame * PAGE_SIZE }

/-- `pmm_init`, given the address of the multiboot information, the size of memory it reports and
the address of the linker's symbol `end`. -/
def pmm_init (mb_addr total_memory kernel_end_symbol : Nat) : Pmm :=
  if mb_addr = 0 ∨ mb_addr < 0x1000 then p
  else
    let max_frames := frame_count total_memory
    let kernel_end_frame := (kernel_end kernel_end_symbol max_frames + PAGE_SIZE - 1) / PAGE_SIZE
    let p₁ := p.lay_out max_frames kernel_end_frame
    let p₂ := (List.range' kernel_end_frame (max_frames - kernel_end_frame)).foldl mark_free p₁
    let p₃ := (List.range kernel_end_frame).foldl mark_used p₂
    { p₃ with ready := true }

def pmm_total : Nat := p.max_frames * PAGE_SIZE

def pmm_reserve_range (phys_start size : Nat) : Pmm :=
  if !p.ready ∨ size = 0 then p
  else
    let first := phys_start / PAGE_SIZE
    let last := (phys_start + size + PAGE_SIZE - 1) % 2 ^ 64 / PAGE_SIZE
    (List.range' first (last - first)).foldl mark_used p

/-- The first clear bit below `limit`. -/
def free_frame (limit : Nat) : Option Nat := (List.range limit).find? fun i => !p.bitmap_test i

def pmm_free_page (phys_addr : Nat) : Pmm :=
  if !p.ready then p
  else if phys_addr / PAGE_SIZE ≥ p.max_frames then p
  else if !p.bitmap_test (phys_addr / PAGE_SIZE) then p
  else (p.bitmap_clear (phys_addr / PAGE_SIZE)).count_down

end Pmm

/-- `simple_fallback_alloc`. The heap's block list always ends, so `kmalloc` always answers. -/
def Kheap.simple_fallback_alloc (h : Kheap) : Nat × Kheap := (h.kmalloc PAGE_SIZE).getD (0, h)

/-- Both allocators of physical memory. -/
structure Phys where
  pmm : Pmm
  heap : Kheap

namespace Phys

variable (s : Phys)

/-- The fallback taken by the two allocating functions. -/
def fallback : Nat × Phys :=
  (s.heap.simple_fallback_alloc.1, { s with heap := s.heap.simple_fallback_alloc.2 })

def pmm_alloc_page : Nat × Phys :=
  if !s.pmm.ready then s.fallback
  else
    match s.pmm.free_frame s.pmm.max_frames with
    | some i => (i * PAGE_SIZE, { s with pmm := (s.pmm.bitmap_set i).count_up })
    | none => s.fallback

def pmm_alloc_page_low : Nat × Phys :=
  if !s.pmm.ready then s.fallback
  else
    match s.pmm.free_frame (min (0x1000000 / PAGE_SIZE) s.pmm.max_frames) with
    | some i => (i * PAGE_SIZE, { s with pmm := (s.pmm.bitmap_set i).count_up })
    | none => (0, s)

def pmm_free_page (phys_addr : Nat) : Phys := { s with pmm := s.pmm.pmm_free_page phys_addr }

/-- `kheap_init`, which keeps the manager from handing out the pages of the heap. -/
def kheap_init : Phys :=
  let heap := s.heap.kheap_init s.pmm.kernel_reserved_end s.pmm.pmm_total
  let total_size := (heap.heap_limit + 2 ^ 64 - heap.heap_base) % 2 ^ 64
  { heap := heap
    pmm := if total_size < HEADER_SIZE + FOOTER_SIZE then s.pmm
      else s.pmm.pmm_reserve_range heap.heap_base total_size }

/-- The state before any initialisation, with any contents of memory. -/
def off (mem : Mem) (bitmap : Nat → BitVec 8) : Phys :=
  ⟨⟨bitmap, 0, 0, 0, false, 0⟩, ⟨mem, 0, 0, 0⟩⟩

/-- The state after `pmm_init` and `kheap_init`. -/
def boot (mem : Mem) (bitmap : Nat → BitVec 8) (mb_addr total_memory kernel_end_symbol : Nat) : Phys :=
  let s := off mem bitmap
  { s with pmm := s.pmm.pmm_init mb_addr total_memory kernel_end_symbol }.kheap_init

end Phys

/-! ## The bitmap -/

namespace Pmm

variable {p : Pmm}

theorem bit_test (x : BitVec 8) {i : Nat} (hi : i < 8) :
    ((x &&& (1#8 <<< i)) != 0) = x.getLsbD i := by
  rw [← BitVec.twoPow_eq, BitVec.and_twoPow]
  cases x.getLsbD i
  · rfl
  · have hne : BitVec.twoPow 8 i ≠ 0#8 := fun h => by
      have := congrArg (BitVec.getLsbD · i) h
      simp [hi] at this
    simpa using hne

theorem bitmap_test_eq (frame : Nat) (h : frame < p.frames) :
    p.bitmap_test frame = (p.bitmap (frame / 8)).getLsbD (frame % 8) := by
  rw [bitmap_test, if_neg (by omega), bit_test _ (by omega)]

@[simp] theorem frames_bitmap_set (frame : Nat) : (p.bitmap_set frame).frames = p.frames := by
  unfold bitmap_set
  split <;> rfl

@[simp] theorem frames_bitmap_clear (frame : Nat) : (p.bitmap_clear frame).frames = p.frames := by
  unfold bitmap_clear
  split <;> rfl

theorem bitmap_test_set (i frame : Nat) :
    (p.bitmap_set i).bitmap_test frame = (decide (frame = i) || p.bitmap_test frame) := by
  by_cases hframe : frame < p.frames
  · rw [bitmap_test_eq frame (by simpa using hframe), bitmap_test_eq frame hframe, bitmap_set]
    split
    · rw [decide_eq_false (by omega), Bool.false_or]
    · simp only [Function.update_apply]
      by_cases hbyte : frame / 8 = i / 8
      · have hbit : (i % 8 = frame % 8) ↔ frame = i := by omega
        rw [if_pos hbyte, BitVec.getLsbD_or, ← BitVec.twoPow_eq, BitVec.getLsbD_twoPow, hbyte,
          Bool.or_comm, decide_eq_true (show i % 8 < 8 by omega), Bool.true_and]
        simp only [hbit]
      · rw [if_neg hbyte, decide_eq_false (by rintro rfl; exact hbyte rfl), Bool.false_or]
  · simp only [bitmap_test, frames_bitmap_set]
    rw [if_pos (by omega), if_pos (by omega), Bool.or_true]

theorem bitmap_test_clear {i : Nat} (hi : i < p.frames) (frame : Nat) :
    (p.bitmap_clear i).bitmap_test frame = (!decide (frame = i) && p.bitmap_test frame) := by
  by_cases hframe : frame < p.frames
  · rw [bitmap_test_eq frame (by simpa using hframe), bitmap_test_eq frame hframe, bitmap_clear,
      if_neg (by omega)]
    simp only [Function.update_apply]
    by_cases hbyte : frame / 8 = i / 8
    · have hbit : (i % 8 = frame % 8) ↔ frame = i := by omega
      rw [if_pos hbyte, BitVec.getLsbD_and, ← BitVec.twoPow_eq, BitVec.getLsbD_not,
        BitVec.getLsbD_twoPow, hbyte, Bool.and_comm, decide_eq_true (show i % 8 < 8 by omega),
        decide_eq_true (show frame % 8 < 8 by omega), Bool.true_and, Bool.true_and]
      simp only [hbit]
    · rw [if_neg hbyte, decide_eq_false (by rintro rfl; exact hbyte rfl), Bool.not_false, Bool.true_and]
  · simp only [bitmap_test, frames_bitmap_clear]
    rw [if_pos (by omega), if_pos (by omega), decide_eq_false (by omega)]
    rfl

/-- What the loops of `pmm.c` leave as it is. -/
def Same (p q : Pmm) : Prop :=
  q.frames = p.frames ∧ q.max_frames = p.max_frames ∧ q.ready = p.ready ∧
    q.kernel_reserved_end = p.kernel_reserved_end

theorem Same.refl (p : Pmm) : Same p p := ⟨rfl, rfl, rfl, rfl⟩

theorem Same.trans {p q r : Pmm} (h : Same p q) (h' : Same q r) : Same p r :=
  ⟨h'.1.trans h.1, h'.2.1.trans h.2.1, h'.2.2.1.trans h.2.2.1, h'.2.2.2.trans h.2.2.2⟩

theorem same_count_up : Same p p.count_up := ⟨rfl, rfl, rfl, rfl⟩

theorem same_count_down : Same p p.count_down := ⟨rfl, rfl, rfl, rfl⟩

theorem same_bitmap_set (i : Nat) : Same p (p.bitmap_set i) := by
  unfold bitmap_set
  split <;> exact ⟨rfl, rfl, rfl, rfl⟩

theorem same_bitmap_clear (i : Nat) : Same p (p.bitmap_clear i) := by
  unfold bitmap_clear
  split <;> exact ⟨rfl, rfl, rfl, rfl⟩

theorem same_mark_used (i : Nat) : Same p (p.mark_used i) := by
  unfold mark_used
  split
  · exact Same.refl p
  · exact (same_bitmap_set i).trans same_count_up

theorem same_mark_free (i : Nat) : Same p (p.mark_free i) := by
  unfold mark_free
  split
  · exact (same_bitmap_clear i).trans same_count_down
  · exact Same.refl p

theorem same_foldl {f : Pmm → Nat → Pmm} (hf : ∀ p i, Same p (f p i)) (l : List Nat) :
    Same p (l.foldl f p) := by
  induction l generalizing p with
  | nil => exact Same.refl p
  | cons i l ih => exact (hf p i).trans ih

theorem bitmap_test_mark_used (i frame : Nat) :
    (p.mark_used i).bitmap_test frame = (decide (frame = i) || p.bitmap_test frame) := by
  unfold mark_used
  split
  · next hset =>
    by_cases hframe : frame = i
    · rw [hframe, hset, Bool.or_true]
    · rw [decide_eq_false hframe, Bool.false_or]
  · exact bitmap_test_set i frame

theorem bitmap_test_foldl_mark_used (l : List Nat) (frame : Nat) :
    (l.foldl mark_used p).bitmap_test frame = (decide (frame ∈ l) || p.bitmap_test frame) := by
  induction l generalizing p with
  | nil => simp
  | cons i l ih =>
    rw [List.foldl_cons, ih, bitmap_test_mark_used]
    simp only [List.mem_cons, Bool.decide_or]
    cases decide (frame = i) <;> cases decide (frame ∈ l) <;> rfl

theorem free_frame_some {limit i : Nat} (h : p.free_frame limit = some i) :
    i < limit ∧ p.bitmap_test i = false := by
  have hmem := List.mem_of_find?_eq_some h
  have htest := List.find?_some h
  exact ⟨List.mem_range.mp hmem, by simpa using htest⟩

/-- The frames that `pmm_free_page` accepts. -/
def Manages (p : Pmm) (frame : Nat) : Prop := p.ready = true ∧ frame < p.max_frames ∧ frame < p.frames

theorem same_pmm_free_page (a : Nat) : Same p (p.pmm_free_page a) := by
  unfold pmm_free_page
  split_ifs
  · exact Same.refl p
  · exact Same.refl p
  · exact Same.refl p
  · exact (same_bitmap_clear _).trans same_count_down

theorem Same.manages {p q : Pmm} (h : Same p q) {frame : Nat} : q.Manages frame ↔ p.Manages frame := by
  rw [Manages, Manages, h.1, h.2.1, h.2.2.1]

theorem pmm_free_page_frees {a : Nat} (hm : p.Manages (a / PAGE_SIZE)) :
    (p.pmm_free_page a).bitmap_test (a / PAGE_SIZE) = false := by
  obtain ⟨hready, hmax, hframes⟩ := hm
  rw [pmm_free_page, if_neg (by simp [hready]), if_neg (by omega)]
  split
  · next htest => simpa using htest
  · have hclear := bitmap_test_clear (p := p) hframes (a / PAGE_SIZE)
    rw [decide_eq_true rfl] at hclear
    exact hclear

theorem pmm_free_page_free (a : Nat) {frame : Nat} (hfree : p.bitmap_test frame = false) :
    (p.pmm_free_page a).bitmap_test frame = false := by
  unfold pmm_free_page
  split_ifs
  · exact hfree
  · exact hfree
  · exact hfree
  · by_cases hframes : a / PAGE_SIZE < p.frames
    · have hclear := bitmap_test_clear (p := p) hframes frame
      rw [hfree, Bool.and_false] at hclear
      exact hclear
    · rw [bitmap_clear, if_pos (by omega)]
      exact hfree

end Pmm

end graceos.mm
