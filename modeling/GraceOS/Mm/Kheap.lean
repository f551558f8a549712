import GraceOS.Lib.Word

/-!
# The kernel heap

`kmalloc` and `kfree` over a byte memory. The heap region is cut into blocks: a header, the payload
and a footer that repeats the block's size. The headers form a doubly linked list.
-/

namespace graceos.mm

open word

/-- Physical memory, a byte at every address. -/
abbrev Mem := Nat → UInt8

def PAGE_SIZE : Nat := 4096

def KHEAP_MAGIC : Nat := 0xDEADBEEF
def KHEAP_MAX_ALLOC : Nat := 64 * 1024
def KHEAP_ALIGN : Nat := 8
def KHEAP_START : Nat := 0x400000
def KHEAP_INITIAL_SIZE : Nat := 0x2000000

/-- The sizes of `struct heap_block` and `struct heap_footer`. -/
def HEADER_SIZE : Nat := 32
def FOOTER_SIZE : Nat := 16

/-- `ALIGN_UP` and `ALIGN_DOWN` on 64-bit words, for an alignment that is a power of two. -/
def align_up (x a : Nat) : Nat := (x + a - 1) % 2 ^ 64 / a * a
def align_down (x a : Nat) : Nat := x / a * a

namespace Mem

variable (m : Mem)

/-! The fields of `struct heap_block` and `struct heap_footer`. -/

def magic (b : Nat) : Nat := load m b 4
def free (b : Nat) : Nat := load m (b + 4) 4
def size (b : Nat) : Nat := load m (b + 8) 8
def next (b : Nat) : Nat := load m (b + 16) 8
def prev (b : Nat) : Nat := load m (b + 24) 8
def footer_size (f : Nat) : Nat := load m f 8
def footer_magic (f : Nat) : Nat := load m (f + 8) 4

def set_magic (b v : Nat) : Mem := store m b 4 v
def set_free (b v : Nat) : Mem := store m (b + 4) 4 v
def set_size (b v : Nat) : Mem := store m (b + 8) 8 v
def set_next (b v : Nat) : Mem := store m (b + 16) 8 v
def set_prev (b v : Nat) : Mem := store m (b + 24) 8 v
def set_footer (f v : Nat) : Mem := store (store m f 8 v) (f + 8) 4 KHEAP_MAGIC

def get_footer (b : Nat) : Nat := (b + m.size b + (2 ^ 64 - FOOTER_SIZE)) % 2 ^ 64

def block_valid (b : Nat) : Bool :=
  b != 0 && m.magic b == KHEAP_MAGIC && m.footer_magic (m.get_footer b) == KHEAP_MAGIC &&
    m.footer_size (m.get_footer b) == m.size b

/-- The writes of `kmalloc` that cut the block `b` after `needed` bytes. -/
def split (b needed remaining : Nat) : Mem :=
  let new_block := b + needed
  let m₁ := (((((m.set_magic new_block KHEAP_MAGIC).set_free new_block 1).set_size new_block
    remaining).set_next new_block (m.next b)).set_prev new_block b)
  let m₂ := m₁.set_footer (m₁.get_footer new_block) remaining
  let m₃ := (m₂.set_size b needed).set_next b new_block
  let m₄ := m₃.set_footer (m₃.get_footer b) needed
  if m₄.next new_block ≠ 0 then m₄.set_prev (m₄.next new_block) new_block else m₄

/-- The writes of `kfree` that let the block `b` take over the block `c` behind it. -/
def absorb (b c : Nat) : Mem :=
  let m₁ := (m.set_size b ((m.size b + m.size c) % 2 ^ 64)).set_next b (m.next c)
  let m₂ := if m₁.next b ≠ 0 then m₁.set_prev (m₁.next b) b else m₁
  m₂.set_footer (m₂.get_footer b) (m₂.size b)

/-- The first-fit search of `kmalloc` from the block `b` on: the address to return and the memory
after it, or nothing when the list is longer than `fuel`. -/
def kmalloc_from (m : Mem) (needed : Nat) : (fuel b : Nat) → Option (Nat × Mem)
  | 0, _ => none
  | fuel + 1, b =>
    if b = 0 then some (0, m)
    else if !m.block_valid b then some (0, m)
    else if m.free b ≠ 0 ∧ needed ≤ m.size b then
      let remaining := m.size b - needed
      let m' := if HEADER_SIZE + KHEAP_ALIGN + FOOTER_SIZE ≤ remaining then m.split b needed remaining
        else m
      some (b + HEADER_SIZE, m'.set_free b 0)
    else kmalloc_from m needed fuel (m.next b)

/-- The sum of the sizes of the blocks from `b` on whose `free` field is `0`, or is not. -/
def sum_sizes (want_free : Bool) : (fuel b : Nat) → Nat
  | 0, _ => 0
  | fuel + 1, b =>
    if b ≠ 0 ∧ m.block_valid b then
      (if (m.free b != 0) = want_free then m.size b else 0) + sum_sizes want_free fuel (m.next b)
    else 0

end Mem

/-- The static state of `kheap.c` and the memory it works on. -/
structure Kheap where
  mem : Mem
  heap_start : Nat
  heap_base : Nat
  heap_limit : Nat

namespace Kheap

def raw_start (reserved_end : Nat) : Nat :=
  if reserved_end > KHEAP_START then reserved_end else KHEAP_START

def raw_size (raw_start phys_total : Nat) : Nat :=
  if phys_total ≠ 0 ∧ (raw_start + KHEAP_INITIAL_SIZE) % 2 ^ 64 > phys_total then
    if phys_total > raw_start then phys_total - raw_start else 0
  else KHEAP_INITIAL_SIZE

/-- The bounds `kheap_init` computes from `pmm_kernel_reserved_end()` and `pmm_total()`. -/
def region (reserved_end phys_total : Nat) : Nat × Nat :=
  let raw_start := raw_start reserved_end
  let raw_size := raw_size raw_start phys_total
  (align_up raw_start PAGE_SIZE, align_down ((raw_start + raw_size) % 2 ^ 64) PAGE_SIZE)

/-- The part of `kheap_init` that lays one free block over the region. -/
def format (h : Kheap) (base limit : Nat) : Kheap :=
  let total_size := (limit + 2 ^ 64 - base) % 2 ^ 64
  if total_size < HEADER_SIZE + FOOTER_SIZE then { h with heap_base := base, heap_limit := limit }
  else
    let m := ((((h.mem.set_magic base KHEAP_MAGIC).set_free base 1).set_size base
      total_size).set_next base 0).set_prev base 0
    { mem := m.set_footer (m.get_footer base) total_size
      heap_start := base, heap_base := base, heap_limit := limit }

def kheap_init (h : Kheap) (reserved_end phys_total : Nat) : Kheap :=
  h.format (region reserved_end phys_total).1 (region reserved_end phys_total).2

/-- A bound on the number of blocks in the heap. -/
def fuel (h : Kheap) : Nat := h.heap_limit - h.heap_base + 1

/-- The address returned and the heap after the call; nothing when the block list does not end. -/
def kmalloc (h : Kheap) (size : Nat) : Option (Nat × Kheap) :=
  if h.heap_start = 0 ∨ size = 0 then some (0, h)
  else if size > KHEAP_MAX_ALLOC then some (0, h)
  else
    let needed := HEADER_SIZE + align_up size KHEAP_ALIGN + FOOTER_SIZE
    (h.mem.kmalloc_from needed h.fuel h.heap_start).map fun r => (r.1, { h with mem := r.2 })

/-- The header in front of a payload. -/
def block_of (ptr : Nat) : Nat := (ptr + (2 ^ 64 - HEADER_SIZE)) % 2 ^ 64

def kfree (h : Kheap) (ptr : Nat) : Kheap :=
  if ptr = 0 ∨ h.heap_start = 0 then h
  else
    let block := block_of ptr
    if !h.mem.block_valid block then h
    else if h.mem.free block ≠ 0 then h
    else
      let m₁ := h.mem.set_free block 1
      let next := m₁.next block
      let m₂ := if next ≠ 0 ∧ m₁.block_valid next ∧ m₁.free next ≠ 0 then m₁.absorb block next
        else m₁
      let prev := m₂.prev block
      let m₃ := if prev ≠ 0 ∧ m₂.block_valid prev ∧ m₂.free prev ≠ 0 then m₂.absorb prev block
        else m₂
      { h with mem := m₃ }

def kheap_get_used (h : Kheap) : Nat :=
  if h.heap_start = 0 then 0 else h.mem.sum_sizes false h.fuel h.heap_start % 2 ^ 64

def kheap_get_free (h : Kheap) : Nat :=
  if h.heap_start = 0 then 0 else h.mem.sum_sizes true h.fuel h.heap_start % 2 ^ 64

end Kheap

end graceos.mm
