import GraceOS.Sasy.Segment

/-!
# Where the bytes of a segment are

Frames, the page map, the bytes in memory, and the swap space in persistent memory. The page map is
the flat view of the page tables: a virtual page is mapped once the tables above it are there, and
each missing table costs a frame.
-/

namespace graceos.sasy

open mm Function

/-- The page map: which tables of the three lower levels exist, and which page maps to which
physical address. -/
structure PageMap where
  pdpt : Nat → Bool
  pd : Nat → Bool
  pt : Nat → Bool
  page : Nat → Option Nat

/-- The number of the page of a 48-bit virtual address. -/
def vpage (virt : Nat) : Nat := virt / PAGE_SIZE % 2 ^ 36

/-- `swap_entry_t`. -/
structure SwapEntry where
  disk_block : Nat
  pages : Nat
  in_use : Bool
deriving DecidableEq

/-- The `phys`, `present` and `swap_id` fields of the descriptors, and what they refer to. The
transfers of the persistent memory device are numbered; `works` says which of them succeed. -/
structure Backing where
  phys : Nat → Nat
  present : Nat → Bool
  swap_id : Nat → Nat
  frames : Phys
  map : PageMap
  ram : Nat → UInt8
  swap_table : Nat → SwapEntry
  next_swap_block : Nat
  swap_ready : Bool
  swap_base : Nat
  swap_size : Nat
  pmem : Nat → UInt8
  pmem_bytes : Nat
  works : Nat → Bool
  transfers : Nat

/-- The addresses of `n` pages from `a` on. -/
def page_addrs (a n : Nat) : List Nat := (List.range n).map fun k => (a + k * PAGE_SIZE) % 2 ^ 64

namespace Backing

variable (b : Backing)

/-- `pmm_alloc_page`; the answer is a 64-bit word. -/
def pmm_alloc_page : Nat × Backing :=
  (b.frames.pmm_alloc_page.1 % 2 ^ 64, { b with frames := b.frames.pmm_alloc_page.2 })

def pmm_free_page (phys_addr : Nat) : Backing := { b with frames := b.frames.pmm_free_page phys_addr }

/-- A table of the page map, allocated if it is missing. -/
def get_table (there : Bool) : Bool × Backing :=
  if there then (true, b) else ((b.pmm_alloc_page.1 != 0), b.pmm_alloc_page.2)

def vmm_map (virt phys : Nat) : Backing :=
  let v := vpage virt
  let (ok, b) := b.get_table (b.map.pdpt (v / 2 ^ 27))
  if !ok then b else
  let b := { b with map := { b.map with pdpt := update b.map.pdpt (v / 2 ^ 27) true } }
  let (ok, b) := b.get_table (b.map.pd (v / 2 ^ 18))
  if !ok then b else
  let b := { b with map := { b.map with pd := update b.map.pd (v / 2 ^ 18) true } }
  let (ok, b) := b.get_table (b.map.pt (v / 2 ^ 9))
  if !ok then b else
  let b := { b with map := { b.map with pt := update b.map.pt (v / 2 ^ 9) true } }
  { b with map := { b.map with page := update b.map.page v (some (align_down phys PAGE_SIZE)) } }

def vmm_unmap (virt : Nat) : Backing :=
  { b with map := { b.map with page := update b.map.page (vpage virt) none } }

def vmm_translate (virt : Nat) : Nat :=
  match b.map.page (vpage virt) with
  | none => 0
  | some p => p + virt % PAGE_SIZE

/-- The byte seen at a virtual address. -/
def peek (virt : Nat) : UInt8 := b.ram (b.vmm_translate virt)

/-- The bytes `value 0`, `value 1`, … written at `n` mapped pages from `base` on. -/
def fill (base : Nat) (value : Nat → UInt8) : (n : Nat) → Backing
  | 0 => b
  | n + 1 =>
    let b' := fill base value n
    let p := b.vmm_translate ((base + n * PAGE_SIZE) % 2 ^ 64)
    { b' with ram := fun x =>
        if p ≤ x ∧ x < p + PAGE_SIZE then value (n * PAGE_SIZE + (x - p)) else b'.ram x }

/-- `pmem_read` and `pmem_write` before the transfer: the arguments are checked. -/
def pmem_accepts (offset size : Nat) : Bool :=
  decide (size ≠ 0 ∧ offset % 512 = 0 ∧ size % 512 = 0 ∧ (offset + size) % 2 ^ 64 ≤ b.pmem_bytes)

/-- `pmem_write(offset, (void*)base, size)`. -/
def pmem_write (offset base size : Nat) : Bool × Backing :=
  if !b.pmem_accepts offset size then (false, b)
  else if !b.works b.transfers then (false, { b with transfers := b.transfers + 1 })
  else (true, { b with
    transfers := b.transfers + 1
    pmem := fun x => if offset ≤ x ∧ x < offset + size then b.peek (base + (x - offset)) else b.pmem x })

/-- `pmem_read(offset, (void*)base, size)`. -/
def pmem_read (offset base size : Nat) : Bool × Backing :=
  if !b.pmem_accepts offset size then (false, b)
  else if !b.works b.transfers then (false, { b with transfers := b.transfers + 1 })
  else
    let b' := b.fill base (fun o => b.pmem (offset + o)) (size / PAGE_SIZE)
    (true, { b' with transfers := b.transfers + 1 })

def swap_alloc (size : Nat) : Nat × Backing :=
  if !b.swap_ready then (0, b)
  else
    let pages := (size + SWAP_BLOCK_SIZE - 1) % 2 ^ 64 / SWAP_BLOCK_SIZE
    if (b.next_swap_block + pages) % 2 ^ 64 > b.swap_size / SWAP_BLOCK_SIZE then (0, b)
    else
      match first_from (fun i => !(b.swap_table i).in_use) MAX_SWAP_ENTRIES 0 with
      | none => (0, b)
      | some i => (b.next_swap_block, { b with
          swap_table := update b.swap_table i ⟨b.next_swap_block, pages, true⟩
          next_swap_block := (b.next_swap_block + pages) % 2 ^ 64 })

def swap_free (swap_id : Nat) : Backing :=
  if swap_id = 0 then b
  else
    match first_from (fun i => (b.swap_table i).in_use && (b.swap_table i).disk_block == swap_id)
      MAX_SWAP_ENTRIES 0 with
    | none => b
    | some i => { b with swap_table := update b.swap_table i ⟨0, 0, false⟩ }

/-- The loops that unmap the pages of a segment and that free its frames. -/
def unmap_pages (base n : Nat) : Backing := (page_addrs base n).foldl vmm_unmap b
def free_pages (phys n : Nat) : Backing := (page_addrs phys n).foldl pmm_free_page b

/-- The unmapping of a whole segment: nothing is done when its end wraps around. -/
def unmap_segment (g : Segment) : Backing :=
  if g.base < (g.base + g.size) % 2 ^ 64 then b.unmap_pages g.base g.pages else b

/-- `if (s->phys) …`: the frames of a segment are freed. -/
def free_frames (g : Segment) (i : Nat) : Backing :=
  if b.phys i ≠ 0 then b.free_pages (b.phys i) g.pages else b

/-- The first loop of `sasy_map_now` and `sasy_pagein`: the first of `n` contiguous frames, or
nothing, with all frames given back. -/
def alloc_pages (first : Nat) : (k n : Nat) → Backing → Option Nat × Backing
  | _, 0, b => (some first, b)
  | k, n + 1, b =>
    let (page, b₁) := b.pmm_alloc_page
    if page = 0 then (none, b₁.free_pages first k)
    else if k = 0 then alloc_pages page 1 n b₁
    else if page ≠ (first + k * PAGE_SIZE) % 2 ^ 64 then
      (none, (b₁.free_pages first k).pmm_free_page page)
    else alloc_pages first (k + 1) n b₁

/-- The second loop: the pages are mapped one by one, and each mapping is checked. -/
def map_pages (virt phys total : Nat) : (k n : Nat) → Backing → Bool × Backing
  | _, 0, b => (true, b)
  | k, n + 1, b =>
    let vaddr := (virt + k * PAGE_SIZE) % 2 ^ 64
    let paddr := (phys + k * PAGE_SIZE) % 2 ^ 64
    let b₁ := b.vmm_map vaddr paddr
    if b₁.vmm_translate vaddr ≠ paddr then
      (false, (b₁.unmap_pages virt (k + 1)).free_pages phys total)
    else map_pages virt phys total (k + 1) n b₁

/-- Both loops: frames for the segment `i` in its place. -/
def map_segment (g : Segment) (i : Nat) : Bool × Backing :=
  match alloc_pages 0 0 g.pages b with
  | (none, b₁) => (false, b₁)
  | (some first, b₁) =>
    map_pages g.base first g.pages 0 g.pages { b₁ with phys := update b₁.phys i first }

def set_present (i : Nat) (flag : Bool) : Backing := { b with present := update b.present i flag }
def set_phys (i phys : Nat) : Backing := { b with phys := update b.phys i phys }
def set_swap_id (i swap_id : Nat) : Backing := { b with swap_id := update b.swap_id i swap_id }

/-- `memset((void*)s->base, 0, s->size)`. -/
def zero_fill (g : Segment) : Backing := b.fill g.base (fun _ => 0) g.pages

def sasy_map_now (g : Segment) (i : Nat) : Bool × Backing :=
  match b.map_segment g i with
  | (false, b₁) => (false, b₁)
  | (true, b₁) => (true, (if g.has SEG_FLAG_ZEROED then b₁.zero_fill g else b₁).set_present i true)

def swap_offset (i : Nat) : Nat := (b.swap_base + b.swap_id i * SWAP_BLOCK_SIZE) % 2 ^ 64

/-- The bound check of `swap_out` and `swap_read`. -/
def swap_fits (g : Segment) (i : Nat) : Bool :=
  decide ((b.swap_offset i + g.size) % 2 ^ 64 ≤ (b.swap_base + b.swap_size) % 2 ^ 64)

/-- The tail of `swap_out` and of a discarding `sasy_pageout`. -/
def evict (g : Segment) (i : Nat) : Backing :=
  (((b.unmap_segment g).free_frames g i).set_phys i 0).set_present i false

def swap_out (g : Segment) (i : Nat) : Bool × Backing :=
  if !b.swap_ready then (false, b)
  else if !b.present i then (true, b)
  else if g.locked > 0 then (false, b)
  else if g.has SEG_FLAG_NOSWAP then (false, b)
  else
    let (id, b₁) := if b.swap_id i = 0 then b.swap_alloc g.size else (b.swap_id i, b)
    let b₂ := b₁.set_swap_id i id
    if id = 0 then (false, b₂)
    else if !b₂.swap_fits g i then (false, b₂)
    else
      match b₂.pmem_write (b₂.swap_offset i) g.base g.size with
      | (false, b₃) => (false, b₃)
      | (true, b₃) => (true, b₃.evict g i)

def swap_read (g : Segment) (i : Nat) : Bool × Backing :=
  if !b.swap_ready then (false, b)
  else if b.swap_id i = 0 then (false, b)
  else if b.present i then (true, b)
  else if !b.swap_fits g i then (false, b)
  else
    match b.pmem_read (b.swap_offset i) g.base g.size with
    | (false, b₁) => (false, b₁)
    | (true, b₁) => (true, (b₁.set_swap_id i 0).swap_free (b₁.swap_id i))

/-- The tail of `sasy_pagein`: the contents, by the type of the segment. -/
def load_contents (g : Segment) (i : Nat) : Bool × Backing :=
  if g.type = .code then (true, b)
  else if b.swap_id i ≠ 0 then b.swap_read g i
  else if g.has SEG_FLAG_ZEROED then (true, b.zero_fill g)
  else (true, b)

def sasy_pagein (g : Segment) (i : Nat) : Bool × Backing :=
  if b.present i then (true, b)
  else
    match alloc_pages 0 0 g.pages b with
    | (none, b₁) => (false, b₁)
    | (some first, b₁) =>
      match map_pages g.base first g.pages 0 g.pages (b₁.set_phys i first) with
      | (false, b₂) => (false, b₂.set_phys i 0)
      | (true, b₂) =>
        match b₂.load_contents g i with
        | (false, b₃) => (false, b₃)
        | (true, b₃) => (true, b₃.set_present i true)

def swap_can_swap (g : Segment) (i : Nat) : Bool :=
  b.swap_ready && b.present i && decide (¬ g.locked > 0) && !g.has SEG_FLAG_NOSWAP &&
    decide (g.type ≠ .fixed ∧ g.type ≠ .physical)

def swap_schedule (g : Segment) (i : Nat) : Backing :=
  if b.swap_can_swap g i then (b.swap_out g i).2 else b

def sasy_pageout (g : Segment) (i : Nat) : Backing :=
  if !b.present i then b
  else if g.locked > 0 then b
  else if g.has SEG_FLAG_DISCARD ∧ ¬ g.dirty ∧ g.refcnt = 0 then b.evict g i
  else (b.swap_out g i).2

/-- The tail of `sasy_free` that gives up the memory of a segment. -/
def discard (g : Segment) (i : Nat) : Backing :=
  let b₁ := (if b.present i then b.unmap_segment g else b).free_frames g i
  let b₂ := if b₁.swap_id i ≠ 0 then b₁.swap_free (b₁.swap_id i) else b₁
  ((b₂.set_phys i 0).set_present i false).set_swap_id i 0

/-- The tail of a shrinking `sasy_resize`: the pages behind the first `new_pages` are given up. -/
def trim (g : Segment) (i new_pages : Nat) : Backing :=
  (List.range' new_pages (g.pages - new_pages)).foldl (fun b k =>
    (b.vmm_unmap ((g.base + k * PAGE_SIZE) % 2 ^ 64)).pmm_free_page ((b.phys i + k * PAGE_SIZE) % 2 ^ 64)) b

end Backing

end graceos.sasy
