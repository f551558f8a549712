import GraceOS.Sasy.Backing
import GraceOS.Lib.Machine

/-!
# The calls of the segment allocator
-/

namespace graceos.sasy

open mm machine

/-- The state of the allocator. -/
structure Sasy where
  table : Table
  backing : Backing

namespace Sasy

variable (s : Sasy)

def segment (i : Nat) : Segment := s.table.segments i

/-- `free_segment` on both parts of a descriptor. -/
def free_segment (i : Nat) : Sasy :=
  { table := s.table.free_segment i
    backing := ((s.backing.set_phys i 0).set_present i false).set_swap_id i 0 }

/-- The checks of `sasy_create_ex` on a new descriptor: the address space, and the memory of a segment
that is mapped at once. -/
def sasy_place (i : Nat) : Bool × Sasy :=
  let g := s.segment i
  if s.table.next_segment_base ≥ SASY_BASE_ADDR + SASY_MAX_SIZE then (false, s)
  else if g.type = .fixed ∨ g.type = .physical then
    let r := s.backing.sasy_map_now g i
    (r.1, { s with backing := r.2 })
  else (true, s)

def sasy_create_ex (size : Nat) (type : SegType) (flags : BitVec 32) (owner_pid : Nat) : Nat × Sasy :=
  if size = 0 then (INVALID_HANDLE, s)
  else
    match s.table.free_slot with
    | none => (INVALID_HANDLE, s)
    | some i =>
      let b := ((s.backing.set_present i false).set_swap_id i 0)
      match sasy_place ⟨s.table.new_segment i size type flags, b⟩ i with
      | (false, s₁) => (INVALID_HANDLE, s₁.free_segment i)
      | (true, s₁) =>
        let (h, t) := s₁.table.handle_alloc i owner_pid
        if h = INVALID_HANDLE then (INVALID_HANDLE, s₁.free_segment i) else (h, { s₁ with table := t })

/-- The address of the locked segment, or null. -/
def sasy_lock (h : Nat) : Nat × Sasy :=
  match s.table.handle_get_segment h with
  | none => (0, s)
  | some i =>
    match s.backing.sasy_pagein (s.segment i) i with
    | (false, b) => (0, { s with backing := b })
    | (true, b) => ((s.segment i).base, ⟨s.table.lock i, b⟩)

def sasy_unlock (h : Nat) : Sasy :=
  match s.table.handle_get_segment h with
  | none => s
  | some i =>
    let t := s.table.unlock i
    let g := t.segments i
    ⟨t, if g.locked = 0 ∧ g.dirty then s.backing.swap_schedule g i else s.backing⟩

def sasy_free (h : Nat) : Sasy :=
  match s.table.handle_get_segment h with
  | none => s
  | some i =>
    let t := s.table.release h i
    if (t.segments i).refcnt = 0 then ⟨t.reclaim i, s.backing.discard (t.segments i) i⟩
    else { s with table := t }

def sasy_resize (h new_size : Nat) : Bool × Sasy :=
  match s.table.handle_get_segment h with
  | none => (false, s)
  | some i =>
    let g := s.segment i
    let new_aligned := align_up new_size PAGE_SIZE
    if g.locked > 0 then (false, s)
    else if g.type = .fixed ∨ g.type = .physical then (false, s)
    else if new_aligned = g.size then (true, s)
    else if new_aligned > g.size then
      if s.backing.present i then (false, s)
      else (true, { s with table := s.table.set_segment i { g with size := new_aligned } })
    else
      (true, ⟨s.table.set_segment i { g with size := new_aligned },
        if s.backing.present i then s.backing.trim g i (new_aligned / PAGE_SIZE) else s.backing⟩)

def sasy_mark_dirty (h : Nat) : Sasy :=
  match s.table.handle_get_segment h with
  | none => s
  | some i => { s with table := s.table.set_segment i { s.segment i with dirty := true } }

/-- A loop over the live descriptors. -/
def each_segment (f : Segment → Nat → Backing → Backing) (t : Table) : (fuel i : Nat) → Backing → Backing
  | 0, _, b => b
  | fuel + 1, i, b =>
    each_segment f t fuel (i + 1) (if (t.segments i).id = 0 then b else f (t.segments i) i b)

def sasy_pressure : Sasy :=
  let discard := fun (g : Segment) i (b : Backing) =>
    if g.has SEG_FLAG_DISCARD ∧ g.locked = 0 ∧ ¬ g.dirty ∧ g.refcnt = 0 then b.sasy_pageout g i else b
  let swap := fun (g : Segment) i (b : Backing) => if b.swap_can_swap g i then (b.swap_out g i).2 else b
  let b := each_segment discard s.table MAX_SEGMENTS 0 s.backing
  { s with backing := each_segment swap s.table MAX_SEGMENTS 0 b }

/-- `sasy_load_code`; `found` is the answer of the file system to `bfs_find`. -/
def sasy_load_code (path : List UInt8) (found : Bool) (owner_pid : Nat) : Nat × Sasy :=
  let hash := loader_hash_file path
  match s.table.loader_find_code hash with
  | some i =>
    let (h, t) := (s.table.retain i).handle_alloc i owner_pid
    (h, { s with table := t })
  | none =>
    let (h, s₁) := s.sasy_create_ex PAGE_SIZE .code SEG_FLAGS_CODE owner_pid
    if h = INVALID_HANDLE then (INVALID_HANDLE, s₁)
    else
      match s₁.table.handle_get_segment h with
      | none => (h, s₁)
      | some i =>
        let t := s₁.table.set_segment i { s₁.segment i with code_hash := hash }
        if found then (h, { s₁ with table := t.loader_register_code i })
        else (INVALID_HANDLE, sasy_free { s₁ with table := t } h)

/-- `memcpy` of the segment at `src` to the one at `dst`. -/
def copy (dst src n : Nat) : Sasy :=
  { s with backing := s.backing.fill dst (fun o => s.backing.peek (src + o)) n }

def sasy_clone (h new_pid : Nat) : Nat × Sasy :=
  match s.table.handle_get_segment h with
  | none => (INVALID_HANDLE, s)
  | some i =>
    let g := s.segment i
    if g.type = .code then
      let (new_h, t) := s.table.handle_dup h new_pid
      (new_h, { s with table := t })
    else
      let (new_h, s₁) := s.sasy_create_ex g.size g.type g.flags new_pid
      if new_h = INVALID_HANDLE then (INVALID_HANDLE, s₁)
      else
        let (src, s₂) := s₁.sasy_lock h
        let (dst, s₃) := s₂.sasy_lock new_h
        let s₄ := if src ≠ 0 ∧ dst ≠ 0 then s₃.copy dst src (s₃.segment i).pages else s₃
        (new_h, (s₄.sasy_unlock new_h).sasy_unlock h)

def loader_handle_fault (fault_addr : Nat) : Sasy :=
  match s.table.sasy_find_segment fault_addr with
  | none => s
  | some i => { s with backing := (s.backing.sasy_pagein (s.segment i) i).2 }

/-- A client writes a byte of a segment it has locked. -/
def poke (addr : Nat) (value : UInt8) : Sasy :=
  { s with backing := { s.backing with ram := Function.update s.backing.ram (s.backing.vmm_translate addr) value } }

end Sasy

/-- The calls of the interface, with their arguments. -/
inductive Call where
  | create (size : Nat) (type : SegType) (flags : BitVec 32) (owner_pid : Nat)
  | lock (h : Nat)
  | unlock (h : Nat)
  | free (h : Nat)
  | resize (h new_size : Nat)
  | mark_dirty (h : Nat)
  | pressure
  | load_code (path : List UInt8) (found : Bool) (owner_pid : Nat)
  | clone (h new_pid : Nat)
  | fault (addr : Nat)
  | poke (addr : Nat) (value : UInt8)

def Sasy.step (s : Sasy) : Call → Sasy
  | .create size type flags owner_pid => (s.sasy_create_ex size type flags owner_pid).2
  | .lock h => (s.sasy_lock h).2
  | .unlock h => s.sasy_unlock h
  | .free h => s.sasy_free h
  | .resize h new_size => (s.sasy_resize h new_size).2
  | .mark_dirty h => s.sasy_mark_dirty h
  | .pressure => s.sasy_pressure
  | .load_code path found owner_pid => (s.sasy_load_code path found owner_pid).2
  | .clone h new_pid => (s.sasy_clone h new_pid).2
  | .fault addr => s.loader_handle_fault addr
  | .poke addr value => s.poke addr value

/-- `sasy_init`, with any memory and swap space. -/
def Sasy.init (b : Backing) : Sasy :=
  ⟨.init, { b with
    phys := fun _ => 0, present := fun _ => false, swap_id := fun _ => 0
    swap_table := fun _ => ⟨0, 0, false⟩, next_swap_block := 1
    swap_ready := b.swap_ready && decide (b.swap_size ≥ SWAP_BLOCK_SIZE) }⟩

/-- A machine of 64 frames, the first eight of them in use, and no swap space. -/
def Backing.blank : Backing :=
  { phys := fun _ => 0, present := fun _ => false, swap_id := fun _ => 0
    frames := ⟨⟨fun i => if i = 0 then 0xFF else 0, 64, 64, 8, true, 0⟩, ⟨fun _ => 0, 0, 0, 0⟩⟩
    map := ⟨fun _ => false, fun _ => false, fun _ => false, fun _ => none⟩
    ram := fun _ => 0, swap_table := fun _ => ⟨0, 0, false⟩, next_swap_block := 1, swap_ready := false
    swap_base := 0, swap_size := 0, pmem := fun _ => 0, pmem_bytes := 0, works := fun _ => true
    transfers := 0 }

end graceos.sasy
