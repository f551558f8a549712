import GraceOS.Mm.Pmm

/-!
# Segments and what holds them

The segment allocator keeps a table of segment descriptors, a table of handles and a registry of
shared code. The fields of a descriptor that say where its bytes are (`phys`, `present`, `swap_id`)
are kept apart from the rest of it, with the memory and the swap space they refer to: paging changes
only these.
-/

namespace graceos.sasy

open mm

inductive SegType where
  | fixed
  | manual
  | code
  | data_auto
  | data_inst
  | physical
deriving DecidableEq, Repr

def SEG_FLAG_DISCARD : BitVec 32 := 0x20
def SEG_FLAG_NOSWAP : BitVec 32 := 0x40
def SEG_FLAG_ZEROED : BitVec 32 := 0x80
/-- `SEG_FLAGS_RX | SEG_FLAG_SHARED`. -/
def SEG_FLAGS_CODE : BitVec 32 := 0x105

def SASY_BASE_ADDR : Nat := 0xFFFF800010000000
def SASY_MAX_SIZE : Nat := 0x100000000000

@[irreducible] def MAX_SEGMENTS : Nat := 4096
@[irreducible] def MAX_HANDLES : Nat := 8192
@[irreducible] def MAX_CODE_SEGMENTS : Nat := 256
@[irreducible] def MAX_SWAP_ENTRIES : Nat := 1024
def INVALID_HANDLE : Nat := 2 ^ 32 - 1
def SWAP_BLOCK_SIZE : Nat := 4096

/-- The fields of `segment_t` that paging does not change. -/
structure Segment where
  id : Nat
  type : SegType
  base : Nat
  size : Nat
  refcnt : Nat
  flags : BitVec 32
  locked : Nat
  dirty : Bool
  shared : Bool
  code_hash : Nat
deriving DecidableEq

/-- A descriptor after `free_segment`. -/
def Segment.clear : Segment := ⟨0, .fixed, 0, 0, 0, 0, 0, false, false, 0⟩

def Segment.has (g : Segment) (flag : BitVec 32) : Bool := (g.flags &&& flag) != 0

/-- The number of pages of a segment. -/
def Segment.pages (g : Segment) : Nat := g.size / PAGE_SIZE

/-- `handle_t`; the pointer to a descriptor is its number. -/
structure Handle where
  seg : Nat
  refs : Nat
  owner_pid : Nat
  valid : Bool
deriving DecidableEq

def Handle.clear : Handle := ⟨0, 0, 0, false⟩

/-- `code_registry_t`. -/
structure CodeEntry where
  hash : Nat
  seg : Nat
  refs : Nat
  valid : Bool
deriving DecidableEq

def CodeEntry.clear : CodeEntry := ⟨0, 0, 0, false⟩

/-- The first of the `fuel` numbers from `i` on that meets `p`. -/
def first_from (p : Nat → Bool) : (fuel i : Nat) → Option Nat
  | 0, _ => none
  | fuel + 1, i => if p i then some i else first_from p fuel (i + 1)

/-- The tables of the allocator: descriptors, handles and shared code. -/
structure Table where
  segments : Nat → Segment
  next_segment_id : Nat
  next_segment_base : Nat
  handles : Nat → Handle
  next_handle : Nat
  registry : Nat → CodeEntry

namespace Table

variable (t : Table)

def set_segment (i : Nat) (g : Segment) : Table := { t with segments := Function.update t.segments i g }

def free_segment (i : Nat) : Table := t.set_segment i .clear

/-- The slot that `alloc_segment` finds. -/
def free_slot : Option Nat := first_from (fun i => (t.segments i).id == 0) MAX_SEGMENTS 0

/-- The slot that `handle_alloc` finds, from `next_handle` on and around. -/
def free_handle : Option Nat :=
  (first_from (fun k => !(t.handles (k % MAX_HANDLES)).valid) MAX_HANDLES t.next_handle).map
    (· % MAX_HANDLES)

def handle_alloc (seg owner_pid : Nat) : Nat × Table :=
  match t.free_handle with
  | none => (INVALID_HANDLE, t)
  | some h => (h, { t with handles := Function.update t.handles h ⟨seg, 1, owner_pid, true⟩
                           next_handle := (h + 1) % MAX_HANDLES })

def handle_valid (h : Nat) : Bool := decide (h < MAX_HANDLES) && (t.handles h).valid

def handle_free (h : Nat) : Table :=
  if h < MAX_HANDLES ∧ (t.handles h).valid then
    { t with handles := Function.update t.handles h .clear }
  else t

/-- The descriptor of a valid handle. -/
def handle_get_segment (h : Nat) : Option Nat := if t.handle_valid h then some (t.handles h).seg else none

/-- The head of `sasy_create_ex`: a descriptor at the next free address, in a free slot. -/
def new_segment (i size : Nat) (type : SegType) (flags : BitVec 32) : Table :=
  let g : Segment :=
    { id := t.next_segment_id, type := type, base := t.next_segment_base, size := align_up size PAGE_SIZE,
      refcnt := 1, flags := flags, locked := 0, dirty := false, shared := type == .code, code_hash := 0 }
  { t.set_segment i g with
    next_segment_id := (t.next_segment_id + 1) % 2 ^ 32
    next_segment_base := (t.next_segment_base + align_up size PAGE_SIZE) % 2 ^ 64 }

/-- `s->locked++; s->refcnt++` of `sasy_lock`. -/
def lock (i : Nat) : Table :=
  let g := t.segments i
  t.set_segment i { g with locked := (g.locked + 1) % 2 ^ 8, refcnt := (g.refcnt + 1) % 2 ^ 32 }

/-- The first part of `sasy_unlock`. -/
def unlock (i : Nat) : Table :=
  let g := t.segments i
  t.set_segment i { g with locked := g.locked - 1 }

/-- `s->refcnt++`. -/
def retain (i : Nat) : Table :=
  let g := t.segments i
  t.set_segment i { g with refcnt := (g.refcnt + 1) % 2 ^ 32 }

/-- The first part of `sasy_free`: a reference and the handle are dropped. -/
def release (h i : Nat) : Table :=
  let g := t.segments i
  (t.set_segment i { g with refcnt := g.refcnt - 1 }).handle_free h

def handle_dup (h new_owner_pid : Nat) : Nat × Table :=
  match t.handle_get_segment h with
  | none => (INVALID_HANDLE, t)
  | some i =>
    let (new_h, t') := t.handle_alloc i new_owner_pid
    (new_h, if new_h ≠ INVALID_HANDLE then t'.retain i else t')

/-- The entry of the registry with a hash. -/
def find_entry (hash : Nat) : Option Nat :=
  first_from (fun i => (t.registry i).valid && (t.registry i).hash == hash) MAX_CODE_SEGMENTS 0

def loader_find_code (hash : Nat) : Option Nat :=
  if hash = 0 then none else (t.find_entry hash).map fun i => (t.registry i).seg

def loader_register_code (seg : Nat) : Table :=
  let hash := (t.segments seg).code_hash
  if hash = 0 then t
  else
    match t.find_entry hash with
    | some i => { t with registry := Function.update t.registry i
                           { t.registry i with refs := ((t.registry i).refs + 1) % 2 ^ 32 } }
    | none =>
      match first_from (fun i => !(t.registry i).valid) MAX_CODE_SEGMENTS 0 with
      | some i => { t with registry := Function.update t.registry i ⟨hash, seg, 1, true⟩ }
      | none => t

def loader_unregister_code (seg : Nat) : Table :=
  let hash := (t.segments seg).code_hash
  if hash = 0 then t
  else
    match t.find_entry hash with
    | some i =>
      let refs := (t.registry i).refs - 1
      { t with registry := Function.update t.registry i
                 (if refs = 0 then .clear else { t.registry i with refs := refs }) }
    | none => t

/-- The last part of `sasy_free`: a descriptor without references is given up. -/
def reclaim (i : Nat) : Table :=
  let g := t.segments i
  (if g.type = .code ∧ g.code_hash ≠ 0 then t.loader_unregister_code i else t).free_segment i

/-- `sasy_init`. -/
def init : Table := ⟨fun _ => .clear, 1, SASY_BASE_ADDR, fun _ => .clear, 0, fun _ => .clear⟩

end Table

def sasy_is_segment_addr (addr : Nat) : Bool :=
  decide (SASY_BASE_ADDR ≤ addr ∧ addr < SASY_BASE_ADDR + SASY_MAX_SIZE)

def Table.sasy_find_segment (t : Table) (addr : Nat) : Option Nat :=
  if sasy_is_segment_addr addr then
    first_from (fun i => (t.segments i).id != 0 &&
      decide ((t.segments i).base ≤ addr ∧ addr < ((t.segments i).base + (t.segments i).size) % 2 ^ 64))
      MAX_SEGMENTS 0
  else none

/-- `loader_hash_file`: DJB2 over the signed characters of a path. -/
def loader_hash_file (path : List UInt8) : Nat :=
  path.foldl (fun hash c => (hash * 33 + (if c.toNat < 128 then c.toNat else 2 ^ 64 - 256 + c.toNat)) % 2 ^ 64)
    5381

end graceos.sasy
