import GraceOS.Bfs.Insert

namespace graceos.bfs

def BFS_NAME_TABLE_PAGE : UInt64 := 2
def BFS_NAME_MAX : Nat := 48
def BFS_NAME_ENTRIES : Nat := BFS_PAGE_SIZE / 72

/-- A file name: the characters before the terminating NUL. -/
structure FileName where
  chars : List Int8
  no_nul : 0 ∉ chars

/-- Simple hash function (DJB2). Characters are signed. -/
def bfs_hash (str : FileName) : UInt64 :=
  str.chars.foldl (fun hash c => ((hash <<< 5) + hash) + c.toInt64.toUInt64) 5381

/-- The value of a file in the tree. -/
def pack (start_block size : UInt64) : UInt64 :=
  (start_block <<< 32) ||| (size &&& 0xFFFFFFFF)

def start_block (value : UInt64) : UInt64 := (value >>> 32) &&& 0xFFFFFFFF

def size_bytes (value : UInt64) : UInt64 := value &&& 0xFFFFFFFF

section Names

/-- `struct bfs_name_entry`. -/
structure NameEntry where
  hash : UInt64
  start_block : UInt64
  size_bytes : UInt64
  name : Fin BFS_NAME_MAX → UInt8

/-- The name table. Page 2 has 64 more bytes than its entries fill; they are
read behind the end of the table's buffer and written back from there. -/
structure NameTable where
  entries : Fin BFS_NAME_ENTRIES → NameEntry
  tail : Fin 64 → UInt8

namespace NameEntry

def zero : NameEntry := ⟨0, 0, 0, fun _ => 0⟩

def decode (b : Block) (offset : Nat) : NameEntry where
  hash := UInt64.ofNat (word.load b.byte offset 8)
  start_block := UInt64.ofNat (word.load b.byte (offset + 8) 8)
  size_bytes := UInt64.ofNat (word.load b.byte (offset + 16) 8)
  name := fun i => b.byte (offset + 24 + i)

def byte (e : NameEntry) (i : Nat) : UInt8 :=
  if i < 8 then word.byte e.hash.toNat i
  else if i < 16 then word.byte e.start_block.toNat (i - 8)
  else if i < 24 then word.byte e.size_bytes.toNat (i - 16)
  else if h : i - 24 < BFS_NAME_MAX then e.name ⟨i - 24, h⟩ else 0

/-- Copies a name, cut after 47 characters, and its terminator over the old one. -/
def set_name (e : NameEntry) (name : FileName) : NameEntry :=
  let copied := name.chars.take (BFS_NAME_MAX - 1)
  { e with name := fun i =>
      if h : i.val < copied.length then (copied.get ⟨i, h⟩).toUInt8
      else if i.val = copied.length then 0 else e.name i }

end NameEntry

namespace NameTable

def decode (b : Block) : NameTable where
  entries := fun i => NameEntry.decode b (72 * i)
  tail := fun i => b.byte (4032 + i)

def encode (table : NameTable) : Block := fun i =>
  if h : i.val / 72 < BFS_NAME_ENTRIES then (table.entries ⟨i.val / 72, h⟩).byte (i.val % 72)
  else if h : i.val - 4032 < 64 then table.tail ⟨i.val - 4032, h⟩ else 0

def set (table : NameTable) (i : Fin BFS_NAME_ENTRIES) (e : NameEntry) : NameTable :=
  { table with entries := Function.update table.entries i e }

/-- The slot an entry goes to: the first with its hash, else the first free one. -/
def slot (table : NameTable) (hash : UInt64) : Option (Fin BFS_NAME_ENTRIES) :=
  let slots := List.finRange BFS_NAME_ENTRIES
  match slots.find? fun i => (table.entries i).hash == hash with
  | some i => some i
  | none => slots.find? fun i => (table.entries i).hash == 0

end NameTable

namespace Bfs

def bfs_name_table_read (s : Bfs) : Option NameTable :=
  if s.name_table_enabled then some (NameTable.decode (s.bfs_raw_read BFS_NAME_TABLE_PAGE)) else none

def bfs_name_table_write (s : Bfs) (table : NameTable) : Bfs :=
  if s.name_table_enabled then s.bfs_raw_write BFS_NAME_TABLE_PAGE table.encode else s

/-- The callers ignore the result, which is not modelled. -/
def bfs_name_table_upsert (s : Bfs) (hash : UInt64) (name : FileName) (start_block size_bytes : UInt64) : Bfs :=
  match s.bfs_name_table_read with
  | none => s
  | some table =>
    match table.slot hash with
    | none => s
    | some i =>
      let e := { table.entries i with hash := hash, start_block := start_block, size_bytes := size_bytes }
      s.bfs_name_table_write (table.set i (e.set_name name))

def bfs_name_table_remove (s : Bfs) (hash : UInt64) : Bfs :=
  match s.bfs_name_table_read with
  | none => s
  | some table =>
    match (List.finRange BFS_NAME_ENTRIES).find? fun i => (table.entries i).hash == hash with
    | none => s.bfs_name_table_write table
    | some i =>
      let e := table.entries i
      s.bfs_name_table_write (table.set i
        { hash := 0, start_block := 0, size_bytes := 0, name := fun j => if j.val = 0 then 0 else e.name j })

end Bfs

end Names

/-- `struct bfs_file_entry`, without its reserved word. -/
structure FileEntry where
  inode : UInt64
  start_block : UInt64
  size_bytes : UInt64
  flags : UInt32
  deriving DecidableEq

/-- What `bfs_read_file` returns: the code, what it stored to `out_size`, and the
bytes it copied to the front of the buffer. -/
structure ReadResult where
  code : Int
  out_size : Option UInt64
  data : List UInt8
  deriving DecidableEq

namespace Page

/-- The loop of `bfs_delete` that closes a gap in a leaf, from index `i` on. -/
def shift_left : Nat → Nat → Page → Page
  | 0, _, p => p
  | n + 1, i, p => shift_left n (i + 1) ((p.set_key i (p.key (i + 1))).set_value i (p.value (i + 1)))

/-- Remove the entry at an index of a leaf. -/
def remove_at (leaf : Page) (index : Nat) : Page :=
  let leaf := leaf.shift_left (leaf.count.toNat - 1 - index) index
  { leaf with count := leaf.count - 1 }

end Page

/-- `memcpy` of the first `n` bytes of a page. -/
def Block.take (b : Block) (n : Nat) : List UInt8 := (List.range n).map b.byte

/-- A cleared page with the first `n` bytes of a buffer copied to it. -/
def Block.of_buffer (buffer : Nat → UInt8) (n : Nat) : Block := fun i => if i.val < n then buffer i else 0

namespace Bfs

/-- The blocks for `size` bytes, in the arithmetic of the source. -/
def blocks_needed (size : UInt64) : UInt64 :=
  (size + UInt64.ofNat BFS_PAGE_SIZE - 1) / UInt64.ofNat BFS_PAGE_SIZE

/-- What `bfs_create` and `bfs_write_file` do to get the blocks of a file: the
first block, 0 for an empty file, or nothing when the disk has not enough. -/
def reserve (s : Bfs) (size : UInt64) : Option UInt64 × Bfs :=
  if s.root.free_pages < blocks_needed size then (none, s)
  else if blocks_needed size = 0 then (some 0, s)
  else
    match s.bfs_alloc_pages (blocks_needed size) with
    | (start_block, s) => if start_block = 0 then (none, s) else (some start_block, s)

/-- `bfs->root->file_count` changed and flushed. -/
def set_file_count (s : Bfs) (file_count : UInt64) : Bfs :=
  bfs_flush_root { s with root := { s.root with file_count := file_count } }

/-- Create a file. -/
def bfs_create (s : Bfs) (filename : FileName) (size : UInt64) : Option (Int × Bfs) := do
  let hash := bfs_hash filename
  let search ← s.bfs_search hash
  if search.found then some (-1, s)
  else
    match s.reserve size with
    | (none, s) => some (-2, s)
    | (some start_block, s) =>
      match ← s.bfs_insert hash (pack start_block size) with
      | (code, s) =>
        if code ≠ 0 then some (-3, s)
        else
          let s := s.set_file_count (s.root.file_count + 1)
          some (0, s.bfs_name_table_upsert hash filename start_block size)

/-- Find a file. -/
def bfs_find (s : Bfs) (filename : FileName) : Option (Except Int FileEntry) := do
  let hash := bfs_hash filename
  let search ← s.bfs_search hash
  if search.found then
    some (.ok { inode := hash, start_block := start_block search.value
                size_bytes := size_bytes search.value, flags := 0 })
  else some (.error (-1))

def bfs_file_size (s : Bfs) (filename : FileName) : Option (Except Int UInt64) := do
  match ← s.bfs_find filename with
  | .error _ => some (.error (-1))
  | .ok entry => some (.ok entry.size_bytes)

/-- The loop of `bfs_read_file`. -/
def read_pages (s : Bfs) (page_num : UInt64) (remaining : Nat) : Int × List UInt8 :=
  if remaining = 0 then (0, [])
  else
    match s.bfs_read_page page_num with
    | none => (-3, [])
    | some page =>
      let chunk := min remaining BFS_PAGE_SIZE
      match s.read_pages (page_num + 1) (remaining - chunk) with
      | (code, out) => (code, page.take chunk ++ out)
termination_by remaining
decreasing_by
  simp only [BFS_PAGE_SIZE]
  omega

def bfs_read_file (s : Bfs) (filename : FileName) (max_size : UInt64) : Option ReadResult := do
  match ← s.bfs_find filename with
  | .error _ => some { code := -1, out_size := none, data := [] }
  | .ok entry =>
    let size := entry.size_bytes
    if size = 0 then some { code := 0, out_size := some size, data := [] }
    else if max_size < size then some { code := -2, out_size := some size, data := [] }
    else
      match s.read_pages entry.start_block size.toNat with
      | (code, data) => some { code := code, out_size := some size, data := data }

/-- The loop of `bfs_write_file`. -/
def write_pages (s : Bfs) (buffer : Nat → UInt8) (page_num : UInt64) (remaining : Nat) : Bfs :=
  if remaining = 0 then s
  else
    let chunk := min remaining BFS_PAGE_SIZE
    let s := s.bfs_write_page page_num (Block.of_buffer buffer chunk)
    s.write_pages (fun i => buffer (chunk + i)) (page_num + 1) (remaining - chunk)
termination_by remaining
decreasing_by
  simp only [BFS_PAGE_SIZE]
  omega

/-- The end of `bfs_write_file`: the name table and the contents. -/
def write_contents (s : Bfs) (filename : FileName) (buffer : Nat → UInt8) (start_block size : UInt64) : Bfs :=
  let s := s.bfs_name_table_upsert (bfs_hash filename) filename start_block size
  s.write_pages buffer start_block size.toNat

/-- The branch of `bfs_write_file` for a file that exists: its entry is changed
in the leaf where the search found it. -/
def write_found (s : Bfs) (search : SearchResult) (filename : FileName) (buffer : Nat → UInt8)
    (start_block size : UInt64) : Int × Bfs :=
  match s.bfs_read_page search.page_num with
  | none => (-5, s)
  | some buf =>
    let leaf := (Page.decode buf).set_value search.index.toNat (pack start_block size)
    let s := (s.bfs_write_page search.page_num leaf.encode).bfs_flush_root
    (0, s.write_contents filename buffer start_block size)

/-- Write `size` bytes of a buffer to a file, which is created if need be. -/
def bfs_write_file (s : Bfs) (filename : FileName) (buffer : Nat → UInt8) (size : UInt64) :
    Option (Int × Bfs) := do
  let key := bfs_hash filename
  let search ← s.bfs_search key
  if search.found then
    if size_bytes search.value < size then
      match s.reserve size with
      | (none, s) => some (-2, s)
      | (some start_block, s) => some (s.write_found search filename buffer start_block size)
    else some (s.write_found search filename buffer (start_block search.value) size)
  else
    match s.reserve size with
    | (none, s) => some (-3, s)
    | (some start_block, s) =>
      match ← s.bfs_insert key (pack start_block size) with
      | (code, s) =>
        if code ≠ 0 then some (-4, s)
        else
          let s := s.set_file_count (s.root.file_count + 1)
          some (0, s.write_contents filename buffer start_block size)

/-- Delete a file (simplified, no rebalancing). The leaf that the search has just
read is not null. -/
def bfs_delete (s : Bfs) (filename : FileName) : Option (Int × Bfs) := do
  let hash := bfs_hash filename
  let search ← s.bfs_search hash
  if search.found then
    let leaf := (Page.decode (← s.bfs_read_page search.page_num)).remove_at search.index.toNat
    let s := s.bfs_write_page search.page_num leaf.encode
    let s := s.set_file_count (s.root.file_count - 1)
    some (0, s.bfs_name_table_remove hash)
  else some (-1, s)

/-- The super-block of a fresh disk. -/
def formatted_root (total_pages : UInt64) : Root where
  magic := BFS_MAGIC
  version := BFS_VERSION
  root_page := 1
  total_pages := total_pages
  free_pages := total_pages - 3
  next_free := 3
  file_count := 0
  rest := fun _ => 0

/-- Format the disk. The 64 bytes behind the cleared name table are whatever
follows its buffer in memory. The record of handed out pages starts over. -/
def bfs_format (s : Bfs) (behind : Fin 64 → UInt8) : Int × Bfs :=
  if s.ram_base &&& 7 ≠ 0 then (-1, s)
  else
    let s := bfs_flush_root
      { s with root := formatted_root (s.disk_size / UInt64.ofNat BFS_PAGE_SIZE)
               name_table_enabled := true, handed_out := [] }
    let s := s.bfs_write_page 1 fresh_page
    (0, s.bfs_name_table_write { entries := fun _ => NameEntry.zero, tail := behind })

end Bfs

end graceos.bfs
