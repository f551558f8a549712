import GraceOS.Cfdisk.Crc
import GraceOS.Cfdisk.Disk

/-!
# The GUID partition table

`gpt.c` over the sectors of a disk, and `ops_commit`, which writes one of the two tables.
-/

namespace graceos.cfdisk

def GPT_HEADER_SIGNATURE : Nat := 0x5452415020494645
def GPT_HEADER_REVISION : Nat := 0x00010000
def GPT_HEADER_SIZE : Nat := 92
def GPT_ENTRY_SIZE : Nat := 128

def gpt_guid_efi_system : List UInt8 :=
  [0x28, 0x73, 0x2A, 0xC1, 0x1F, 0xF8, 0xD2, 0x11, 0xBA, 0x4B, 0x00, 0xA0, 0xC9, 0x3E, 0xC9, 0x3B]

def gpt_guid_basic_data : List UInt8 :=
  [0xA2, 0xA0, 0xD0, 0xEB, 0xE5, 0xB9, 0x33, 0x44, 0x87, 0xC0, 0x68, 0xB6, 0xB7, 0x26, 0x99, 0xC7]

def gpt_guid_grace_branchfs : List UInt8 :=
  [0x5B, 0x1E, 0x9F, 0x4D, 0x3A, 0x1E, 0x7D, 0x4C, 0x9C, 0x21, 0x7C, 0x8C, 0x3D, 0x2A, 0x9B, 0x1E]

def gpt_guid_is_empty (guid : List UInt8) : Bool := guid.all (· == 0)

def gpt_guid_for_type (type : UInt8) : List UInt8 :=
  if type = PART_TYPE_EFI then gpt_guid_efi_system
  else if type = PART_TYPE_GRACE then gpt_guid_grace_branchfs
  else gpt_guid_basic_data

/-- The first bytes of a buffer. -/
def bytes_of (buf : Buffer) (n : Nat) : List UInt8 := (List.range n).map buf

/-- `memcpy` of a list of bytes. -/
def put_bytes (buf : Buffer) (offset : Nat) (bytes : List UInt8) : Buffer := fun a =>
  if offset ≤ a ∧ a < offset + bytes.length then bytes.getD (a - offset) 0 else buf a

/-! ## Reading -/

/-- The checksum of as many bytes as a header says it has. -/
def header_crc (hdr : Buffer) : UInt32 := crc32_compute (bytes_of hdr (word.load hdr 12 4))

def gpt_validate (d : Device) : Int :=
  match disk_read d 1 with
  | none => -1
  | some hdr =>
    if word.load hdr 0 8 ≠ GPT_HEADER_SIGNATURE then -1
    else
      let computed := header_crc (word.store hdr 16 4 0)
      if computed.toNat ≠ word.load hdr 16 4 then -1 else 0

/-- The characters of a name, cut to seven bits. -/
def gpt_name (e : Buffer) : List UInt8 :=
  (((List.range 35).map fun wi => word.load e (56 + 2 * wi) 2).takeWhile (· ≠ 0)).map fun w => UInt8.ofNat (w &&& 0x7F)

/-- A name that starts with a NUL is overwritten. -/
def name_or_default (chars : List UInt8) (part_count : Nat) : List UInt8 :=
  if chars.headD 0 = 0 then part_name part_count ++ [0] ++ chars.drop 6 else chars

def gpt_type (guid : List UInt8) : UInt8 :=
  if guid = gpt_guid_efi_system then PART_TYPE_EFI
  else if guid = gpt_guid_grace_branchfs then PART_TYPE_GRACE
  else PART_TYPE_GPT

/-- The partition of an entry that is the last of `part_count`. -/
def gpt_partition (e : Buffer) (part_count : Nat) : Partition :=
  let start_lba := UInt64.ofNat (word.load e 32 8)
  let end_lba := UInt64.ofNat (word.load e 40 8)
  { start_lba := start_lba
    end_lba := end_lba
    size_sectors := end_lba - start_lba + 1
    type := gpt_type (bytes_of e 16)
    name := name_of (name_or_default (gpt_name e) part_count)
    is_new := false
    is_deleted := false
    is_gpt := true }

/-- The body of the loop over the entries. The table in memory never fills up: no more entries are read. -/
def add_gpt_entry (parts : List Partition) (e : Buffer) : List Partition :=
  if gpt_guid_is_empty (bytes_of e 16) then parts
  else if parts.length ≥ MAX_PARTITIONS then parts
  else parts ++ [gpt_partition e (parts.length + 1)]

/-- The loop over the entries of a sector, and how many are still to be read behind it. -/
def read_gpt_sector (sector : Buffer) (entry_size : Int) : Nat → Nat → List Partition → Nat × List Partition
  | 0, _, parts => (0, parts)
  | left + 1, ei, parts =>
    if ei * entry_size < SECTOR_SIZE then
      read_gpt_sector sector entry_size left (ei + 1)
        (add_gpt_entry parts fun k => sector ((ei * entry_size).toNat + k))
    else (left + 1, parts)

/-- The loop over the sectors; every turn reads an entry, so `left` turns are enough. -/
def read_gpt_entries (d : Device) (entry_lba : UInt64) (entry_size : Int) :
    Nat → Nat → UInt64 → List Partition → List Partition
  | 0, _, _, parts => parts
  | fuel + 1, left, lba_off, parts =>
    if left = 0 then parts
    else
      match disk_read d (entry_lba + lba_off) with
      | none => parts
      | some sector =>
        let (left, parts) := read_gpt_sector sector entry_size left 0 parts
        read_gpt_entries d entry_lba entry_size fuel left (lba_off + 1) parts

/-- The value of a 32-bit word as a signed number. -/
def int_of (word : Nat) : Int := if word < 2 ^ 31 then word else word - 2 ^ 32

theorem add_gpt_entry_length {parts : List Partition} (hlen : parts.length ≤ MAX_PARTITIONS) (e : Buffer) :
    (add_gpt_entry parts e).length ≤ MAX_PARTITIONS := by
  unfold add_gpt_entry
  split
  · exact hlen
  · split
    · exact hlen
    · rw [List.length_append, List.length_singleton]
      omega

theorem read_gpt_sector_length {sector : Buffer} {entry_size : Int} {left ei : Nat} {parts : List Partition}
    (hlen : parts.length ≤ MAX_PARTITIONS) :
    (read_gpt_sector sector entry_size left ei parts).2.length ≤ MAX_PARTITIONS := by
  induction left generalizing ei parts with
  | zero => exact hlen
  | succ left ih =>
    rw [read_gpt_sector]
    split
    · exact ih (add_gpt_entry_length hlen _)
    · exact hlen

theorem read_gpt_entries_length {d : Device} {entry_lba lba_off : UInt64} {entry_size : Int} {fuel left : Nat}
    {parts : List Partition} (hlen : parts.length ≤ MAX_PARTITIONS) :
    (read_gpt_entries d entry_lba entry_size fuel left lba_off parts).length ≤ MAX_PARTITIONS := by
  induction fuel generalizing left lba_off parts with
  | zero => exact hlen
  | succ fuel ih =>
    rw [read_gpt_entries]
    split
    · exact hlen
    · split
      · exact hlen
      · exact ih (read_gpt_sector_length hlen)

def gpt_read (d : Device) (s : State) : Int × State :=
  match disk_read d 1 with
  | none => (-1, s)
  | some hdr =>
    if word.load hdr 0 8 ≠ GPT_HEADER_SIGNATURE then (-1, s)
    else
      let num_entries := min (word.load hdr 80 4) MAX_GPT_PARTS
      let entry_lba := UInt64.ofNat (word.load hdr 72 8)
      (0, { s with
        table_type := .TABLE_GPT,
        parts := read_gpt_entries d entry_lba (int_of (word.load hdr 84 4)) num_entries num_entries 0 [],
        part_count_le := read_gpt_entries_length (Nat.zero_le _) })

/-! ## Writing -/

/-- The characters of a name that are written. -/
def name_chars (p : Partition) : List UInt8 := (p.name.toList.take 35).takeWhile (· ≠ 0)

/-- The loop over the characters of a name. -/
def put_gpt_name (table : Buffer) (offset : Nat) : List UInt8 → Buffer
  | [] => table
  | c :: chars => put_gpt_name (word.store table offset 2 c.toNat) (offset + 2) chars

/-- An entry but for its name. -/
def put_gpt_fields (table : Buffer) (offset : Nat) (p : Partition) : Buffer :=
  let table := put_bytes table offset (gpt_guid_for_type p.type)
  let table := word.store table (offset + 32) 8 p.start_lba.toNat
  let table := word.store table (offset + 40) 8 p.end_lba.toNat
  word.store table (offset + 48) 8 0

def put_gpt_entry (table : Buffer) (entry_idx : Nat) (p : Partition) : Buffer :=
  let offset := entry_idx * GPT_ENTRY_SIZE
  put_gpt_name (put_gpt_fields table offset p) (offset + 56) (name_chars p)

def put_gpt_parts (table : Buffer) (entry_idx : Nat) : List Partition → Buffer
  | [] => table
  | p :: parts =>
    if entry_idx ≥ MAX_GPT_PARTS then table
    else if p.is_deleted then put_gpt_parts table entry_idx parts
    else put_gpt_parts (put_gpt_entry table entry_idx p) (entry_idx + 1) parts

/-- The header of a table with an empty checksum. -/
def gpt_header_body (sector_count my_lba alternate_lba entry_lba : UInt64) (array_crc : UInt32) : Buffer :=
  let hdr := word.store zeros 0 8 GPT_HEADER_SIGNATURE
  let hdr := word.store hdr 8 4 GPT_HEADER_REVISION
  let hdr := word.store hdr 12 4 GPT_HEADER_SIZE
  let hdr := word.store hdr 24 8 my_lba.toNat
  let hdr := word.store hdr 32 8 alternate_lba.toNat
  let hdr := word.store hdr 40 8 34
  let hdr := word.store hdr 48 8 (sector_count - 34).toNat
  let hdr := word.store hdr 72 8 entry_lba.toNat
  let hdr := word.store hdr 80 4 MAX_GPT_PARTS
  let hdr := word.store hdr 84 4 GPT_ENTRY_SIZE
  let hdr := word.store hdr 88 4 array_crc.toNat
  word.store hdr 16 4 0

def gpt_header (sector_count my_lba alternate_lba entry_lba : UInt64) (array_crc : UInt32) : Buffer :=
  let hdr := gpt_header_body sector_count my_lba alternate_lba entry_lba array_crc
  word.store hdr 16 4 (header_crc hdr).toNat

def protective_mbr (sector_count : UInt64) : Buffer :=
  let lba_size := if sector_count > 0xFFFFFFFF then 0xFFFFFFFF else (sector_count - 1).toUInt32
  put_mbr_entry (word.store zeros 510 2 MBR_SIGNATURE) 0 ⟨PART_TYPE_GPT, 1, lba_size⟩

/-- A write of one sector. What was written before stays written when it fails. -/
def write_sector (d : Device) (lba : UInt64) (buf : Buffer) : Except Device Device :=
  match disk_write d lba buf with
  | none => .error d
  | some d => .ok d

def ENTRY_SECTORS : Nat := MAX_GPT_PARTS * GPT_ENTRY_SIZE / SECTOR_SIZE

/-- The loop over the sectors of the entries, from sector `i` on. -/
def write_entries (d : Device) (entry_lba : UInt64) (entry_table : Buffer) (i : Nat) : Nat → Except Device Device
  | 0 => .ok d
  | left + 1 => do
    let d ← write_sector d (entry_lba + UInt64.ofNat i) fun k => entry_table (i * SECTOR_SIZE + k)
    write_entries d entry_lba entry_table (i + 1) left

def PRIMARY_ENTRY_LBA : UInt64 := 2

def backup_entry_lba (sector_count : UInt64) : UInt64 := sector_count - 1 - UInt64.ofNat ENTRY_SECTORS

def write_gpt (d : Device) (s : State) : Except Device Device := do
  let sector_count := s.disk.sector_count
  let entry_table := put_gpt_parts zeros 0 s.parts
  let array_crc := crc32_compute (bytes_of entry_table (MAX_GPT_PARTS * GPT_ENTRY_SIZE))
  let d ← write_sector d 0 (protective_mbr sector_count)
  let d ← write_entries d PRIMARY_ENTRY_LBA entry_table 0 ENTRY_SECTORS
  let d ← write_sector d 1 (gpt_header sector_count 1 (sector_count - 1) PRIMARY_ENTRY_LBA array_crc)
  let d ← write_entries d (backup_entry_lba sector_count) entry_table 0 ENTRY_SECTORS
  write_sector d (sector_count - 1)
    (gpt_header sector_count (sector_count - 1) 1 (backup_entry_lba sector_count) array_crc)

def gpt_write (d : Device) (s : State) : Int × Device :=
  match write_gpt d s with
  | .error d => (-1, d)
  | .ok d => (0, d)

/-! ## Committing a table -/

def ops_commit (d : Device) (s : State) : Int × Device × State :=
  let validated := if s.table_type = .TABLE_GPT then ops_validate_gpt_layout s else mbr_validate s
  if validated < 0 then (-1, d, s)
  else
    let (result, d) := if s.table_type = .TABLE_GPT then gpt_write d s else mbr_write d s
    (result, d, if result = 0 then { s with modified := false } else s)

end graceos.cfdisk
