import GraceOS.Cfdisk.Table

/-!
# Sectors and the boot record

The disk as `disk_read` and `disk_write` show it, and `mbr.c` on it.
-/

namespace graceos.cfdisk

open List

/-- The bytes of a buffer. -/
abbrev Buffer := Nat → UInt8

def zeros : Buffer := fun _ => 0

/-- A disk. The kernel checks the range of a request and, for writes, the permission; a write may fail by its sector. -/
structure Device where
  info : DiskInfo
  sectors : UInt64 → Buffer
  write_ok : UInt64 → Bool

def disk_read (d : Device) (lba : UInt64) : Option Buffer :=
  if lba + 1 > d.info.sector_count then none else some (d.sectors lba)

def disk_write (d : Device) (lba : UInt64) (buf : Buffer) : Option Device :=
  if lba + 1 > d.info.sector_count || !d.write_ok lba then none
  else some { d with sectors := fun i => if i = lba then buf else d.sectors i }

theorem disk_read_write {d d' : Device} {lba : UInt64} {buf : Buffer} (hwrite : disk_write d lba buf = some d') :
    (∀ i, disk_read d' i = if i = lba then some buf else disk_read d i) ∧ d'.info = d.info := by
  unfold disk_write at hwrite
  split at hwrite
  next => cases hwrite
  next hrange =>
    cases hwrite
    have hin : ¬ lba + 1 > d.info.sector_count := by
      intro hout
      rw [decide_eq_true hout, Bool.true_or] at hrange
      exact hrange rfl
    refine ⟨fun i => ?_, rfl⟩
    unfold disk_read
    by_cases heq : i = lba
    · subst heq
      simp only [if_neg hin, if_true]
    · simp only [if_neg heq]

theorem map_getD_range {α : Type} (l : List α) (fill : α) (n : Nat) (hlen : l.length ≤ n) :
    (List.range n).map (fun i => l.getD i fill) = l ++ List.replicate (n - l.length) fill := by
  induction n generalizing l with
  | zero =>
    rw [List.length_eq_zero_iff.mp (Nat.le_zero.mp hlen)]
    rfl
  | succ n ih =>
    rw [range_succ_eq_map, map_cons, map_map]
    cases l with
    | nil =>
      have hrest := ih [] (Nat.zero_le n)
      rw [nil_append, length_nil, Nat.sub_zero] at hrest
      rw [nil_append, length_nil, Nat.sub_zero, replicate_succ, ← hrest]
      rfl
    | cons a l =>
      rw [length_cons] at hlen
      rw [length_cons, Nat.add_sub_add_right, cons_append, ← ih l (by omega)]
      rfl

/-! ## The boot record -/

def MBR_SIGNATURE : Nat := 0xAA55

/-- `mbr_entry_t`, but for the geometry. -/
structure MbrEntry where
  type : UInt8
  lba_start : UInt32
  lba_size : UInt32
  deriving DecidableEq

def mbr_offset (i : Nat) : Nat := 446 + 16 * i

def mbr_entry (sector : Buffer) (i : Nat) : MbrEntry where
  type := sector (mbr_offset i + 4)
  lba_start := UInt32.ofNat (word.load sector (mbr_offset i + 8) 4)
  lba_size := UInt32.ofNat (word.load sector (mbr_offset i + 12) 4)

def put_mbr_entry (sector : Buffer) (i : Nat) (e : MbrEntry) : Buffer :=
  let sector := word.store sector (mbr_offset i) 1 0
  let sector := word.store sector (mbr_offset i + 4) 1 e.type.toNat
  let sector := word.store sector (mbr_offset i + 8) 4 e.lba_start.toNat
  word.store sector (mbr_offset i + 12) 4 e.lba_size.toNat

/-- `memset` of the four entries. -/
def clear_mbr_entries (sector : Buffer) : Buffer := word.store sector (mbr_offset 0) 64 0

def mbr_entry_for (p : Partition) : MbrEntry := ⟨p.type, p.start_lba.toUInt32, p.size_sectors.toUInt32⟩

/-- The loop of `mbr_write`. -/
def put_mbr_parts (sector : Buffer) (entry_idx : Nat) : List Partition → Buffer
  | [] => sector
  | p :: parts =>
    if entry_idx ≥ 4 then sector
    else if p.is_deleted || p.is_gpt then put_mbr_parts sector entry_idx parts
    else put_mbr_parts (put_mbr_entry sector entry_idx (mbr_entry_for p)) (entry_idx + 1) parts

def mbr_write (d : Device) (s : State) : Int × Device :=
  match disk_read d 0 with
  | none => (-1, d)
  | some sector =>
    let sector := put_mbr_parts (clear_mbr_entries sector) 0 s.parts
    match disk_write d 0 (word.store sector 510 2 MBR_SIGNATURE) with
    | none => (-1, d)
    | some d => (0, d)

/-- The partition of an entry that is the last of `part_count`. -/
def mbr_partition (e : MbrEntry) (part_count : Nat) : Partition where
  start_lba := e.lba_start.toUInt64
  end_lba := e.lba_start.toUInt64 + e.lba_size.toUInt64 - 1
  size_sectors := e.lba_size.toUInt64
  type := e.type
  name := name_of (part_name part_count)
  is_new := false
  is_deleted := false
  is_gpt := false

/-- The loop of `mbr_read`. -/
def add_mbr_entry (parts : List Partition) (e : MbrEntry) : List Partition :=
  if e.type == PART_TYPE_EMPTY || e.lba_size == 0 then parts else parts ++ [mbr_partition e (parts.length + 1)]

def mbr_entries (sector : Buffer) : List MbrEntry := (List.range 4).map (mbr_entry sector)

theorem add_mbr_entry_length (parts : List Partition) (e : MbrEntry) :
    (add_mbr_entry parts e).length ≤ parts.length + 1 := by
  unfold add_mbr_entry
  split
  · exact Nat.le_succ _
  · rw [length_append, length_singleton]

theorem foldl_add_mbr_entry_length (entries : List MbrEntry) (parts : List Partition) :
    (entries.foldl add_mbr_entry parts).length ≤ parts.length + entries.length := by
  induction entries generalizing parts with
  | nil => exact Nat.le_refl _
  | cons e entries ih =>
    have hadd := add_mbr_entry_length parts e
    have hrest := ih (add_mbr_entry parts e)
    rw [foldl_cons, length_cons]
    omega

theorem mbr_parts_length (sector : Buffer) :
    ((mbr_entries sector).foldl add_mbr_entry []).length ≤ MAX_PARTITIONS := by
  have hle := foldl_add_mbr_entry_length (mbr_entries sector) []
  rw [mbr_entries, length_map, length_range] at hle
  exact Nat.le_trans hle (by decide)

def mbr_read (d : Device) (s : State) : Int × State :=
  match disk_read d 0 with
  | none => (-1, s)
  | some sector =>
    if word.load sector 510 2 ≠ MBR_SIGNATURE then (-1, s)
    else if (mbr_entries sector).any fun e => e.type == PART_TYPE_GPT then (1, { s with table_type := .TABLE_GPT })
    else
      (0, { s with
        table_type := .TABLE_MBR,
        parts := (mbr_entries sector).foldl add_mbr_entry [],
        part_count_le := mbr_parts_length sector })

/-- The loop of `mbr_validate`; `count` partitions were seen before. -/
def validate_mbr_parts (sector_count : UInt64) (count : Nat) : List Partition → Int
  | [] => 0
  | p :: parts =>
    if p.is_deleted then validate_mbr_parts sector_count count parts
    else if count + 1 > MAX_MBR_PARTS then -1
    else if p.end_lba ≥ sector_count then -1
    else if parts.any fun q => !q.is_deleted && overlap p q then -1
    else validate_mbr_parts sector_count (count + 1) parts

def mbr_validate (s : State) : Int := validate_mbr_parts s.disk.sector_count 0 s.parts

end graceos.cfdisk
