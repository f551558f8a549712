import GraceOS.Lib.Word
import Mathlib.Algebra.Order.Ring.Int
import Mathlib.Data.List.Sort

/-!
# The partition table in memory

The state of a session of `cfdisk` and the operations of `operations.c` on it. An array with its count is the list of
the elements in use.
-/

namespace graceos.cfdisk

def SECTOR_SIZE : Nat := 512
def ALIGNMENT_LBA : UInt64 := 2048
def MAX_MBR_PARTS : Nat := 4
def MAX_GPT_PARTS : Nat := 128
def MAX_PARTITIONS : Nat := 128
def CFDISK_MAX_FREE_REGIONS : Nat := 32

def PART_TYPE_EMPTY : UInt8 := 0x00
def PART_TYPE_EFI : UInt8 := 0xEF
def PART_TYPE_GPT : UInt8 := 0xEE
def PART_TYPE_GRACE : UInt8 := 0xAA

/-- `disk_info_t`. The kernel reports a size in bytes, divided by 512. -/
structure DiskInfo where
  sector_count : UInt64
  sector_count_lt : sector_count.toNat < 2 ^ 55

structure Partition where
  start_lba : UInt64
  end_lba : UInt64
  size_sectors : UInt64
  type : UInt8
  name : Vector UInt8 36
  is_new : Bool
  is_deleted : Bool
  is_gpt : Bool
  deriving DecidableEq

structure FreeRegion where
  start_lba : UInt64
  size_sectors : UInt64
  deriving DecidableEq

inductive TableType where
  | TABLE_UNKNOWN
  | TABLE_MBR
  | TABLE_GPT
  deriving DecidableEq

/-- `cfdisk_state_t`, but for the device and the flag of the main loop. -/
structure State where
  disk : DiskInfo
  table_type : TableType
  parts : List Partition
  part_count_le : parts.length ≤ MAX_PARTITIONS
  free : List FreeRegion
  selected : Int
  modified : Bool

/-- The bytes of a name, filled up with NULs. -/
def name_of (bytes : List UInt8) : Vector UInt8 36 := Vector.ofFn fun i => bytes.getD i 0

/-- The name `part` with a character that counts. -/
def part_name (part_count : Nat) : List UInt8 := word.ascii "part" ++ [UInt8.ofNat (48 + part_count)]

def disk_align_lba (lba : UInt64) : UInt64 := (lba + ALIGNMENT_LBA - 1) &&& ~~~(ALIGNMENT_LBA - 1)

/-! ## Validation -/

def FIRST_USABLE : UInt64 := 34

def last_usable (disk : DiskInfo) : UInt64 := disk.sector_count - 34

def overlap (p q : Partition) : Bool := p.start_lba ≤ q.end_lba && q.start_lba ≤ p.end_lba

/-- The loop of `ops_validate_gpt_layout`; `count` partitions were seen before. -/
def validate_gpt_parts (last : UInt64) (count : Nat) : List Partition → Int
  | [] => 0
  | p :: parts =>
    if p.is_deleted then validate_gpt_parts last count parts
    else if count + 1 > MAX_PARTITIONS then -1
    else if p.start_lba < FIRST_USABLE || p.end_lba > last then -1
    else if p.end_lba < p.start_lba then -1
    else if parts.any fun q => !q.is_deleted && overlap p q then -1
    else validate_gpt_parts last (count + 1) parts

def ops_validate_gpt_layout (s : State) : Int := validate_gpt_parts (last_usable s.disk) 0 s.parts

/-! ## Sorting -/

/-- The inner loop of the insertion sort: `tmp` slides down the elements before it, the last of them first. -/
def slide (tmp : Partition) : List Partition → List Partition
  | [] => [tmp]
  | q :: before => if q.start_lba > tmp.start_lba then q :: slide tmp before else tmp :: q :: before

def sort_parts (parts : List Partition) : List Partition :=
  (parts.foldl (fun before tmp => slide tmp before) []).reverse

/-- The order of the elements before a place, from that place down. -/
def starts_after (p q : Partition) : Prop := q.start_lba ≤ p.start_lba

instance : DecidableRel starts_after := fun p q => inferInstanceAs (Decidable (q.start_lba ≤ p.start_lba))

instance : Std.Total starts_after := ⟨fun p q => le_total q.start_lba p.start_lba⟩

instance : IsTrans Partition starts_after := ⟨fun _ _ _ hpq hqr => le_trans hqr hpq⟩

theorem slide_eq_orderedInsert (tmp : Partition) (before : List Partition) :
    slide tmp before = before.orderedInsert starts_after tmp := by
  induction before with
  | nil => rfl
  | cons q before ih =>
    rw [slide, List.orderedInsert_cons, ih]
    by_cases hle : q.start_lba ≤ tmp.start_lba
    · rw [if_neg (not_lt.mpr hle), if_pos (show starts_after tmp q from hle)]
    · rw [if_pos (not_le.mp hle), if_neg (show ¬ starts_after tmp q from hle)]

theorem sort_parts_eq (parts : List Partition) :
    sort_parts parts = (parts.reverse.insertionSort starts_after).reverse := by
  have hfold : parts.foldl (fun before tmp => slide tmp before) [] =
      parts.reverse.foldr (fun tmp before => slide tmp before) [] := List.foldr_reverse.symm
  rw [sort_parts, hfold]
  simp only [slide_eq_orderedInsert]
  rfl

theorem sort_parts_perm (parts : List Partition) : (sort_parts parts).Perm parts := by
  rw [sort_parts_eq]
  exact (List.reverse_perm _).trans ((List.perm_insertionSort starts_after _).trans (List.reverse_perm parts))

theorem sort_parts_sorted (parts : List Partition) :
    (sort_parts parts).Pairwise fun p q => p.start_lba ≤ q.start_lba := by
  rw [sort_parts_eq, List.pairwise_reverse]
  exact List.pairwise_insertionSort starts_after parts.reverse

def ops_sort_partitions (s : State) : State :=
  { s with parts := sort_parts s.parts, part_count_le := (sort_parts_perm s.parts).length_eq ▸ s.part_count_le }

/-! ## Free regions -/

/-- The regions found so far and the sector behind the last partition. -/
structure Sweep where
  free : List FreeRegion
  cursor : UInt64

def add_region (free : List FreeRegion) (start_lba size_sectors : UInt64) : List FreeRegion :=
  if free.length < CFDISK_MAX_FREE_REGIONS then free ++ [⟨start_lba, size_sectors⟩] else free

/-- The body of the loop of `ops_rebuild_free`. -/
def sweep_part (w : Sweep) (p : Partition) : Sweep :=
  if p.is_deleted then w
  else
    { free := if p.start_lba > w.cursor then add_region w.free w.cursor (p.start_lba - w.cursor) else w.free,
      cursor := p.end_lba + 1 }

/-- The region behind the last partition. -/
def sweep_end (usable_end : UInt64) (w : Sweep) : List FreeRegion :=
  if w.cursor < usable_end then add_region w.free w.cursor (usable_end - w.cursor) else w.free

def ops_rebuild_free (s : State) : State :=
  let s := ops_sort_partitions s
  { s with free := sweep_end (last_usable s.disk) (s.parts.foldl sweep_part ⟨[], FIRST_USABLE⟩) }

/-! ## Changes -/

def new_partition (s : State) (start_lba size_sectors : UInt64) (type : UInt8) : Partition where
  start_lba := start_lba
  end_lba := start_lba + size_sectors - 1
  size_sectors := size_sectors
  type := type
  name := name_of (part_name (s.parts.length + 1))
  is_new := true
  is_deleted := false
  is_gpt := s.table_type = .TABLE_GPT

def ops_new_partition (s : State) (size_sectors : UInt64) (type : UInt8) : Int × State :=
  if hfull : s.parts.length ≥ MAX_PARTITIONS then (-1, s)
  else
    let s' := ops_rebuild_free s
    match s'.free.find? fun r => r.size_sectors ≥ size_sectors with
    | none => (-1, s')
    | some chosen =>
      let start := disk_align_lba chosen.start_lba
      if start + size_sectors - 1 > chosen.start_lba + chosen.size_sectors - 1 then (-1, s')
      else
        have hroom : (s'.parts ++ [new_partition s' start size_sectors type]).length ≤ MAX_PARTITIONS := by
          have hlen : s'.parts.length = s.parts.length := (sort_parts_perm s.parts).length_eq
          rw [List.length_append, hlen, List.length_singleton]
          omega
        (0, ops_sort_partitions { s' with
          parts := s'.parts ++ [new_partition s' start size_sectors type],
          part_count_le := hroom, modified := true })

/-- The partition as it is once deleted. -/
def Partition.delete (p : Partition) : Partition := { p with is_deleted := true }

def ops_delete_partition (s : State) : Int × State :=
  if s.selected < 0 ∨ s.selected ≥ s.parts.length then (-1, s)
  else
    (0, { s with
      parts := s.parts.modify s.selected.toNat Partition.delete,
      part_count_le := by rw [List.length_modify]; exact s.part_count_le,
      modified := true })

def ops_select_prev (s : State) : State := if s.selected > 0 then { s with selected := s.selected - 1 } else s

def ops_select_next (s : State) : State :=
  if s.selected < (s.parts.length : Int) - 1 then { s with selected := s.selected + 1 } else s

end graceos.cfdisk
