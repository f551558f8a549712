import GraceOS.Cfdisk.Layout
import GraceOS.Cfdisk.Gpt

/-!
# The EFI and BranchFS layout

`ops_make_efi_branchfs` replaces the table by two partitions. It clears the table before the two checks that there is
room for them.
-/

namespace graceos.cfdisk

def efi_size (efi_size_mb : UInt64) : UInt64 := if efi_size_mb = 0 then 512 else efi_size_mb

def efi_sectors (efi_size_mb : UInt64) : UInt64 :=
  let sectors := efi_size efi_size_mb * 1024 * 1024 / UInt64.ofNat SECTOR_SIZE
  if sectors < ALIGNMENT_LBA then ALIGNMENT_LBA else sectors

/-- A partition of the layout. -/
def efi_layout_partition (start_lba end_lba size_sectors : UInt64) (type : UInt8) (name : List UInt8) : Partition where
  start_lba := start_lba
  end_lba := end_lba
  size_sectors := size_sectors
  type := type
  name := name_of name
  is_new := true
  is_deleted := false
  is_gpt := true

def efi_start : UInt64 := disk_align_lba FIRST_USABLE

def efi_end (efi_size_mb : UInt64) : UInt64 := efi_start + efi_sectors efi_size_mb - 1

def efi_partition (efi_size_mb : UInt64) : Partition :=
  efi_layout_partition efi_start (efi_end efi_size_mb) (efi_sectors efi_size_mb) PART_TYPE_EFI (word.ascii "EFI")

def data_start (efi_size_mb : UInt64) : UInt64 := disk_align_lba (efi_end efi_size_mb + 1)

def data_partition (disk : DiskInfo) (efi_size_mb : UInt64) : Partition :=
  efi_layout_partition (data_start efi_size_mb) (last_usable disk)
    (last_usable disk - data_start efi_size_mb + 1) PART_TYPE_GRACE (word.ascii "BranchFS")

/-- The table type, the list and the selection as the command sets them on its way. -/
def State.laid_out (s : State) (parts : List Partition) (hparts : parts.length ≤ 2) : State :=
  { s with table_type := .TABLE_GPT, parts := parts, part_count_le := le_trans hparts (by decide), selected := 0 }

def ops_make_efi_branchfs (s : State) (efi_size_mb : UInt64) : Int × State :=
  if last_usable s.disk ≤ FIRST_USABLE then (-1, s)
  else if efi_end efi_size_mb > last_usable s.disk then (-1, s.laid_out [] (by decide))
  else if data_start efi_size_mb > last_usable s.disk then
    (-1, s.laid_out [efi_partition efi_size_mb] (by simp))
  else
    let s' := s.laid_out [efi_partition efi_size_mb, data_partition s.disk efi_size_mb] (by simp)
    (0, ops_rebuild_free (ops_sort_partitions { s' with modified := true }))

/-! ## What a failure leaves behind -/

/-- The session is as before, and a commit does to the disk what it would have done before. -/
structure Untouched (s s' : State) : Prop where
  table_type : s'.table_type = s.table_type
  parts : s'.parts = s.parts
  selected : s'.selected = s.selected
  modified : s'.modified = s.modified
  commit : ∀ d, (ops_commit d s').2.1 = (ops_commit d s).2.1

theorem Untouched.refl (s : State) : Untouched s s := ⟨rfl, rfl, rfl, rfl, fun _ => rfl⟩

theorem laid_out_untouched {s : State} {parts : List Partition} {hparts : parts.length ≤ 2} :
    Untouched s (s.laid_out parts hparts) ↔ s.table_type = .TABLE_GPT ∧ s.parts = parts ∧ s.selected = 0 := by
  constructor
  · intro h
    exact ⟨h.table_type.symm, h.parts.symm, h.selected.symm⟩
  · rintro ⟨htype, hlist, hselected⟩
    have hsame : s.laid_out parts hparts = s := by
      cases s
      cases htype
      cases hlist
      cases hselected
      rfl
    rw [hsame]
    exact .refl s

/-- The number of sectors of the EFI partition, in unbounded numbers but for the size in bytes. -/
def efi_sector_count (efi_size_mb : UInt64) : Nat :=
  max 2048 ((if efi_size_mb = 0 then 512 else efi_size_mb.toNat) * 2 ^ 20 % 2 ^ 64 / 512)

theorem efi_sectors_toNat (efi_size_mb : UInt64) : (efi_sectors efi_size_mb).toNat = efi_sector_count efi_size_mb := by
  have hsize : (efi_size efi_size_mb).toNat = if efi_size_mb = 0 then 512 else efi_size_mb.toNat := by
    unfold efi_size
    split <;> rfl
  have hquot : (efi_size efi_size_mb * 1024 * 1024 / UInt64.ofNat SECTOR_SIZE).toNat =
      (if efi_size_mb = 0 then 512 else efi_size_mb.toNat) * 2 ^ 20 % 2 ^ 64 / 512 := by
    rw [UInt64.toNat_div, UInt64.toNat_mul, UInt64.toNat_mul, hsize]
    change (_ * 1024 % 2 ^ 64 * 1024 % 2 ^ 64) / 512 = _
    omega
  unfold efi_sectors efi_sector_count
  dsimp only
  rw [← hquot]
  generalize efi_size efi_size_mb * 1024 * 1024 / UInt64.ofNat SECTOR_SIZE = sectors
  have halign : ALIGNMENT_LBA.toNat = 2048 := rfl
  split
  next hlt =>
    rw [UInt64.lt_iff_toNat_lt] at hlt
    omega
  next hge =>
    rw [UInt64.lt_iff_toNat_lt] at hge
    omega

theorem efi_sector_count_lt (efi_size_mb : UInt64) : efi_sector_count efi_size_mb < 2 ^ 55 := by
  unfold efi_sector_count
  omega

theorem efi_end_toNat (efi_size_mb : UInt64) :
    (efi_end efi_size_mb).toNat = 2047 + efi_sector_count efi_size_mb := by
  have hlt := efi_sector_count_lt efi_size_mb
  rw [efi_end, UInt64.toNat_sub, UInt64.toNat_add, efi_sectors_toNat]
  change (2 ^ 64 - 1 + (2048 + efi_sector_count efi_size_mb) % 2 ^ 64) % 2 ^ 64 = _
  omega

theorem data_start_toNat (efi_size_mb : UInt64) :
    (data_start efi_size_mb).toNat = (4095 + efi_sector_count efi_size_mb) / 2048 * 2048 := by
  have hlt := efi_sector_count_lt efi_size_mb
  have hnext : (efi_end efi_size_mb + 1).toNat = 2048 + efi_sector_count efi_size_mb := by
    rw [UInt64.toNat_add, efi_end_toNat]
    change (2047 + efi_sector_count efi_size_mb + 1) % 2 ^ 64 = _
    omega
  rw [data_start, disk_align_lba_toNat (by omega), hnext]
  omega

/-- The conditions on the disk and the size of the EFI partition under which the command leaves the session alone or
succeeds, and else what the session has to be before. -/
def LeavesSession (s : State) (efi_size_mb : UInt64) : Prop :=
  let last := (last_usable s.disk).toNat
  let sectors := efi_sector_count efi_size_mb
  last ≤ 34 ∨ (4095 + sectors) / 2048 * 2048 ≤ last ∨
    (s.table_type = .TABLE_GPT ∧ s.selected = 0 ∧
      s.parts = if last < 2047 + sectors then [] else [efi_partition efi_size_mb])

/-- A failed command leaves the session untouched exactly where the disk has no usable sector, or has room for both
partitions so that nothing fails, or the session is already what the failed command leaves behind. -/
theorem ops_make_efi_branchfs_untouched_iff (s : State) (efi_size_mb : UInt64) :
    ((ops_make_efi_branchfs s efi_size_mb).1 = -1 → Untouched s (ops_make_efi_branchfs s efi_size_mb).2) ↔
      LeavesSession s efi_size_mb := by
  have hend := efi_end_toNat efi_size_mb
  have hdata := data_start_toNat efi_size_mb
  have hfirst : FIRST_USABLE.toNat = 34 := rfl
  unfold ops_make_efi_branchfs LeavesSession
  dsimp only
  generalize last_usable s.disk = last
  by_cases hsmall : last ≤ FIRST_USABLE
  · rw [if_pos hsmall]
    rw [UInt64.le_iff_toNat_le, hfirst] at hsmall
    exact ⟨fun _ => .inl hsmall, fun _ _ => .refl s⟩
  rw [if_neg hsmall]
  rw [UInt64.le_iff_toNat_le, hfirst] at hsmall
  by_cases hefi : efi_end efi_size_mb > last
  · -- the table was cleared
    rw [if_pos hefi]
    rw [gt_iff_lt, UInt64.lt_iff_toNat_lt, hend] at hefi
    rw [if_pos hefi]
    constructor
    · intro h
      obtain ⟨htype, hparts, hselected⟩ := (@laid_out_untouched s [] (by decide)).mp (h rfl)
      exact .inr (.inr ⟨htype, hselected, hparts⟩)
    · rintro (h | h | ⟨htype, hselected, hparts⟩) -
      · omega
      · omega
      · exact (@laid_out_untouched s [] (by decide)).mpr ⟨htype, hparts, hselected⟩
  rw [if_neg hefi]
  rw [gt_iff_lt, UInt64.lt_iff_toNat_lt, hend] at hefi
  rw [if_neg hefi]
  by_cases hroom : data_start efi_size_mb > last
  · -- the table was replaced by the first partition
    rw [if_pos hroom]
    rw [gt_iff_lt, UInt64.lt_iff_toNat_lt, hdata] at hroom
    constructor
    · intro h
      obtain ⟨htype, hparts, hselected⟩ := (@laid_out_untouched s [efi_partition efi_size_mb] (by simp)).mp (h rfl)
      exact .inr (.inr ⟨htype, hselected, hparts⟩)
    · rintro (h | h | ⟨htype, hselected, hparts⟩) -
      · omega
      · omega
      · exact (@laid_out_untouched s [efi_partition efi_size_mb] (by simp)).mpr ⟨htype, hparts, hselected⟩
  · rw [if_neg hroom]
    rw [gt_iff_lt, UInt64.lt_iff_toNat_lt, hdata] at hroom
    refine ⟨fun _ => .inr (.inl (by omega)), fun _ h => ?_⟩
    cases h

/-- A disk of 32 MiB with one MBR partition, of which nothing was changed. -/
def small_disk : State where
  disk := ⟨65536, by decide⟩
  table_type := .TABLE_MBR
  parts := [{
    start_lba := 2048, end_lba := 65000, size_sectors := 62953, type := 0x83, name := name_of (part_name 1),
    is_new := false, is_deleted := false, is_gpt := false }]
  part_count_le := by decide
  free := []
  selected := 0
  modified := false

/-- The command that the editor offers fails on the small disk, and the list that a commit then validates and writes is
an empty GPT. -/
theorem ops_make_efi_branchfs_clears :
    (ops_make_efi_branchfs small_disk 512).1 = -1 ∧ (ops_make_efi_branchfs small_disk 512).2.table_type = .TABLE_GPT ∧
      (ops_make_efi_branchfs small_disk 512).2.parts = [] ∧
      ops_validate_gpt_layout (ops_make_efi_branchfs small_disk 512).2 = 0 ∧
      ¬ Untouched small_disk (ops_make_efi_branchfs small_disk 512).2 := by
  refine ⟨by decide +kernel, by decide +kernel, by decide +kernel, by decide +kernel, fun h => ?_⟩
  exact absurd h.parts (by decide +kernel)

end graceos.cfdisk
