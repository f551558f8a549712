import GraceOS.Cfdisk.GptEntries

/-!
# A partition table read back

Where `gpt_write` puts its sectors, and that `gpt_validate` and `gpt_read` find the table in them.
-/

namespace graceos.cfdisk

/-! ## The header -/

theorem store_again (buf : Buffer) (offset width first second : Nat) :
    word.store (word.store buf offset width first) offset width second = word.store buf offset width second := by
  funext a
  by_cases hin : offset ≤ a ∧ a < offset + width
  · rw [word.store, if_pos hin, word.store, if_pos hin]
  · rw [word.store_outside (by omega), word.store_outside (by omega), word.store_outside (by omega)]

section header

variable {sector_count my_lba alternate_lba entry_lba : UInt64} {array_crc : UInt32}

theorem gpt_header_fields :
    let hdr := gpt_header sector_count my_lba alternate_lba entry_lba array_crc
    word.load hdr 0 8 = GPT_HEADER_SIGNATURE ∧ word.load hdr 72 8 = entry_lba.toNat ∧
      word.load hdr 80 4 = MAX_GPT_PARTS ∧ word.load hdr 84 4 = GPT_ENTRY_SIZE := by
  have hlba := entry_lba.toNat_lt
  simp only [gpt_header, gpt_header_body]
  refine ⟨?_, ?_, ?_, ?_⟩
  · simp (disch := omega) only [word.load_store_apart]
    exact word.load_store (by decide)
  · simp (disch := omega) only [word.load_store_apart]
    exact word.load_store (by exact hlba)
  · simp (disch := omega) only [word.load_store_apart]
    exact word.load_store (by decide)
  · simp (disch := omega) only [word.load_store_apart]
    exact word.load_store (by decide)

theorem gpt_header_crc :
    let hdr := gpt_header sector_count my_lba alternate_lba entry_lba array_crc
    (header_crc (word.store hdr 16 4 0)).toNat = word.load hdr 16 4 := by
  let body := gpt_header_body sector_count my_lba alternate_lba entry_lba array_crc
  have hempty : word.store (word.store body 16 4 (header_crc body).toNat) 16 4 0 = body := by
    rw [store_again]
    exact store_again _ 16 4 0 0
  have hcrc := (header_crc body).toNat_lt
  simp only [gpt_header]
  rw [hempty, word.load_store (by exact hcrc)]

end header

theorem gpt_validate_header {d : Device} {sector_count my_lba alternate_lba entry_lba : UInt64} {array_crc : UInt32}
    (hread : disk_read d 1 = some (gpt_header sector_count my_lba alternate_lba entry_lba array_crc)) :
    gpt_validate d = 0 := by
  have hsign := (@gpt_header_fields sector_count my_lba alternate_lba entry_lba array_crc).1
  have hcrc := @gpt_header_crc sector_count my_lba alternate_lba entry_lba array_crc
  simp only at hsign hcrc
  rw [gpt_validate, hread]
  simp only
  rw [if_neg (not_not.mpr hsign), if_neg (not_not.mpr hcrc)]

/-! ## Where the sectors go -/

theorem write_sector_ok {d d' : Device} {lba : UInt64} {buf : Buffer} (hok : write_sector d lba buf = .ok d') :
    ∀ a, disk_read d' a = if a = lba then some buf else disk_read d a := by
  unfold write_sector at hok
  split at hok
  next => cases hok
  next d'' hwrite =>
    cases hok
    exact (disk_read_write hwrite).1

theorem bind_ok {α β : Type} {x : Except Device α} {f : α → Except Device β} {b : β} (h : (x >>= f) = .ok b) :
    ∃ a, x = .ok a ∧ f a = .ok b := by
  cases x with
  | error d => cases h
  | ok a => exact ⟨a, rfl, h⟩

/-- The entries are written to sectors that follow each other. -/
theorem write_entries_ok {d d' : Device} {lba : UInt64} {table : Buffer} {i n : Nat}
    (hrange : lba.toNat + i + n < 2 ^ 64) (hok : write_entries d lba table i n = .ok d') :
    ∀ a : UInt64, disk_read d' a =
      if lba.toNat + i ≤ a.toNat ∧ a.toNat < lba.toNat + i + n then some (entry_sector table (a.toNat - lba.toNat))
      else disk_read d a := by
  induction n generalizing d i with
  | zero =>
    intro a
    cases hok
    rw [if_neg (by omega)]
  | succ n ih =>
    intro a
    obtain ⟨d₁, hhere, hrest⟩ := bind_ok hok
    have hplace : (lba + UInt64.ofNat i).toNat = lba.toNat + i := by
      rw [UInt64.toNat_add, UInt64.toNat_ofNat_of_lt' (show i < 2 ^ 64 by omega)]
      exact Nat.mod_eq_of_lt (by omega)
    rw [ih (by omega) hrest a, write_sector_ok hhere a]
    by_cases hlater : lba.toNat + (i + 1) ≤ a.toNat ∧ a.toNat < lba.toNat + (i + 1) + n
    · rw [if_pos hlater, if_pos (by omega)]
    · rw [if_neg hlater]
      by_cases heq : a = lba + UInt64.ofNat i
      · have hat : a.toNat = lba.toNat + i := by rw [heq, hplace]
        rw [if_pos heq, if_pos (by omega), hat, Nat.add_sub_cancel_left]
        rfl
      · have hat : a.toNat ≠ lba.toNat + i := fun h => heq (UInt64.toNat_inj.mp (by rw [h, hplace]))
        rw [if_neg heq, if_neg (by omega)]

/-- The sectors of a table: the headers with the entries behind the first and in front of the second. -/
structure Area where
  first : Nat
  count : Nat
  deriving DecidableEq

def Area.Has (area : Area) (lba : UInt64) : Prop := area.first ≤ lba.toNat ∧ lba.toNat < area.first + area.count

def primary_header : Area := ⟨1, 1⟩
def primary_entries : Area := ⟨2, 32⟩
def backup_entries (disk : DiskInfo) : Area := ⟨disk.sector_count.toNat - 33, 32⟩
def backup_header (disk : DiskInfo) : Area := ⟨disk.sector_count.toNat - 1, 1⟩

def gpt_areas (disk : DiskInfo) : List Area :=
  [primary_header, primary_entries, backup_entries disk, backup_header disk]

def array_crc (parts : List Partition) : UInt32 :=
  crc32_compute (bytes_of (put_gpt_parts zeros 0 parts) (MAX_GPT_PARTS * GPT_ENTRY_SIZE))

/-- Every area holds its part of the table, and the sectors outside them are as before but for the boot record. -/
structure Written (d d' : Device) (s : State) : Prop where
  primary_header : ∀ a, primary_header.Has a → disk_read d' a =
    some (gpt_header s.disk.sector_count 1 (s.disk.sector_count - 1) PRIMARY_ENTRY_LBA (array_crc s.parts))
  primary_entries : ∀ a, primary_entries.Has a →
    disk_read d' a = some (entry_sector (put_gpt_parts zeros 0 s.parts) (a.toNat - 2))
  backup_entries : ∀ a, (backup_entries s.disk).Has a →
    disk_read d' a = some (entry_sector (put_gpt_parts zeros 0 s.parts) (a.toNat - (s.disk.sector_count.toNat - 33)))
  backup_header : ∀ a, (backup_header s.disk).Has a → disk_read d' a =
    some (gpt_header s.disk.sector_count (s.disk.sector_count - 1) 1 (backup_entry_lba s.disk.sector_count)
      (array_crc s.parts))
  outside : ∀ a, a ≠ 0 → (∀ area ∈ gpt_areas s.disk, ¬ area.Has a) → disk_read d' a = disk_read d a

theorem gpt_write_written {d : Device} {s : State} (hsize : 68 ≤ s.disk.sector_count.toNat)
    (hok : (gpt_write d s).1 = 0) : Written d (gpt_write d s).2 s := by
  have hne : (-1 : Int) ≠ 0 := by decide
  have hlt := s.disk.sector_count_lt
  unfold gpt_write at *
  cases hwrite : write_gpt d s with
  | error d' =>
    rw [hwrite] at hok
    exact absurd hok hne
  | ok d' =>
    simp only
    obtain ⟨d₁, hmbr, hrest₁⟩ := bind_ok hwrite
    obtain ⟨d₂, hfirst, hrest₂⟩ := bind_ok hrest₁
    obtain ⟨d₃, hheader, hrest₃⟩ := bind_ok hrest₂
    obtain ⟨d₄, hsecond, hbackup⟩ := bind_ok hrest₃
    have hlast : (s.disk.sector_count - 1).toNat = s.disk.sector_count.toNat - 1 := by
      rw [UInt64.toNat_sub]
      change (2 ^ 64 - 1 + s.disk.sector_count.toNat) % 2 ^ 64 = _
      omega
    have hentries : (backup_entry_lba s.disk.sector_count).toNat = s.disk.sector_count.toNat - 33 := by
      rw [backup_entry_lba, UInt64.toNat_sub, hlast]
      change (2 ^ 64 - 32 + (s.disk.sector_count.toNat - 1)) % 2 ^ 64 = _
      omega
    have hprimary : PRIMARY_ENTRY_LBA.toNat = 2 := rfl
    have hcount : ENTRY_SECTORS = 32 := rfl
    have hread₁ := write_sector_ok hmbr
    have hread₂ := write_entries_ok (by rw [hprimary, hcount]; omega) hfirst
    have hread₃ := write_sector_ok hheader
    have hread₄ := write_entries_ok (by rw [hentries, hcount]; omega) hsecond
    have hread₅ := write_sector_ok hbackup
    rw [hprimary, hcount] at hread₂
    rw [hentries, hcount] at hread₄
    have hone : ∀ a : UInt64, a = 1 ↔ a.toNat = 1 := fun a => UInt64.toNat_inj.symm
    have hzero : ∀ a : UInt64, a = 0 ↔ a.toNat = 0 := fun a => UInt64.toNat_inj.symm
    have hend : ∀ a : UInt64, a = s.disk.sector_count - 1 ↔ a.toNat = s.disk.sector_count.toNat - 1 := by
      intro a
      rw [← UInt64.toNat_inj, hlast]
    refine ⟨?_, ?_, ?_, ?_, ?_⟩
    · rintro a ⟨hlo, hhi⟩
      change 1 ≤ a.toNat at hlo
      change a.toNat < 1 + 1 at hhi
      rw [hread₅ a, if_neg (by rw [hend]; omega), hread₄ a, if_neg (by omega), hread₃ a, if_pos (by rw [hone]; omega)]
      rfl
    · rintro a ⟨hlo, hhi⟩
      change 2 ≤ a.toNat at hlo
      change a.toNat < 2 + 32 at hhi
      rw [hread₅ a, if_neg (by rw [hend]; omega), hread₄ a, if_neg (by omega), hread₃ a, if_neg (by rw [hone]; omega),
        hread₂ a, if_pos (by omega)]
    · rintro a ⟨hlo, hhi⟩
      change s.disk.sector_count.toNat - 33 ≤ a.toNat at hlo
      change a.toNat < s.disk.sector_count.toNat - 33 + 32 at hhi
      rw [hread₅ a, if_neg (by rw [hend]; omega), hread₄ a, if_pos (by omega)]
    · rintro a ⟨hlo, hhi⟩
      change s.disk.sector_count.toNat - 1 ≤ a.toNat at hlo
      change a.toNat < s.disk.sector_count.toNat - 1 + 1 at hhi
      rw [hread₅ a, if_pos (by rw [hend]; omega)]
      rfl
    · intro a hne hout
      have h₁ : ¬ (1 ≤ a.toNat ∧ a.toNat < 1 + 1) := hout primary_header (by simp [gpt_areas])
      have h₂ : ¬ (2 ≤ a.toNat ∧ a.toNat < 2 + 32) := hout primary_entries (by simp [gpt_areas])
      have h₃ : ¬ (s.disk.sector_count.toNat - 33 ≤ a.toNat ∧ a.toNat < s.disk.sector_count.toNat - 33 + 32) :=
        hout (backup_entries s.disk) (by simp [gpt_areas])
      have h₄ : ¬ (s.disk.sector_count.toNat - 1 ≤ a.toNat ∧ a.toNat < s.disk.sector_count.toNat - 1 + 1) :=
        hout (backup_header s.disk) (by simp [gpt_areas])
      rw [hread₅ a, if_neg (by rw [hend]; omega), hread₄ a, if_neg (by omega), hread₃ a, if_neg (by rw [hone]; omega),
        hread₂ a, if_neg (by omega), hread₁ a, if_neg hne]

/-! ## The round trip -/

theorem gpt_read_written {d d' : Device} {s : State} (h : Written d d' s) (s' : State) :
    gpt_validate d' = 0 ∧ (gpt_read d' s').1 = 0 ∧
      List.Forall₂ ReadBack (live s.parts) (gpt_read d' s').2.parts := by
  have hheader := h.primary_header 1 ⟨Nat.le_refl 1, Nat.lt_succ_self 1⟩
  obtain ⟨hsign, hlba, hcount, hsize⟩ := @gpt_header_fields s.disk.sector_count 1 (s.disk.sector_count - 1)
    PRIMARY_ENTRY_LBA (array_crc s.parts)
  have hentries : ∀ j < 32, disk_read d' (PRIMARY_ENTRY_LBA + UInt64.ofNat (0 + j)) =
      some (entry_sector (put_gpt_parts zeros 0 s.parts) (0 + j)) := by
    intro j hj
    have hplace : (PRIMARY_ENTRY_LBA + UInt64.ofNat (0 + j)).toNat = 2 + j := by
      rw [UInt64.toNat_add, UInt64.toNat_ofNat_of_lt' (show 0 + j < 2 ^ 64 by omega)]
      change (2 + (0 + j)) % 2 ^ 64 = _
      omega
    have hin : primary_entries.Has (PRIMARY_ENTRY_LBA + UInt64.ofNat (0 + j)) := by
      rw [Area.Has, hplace]
      exact ⟨Nat.le_add_right 2 j, Nat.add_lt_add_left hj 2⟩
    rw [h.primary_entries _ hin, hplace, Nat.add_sub_cancel_left, Nat.zero_add]
  have hlen : (live s.parts).length ≤ MAX_GPT_PARTS := Nat.le_trans (List.length_filter_le _ _) s.part_count_le
  have hparts : read_gpt_entries d' PRIMARY_ENTRY_LBA 128 128 (4 * 32) (UInt64.ofNat 0) [] =
      (entries_from (put_gpt_parts zeros 0 s.parts) 0 MAX_GPT_PARTS).foldl add_gpt_entry [] :=
    read_gpt_entries_sectors (by omega) hentries
  refine ⟨gpt_validate_header hheader, ?_, ?_⟩
  · rw [gpt_read, hheader]
    simp only
    rw [if_neg (not_not.mpr hsign)]
  · rw [gpt_read, hheader]
    simp only
    rw [if_neg (not_not.mpr hsign)]
    simp only [hlba, hcount, hsize, UInt64.ofNat_toNat, Nat.min_self]
    have hread := read_put_gpt_parts hlen
    rw [← hparts] at hread
    exact hread

theorem gpt_areas_apart {disk : DiskInfo} (hsize : 68 ≤ disk.sector_count.toNat) :
    (gpt_areas disk).Pairwise fun area area' => ∀ a, area.Has a → ¬ area'.Has a := by
  simp only [gpt_areas, List.pairwise_cons, List.mem_cons, List.not_mem_nil, or_false, forall_eq_or_imp, forall_eq,
    Area.Has, primary_header, primary_entries, backup_entries, backup_header]
  refine ⟨⟨?_, ?_, ?_⟩, ⟨?_, ?_⟩, ?_, ?_, List.Pairwise.nil⟩
  all_goals first | (intro a; omega) | (intro a ha; cases ha)

theorem gpt_areas_miss {s : State} (hsize : 68 ≤ s.disk.sector_count.toNat)
    (hlayout : Layout (last_usable s.disk) s.parts) :
    ∀ area ∈ gpt_areas s.disk, ∀ p ∈ live s.parts, ∀ a, area.Has a →
      ¬ (p.start_lba.toNat ≤ a.toNat ∧ a.toNat ≤ p.end_lba.toNat) := by
  have hlast := @last_usable_toNat s.disk (by omega)
  intro area harea p hp
  obtain ⟨hfirst, -, hend⟩ := hlayout.within p hp
  change 34 ≤ _ at hfirst
  rw [hlast] at hend
  simp only [gpt_areas, List.mem_cons, List.not_mem_nil, or_false] at harea
  obtain rfl | rfl | rfl | rfl := harea
  all_goals
    intro a ha
    simp only [Area.Has, primary_header, primary_entries, backup_entries, backup_header] at ha
    omega

/-- A table that is written is valid and read back, and its sectors are apart from each other and the partitions. -/
theorem gpt_write_read {d : Device} {s : State} (hsize : 68 ≤ s.disk.sector_count.toNat)
    (hvalid : ops_validate_gpt_layout s = 0) (hok : (gpt_write d s).1 = 0) (s' : State) :
    gpt_validate (gpt_write d s).2 = 0 ∧ (gpt_read (gpt_write d s).2 s').1 = 0 ∧
      List.Forall₂ ReadBack (live s.parts) (gpt_read (gpt_write d s).2 s').2.parts ∧
      Written d (gpt_write d s).2 s ∧
      ((gpt_areas s.disk).Pairwise fun area area' => ∀ a, area.Has a → ¬ area'.Has a) ∧
      ∀ area ∈ gpt_areas s.disk, ∀ p ∈ live s.parts, ∀ a, area.Has a →
        ¬ (p.start_lba.toNat ≤ a.toNat ∧ a.toNat ≤ p.end_lba.toNat) := by
  have hwritten := gpt_write_written hsize hok
  obtain ⟨hvalidated, hread, hparts⟩ := gpt_read_written hwritten s'
  exact ⟨hvalidated, hread, hparts, hwritten, gpt_areas_apart hsize,
    gpt_areas_miss hsize ((ops_validate_gpt_layout_iff s).mp hvalid)⟩

/-- A table with a partition that is deleted between two that are not. -/
def three_partitions : State where
  disk := ⟨100000, by decide⟩
  table_type := .TABLE_GPT
  parts := [
    { start_lba := 2048, end_lba := 4095, size_sectors := 2048, type := PART_TYPE_EFI,
      name := name_of (word.ascii "EFI"),
      is_new := true, is_deleted := false, is_gpt := true },
    { start_lba := 4096, end_lba := 8191, size_sectors := 4096, type := 0x83, name := name_of (part_name 2),
      is_new := true, is_deleted := true, is_gpt := true },
    { start_lba := 6144, end_lba := 99966, size_sectors := 93823, type := PART_TYPE_GRACE,
      name := name_of (word.ascii "BranchFS"), is_new := true, is_deleted := false, is_gpt := true }]
  part_count_le := by decide
  free := []
  selected := 0
  modified := true

theorem gpt_write_read_three :
    let d : Device := ⟨three_partitions.disk, fun _ => zeros, fun _ => true⟩
    gpt_validate (gpt_write d three_partitions).2 = 0 ∧
      (gpt_read (gpt_write d three_partitions).2 three_partitions).1 = 0 ∧
      List.Forall₂ ReadBack (live three_partitions.parts)
        (gpt_read (gpt_write d three_partitions).2 three_partitions).2.parts ∧
      Written d (gpt_write d three_partitions).2 three_partitions ∧
      ((gpt_areas three_partitions.disk).Pairwise fun area area' => ∀ a, area.Has a → ¬ area'.Has a) ∧
      ∀ area ∈ gpt_areas three_partitions.disk, ∀ p ∈ live three_partitions.parts, ∀ a, area.Has a →
        ¬ (p.start_lba.toNat ≤ a.toNat ∧ a.toNat ≤ p.end_lba.toNat) :=
  gpt_write_read (by decide) (by decide +kernel) (by decide +kernel) three_partitions

end graceos.cfdisk
