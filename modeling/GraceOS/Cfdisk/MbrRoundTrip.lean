import GraceOS.Cfdisk.Gpt
import GraceOS.Cfdisk.Layout

/-!
# A boot record read back

What `mbr_read` finds after a commit, and for which tables it is what was committed.
-/

namespace graceos.cfdisk

open List

/-! ## Entries -/

variable {sector : Buffer} {i : Nat}

theorem byte_store {offset : Nat} (b : UInt8) : word.store sector offset 1 b.toNat offset = b := by
  rw [word.store, if_pos (by omega), Nat.sub_self]
  apply UInt8.toNat_inj.mp
  rw [word.byte_zero_toNat]
  exact Nat.mod_eq_of_lt b.toNat_lt

theorem mbr_entry_put (sector : Buffer) (i : Nat) (e : MbrEntry) : mbr_entry (put_mbr_entry sector i e) i = e := by
  have hstart := e.lba_start.toNat_lt
  have hsize := e.lba_size.toNat_lt
  unfold mbr_entry put_mbr_entry
  simp only
  rw [word.load_store (by exact hsize), word.load_store_apart (by omega), word.load_store (by exact hstart),
    word.store_outside (by omega), word.store_outside (by omega), byte_store, UInt32.ofNat_toNat, UInt32.ofNat_toNat]

theorem mbr_entry_store {offset width value : Nat} (hout : mbr_offset i + 16 ≤ offset ∨ offset + width ≤ mbr_offset i) :
    mbr_entry (word.store sector offset width value) i = mbr_entry sector i := by
  unfold mbr_entry
  rw [word.store_outside (by omega), word.load_store_apart (by omega), word.load_store_apart (by omega)]

theorem mbr_entry_put_other {j : Nat} {e : MbrEntry} (hne : i ≠ j) :
    mbr_entry (put_mbr_entry sector j e) i = mbr_entry sector i := by
  have hout : mbr_offset i + 16 ≤ mbr_offset j ∨ mbr_offset j + 16 ≤ mbr_offset i := by
    unfold mbr_offset
    omega
  unfold put_mbr_entry
  simp only
  rw [mbr_entry_store (by omega), mbr_entry_store (by omega), mbr_entry_store (by omega), mbr_entry_store (by omega)]

/-- An entry of zeros. -/
def no_entry : MbrEntry := ⟨0, 0, 0⟩

theorem byte_zero (index : Nat) : word.byte 0 index = 0 := by rw [word.byte, Nat.zero_div]; rfl

theorem mbr_entry_clear (hi : i < 4) :
    mbr_entry (clear_mbr_entries sector) i = no_entry := by
  have hzero : ∀ a, mbr_offset 0 ≤ a → a < mbr_offset 0 + 64 → clear_mbr_entries sector a = 0 := by
    intro a hlo hhi
    rw [clear_mbr_entries, word.store, if_pos ⟨hlo, hhi⟩, byte_zero]
  have hload : ∀ offset, mbr_offset 0 ≤ offset → offset + 4 ≤ mbr_offset 0 + 64 →
      word.load (clear_mbr_entries sector) offset 4 = 0 := by
    intro offset hlo hhi
    have hbytes : ∀ index < 4, clear_mbr_entries sector (offset + index) = word.byte 0 index := by
      intro index hindex
      rw [hzero _ (by omega) (by omega), byte_zero]
    rw [word.load_of_bytes hbytes]
    rfl
  unfold mbr_entry
  unfold mbr_offset at *
  rw [hzero _ (by omega) (by omega), hload _ (by omega) (by omega), hload _ (by omega) (by omega)]
  rfl

/-! ## The entries of a table -/

variable {parts : List Partition}

/-- The partitions that `mbr_write` writes. -/
def mbr_kept (parts : List Partition) : List Partition := parts.filter fun p => !(p.is_deleted || p.is_gpt)

theorem mbr_entry_parts {entry_idx : Nat} (hi : i < 4) :
    mbr_entry (put_mbr_parts sector entry_idx parts) i =
      if i < entry_idx then mbr_entry sector i
      else ((mbr_kept parts).map mbr_entry_for).getD (i - entry_idx) (mbr_entry sector i) := by
  induction parts generalizing sector entry_idx with
  | nil => simp [put_mbr_parts, mbr_kept]
  | cons p parts ih =>
    rw [put_mbr_parts]
    by_cases hfull : entry_idx ≥ 4
    · rw [if_pos hfull, if_pos (by omega)]
    rw [if_neg hfull]
    by_cases hskip : (p.is_deleted || p.is_gpt) = true
    · have hkept : mbr_kept (p :: parts) = mbr_kept parts := by
        rw [mbr_kept, filter_cons_of_neg (by rw [hskip]; decide), mbr_kept]
      rw [if_pos hskip, ih, hkept]
    · have hkept : mbr_kept (p :: parts) = p :: mbr_kept parts := by
        rw [mbr_kept, filter_cons_of_pos (by simpa using hskip), mbr_kept]
      rw [if_neg hskip, ih, hkept, map_cons]
      by_cases hlt : i < entry_idx
      · rw [if_pos (by omega), if_pos hlt, mbr_entry_put_other (by omega)]
      · rw [if_neg hlt]
        by_cases heq : i = entry_idx
        · subst heq
          rw [if_pos (by omega), mbr_entry_put, Nat.sub_self, getD_cons_zero]
        · rw [if_neg (by omega), mbr_entry_put_other heq, show i - entry_idx = (i - (entry_idx + 1)) + 1 by omega,
            getD_cons_succ]

/-- The sector that `mbr_write` writes. -/
def mbr_sector (sector : Buffer) (parts : List Partition) : Buffer :=
  word.store (put_mbr_parts (clear_mbr_entries sector) 0 parts) 510 2 MBR_SIGNATURE

theorem mbr_entries_sector (hlen : (mbr_kept parts).length ≤ 4) :
    mbr_entries (mbr_sector sector parts) =
      (mbr_kept parts).map mbr_entry_for ++ List.replicate (4 - (mbr_kept parts).length) no_entry := by
  have hlen' : ((mbr_kept parts).map mbr_entry_for).length ≤ 4 := by rw [length_map]; exact hlen
  rw [mbr_entries, ← length_map mbr_entry_for, ← map_getD_range _ no_entry 4 hlen']
  refine map_congr_left fun i hi => ?_
  have hi' := List.mem_range.mp hi
  have hout : mbr_offset i + 16 ≤ 510 := by
    unfold mbr_offset
    omega
  rw [mbr_sector, mbr_entry_store (.inl hout), mbr_entry_parts hi', if_neg (Nat.not_lt_zero i), Nat.sub_zero,
    mbr_entry_clear hi']

/-! ## What reading finds -/

/-- What a table says about a partition. -/
def committed (p : Partition) : UInt64 × UInt64 × UInt8 := (p.start_lba, p.size_sectors, p.type)

/-- What an entry says about a partition, if it is one. -/
def visible (e : MbrEntry) : Option (UInt64 × UInt64 × UInt8) :=
  if e.type == PART_TYPE_EMPTY || e.lba_size == 0 then none
  else some (e.lba_start.toUInt64, e.lba_size.toUInt64, e.type)

theorem committed_add_mbr_entries (entries : List MbrEntry) (parts : List Partition) :
    (entries.foldl add_mbr_entry parts).map committed = parts.map committed ++ entries.filterMap visible := by
  induction entries generalizing parts with
  | nil => simp
  | cons e entries ih =>
    rw [foldl_cons, ih]
    by_cases hskip : (e.type == PART_TYPE_EMPTY || e.lba_size == 0) = true
    · rw [add_mbr_entry, if_pos hskip, filterMap_cons_none (by rw [visible, if_pos hskip])]
    · have hvisible : visible e = some (e.lba_start.toUInt64, e.lba_size.toUInt64, e.type) := by
        rw [visible, if_neg hskip]
      rw [add_mbr_entry, if_neg hskip, filterMap_cons_some hvisible, map_append, append_assoc]
      rfl

theorem mbr_read_of_sector {d : Device} {s : State} {sector : Buffer} {parts : List Partition}
    (hread : disk_read d 0 = some (mbr_sector sector parts)) (hlen : (mbr_kept parts).length ≤ 4) :
    ((mbr_read d s).1 = 0 ↔ ∀ p ∈ mbr_kept parts, p.type ≠ PART_TYPE_GPT) ∧
      ((mbr_read d s).1 = 0 →
        (mbr_read d s).2.parts.map committed = (mbr_kept parts).filterMap fun p => visible (mbr_entry_for p)) := by
  have hsign : ¬ word.load (mbr_sector sector parts) 510 2 ≠ MBR_SIGNATURE := by
    rw [mbr_sector, word.load_store (by decide)]
    exact fun h => h rfl
  have hany : ((mbr_entries (mbr_sector sector parts)).any fun e => e.type == PART_TYPE_GPT) = false ↔
      ∀ p ∈ mbr_kept parts, p.type ≠ PART_TYPE_GPT := by
    rw [mbr_entries_sector hlen, any_append, Bool.or_eq_false_iff, any_eq_false, any_eq_false,
      forall_mem_map]
    constructor
    · intro h p hp heq
      exact h.1 p hp (beq_iff_eq.mpr heq)
    · intro h
      refine ⟨fun p hp heq => h p hp (beq_iff_eq.mp heq), fun e he => ?_⟩
      rw [eq_of_mem_replicate he]
      decide
  rw [← hany, mbr_read, hread]
  simp only [if_neg hsign]
  by_cases hgpt : ((mbr_entries (mbr_sector sector parts)).any fun e => e.type == PART_TYPE_GPT) = true
  · rw [if_pos hgpt, hgpt]
    have hne : (1 : Int) ≠ 0 := by decide
    exact ⟨⟨fun h => absurd h hne, fun h => absurd h.symm Bool.false_ne_true⟩, fun h => absurd h hne⟩
  · rw [if_neg hgpt]
    refine ⟨⟨fun _ => Bool.not_eq_true _ ▸ hgpt, fun _ => rfl⟩, fun _ => ?_⟩
    rw [committed_add_mbr_entries, mbr_entries_sector hlen, filterMap_append, filterMap_map,
      map_nil, nil_append]
    have hnone : (List.replicate (4 - (mbr_kept parts).length) no_entry).filterMap visible = [] := by
      rw [filterMap_eq_nil_iff]
      intro e he
      rw [eq_of_mem_replicate he]
      rfl
    rw [hnone, append_nil]
    rfl

/-! ## A committed table -/

theorem mbr_kept_eq (parts : List Partition) : mbr_kept parts = (live parts).filter fun p => !p.is_gpt := by
  rw [mbr_kept, live, filter_filter]
  refine filter_congr fun p _ => ?_
  cases p.is_deleted <;> cases p.is_gpt <;> rfl

theorem validate_mbr_parts_length {sector_count : UInt64} {count : Nat}
    (hcount : count ≤ MAX_MBR_PARTS) (hvalid : ¬ validate_mbr_parts sector_count count parts < 0) :
    count + (live parts).length ≤ MAX_MBR_PARTS := by
  induction parts generalizing count with
  | nil => exact hcount
  | cons p parts ih =>
    rw [validate_mbr_parts] at hvalid
    cases hdel : p.is_deleted with
    | true =>
      rw [hdel, if_pos rfl] at hvalid
      rw [live_cons_deleted hdel]
      exact ih hcount hvalid
    | false =>
      rw [hdel, if_neg Bool.false_ne_true] at hvalid
      rw [live_cons_kept hdel, length_cons]
      by_cases hfull : count + 1 > MAX_MBR_PARTS
      · rw [if_pos hfull] at hvalid
        exact absurd (by decide) hvalid
      rw [if_neg hfull] at hvalid
      split at hvalid
      · exact absurd (by decide) hvalid
      · split at hvalid
        · exact absurd (by decide) hvalid
        · have := ih (by omega) hvalid
          omega

/-! ## What a commit leaves -/

theorem mbr_write_ok {d : Device} {s : State} (hok : (mbr_write d s).1 = 0) :
    ∃ sector, disk_write d 0 (mbr_sector sector s.parts) = some (mbr_write d s).2 := by
  have hne : (-1 : Int) ≠ 0 := by decide
  unfold mbr_write at *
  cases hread : disk_read d 0 with
  | none =>
    rw [hread] at hok
    exact absurd hok hne
  | some sector =>
    rw [hread] at hok
    simp only at hok ⊢
    cases hwrite : disk_write d 0 (mbr_sector sector s.parts) with
    | none =>
      rw [mbr_sector] at hwrite
      rw [hwrite] at hok
      exact absurd hok hne
    | some d' =>
      refine ⟨sector, ?_⟩
      rw [mbr_sector] at hwrite
      rw [hwrite, mbr_sector, hwrite]

theorem ops_commit_mbr {d : Device} {s : State} (htable : s.table_type ≠ .TABLE_GPT)
    (hcommit : (ops_commit d s).1 = 0) :
    (live s.parts).length ≤ MAX_MBR_PARTS ∧
      ∃ sector, disk_read (ops_commit d s).2.1 0 = some (mbr_sector sector s.parts) := by
  have hne : (-1 : Int) ≠ 0 := by decide
  rw [ops_commit] at *
  simp only [if_neg htable] at *
  by_cases hvalid : mbr_validate s < 0
  · rw [if_pos hvalid] at hcommit
    exact absurd hcommit hne
  rw [if_neg hvalid] at *
  obtain ⟨sector, hwrite⟩ := mbr_write_ok hcommit
  have hlen := validate_mbr_parts_length (Nat.zero_le _) hvalid
  refine ⟨by omega, sector, ?_⟩
  rw [(disk_read_write hwrite).1 0, if_pos rfl]

/-- A partition that the format can hold. -/
def Storable (p : Partition) : Prop :=
  p.is_gpt = false ∧ p.type ≠ PART_TYPE_EMPTY ∧ p.type ≠ PART_TYPE_GPT ∧ p.size_sectors ≠ 0 ∧
    p.size_sectors.toNat < 2 ^ 32 ∧ p.start_lba.toNat < 2 ^ 32

theorem toUInt32_toUInt64 (x : UInt64) : x.toUInt32.toUInt64 = x ↔ x.toNat < 2 ^ 32 := by
  rw [← UInt64.toNat_inj, UInt32.toNat_toUInt64, UInt64.toNat_toUInt32]
  omega

theorem visible_entry_iff (p : Partition) :
    visible (mbr_entry_for p) = some (committed p) ↔ p.type ≠ PART_TYPE_EMPTY ∧ p.size_sectors ≠ 0 ∧
      p.size_sectors.toNat < 2 ^ 32 ∧ p.start_lba.toNat < 2 ^ 32 := by
  have hsize : p.size_sectors.toUInt32 = 0 → p.size_sectors.toNat < 2 ^ 32 → p.size_sectors = 0 := by
    intro hzero hlt
    rw [← (toUInt32_toUInt64 p.size_sectors).mpr hlt, hzero]
    rfl
  rw [visible, mbr_entry_for, committed]
  simp only
  by_cases hskip : (p.type == PART_TYPE_EMPTY || p.size_sectors.toUInt32 == 0) = true
  · rw [if_pos hskip]
    rw [Bool.or_eq_true, beq_iff_eq, beq_iff_eq] at hskip
    constructor
    · intro h
      cases h
    · rintro ⟨htype, hne, hlt, -⟩
      cases hskip with
      | inl htype' => exact absurd htype' htype
      | inr hzero => exact absurd (hsize hzero hlt) hne
  · rw [if_neg hskip]
    rw [Bool.or_eq_true, beq_iff_eq, beq_iff_eq, not_or] at hskip
    rw [Option.some.injEq, Prod.mk.injEq, Prod.mk.injEq, toUInt32_toUInt64, toUInt32_toUInt64]
    constructor
    · rintro ⟨hstart, hlt, -⟩
      refine ⟨hskip.1, fun hzero => hskip.2 ?_, hlt, hstart⟩
      rw [hzero]
      rfl
    · rintro ⟨-, -, hlt, hstart⟩
      exact ⟨hstart, hlt, rfl⟩

/-- What is committed is read back exactly where the format can hold every partition. -/
theorem ops_commit_mbr_read {d : Device} {s : State} (htable : s.table_type ≠ .TABLE_GPT)
    (hcommit : (ops_commit d s).1 = 0) :
    ((mbr_read (ops_commit d s).2.1 (ops_commit d s).2.2).1 = 0 ∧
      (mbr_read (ops_commit d s).2.1 (ops_commit d s).2.2).2.parts.map committed = (live s.parts).map committed) ↔
      ∀ p ∈ live s.parts, Storable p := by
  obtain ⟨hlen, sector, hread⟩ := ops_commit_mbr htable hcommit
  have hkept : (mbr_kept s.parts).length ≤ 4 := by
    rw [mbr_kept_eq]
    exact Nat.le_trans (length_filter_le _ _) hlen
  obtain ⟨hrc, hparts⟩ := @mbr_read_of_sector _ (ops_commit d s).2.2 _ _ hread hkept
  have hfilter : (mbr_kept s.parts).filterMap (fun p => visible (mbr_entry_for p)) =
      (live s.parts).filterMap fun p => if !p.is_gpt then visible (mbr_entry_for p) else none := by
    rw [mbr_kept_eq, filterMap_filter]
  have hone : ∀ p : Partition, (if !p.is_gpt then visible (mbr_entry_for p) else none) = some (committed p) ↔
      p.is_gpt = false ∧ visible (mbr_entry_for p) = some (committed p) := by
    intro p
    cases p.is_gpt <;> simp
  constructor
  · rintro ⟨hzero, hback⟩
    rw [hparts hzero, hfilter, filterMap_eq_map_iff_forall_eq_some] at hback
    intro p hp
    obtain ⟨hgpt, hvisible⟩ := (hone p).mp (hback p hp)
    obtain ⟨htype, hne, hlt, hstart⟩ := (visible_entry_iff p).mp hvisible
    have hmem : p ∈ mbr_kept s.parts := by
      rw [mbr_kept_eq]
      exact List.mem_filter.mpr ⟨hp, by rw [hgpt]; rfl⟩
    exact ⟨hgpt, htype, hrc.mp hzero p hmem, hne, hlt, hstart⟩
  · intro hall
    have hzero := hrc.mpr fun p hp => by
      rw [mbr_kept_eq] at hp
      exact (hall p (List.mem_filter.mp hp).1).2.2.1
    refine ⟨hzero, ?_⟩
    rw [hparts hzero, hfilter, filterMap_eq_map_iff_forall_eq_some]
    intro p hp
    obtain ⟨hgpt, htype, -, hne, hlt, hstart⟩ := hall p hp
    exact (hone p).mpr ⟨hgpt, (visible_entry_iff p).mpr ⟨htype, hne, hlt, hstart⟩⟩

/-- A disk of zeros that can be written everywhere. -/
def blank_disk (info : DiskInfo) : Device := ⟨info, fun _ => zeros, fun _ => true⟩

/-- A disk of 64 MiB. -/
def small_info : DiskInfo := ⟨0x20000, by decide⟩

/-- A table with one partition. -/
def one_partition (type : UInt8) : State where
  disk := small_info
  table_type := .TABLE_MBR
  parts := [{
    start_lba := 2048, end_lba := 6143, size_sectors := 4096, type := type, name := name_of (part_name 1),
    is_new := true, is_deleted := false, is_gpt := false }]
  part_count_le := by rw [length_singleton]; decide
  free := []
  selected := 0
  modified := true

theorem ops_commit_mbr_read_small :
    let r := ops_commit (blank_disk small_info) (one_partition 0x83)
    ((mbr_read r.2.1 r.2.2).1 = 0 ∧
      (mbr_read r.2.1 r.2.2).2.parts.map committed = (live (one_partition 0x83).parts).map committed) ↔
      ∀ p ∈ live (one_partition 0x83).parts, Storable p :=
  ops_commit_mbr_read (by decide) (by decide +kernel)

/-- A partition of type 0 is committed, and reading skips it. -/
theorem ops_commit_mbr_drops :
    let s := one_partition 0x00
    let r := ops_commit (blank_disk small_info) s
    s.table_type = .TABLE_MBR ∧ r.1 = 0 ∧ (mbr_read r.2.1 r.2.2).1 = 0 ∧
      (mbr_read r.2.1 r.2.2).2.parts.map committed = [] ∧ (live s.parts).map committed = [(2048, 4096, 0x00)] := by
  decide +kernel

end graceos.cfdisk
