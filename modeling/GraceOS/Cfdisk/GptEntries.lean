import GraceOS.Cfdisk.Gpt
import GraceOS.Cfdisk.Layout
import Mathlib.Data.List.TakeWhile

/-!
# The entries of a partition table

What an entry says of its partition, and that `gpt_read` goes through the entries that `gpt_write` lays out.
-/

namespace graceos.cfdisk

open List

/-! ## Buffers -/

variable {buf table : Buffer} {offset a : Nat} {chars : List UInt8}

theorem load_shift (buf : Buffer) (base offset width : Nat) :
    word.load (fun k => buf (base + k)) offset width = word.load buf (base + offset) width := by
  induction width generalizing offset with
  | zero => rfl
  | succ width ih => rw [word.load, word.load, ih, Nat.add_assoc]

theorem bytes_of_congr {buf' : Buffer} {n : Nat} (h : ∀ k < n, buf k = buf' k) : bytes_of buf n = bytes_of buf' n :=
  map_congr_left fun k hk => h k (List.mem_range.mp hk)

theorem put_bytes_outside {bytes : List UInt8}
    (hout : a < offset ∨ offset + bytes.length ≤ a) : put_bytes buf offset bytes a = buf a := by
  rw [put_bytes, if_neg (by omega)]

theorem put_bytes_inside {k : Nat} {bytes : List UInt8} (hk : k < bytes.length) :
    put_bytes buf offset bytes (offset + k) = bytes.getD k 0 := by
  rw [put_bytes, if_pos (by omega), Nat.add_sub_cancel_left]

theorem put_gpt_name_outside
    (hout : a < offset ∨ offset + 2 * chars.length ≤ a) : put_gpt_name table offset chars a = table a := by
  induction chars generalizing table offset with
  | nil => rfl
  | cons c chars ih =>
    rw [length_cons] at hout
    rw [put_gpt_name, ih (by omega), word.store_outside (by omega)]

theorem load_put_gpt_name {wi : Nat} :
    word.load (put_gpt_name table offset chars) (offset + 2 * wi) 2 =
      (chars.map UInt8.toNat).getD wi (word.load table (offset + 2 * wi) 2) := by
  induction chars generalizing table offset wi with
  | nil => rfl
  | cons c chars ih =>
    rw [put_gpt_name, map_cons]
    cases wi with
    | zero =>
      have hbefore : ∀ k < 2, put_gpt_name (word.store table offset 2 c.toNat) (offset + 2) chars (offset + k) =
          word.store table offset 2 c.toNat (offset + k) := by
        intro k hk
        exact put_gpt_name_outside (by omega)
      have hc := c.toNat_lt
      change word.load (put_gpt_name (word.store table offset 2 c.toNat) (offset + 2) chars) offset 2 = c.toNat
      rw [word.load_congr hbefore, word.load_store (by omega)]
    | succ wi =>
      rw [show offset + 2 * (wi + 1) = offset + 2 + 2 * wi by omega, ih, getD_cons_succ,
        word.load_store_apart (by omega)]

/-! ## One entry -/

variable {e : Buffer} {p : Partition}

/-- The bytes of an entry, and of what follows it. -/
def gpt_entry (table : Buffer) (i : Nat) : Buffer := fun k => table (i * GPT_ENTRY_SIZE + k)

def Blank (e : Buffer) : Prop := ∀ k < GPT_ENTRY_SIZE, e k = 0

/-- The characters of a name that are read back. -/
def shown_name (p : Partition) : List UInt8 := (name_chars p).map fun c => c &&& 0x7F

/-- An entry describes a partition. -/
structure EntryOf (p : Partition) (e : Buffer) : Prop where
  guid : bytes_of e 16 = gpt_guid_for_type p.type
  start_lba : word.load e 32 8 = p.start_lba.toNat
  end_lba : word.load e 40 8 = p.end_lba.toNat
  name : gpt_name e = shown_name p

theorem gpt_name_congr {e' : Buffer} (h : ∀ k < GPT_ENTRY_SIZE, e k = e' k) : gpt_name e = gpt_name e' := by
  have hloads : (List.range 35).map (fun wi => word.load e (56 + 2 * wi) 2) =
      (List.range 35).map fun wi => word.load e' (56 + 2 * wi) 2 := by
    refine map_congr_left fun wi hwi => word.load_congr fun k hk => h _ ?_
    have := List.mem_range.mp hwi
    change _ < 128
    omega
  rw [gpt_name, hloads, gpt_name]

theorem EntryOf.congr {e' : Buffer} (h : EntryOf p e) (hsame : ∀ k < GPT_ENTRY_SIZE, e' k = e k) :
    EntryOf p e' := by
  have hload : ∀ offset, offset + 8 ≤ 128 → word.load e' offset 8 = word.load e offset 8 :=
    fun offset hoffset => word.load_congr fun k hk => hsame _ (by change _ < 128; omega)
  refine ⟨?_, ?_, ?_, ?_⟩
  · rw [bytes_of_congr fun k hk => hsame k (by change _ < 128; omega), h.guid]
  · rw [hload 32 (by omega), h.start_lba]
  · rw [hload 40 (by omega), h.end_lba]
  · rw [gpt_name_congr hsame, h.name]

theorem gpt_guid_length (type : UInt8) : (gpt_guid_for_type type).length = 16 := by
  unfold gpt_guid_for_type
  split
  · rfl
  · split <;> rfl

theorem name_chars_length (p : Partition) : (name_chars p).length ≤ 35 :=
  Nat.le_trans (takeWhile_sublist _).length_le (length_take_le _ _)

theorem name_chars_ne_zero (p : Partition) : ∀ c ∈ name_chars p, c ≠ 0 := fun c hc => by
  simpa using mem_takeWhile_imp hc

theorem put_gpt_fields_outside
    (hout : a < offset ∨ offset + 56 ≤ a) : put_gpt_fields table offset p a = table a := by
  have hguid := gpt_guid_length p.type
  rw [put_gpt_fields, word.store_outside (by omega), word.store_outside (by omega), word.store_outside (by omega),
    put_bytes_outside (by omega)]

theorem put_gpt_entry_other {i j : Nat} (hne : i ≠ j) :
    ∀ k < GPT_ENTRY_SIZE, gpt_entry (put_gpt_entry table j p) i k = gpt_entry table i k := by
  intro k hk
  change k < 128 at hk
  have hlen := name_chars_length p
  have hout : i * 128 + k < j * 128 ∨ j * 128 + 128 ≤ i * 128 + k := by omega
  change put_gpt_name (put_gpt_fields table (j * 128) p) (j * 128 + 56) (name_chars p) (i * 128 + k) =
    table (i * 128 + k)
  rw [put_gpt_name_outside (by omega), put_gpt_fields_outside (by omega)]

theorem and_low_bits (c : UInt8) : UInt8.ofNat (c.toNat &&& 0x7F) = c &&& 0x7F := by
  apply UInt8.toNat_inj.mp
  have hlt : c.toNat &&& 0x7F < 2 ^ 8 := Nat.lt_of_le_of_lt Nat.and_le_left c.toNat_lt
  rw [UInt8.toNat_and, UInt8.toNat_ofNat', Nat.mod_eq_of_lt hlt]
  rfl

theorem load_zero {width : Nat} (hzero : ∀ k < width, buf (offset + k) = 0) :
    word.load buf offset width = 0 := by
  have hbytes : ∀ k < width, buf (offset + k) = word.byte 0 k := by
    intro k hk
    rw [hzero k hk, word.byte, Nat.zero_div]
    rfl
  rw [word.load_of_bytes hbytes, Nat.zero_mod]

/-- A name is read up to its end, where the entry was blank behind it. -/
theorem gpt_name_put {base : Nat} (hblank : ∀ k, 56 ≤ k → k < 128 → table (base + k) = 0) :
    gpt_name (fun k => put_gpt_name table (base + 56) (name_chars p) (base + k)) = shown_name p := by
  have hlen := name_chars_length p
  have hwords : (List.range 35).map
      (fun wi => word.load (fun k => put_gpt_name table (base + 56) (name_chars p) (base + k)) (56 + 2 * wi) 2) =
      (name_chars p).map UInt8.toNat ++ List.replicate (35 - (name_chars p).length) 0 := by
    have hfill := map_getD_range ((name_chars p).map UInt8.toNat) 0 35 (by rw [length_map]; exact hlen)
    rw [length_map] at hfill
    rw [← hfill]
    refine map_congr_left fun wi hwi => ?_
    have hwi' := List.mem_range.mp hwi
    have hzero : word.load table (base + 56 + 2 * wi) 2 = 0 := by
      apply load_zero
      intro k hk
      rw [show base + 56 + 2 * wi + k = base + (56 + 2 * wi + k) by omega]
      exact hblank _ (by omega) (by omega)
    rw [load_shift, ← Nat.add_assoc, load_put_gpt_name, hzero]
  have hnonzero : ∀ w ∈ (name_chars p).map UInt8.toNat, decide (w ≠ 0) = true := by
    intro w hw
    obtain ⟨c, hc, rfl⟩ := List.mem_map.mp hw
    exact decide_eq_true fun h => name_chars_ne_zero p c hc (UInt8.toNat_inj.mp h)
  have htake : ((name_chars p).map UInt8.toNat ++ List.replicate (35 - (name_chars p).length) 0).takeWhile
      (fun w => decide (w ≠ 0)) = (name_chars p).map UInt8.toNat := by
    rw [takeWhile_append_of_pos hnonzero]
    cases 35 - (name_chars p).length with
    | zero => simp
    | succ n => simp [replicate_succ]
  rw [gpt_name, hwords, htake, map_map, shown_name]
  exact map_congr_left fun c _ => and_low_bits c

theorem put_gpt_entry_spec {i : Nat} (hblank : Blank (gpt_entry table i)) :
    EntryOf p (gpt_entry (put_gpt_entry table i p) i) := by
  have hguid := gpt_guid_length p.type
  have hstart := p.start_lba.toNat_lt
  have hend := p.end_lba.toNat_lt
  let base := i * GPT_ENTRY_SIZE
  let fields := put_gpt_fields table base p
  have hentry : gpt_entry (put_gpt_entry table i p) i =
      fun k => put_gpt_name fields (base + 56) (name_chars p) (base + k) := rfl
  have hfront : ∀ k < 56, put_gpt_name fields (base + 56) (name_chars p) (base + k) = fields (base + k) :=
    fun k hk => put_gpt_name_outside (by omega)
  have hload : ∀ offset, offset + 8 ≤ 56 →
      word.load (gpt_entry (put_gpt_entry table i p) i) offset 8 = word.load fields (base + offset) 8 := by
    intro offset hoffset
    rw [hentry, load_shift]
    exact word.load_congr fun k hk => by rw [Nat.add_assoc]; exact hfront _ (by omega)
  refine ⟨?_, ?_, ?_, ?_⟩
  · have hbytes : ∀ k < 16, gpt_entry (put_gpt_entry table i p) i k = (gpt_guid_for_type p.type).getD k 0 := by
      intro k hk
      calc gpt_entry (put_gpt_entry table i p) i k = fields (base + k) := hfront k (by omega)
        _ = put_bytes table base (gpt_guid_for_type p.type) (base + k) := by
          unfold fields put_gpt_fields
          rw [word.store_outside (by omega), word.store_outside (by omega), word.store_outside (by omega)]
        _ = _ := put_bytes_inside (by omega)
    rw [bytes_of_congr hbytes, bytes_of, map_getD_range _ 0 16 (by omega), hguid, Nat.sub_self, replicate_zero,
      append_nil]
  · unfold fields put_gpt_fields at hload
    rw [hload 32 (by omega), word.load_store_apart (by omega), word.load_store_apart (by omega),
      word.load_store (by exact hstart)]
  · unfold fields put_gpt_fields at hload
    rw [hload 40 (by omega), word.load_store_apart (by omega), word.load_store (by exact hend)]
  · rw [hentry]
    apply gpt_name_put
    intro k hlo hhi
    change put_gpt_fields table base p (base + k) = 0
    rw [put_gpt_fields_outside (by omega)]
    exact hblank k hhi

/-! ## The table of entries -/

variable {parts : List Partition}

/-- Entry `i` of a table that starts with `parts` is what the partition says, or blank. -/
theorem put_gpt_parts_spec {entry_idx : Nat} (hlen : entry_idx + (live parts).length ≤ MAX_GPT_PARTS)
    (hblank : ∀ i, entry_idx ≤ i → Blank (gpt_entry table i)) :
    (∀ i < entry_idx, ∀ k < GPT_ENTRY_SIZE,
      gpt_entry (put_gpt_parts table entry_idx parts) i k = gpt_entry table i k) ∧
    (∀ i p, (live parts)[i]? = some p → EntryOf p (gpt_entry (put_gpt_parts table entry_idx parts) (entry_idx + i))) ∧
    (∀ i, entry_idx + (live parts).length ≤ i → Blank (gpt_entry (put_gpt_parts table entry_idx parts) i)) := by
  induction parts generalizing table entry_idx with
  | nil =>
    refine ⟨fun i hi k hk => rfl, fun i p hp => ?_, fun i hi => hblank i (by omega)⟩
    cases hp
  | cons p parts ih =>
    rw [put_gpt_parts]
    by_cases hfull : entry_idx ≥ MAX_GPT_PARTS
    · have hnone : live (p :: parts) = [] := List.length_eq_zero_iff.mp (by omega)
      rw [if_pos hfull, hnone]
      refine ⟨fun i hi k hk => rfl, fun i p hp => ?_, fun i hi => hblank i (by omega)⟩
      cases hp
    rw [if_neg hfull]
    cases hdel : p.is_deleted with
    | true =>
      rw [live_cons_deleted hdel] at *
      rw [if_pos rfl]
      exact ih hlen hblank
    | false =>
      rw [live_cons_kept hdel, length_cons] at *
      rw [if_neg Bool.false_ne_true]
      have hblank' : ∀ i, entry_idx + 1 ≤ i → Blank (gpt_entry (put_gpt_entry table entry_idx p) i) := by
        intro i hi k hk
        rw [put_gpt_entry_other (by omega) k hk]
        exact hblank i (by omega) k hk
      obtain ⟨hbefore, hthere, hbehind⟩ := ih (by omega) hblank'
      refine ⟨?_, ?_, fun i hi => hbehind i (by omega)⟩
      · intro i hi k hk
        rw [hbefore i (by omega) k hk, put_gpt_entry_other (by omega) k hk]
      · intro i q hq
        cases i with
        | zero =>
          cases hq
          exact (put_gpt_entry_spec (hblank entry_idx (Nat.le_refl _))).congr (hbefore entry_idx (by omega))
        | succ i =>
          rw [List.getElem?_cons_succ] at hq
          rw [show entry_idx + (i + 1) = entry_idx + 1 + i by omega]
          exact hthere i q hq

/-! ## Reading the entries -/

/-- A sector of the entries of a table. -/
def entry_sector (table : Buffer) (i : Nat) : Buffer := fun k => table (i * SECTOR_SIZE + k)

/-- Entries of a table, from one on. -/
def entries_from (table : Buffer) (first count : Nat) : List Buffer := (List.range' first count).map (gpt_entry table)

theorem entries_from_append (table : Buffer) (first a b : Nat) :
    entries_from table first (a + b) = entries_from table first a ++ entries_from table (first + a) b := by
  have hrange : List.range' first a ++ List.range' (first + 1 * a) b = List.range' first (a + b) := List.range'_append
  rw [Nat.one_mul] at hrange
  rw [entries_from, entries_from, entries_from, ← map_append, hrange]

theorem read_gpt_sector_four {off left : Nat} :
    read_gpt_sector (entry_sector table off) 128 (left + 4) 0 parts =
      (left, (entries_from table (4 * off) 4).foldl add_gpt_entry parts) := by
  have hentry : ∀ ei : Nat, (fun k => entry_sector table off (((ei : Int) * 128).toNat + k)) =
      gpt_entry table (4 * off + ei) := by
    intro ei
    funext k
    unfold entry_sector gpt_entry SECTOR_SIZE GPT_ENTRY_SIZE
    congr 1
    omega
  have hend : read_gpt_sector (entry_sector table off) 128 left 4
      ((entries_from table (4 * off) 4).foldl add_gpt_entry parts) =
      (left, (entries_from table (4 * off) 4).foldl add_gpt_entry parts) := by
    cases left with
    | zero => rfl
    | succ left => rw [read_gpt_sector, if_neg (by decide)]
  rw [← hend]
  rw [read_gpt_sector, if_pos (by decide), hentry 0, read_gpt_sector, if_pos (by decide), hentry 1, read_gpt_sector,
    if_pos (by decide), hentry 2, read_gpt_sector, if_pos (by decide), hentry 3]
  rfl

/-- Sectors that hold entries are gone through entry by entry. -/
theorem read_gpt_entries_sectors {d : Device} {entry_lba : UInt64} {n off fuel : Nat} (hfuel : n ≤ fuel)
    (hread : ∀ j < n, disk_read d (entry_lba + UInt64.ofNat (off + j)) = some (entry_sector table (off + j))) :
    read_gpt_entries d entry_lba 128 fuel (4 * n) (UInt64.ofNat off) parts =
      (entries_from table (4 * off) (4 * n)).foldl add_gpt_entry parts := by
  induction n generalizing off fuel parts with
  | zero =>
    cases fuel with
    | zero => rfl
    | succ fuel => rw [read_gpt_entries, if_pos rfl]; rfl
  | succ n ih =>
    cases fuel with
    | zero => omega
    | succ fuel =>
      have hhere := hread 0 (by omega)
      rw [Nat.add_zero] at hhere
      have hnext : UInt64.ofNat off + 1 = UInt64.ofNat (off + 1) := by rw [UInt64.ofNat_add]; rfl
      have hrest : ∀ j < n, disk_read d (entry_lba + UInt64.ofNat (off + 1 + j)) =
          some (entry_sector table (off + 1 + j)) := by
        intro j hj
        rw [show off + 1 + j = off + (j + 1) by omega]
        exact hread (j + 1) (by omega)
      rw [read_gpt_entries, if_neg (by omega), hhere]
      simp only
      rw [show 4 * (n + 1) = 4 * n + 4 by omega, read_gpt_sector_four, hnext, ih (by omega) hrest,
        Nat.add_comm (4 * n) 4, entries_from_append, foldl_append]
      rfl

/-! ## What is read back -/

/-- The characters of a C string. -/
def c_string (chars : List UInt8) : List UInt8 := chars.takeWhile (· ≠ 0)

/-- A partition as the table gives it back. -/
structure ReadBack (p q : Partition) : Prop where
  start_lba : q.start_lba = p.start_lba
  end_lba : q.end_lba = p.end_lba
  size_sectors : q.size_sectors = p.end_lba - p.start_lba + 1
  type : q.type = if p.type = PART_TYPE_EFI ∨ p.type = PART_TYPE_GRACE then p.type else PART_TYPE_GPT
  name : c_string (shown_name p) ≠ [] → c_string q.name.toList = c_string (shown_name p)
  is_gpt : q.is_gpt = true
  kept : q.is_deleted = false

theorem gpt_type_guid (type : UInt8) :
    gpt_type (gpt_guid_for_type type) =
      if type = PART_TYPE_EFI ∨ type = PART_TYPE_GRACE then type else PART_TYPE_GPT := by
  unfold gpt_guid_for_type
  by_cases hefi : type = PART_TYPE_EFI
  · rw [if_pos hefi, if_pos (.inl hefi), hefi]
    decide
  · by_cases hgrace : type = PART_TYPE_GRACE
    · rw [if_neg hefi, if_pos hgrace, if_pos (.inr hgrace), hgrace]
      decide
    · rw [if_neg hefi, if_neg hgrace, if_neg (not_or.mpr ⟨hefi, hgrace⟩)]
      decide

theorem gpt_guid_not_empty (type : UInt8) : gpt_guid_is_empty (gpt_guid_for_type type) = false := by
  unfold gpt_guid_for_type
  split
  · decide
  · split <;> decide

theorem name_of_toList (hlen : chars.length ≤ 36) :
    (name_of chars).toList = chars ++ List.replicate (36 - chars.length) 0 := by
  rw [← map_getD_range chars 0 36 hlen, name_of, Vector.toList_ofFn]
  apply ext_getElem
  · rw [length_ofFn, length_map, length_range]
  · intro i hi hi'
    rw [List.getElem_ofFn, getElem_map, getElem_range]

theorem c_string_filled (chars : List UInt8) (n : Nat) : c_string (chars ++ List.replicate n 0) = c_string chars := by
  induction chars with
  | nil =>
    cases n with
    | zero => rfl
    | succ n => rw [nil_append, replicate_succ, c_string, takeWhile_cons_of_neg (by decide)]; rfl
  | cons c chars ih =>
    by_cases hc : c = 0
    · subst hc
      rfl
    · have hpos : decide (c ≠ 0) = true := decide_eq_true hc
      unfold c_string at *
      rw [cons_append, takeWhile_cons, takeWhile_cons, if_pos hpos, if_pos hpos, ih]

theorem c_string_name {part_count : Nat} (hlen : chars.length ≤ 35)
    (hne : c_string chars ≠ []) : c_string (name_of (name_or_default chars part_count)).toList = c_string chars := by
  have hhead : chars.headD 0 ≠ 0 := by
    cases chars with
    | nil => exact absurd rfl hne
    | cons c chars =>
      intro hzero
      rw [headD_cons] at hzero
      rw [hzero] at hne
      exact hne rfl
  rw [name_or_default, if_neg hhead, name_of_toList (by omega), c_string_filled]

theorem EntryOf.read_back (h : EntryOf p e) (part_count : Nat) :
    ReadBack p (gpt_partition e part_count) := by
  have hstart : (gpt_partition e part_count).start_lba = p.start_lba := by
    rw [gpt_partition, h.start_lba, UInt64.ofNat_toNat]
  have hend : (gpt_partition e part_count).end_lba = p.end_lba := by
    rw [gpt_partition, h.end_lba, UInt64.ofNat_toNat]
  refine ⟨hstart, hend, ?_, ?_, ?_, rfl, rfl⟩
  · rw [← hstart, ← hend]
    rfl
  · rw [gpt_partition, h.guid, gpt_type_guid]
  · intro hne
    rw [gpt_partition, h.name]
    refine c_string_name ?_ hne
    rw [shown_name, length_map]
    exact name_chars_length p

theorem add_gpt_entry_kept (h : EntryOf p e) (hroom : parts.length < MAX_PARTITIONS) :
    add_gpt_entry parts e = parts ++ [gpt_partition e (parts.length + 1)] := by
  have hguid : ¬ gpt_guid_is_empty (bytes_of e 16) = true := by
    rw [h.guid, gpt_guid_not_empty]
    exact Bool.false_ne_true
  rw [add_gpt_entry, if_neg hguid, if_neg (by omega)]

theorem add_gpt_entry_blank (h : Blank e) : add_gpt_entry parts e = parts := by
  have hguid : gpt_guid_is_empty (bytes_of e 16) = true := by
    rw [gpt_guid_is_empty, bytes_of, all_map, all_eq_true]
    intro k hk
    have hlt := List.mem_range.mp hk
    exact beq_iff_eq.mpr (h k (by change k < 128; omega))
  rw [add_gpt_entry, if_pos hguid]

theorem add_gpt_entries_kept {ps : List Partition} {es : List Buffer} (h : List.Forall₂ EntryOf ps es)
    (hroom : parts.length + ps.length ≤ MAX_PARTITIONS) :
    ∃ qs, es.foldl add_gpt_entry parts = parts ++ qs ∧ List.Forall₂ ReadBack ps qs := by
  induction h generalizing parts with
  | nil => exact ⟨[], by simp, .nil⟩
  | @cons p e ps es hhead htail ih =>
    rw [length_cons] at hroom
    have hroom' : (parts ++ [gpt_partition e (parts.length + 1)]).length + ps.length ≤ MAX_PARTITIONS := by
      rw [length_append, length_singleton]
      omega
    rw [foldl_cons, add_gpt_entry_kept hhead (by omega)]
    obtain ⟨qs, hfold, hback⟩ := ih hroom'
    exact ⟨_ :: qs, by rw [hfold, append_assoc]; rfl, .cons (hhead.read_back _) hback⟩

theorem add_gpt_entries_blank {es : List Buffer} (h : ∀ e ∈ es, Blank e) :
    es.foldl add_gpt_entry parts = parts := by
  induction es with
  | nil => rfl
  | cons e es ih =>
    rw [forall_mem_cons] at h
    rw [foldl_cons, add_gpt_entry_blank h.1, ih h.2]

/-- All the entries of the table that is written are the partitions in their order. -/
theorem read_put_gpt_parts (hlen : (live parts).length ≤ MAX_GPT_PARTS) :
    List.Forall₂ ReadBack (live parts)
      ((entries_from (put_gpt_parts zeros 0 parts) 0 MAX_GPT_PARTS).foldl add_gpt_entry []) := by
  have hblank : ∀ i, 0 ≤ i → Blank (gpt_entry zeros i) := fun i _ k _ => rfl
  obtain ⟨-, hthere, hbehind⟩ := put_gpt_parts_spec (by rw [Nat.zero_add]; exact hlen) hblank
  let n := (live parts).length
  let table := put_gpt_parts zeros 0 parts
  have hsplit : entries_from table 0 MAX_GPT_PARTS = entries_from table 0 n ++ entries_from table n
      (MAX_GPT_PARTS - n) := by
    have happend := entries_from_append table 0 n (MAX_GPT_PARTS - n)
    rwa [Nat.add_sub_cancel' hlen, Nat.zero_add] at happend
  have hkept : List.Forall₂ EntryOf (live parts) (entries_from table 0 n) := by
    rw [forall₂_iff_get]
    refine ⟨by rw [entries_from, length_map, length_range'], fun i hi hi' => ?_⟩
    have hentry := hthere i ((live parts).get ⟨i, hi⟩) (List.getElem?_eq_getElem hi)
    simpa [entries_from] using hentry
  have hrest : ∀ e ∈ entries_from table n (MAX_GPT_PARTS - n), Blank e := by
    intro e he
    obtain ⟨i, hi, rfl⟩ := List.mem_map.mp he
    have := List.mem_range'_1.mp hi
    exact hbehind i (by omega)
  have hroom : ([] : List Partition).length + (live parts).length ≤ MAX_PARTITIONS := by
    rw [length_nil, Nat.zero_add]
    exact hlen
  obtain ⟨qs, hfold, hback⟩ := add_gpt_entries_kept hkept hroom
  rw [hsplit, foldl_append, hfold, nil_append, add_gpt_entries_blank hrest]
  exact hback

end graceos.cfdisk
