import GraceOS.Zip.Decode
import Mathlib.Data.List.TakeWhile

/-!
# Packing an archive

The bytes that `sevenzip_encode` of `7c.c` builds from its list of entries, and what the parser of the decoder reads
from them.
-/

namespace graceos.zip

open List

/-- `struct zip_entry`, with the contents that were read for it. -/
structure Entry where
  zip_name : Bytes
  data : Bytes

def append_u16 (v : Nat) : Bytes := [UInt8.ofNat v, UInt8.ofNat (v / 2 ^ 8)]

def append_u32 (v : Nat) : Bytes :=
  [UInt8.ofNat v, UInt8.ofNat (v / 2 ^ 8), UInt8.ofNat (v / 2 ^ 16), UInt8.ofNat (v / 2 ^ 24)]

/-- The 30 bytes before the name of an entry. -/
def local_header (ent : Entry) : Bytes :=
  append_u32 ZIP_SIG_LOCAL ++ append_u16 20 ++ append_u16 0 ++ append_u16 ZIP_METHOD_STORE ++ append_u16 0 ++
    append_u16 0 ++ append_u32 (crc32_calc ent.data).toNat ++ append_u32 ent.data.length ++
    append_u32 ent.data.length ++ append_u16 ent.zip_name.length ++ append_u16 0

def local_part (ent : Entry) : Bytes := local_header ent ++ ent.zip_name ++ ent.data

def central_part (ent : Entry) (offset : Nat) : Bytes :=
  append_u32 ZIP_SIG_CENTRAL ++ append_u16 20 ++ append_u16 20 ++ append_u16 0 ++ append_u16 ZIP_METHOD_STORE ++
    append_u16 0 ++ append_u16 0 ++ append_u32 (crc32_calc ent.data).toNat ++ append_u32 ent.data.length ++
    append_u32 ent.data.length ++ append_u16 ent.zip_name.length ++ append_u16 0 ++ append_u16 0 ++ append_u16 0 ++
    append_u16 0 ++ append_u32 0 ++ append_u32 offset ++ ent.zip_name

/-- The loop over the central directory, where the local part of the next entry is at `offset`. -/
def central_parts (offset : Nat) : List Entry → Bytes
  | [] => []
  | ent :: list => central_part ent offset ++ central_parts (offset + (local_part ent).length) list

def end_record (count cd_size cd_offset : Nat) : Bytes :=
  append_u32 ZIP_SIG_EOCD ++ append_u16 0 ++ append_u16 0 ++ append_u16 count ++ append_u16 count ++
    append_u32 cd_size ++ append_u32 cd_offset ++ append_u16 0

/-- What `sevenzip_encode` writes to the archive. -/
def archive (list : List Entry) : Bytes :=
  let locals := list.flatMap local_part
  let central := central_parts 0 list
  locals ++ (central ++ end_record list.length central.length locals.length)

/-! ## Reading a local part -/

variable {zip_data rest : Bytes} {pos : Nat} {ent : Entry} {env : Env} {s : bfs.Bfs}

theorem byte_of_drop {l : Bytes} (h : zip_data.drop pos = l) (k : Nat) : byte zip_data (pos + k) = byte l k := by
  rw [byte, byte, getD_eq_getElem?_getD, getD_eq_getElem?_getD, ← h, List.getElem?_drop]

theorem read_u16_of_drop {l : Bytes} (h : zip_data.drop pos = l) (k : Nat) :
    read_u16 zip_data (pos + k) = read_u16 l k := by
  rw [read_u16, read_u16, byte_of_drop h, Nat.add_assoc pos, byte_of_drop h]

theorem read_u32_of_drop {l : Bytes} (h : zip_data.drop pos = l) (k : Nat) :
    read_u32 zip_data (pos + k) = read_u32 l k := by
  rw [read_u32, read_u32, byte_of_drop h, Nat.add_assoc pos, byte_of_drop h, Nat.add_assoc pos, byte_of_drop h,
    Nat.add_assoc pos, byte_of_drop h]

theorem read_u16_append {v : Nat} (hv : v < 2 ^ 16) : read_u16 (append_u16 v ++ rest) 0 = v := by
  change (UInt8.ofNat v).toNat + (UInt8.ofNat (v / 2 ^ 8)).toNat * 2 ^ 8 = v
  rw [UInt8.toNat_ofNat', UInt8.toNat_ofNat']
  omega

theorem read_u32_append {v : Nat} (hv : v < 2 ^ 32) : read_u32 (append_u32 v ++ rest) 0 = v := by
  change (UInt8.ofNat v).toNat + (UInt8.ofNat (v / 2 ^ 8)).toNat * 2 ^ 8 + (UInt8.ofNat (v / 2 ^ 16)).toNat * 2 ^ 16 +
    (UInt8.ofNat (v / 2 ^ 24)).toNat * 2 ^ 24 = v
  rw [UInt8.toNat_ofNat', UInt8.toNat_ofNat', UInt8.toNat_ofNat', UInt8.toNat_ofNat']
  omega

theorem local_header_length (ent : Entry) : (local_header ent).length = 30 := rfl

theorem local_part_length (ent : Entry) : (local_part ent).length = 30 + ent.zip_name.length + ent.data.length := by
  rw [local_part, length_append, length_append, local_header_length]

/-- The fields that the decoder reads from the front of a local part. -/
structure Fields (l : Bytes) (ent : Entry) : Prop where
  sig : read_u32 l 0 = ZIP_SIG_LOCAL
  flags : read_u16 l 6 = 0
  method : read_u16 l 8 = ZIP_METHOD_STORE
  crc : read_u32 l 14 = (crc32_calc ent.data).toNat
  comp_size : read_u32 l 18 = ent.data.length
  uncomp_size : read_u32 l 22 = ent.data.length
  name_len : read_u16 l 26 = ent.zip_name.length
  extra_len : read_u16 l 28 = 0

theorem local_fields (hname : ent.zip_name.length < 2 ^ 16) (hdata : ent.data.length < 2 ^ 32) (rest : Bytes) :
    Fields (local_header ent ++ rest) ent where
  sig := @read_u32_append [] ZIP_SIG_LOCAL (by decide)
  flags := @read_u16_append [] 0 (by decide)
  method := @read_u16_append [] ZIP_METHOD_STORE (by decide)
  crc := @read_u32_append [] _ (crc32_calc ent.data).toNat_lt
  comp_size := @read_u32_append [] _ hdata
  uncomp_size := @read_u32_append [] _ hdata
  name_len := @read_u16_append [] _ hname
  extra_len := @read_u16_append [] 0 (by decide)

/-- The decoder reads an entry where its local part lies. -/
theorem decode_turn_local (h : zip_data.drop pos = local_part ent ++ rest) (hname : ent.zip_name.length < ZIP_PATH_MAX)
    (hnul : (0 : UInt8) ∉ ent.zip_name) (hdata : ent.data.length < 2 ^ 32) :
    decode_turn env zip_data s pos = decode_named env zip_data s ent.zip_name (crc32_calc ent.data).toNat
      (pos + (30 + ent.zip_name.length)) ent.data.length ent.data.length := by
  have hlength := congrArg List.length h
  rw [length_drop, length_append, local_part_length] at hlength
  have hshape : zip_data.drop pos = local_header ent ++ (ent.zip_name ++ (ent.data ++ rest)) := by
    rw [h, local_part, append_assoc, append_assoc]
  have hlimit : ent.zip_name.length < 128 := hname
  have hfields := @local_fields ent (by omega) hdata (ent.zip_name ++ (ent.data ++ rest))
  have hrecord : record_name zip_data pos ent.zip_name.length = ent.zip_name := by
    rw [record_name, ← drop_drop, hshape, drop_left' (local_header_length ent), take_left' rfl]
    apply List.takeWhile_eq_self_iff.mpr
    intro c hc
    rw [decide_eq_true_eq]
    rintro rfl
    exact hnul hc
  have hsig : read_u32 zip_data pos = ZIP_SIG_LOCAL := (read_u32_of_drop hshape 0).trans hfields.sig
  have hname_len : read_u16 zip_data (pos + 26) = ent.zip_name.length :=
      (read_u16_of_drop hshape 26).trans hfields.name_len
  unfold decode_turn
  rw [if_neg (by omega), if_neg (not_not.mpr hsig), if_neg (by omega)]
  dsimp only
  rw [hname_len, (read_u16_of_drop hshape 6).trans hfields.flags, (read_u16_of_drop hshape 8).trans hfields.method,
    (read_u16_of_drop hshape 28).trans hfields.extra_len, (read_u32_of_drop hshape 14).trans hfields.crc,
    (read_u32_of_drop hshape 18).trans hfields.comp_size, (read_u32_of_drop hshape 22).trans hfields.uncomp_size,
    if_neg (by decide), if_neg (not_not.mpr rfl), if_neg (by omega), if_neg (by omega), hrecord]
  rfl

/-! ## Names -/

/-- A segment of a name that is kept as it is. -/
structure Segment (segment : Bytes) : Prop where
  ne_nil : segment ≠ []
  length : segment.length < ZIP_SEGMENT_MAX
  plain : ∀ c ∈ segment, is_separator c = false
  ne_dot : segment ≠ [DOT]
  ne_dots : segment ≠ [DOT, DOT]

theorem Segment.head {segment : Bytes} (h : Segment segment) (tail : Bytes) :
    (segment ++ tail).dropWhile is_separator = segment ++ tail := by
  obtain ⟨c, l, rfl⟩ := exists_cons_of_ne_nil h.ne_nil
  rw [cons_append, dropWhile_cons, if_neg (by rw [h.plain c (mem_cons_self ..)]; exact Bool.false_ne_true)]

/-- What follows a segment in a name. -/
def behind_segment (segments : List Bytes) : Bytes := segments.flatMap (SLASH :: ·)

theorem intercalate_cons (segment : Bytes) (segments : List Bytes) :
    List.intercalate [SLASH] (segment :: segments) = segment ++ behind_segment segments := by
  induction segments generalizing segment with
  | nil => rw [intercalate_singleton, behind_segment, flatMap_nil, append_nil]
  | cons next segments ih =>
    rw [intercalate_cons_cons, ih, behind_segment, behind_segment, flatMap_cons, append_assoc]
    rfl

theorem Segment.split {segment : Bytes} (h : Segment segment) (segments : List Bytes) :
    (segment ++ behind_segment segments).takeWhile (fun c => !is_separator c) = segment ∧
      (segment ++ behind_segment segments).dropWhile (fun c => !is_separator c) = behind_segment segments := by
  have hplain : ∀ c ∈ segment, (!is_separator c) = true := by
    intro c hc
    rw [h.plain c hc]
    rfl
  rw [takeWhile_append_of_pos hplain, dropWhile_append_of_pos hplain]
  cases segments with
  | nil => exact ⟨append_nil segment, rfl⟩
  | cons next segments => exact ⟨append_nil segment, rfl⟩

/-- The loop finds the segments that a name is made of. -/
theorem zip_segments_eq {segments found : List Bytes} (h : ∀ segment ∈ segments, Segment segment)
    (hcount : found.length + segments.length ≤ ZIP_MAX_SEGMENTS) {p : Bytes}
    (hp : p.dropWhile is_separator = List.intercalate [SLASH] segments) {fuel : Nat} (hfuel : segments.length < fuel) :
    zip_segments found p fuel = some (found ++ segments) := by
  induction segments generalizing found p fuel with
  | nil =>
    obtain ⟨fuel, rfl⟩ := Nat.exists_eq_add_one_of_ne_zero (Nat.ne_of_gt hfuel)
    rw [zip_segments, hp]
    exact congrArg some (append_nil found).symm
  | cons segment segments ih =>
    obtain ⟨fuel, rfl⟩ := Nat.exists_eq_add_one_of_ne_zero (Nat.ne_of_gt (Nat.lt_of_le_of_lt (Nat.zero_le _) hfuel))
    have hsegment := h segment (mem_cons_self ..)
    rw [length_cons] at hcount hfuel
    obtain ⟨htake, hdrop⟩ := hsegment.split segments
    have hnext : (behind_segment segments).dropWhile is_separator = List.intercalate [SLASH] segments := by
      cases segments with
      | nil => rfl
      | cons next segments =>
        rw [intercalate_cons]
        exact (h next (mem_cons_of_mem _ (mem_cons_self ..))).head (behind_segment segments)
    have hrest := @ih (found ++ [segment]) (fun g hg => h g (mem_cons_of_mem segment hg))
      (by rw [length_append, length_singleton]; omega) _ hnext fuel (by omega)
    have hne : (segment ++ behind_segment segments).isEmpty = false := by
      obtain ⟨c, l, hcl⟩ := exists_cons_of_ne_nil hsegment.ne_nil
      rw [hcl]
      rfl
    rw [zip_segments]
    dsimp only
    rw [hp, intercalate_cons, hne, htake, hdrop, if_neg Bool.false_ne_true,
      if_neg (not_le.mpr hsegment.length), if_neg hsegment.ne_dot, if_neg hsegment.ne_dots,
      if_neg (by omega), hrest, append_assoc]
    rfl

theorem join_segments_eq {segments : List Bytes} {out : Bytes} (hout : out ≠ [])
    (hlength : (out ++ behind_segment segments).length < ZIP_PATH_MAX) :
    join_segments out segments = some (out ++ behind_segment segments) := by
  induction segments generalizing out with
  | nil => exact congrArg some (append_nil out).symm
  | cons segment segments ih =>
    have hshape : out ++ behind_segment (segment :: segments) =
        (out ++ [SLASH] ++ segment) ++ behind_segment segments := by
      rw [behind_segment, flatMap_cons, behind_segment]
      simp
    rw [hshape] at hlength ⊢
    have hshort := hlength
    rw [length_append, length_append, length_append, length_singleton] at hshort
    rw [join_segments, if_neg (by omega), if_neg (by rw [List.isEmpty_iff]; exact hout)]
    exact ih (by simp) hlength

/-- A name that the decoder keeps as it is. -/
structure Normal (name : Bytes) : Prop where
  spells : ∃ segments, name = List.intercalate [SLASH] segments ∧ segments ≠ [] ∧ segments.length ≤ ZIP_MAX_SEGMENTS ∧
    ∀ segment ∈ segments, Segment segment
  length : name.length < ZIP_PATH_MAX
  no_nul : (0 : UInt8) ∉ name

theorem length_le_behind_segment (segments : List Bytes) : segments.length ≤ (behind_segment segments).length := by
  induction segments with
  | nil => exact Nat.zero_le _
  | cons segment segments ih =>
    rw [behind_segment] at ih ⊢
    rw [flatMap_cons, length_append, length_cons, length_cons]
    omega

theorem segments_last {segments : List Bytes} (h : ∀ segment ∈ segments, Segment segment) {segment : Bytes}
    (hsegment : Segment segment) :
    ∃ c, (segment ++ behind_segment segments).getLast? = some c ∧ is_separator c = false := by
  induction segments generalizing segment with
  | nil =>
    have hnil : segment ++ behind_segment [] = segment := append_nil segment
    rw [hnil]
    exact ⟨segment.getLast hsegment.ne_nil, List.getLast?_eq_some_getLast hsegment.ne_nil,
      hsegment.plain _ (getLast_mem hsegment.ne_nil)⟩
  | cons next segments ih =>
    obtain ⟨c, hc, hplain⟩ := ih (fun g hg => h g (mem_cons_of_mem next hg)) (h next (mem_cons_self ..))
    refine ⟨c, ?_, hplain⟩
    have hshape : segment ++ behind_segment (next :: segments) =
        (segment ++ [SLASH]) ++ (next ++ behind_segment segments) := by
      rw [behind_segment, flatMap_cons, behind_segment, append_assoc]
      rfl
    rw [hshape, List.getLast?_append, hc]
    rfl

theorem Normal.normalize {name : Bytes} (h : Normal name) : normalize_zip_name name = some (name, false) := by
  obtain ⟨⟨segments, hname, hne, hcount, hsegments⟩, hlength, -⟩ := h
  obtain ⟨segment, segments, rfl⟩ := exists_cons_of_ne_nil hne
  have hsegment := hsegments segment (mem_cons_self ..)
  have hothers : ∀ g ∈ segments, Segment g := fun g hg => hsegments g (mem_cons_of_mem segment hg)
  have hspells : name = segment ++ behind_segment segments := hname.trans (intercalate_cons segment segments)
  obtain ⟨last, hlast, hplain⟩ := segments_last hothers hsegment
  rw [← hspells] at hlast
  have hfound : zip_segments [] name (name.length + 1) = some (segment :: segments) := by
    apply zip_segments_eq hsegments (by rw [length_nil]; omega)
    · rw [hname, intercalate_cons]
      exact hsegment.head _
    · have hpos := length_pos_of_ne_nil hsegment.ne_nil
      have hbehind := length_le_behind_segment segments
      rw [hspells, length_append, length_cons]
      omega
  have hjoined : join_segments [] (segment :: segments) = some name := by
    have hshort : segment.length < 48 := hsegment.length
    rw [join_segments, if_neg (by rw [length_nil, ZIP_PATH_MAX]; omega)]
    rw [hspells] at hlength ⊢
    exact join_segments_eq hsegment.ne_nil hlength
  rw [normalize_zip_name]
  simp only [hlast, hfound, hjoined, hplain, Option.bind_eq_bind, Option.bind_some, isEmpty_cons, Bool.false_eq_true,
    if_false]

end graceos.zip
