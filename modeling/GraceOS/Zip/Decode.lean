import GraceOS.Bfs.Files
import Mathlib.Data.List.Basic

/-!
# Unpacking an archive

`sevenzip_decode` of `7c.c` with its helpers. A C string is the list of its bytes before the NUL. What is printed
is left out, but for the code that is returned with it.
-/

namespace graceos.zip

open bfs

def ZIP_SIG_LOCAL : Nat := 0x04034b50
def ZIP_SIG_CENTRAL : Nat := 0x02014b50
def ZIP_SIG_EOCD : Nat := 0x06054b50
def ZIP_METHOD_STORE : Nat := 0
def ZIP_MAX_SEGMENTS : Nat := 32
def ZIP_SEGMENT_MAX : Nat := 48
def ZIP_PATH_MAX : Nat := 128

abbrev Bytes := List UInt8

/-! ## Helpers -/

def byte (zip_data : Bytes) (p : Nat) : Nat := (zip_data.getD p 0).toNat

def read_u16 (zip_data : Bytes) (p : Nat) : Nat := byte zip_data p + byte zip_data (p + 1) * 2 ^ 8

def read_u32 (zip_data : Bytes) (p : Nat) : Nat :=
  byte zip_data p + byte zip_data (p + 1) * 2 ^ 8 + byte zip_data (p + 2) * 2 ^ 16 + byte zip_data (p + 3) * 2 ^ 24

/-- An entry of `crc32_table`. -/
def crc32_entry (i : UInt32) : UInt32 :=
  (List.range 8).foldl (fun c _ => if c &&& 1 ≠ 0 then (0xEDB88320 : UInt32) ^^^ (c >>> 1) else c >>> 1) i

def crc32_calc (data : Bytes) : UInt32 :=
  data.foldl (fun c d => crc32_entry ((c ^^^ d.toUInt32) &&& 0xFF) ^^^ (c >>> 8)) 0xFFFFFFFF ^^^ 0xFFFFFFFF

/-- The name of a file that a C string gives. -/
def bfs_name (path : Bytes) : FileName where
  chars := (path.map UInt8.toInt8).filter (· ≠ 0)
  no_nul h := by simpa using (List.mem_filter.mp h).2

def SLASH : UInt8 := 47
def BACKSLASH : UInt8 := 92
def DOT : UInt8 := 46

def is_separator (c : UInt8) : Bool := c == SLASH || c == BACKSLASH

/-- The loop of `normalize_zip_name` over the segments of `p`. -/
def zip_segments (segments : List Bytes) (p : Bytes) : Nat → Option (List Bytes)
  | 0 => none
  | fuel + 1 =>
    let p := p.dropWhile is_separator
    if p.isEmpty then some segments
    else
      let segment := p.takeWhile fun c => !is_separator c
      let rest := p.dropWhile fun c => !is_separator c
      if segment.length ≥ ZIP_SEGMENT_MAX then none
      else if segment = [DOT] then zip_segments segments rest fuel
      else if segment = [DOT, DOT] then
        if segments.isEmpty then none else zip_segments segments.dropLast rest fuel
      else if segments.length ≥ ZIP_MAX_SEGMENTS then none
      else zip_segments (segments ++ [segment]) rest fuel

/-- The loop of `normalize_zip_name` that joins the segments. -/
def join_segments (out : Bytes) : List Bytes → Option Bytes
  | [] => some out
  | segment :: segments =>
    if out.length + segment.length + 2 > ZIP_PATH_MAX then none
    else join_segments ((if out.isEmpty then out else out ++ [SLASH]) ++ segment) segments

/-- The normalised name, and whether the name is that of a directory. -/
def normalize_zip_name (name : Bytes) : Option (Bytes × Bool) := do
  let last ← name.getLast?
  let segments ← zip_segments [] name (name.length + 1)
  if segments.isEmpty then none
  else
    let out ← join_segments [] segments
    some (out, is_separator last)

def join_paths (a b : Bytes) : Option Bytes :=
  if a.length + b.length + 2 > ZIP_PATH_MAX then none
  else if a.isEmpty || a.getLast? == some SLASH then some (a ++ b)
  else some (a ++ [SLASH] ++ b)

/-- The part before the last slash. -/
def path_parent (path : Bytes) : Option Bytes :=
  let plen := path.length - 1 - (path.reverse.takeWhile (· ≠ SLASH)).length
  if SLASH ∉ path then some []
  else if plen ≥ ZIP_PATH_MAX then none
  else some (path.take plen)

/-- `bfs_create` of a prefix, and whether the result is one that `ensure_dir_path` goes on with. -/
def create_dir (s : Bfs) (path : Bytes) : Option (Bool × Bfs) :=
  if path.isEmpty then some (true, s)
  else (s.bfs_create (bfs_name path) 0).map fun (rc, s) => (rc == 0 || rc == -1, s)

/-- The loop of `ensure_dir_path` over the places `i` of `path`, then the path itself. -/
def ensure_dirs (s : Bfs) (path : Bytes) (i : Nat) : Nat → Option (Bool × Bfs)
  | 0 => create_dir s path
  | n + 1 => do
    if path[i]? = some SLASH then
      let (made, s) ← create_dir s (path.take i)
      if made then ensure_dirs s path (i + 1) n else some (false, s)
    else ensure_dirs s path (i + 1) n

def ensure_dir_path (s : Bfs) (path : Bytes) : Option (Bool × Bfs) :=
  if path.isEmpty then some (true, s)
  else if path.length ≥ ZIP_PATH_MAX then some (false, s)
  else ensure_dirs s path 0 path.length

/-! ## The decoder -/

/-- A local record: its name, the CRC that it stores, and its data. -/
structure Record where
  name : Bytes
  crc : Nat
  data : Bytes
  deriving DecidableEq

/-- What becomes of a record: the loop ends, the call returns 1, or the loop goes on at `pos`. -/
inductive Turn where
  | stop
  | fail
  | next (pos : Nat) (s : Bfs) (record : Record)

/-- The environment of a call: its arguments, and which paths may be overwritten. -/
structure Env where
  out_dir : Bytes
  overwrite : Bool
  check_overwrite_permission : Bytes → Bool

/-- The branch for a file. -/
def extract_file (env : Env) (s : Bfs) (out_path data : Bytes) (uncomp_size pos : Nat) (record : Record) :
    Option Turn := do
  match path_parent out_path with
  | none => some .fail
  | some parent =>
    let (made, s) ← ensure_dir_path s parent
    if !made then some .fail
    else
      let found ← s.bfs_find (bfs_name out_path)
      if found.isOk && !env.overwrite then some (.next pos s record)
      else if found.isOk && !env.check_overwrite_permission out_path then some .fail
      else if uncomp_size ≠ data.length then some .fail
      else
        let (code, s) ← s.bfs_write_file (bfs_name out_path) (fun i => data.getD i 0) (UInt64.ofNat data.length)
        if code ≠ 0 then some .fail else some (.next pos s record)

/-- A turn from the name of the record on. -/
def decode_named (env : Env) (zip_data : Bytes) (s : Bfs) (name : Bytes) (crc data_pos comp_size uncomp_size : Nat) :
    Option Turn :=
  match normalize_zip_name name with
  | none => some .fail
  | some (norm_name, is_dir) =>
    match join_paths env.out_dir norm_name with
    | none => some .fail
    | some out_path =>
      if data_pos + comp_size > zip_data.length then some .stop
      else
        let data := (zip_data.drop data_pos).take comp_size
        let record := { name, crc, data }
        if is_dir then do
          let (made, s) ← ensure_dir_path s out_path
          if made then some (.next (data_pos + comp_size) s record) else some .fail
        else extract_file env s out_path data uncomp_size (data_pos + comp_size) record

/-- The name of the record at `pos` as a C string. -/
def record_name (zip_data : Bytes) (pos name_len : Nat) : Bytes :=
  ((zip_data.drop (pos + 30)).take name_len).takeWhile (· ≠ 0)

/-- One turn of the loop of `sevenzip_decode`. -/
def decode_turn (env : Env) (zip_data : Bytes) (s : Bfs) (pos : Nat) : Option Turn :=
  if pos + 4 > zip_data.length then some .stop
  else if read_u32 zip_data pos ≠ ZIP_SIG_LOCAL then some .stop
  else if pos + 30 > zip_data.length then some .stop
  else
    let flags := read_u16 zip_data (pos + 6)
    let method := read_u16 zip_data (pos + 8)
    let crc := read_u32 zip_data (pos + 14)
    let comp_size := read_u32 zip_data (pos + 18)
    let uncomp_size := read_u32 zip_data (pos + 22)
    let name_len := read_u16 zip_data (pos + 26)
    let extra_len := read_u16 zip_data (pos + 28)
    if flags &&& 0x08 ≠ 0 then some .fail
    else if method ≠ ZIP_METHOD_STORE then some .fail
    else
      let header_size := 30 + name_len + extra_len
      if pos + header_size > zip_data.length then some .stop
      else if name_len ≥ ZIP_PATH_MAX then some .fail
      else decode_named env zip_data s (record_name zip_data pos name_len) crc (pos + header_size) comp_size uncomp_size

/-- The code, the volume and the records that the loop went through. -/
structure Result where
  code : Int
  s : Bfs
  records : List Record

/-- The loop of `sevenzip_decode`. -/
def decode_loop (env : Env) (zip_data : Bytes) (s : Bfs) (pos : Nat) (records : List Record) : Nat → Option Result
  | 0 => none
  | fuel + 1 => do
    match ← decode_turn env zip_data s pos with
    | .stop => some { code := 0, s, records }
    | .fail => some { code := 1, s, records }
    | .next pos s record => decode_loop env zip_data s pos (records ++ [record]) fuel

/-- `memory` says whether there is room for the archive. -/
def sevenzip_decode (env : Env) (memory : Nat → Bool) (s : Bfs) (zip_path : Bytes) : Option Result := do
  match ← s.bfs_file_size (bfs_name zip_path) with
  | .error _ => some { code := 1, s, records := [] }
  | .ok zip_size =>
    if !memory zip_size.toNat then some { code := 1, s, records := [] }
    else
      let read ← s.bfs_read_file (bfs_name zip_path) zip_size
      if read.code ≠ 0 ∨ read.out_size ≠ some zip_size then some { code := 1, s, records := [] }
      else
        let (made, s) ← ensure_dir_path s env.out_dir
        if !made then some { code := 1, s, records := [] }
        else decode_loop env read.data s 0 [] (read.data.length + 1)

/-! ## What an archive says -/

/-- A local record as it lies in the archive, and where the next one begins. -/
def local_record (zip_data : Bytes) (pos : Nat) : Option (Record × Nat) :=
  let name_len := read_u16 zip_data (pos + 26)
  let data_pos := pos + (30 + name_len + read_u16 zip_data (pos + 28))
  let comp_size := read_u32 zip_data (pos + 18)
  if pos + 30 ≤ zip_data.length ∧ read_u32 zip_data pos = ZIP_SIG_LOCAL ∧ data_pos + comp_size ≤ zip_data.length then
    some ({ name := record_name zip_data pos name_len
            crc := read_u32 zip_data (pos + 14)
            data := (zip_data.drop data_pos).take comp_size }, data_pos + comp_size)
  else none

/-- The local records from `pos` on, up to the first place where there is none. -/
def local_records (zip_data : Bytes) (pos : Nat) : Nat → List Record
  | 0 => []
  | fuel + 1 =>
    match local_record zip_data pos with
    | none => []
    | some (record, pos) => record :: local_records zip_data pos fuel

/-- The place of the end record: the last one whose comment ends with the archive. -/
def end_record_at (zip_data : Bytes) : Option Nat :=
  (List.range (zip_data.length - 21)).reverse.find? fun k =>
    read_u32 zip_data k = ZIP_SIG_EOCD ∧ k + 22 + read_u16 zip_data (k + 20) = zip_data.length

/-- Where the local headers of the next `n` central entries lie. -/
def central_offsets (zip_data : Bytes) (pos : Nat) : Nat → Option (List Nat)
  | 0 => some []
  | n + 1 =>
    if pos + 46 ≤ zip_data.length ∧ read_u32 zip_data pos = ZIP_SIG_CENTRAL then
      let next := pos + 46 + read_u16 zip_data (pos + 28) + read_u16 zip_data (pos + 30) + read_u16 zip_data (pos + 32)
      (central_offsets zip_data next n).map (read_u32 zip_data (pos + 42) :: ·)
    else none

/-- The entries that the end record announces, by the places of their local headers. -/
def announced (zip_data : Bytes) : Option (List Nat) := do
  let k ← end_record_at zip_data
  central_offsets zip_data (read_u32 zip_data (k + 16)) (read_u16 zip_data (k + 10))

def is_directory (record : Record) : Bool := record.name.getLast?.any is_separator

/-- Every entry that is announced lies whole in the archive and is one of the records. -/
def Covers (zip_data : Bytes) (records : List Record) : Prop :=
  ∃ offsets ∈ announced zip_data, ∀ offset ∈ offsets, ∃ found ∈ local_record zip_data offset, found.1 ∈ records

/-- The data of each file have the CRC that its local header stores. -/
def CrcsMatch (records : List Record) : Prop :=
  ∀ record ∈ records, is_directory record = false → (crc32_calc record.data).toNat = record.crc

/-- Every entry that is announced lies whole in the row of local records at the front of the archive, and the CRCs of
this row are right. -/
structure Sound (zip_data : Bytes) : Prop where
  covers : Covers zip_data (local_records zip_data 0 (zip_data.length + 1))
  crcs : CrcsMatch (local_records zip_data 0 (zip_data.length + 1))

end graceos.zip
