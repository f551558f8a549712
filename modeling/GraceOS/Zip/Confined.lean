import GraceOS.Bfs.History
import GraceOS.Lib.Traced
import GraceOS.Zip.Paths
import GraceOS.Zip.Silent

/-!
# What a decode touches

The decoder of `7c.c` once more, with the places of the archive that it reads and the names that it creates and writes.
Whatever the archive holds, the places lie in it, and the names below the output directory or on the way to it.
-/

namespace graceos.zip

open bfs traced

/-- A place of the archive that is read, or a name that the volume is asked to create or to write. -/
inductive Access where
  | read (i : Nat)
  | create (path : Bytes)
  | write (path : Bytes)

abbrev Decoding := OptionT (Traced Access)

/-! ## The decoder with its accesses -/

def byte_at (zip_data : Bytes) (p : Nat) : Traced Access Nat := ⟨[.read p], byte zip_data p⟩

def read_u16_at (zip_data : Bytes) (p : Nat) : Traced Access Nat := do
  let b0 ← byte_at zip_data p
  let b1 ← byte_at zip_data (p + 1)
  pure (b0 + b1 * 2 ^ 8)

def read_u32_at (zip_data : Bytes) (p : Nat) : Traced Access Nat := do
  let b0 ← byte_at zip_data p
  let b1 ← byte_at zip_data (p + 1)
  let b2 ← byte_at zip_data (p + 2)
  let b3 ← byte_at zip_data (p + 3)
  pure (b0 + b1 * 2 ^ 8 + b2 * 2 ^ 16 + b3 * 2 ^ 24)

/-- `n` bytes of the archive, as `memcpy` and `bfs_write_file` go through them. -/
def bytes_at (zip_data : Bytes) (p n : Nat) : Traced Access Bytes :=
  ⟨(List.range' p n).map .read, (zip_data.drop p).take n⟩

def bfs_create_at (s : Bfs) (path : Bytes) : Decoding (Int × Bfs) :=
  OptionT.mk ⟨[.create path], s.bfs_create (bfs_name path) 0⟩

def bfs_write_file_at (s : Bfs) (path data : Bytes) : Decoding (Int × Bfs) :=
  OptionT.mk ⟨[.write path],
    s.bfs_write_file (bfs_name path) (fun i => data.getD i 0) (UInt64.ofNat data.length)⟩

/-- A call that touches neither the archive nor a name. -/
def call {α : Type} (o : Option α) : Decoding α := OptionT.mk ⟨[], o⟩

def create_dir_at (s : Bfs) (path : Bytes) : Decoding (Bool × Bfs) :=
  if path.isEmpty then pure (true, s)
  else do
    let (rc, s) ← bfs_create_at s path
    pure (rc == 0 || rc == -1, s)

def ensure_dirs_at (s : Bfs) (path : Bytes) (i : Nat) : Nat → Decoding (Bool × Bfs)
  | 0 => create_dir_at s path
  | n + 1 =>
    if path[i]? = some SLASH then do
      let (made, s) ← create_dir_at s (path.take i)
      if made then ensure_dirs_at s path (i + 1) n else pure (false, s)
    else ensure_dirs_at s path (i + 1) n

def ensure_dir_path_at (s : Bfs) (path : Bytes) : Decoding (Bool × Bfs) :=
  if path.isEmpty then pure (true, s)
  else if path.length ≥ ZIP_PATH_MAX then pure (false, s)
  else ensure_dirs_at s path 0 path.length

/-- The data of the file are only read to be written. -/
def extract_file_at (env : Env) (zip_data : Bytes) (s : Bfs) (out_path : Bytes)
    (data_pos comp_size uncomp_size : Nat) (record : Record) : Decoding Turn :=
  match path_parent out_path with
  | none => pure .fail
  | some parent => do
    let (made, s) ← ensure_dir_path_at s parent
    if !made then pure .fail
    else
      let found ← call (s.bfs_find (bfs_name out_path))
      if found.isOk && !env.overwrite then pure (.next (data_pos + comp_size) s record)
      else if found.isOk && !env.check_overwrite_permission out_path then pure .fail
      else if uncomp_size ≠ comp_size then pure .fail
      else
        let data ← bytes_at zip_data data_pos comp_size
        let (code, s) ← bfs_write_file_at s out_path data
        if code ≠ 0 then pure .fail else pure (.next (data_pos + comp_size) s record)

def decode_named_at (env : Env) (zip_data : Bytes) (s : Bfs) (name : Bytes) (crc data_pos comp_size uncomp_size : Nat) :
    Decoding Turn :=
  match normalize_zip_name name with
  | none => pure .fail
  | some (norm_name, is_dir) =>
    match join_paths env.out_dir norm_name with
    | none => pure .fail
    | some out_path =>
      if data_pos + comp_size > zip_data.length then pure .stop
      else
        let record := { name, crc, data := (zip_data.drop data_pos).take comp_size }
        if is_dir then do
          let (made, s) ← ensure_dir_path_at s out_path
          if made then pure (.next (data_pos + comp_size) s record) else pure .fail
        else extract_file_at env zip_data s out_path data_pos comp_size uncomp_size record

/-- The CRC is never read; it stands in the record only. -/
def decode_turn_at (env : Env) (zip_data : Bytes) (s : Bfs) (pos : Nat) : Decoding Turn :=
  if pos + 4 > zip_data.length then pure .stop
  else do
    let sig ← read_u32_at zip_data pos
    if sig ≠ ZIP_SIG_LOCAL then pure .stop
    else if pos + 30 > zip_data.length then pure .stop
    else
      let flags ← read_u16_at zip_data (pos + 6)
      let method ← read_u16_at zip_data (pos + 8)
      let comp_size ← read_u32_at zip_data (pos + 18)
      let uncomp_size ← read_u32_at zip_data (pos + 22)
      let name_len ← read_u16_at zip_data (pos + 26)
      let extra_len ← read_u16_at zip_data (pos + 28)
      if flags &&& 0x08 ≠ 0 then pure .fail
      else if method ≠ ZIP_METHOD_STORE then pure .fail
      else
        let header_size := 30 + name_len + extra_len
        if pos + header_size > zip_data.length then pure .stop
        else if name_len ≥ ZIP_PATH_MAX then pure .fail
        else
          let name_buf ← bytes_at zip_data (pos + 30) name_len
          decode_named_at env zip_data s (name_buf.takeWhile (· ≠ 0)) (read_u32 zip_data (pos + 14))
            (pos + header_size) comp_size uncomp_size

def decode_loop_at (env : Env) (zip_data : Bytes) (s : Bfs) (pos : Nat) (records : List Record) :
    Nat → Decoding Result
  | 0 => call none
  | fuel + 1 => do
    match ← decode_turn_at env zip_data s pos with
    | .stop => pure { code := 0, s, records }
    | .fail => pure { code := 1, s, records }
    | .next pos s record => decode_loop_at env zip_data s pos (records ++ [record]) fuel

def sevenzip_decode_at (env : Env) (memory : Nat → Bool) (s : Bfs) (zip_path : Bytes) : Decoding Result := do
  match ← call (s.bfs_file_size (bfs_name zip_path)) with
  | .error _ => pure { code := 1, s, records := [] }
  | .ok zip_size =>
    if !memory zip_size.toNat then pure { code := 1, s, records := [] }
    else
      let read ← call (s.bfs_read_file (bfs_name zip_path) zip_size)
      if read.code ≠ 0 ∨ read.out_size ≠ some zip_size then pure { code := 1, s, records := [] }
      else
        let (made, s) ← ensure_dir_path_at s env.out_dir
        if !made then pure { code := 1, s, records := [] }
        else decode_loop_at env read.data s 0 [] (read.data.length + 1)

/-! ## It is the same decoder -/

section Outcome

variable {α : Type} {env : Env} {zip_data path : Bytes} {s : Bfs} {pos : Nat}

@[simp] theorem outcome_call (o : Option α) : outcome (call o) = o := rfl

@[simp] theorem outcome_bfs_create_at : outcome (bfs_create_at s path) = s.bfs_create (bfs_name path) 0 := rfl

theorem outcome_bfs_write_file_at {data : Bytes} : outcome (bfs_write_file_at s path data) =
    s.bfs_write_file (bfs_name path) (fun i => data.getD i 0) (UInt64.ofNat data.length) := rfl

@[simp] theorem value_read_u16_at {p : Nat} : (read_u16_at zip_data p).value = read_u16 zip_data p := rfl

@[simp] theorem value_read_u32_at {p : Nat} : (read_u32_at zip_data p).value = read_u32 zip_data p := rfl

@[simp] theorem value_bytes_at {p n : Nat} : (bytes_at zip_data p n).value = (zip_data.drop p).take n := rfl

theorem outcome_ite {c : Prop} [Decidable c] {x y : Decoding α} :
    outcome (if c then x else y) = if c then outcome x else outcome y :=
  apply_ite outcome c x y

theorem create_dir_at_outcome : outcome (create_dir_at s path) = create_dir s path := by
  unfold create_dir_at create_dir
  split
  · rfl
  · rw [outcome_bind, outcome_bfs_create_at]
    cases s.bfs_create (bfs_name path) 0 with
    | none => rfl
    | some r => rfl

theorem ensure_dirs_at_outcome {i n : Nat} : outcome (ensure_dirs_at s path i n) = ensure_dirs s path i n := by
  induction n generalizing s i with
  | zero => exact create_dir_at_outcome
  | succ n ih =>
    rw [ensure_dirs_at, ensure_dirs]
    split
    · rw [outcome_bind, create_dir_at_outcome]
      apply Option.bind_congr
      rintro ⟨made, s₁⟩ -
      dsimp only
      rw [outcome_ite, ih]
      rfl
    · exact ih

theorem ensure_dir_path_at_outcome : outcome (ensure_dir_path_at s path) = ensure_dir_path s path := by
  unfold ensure_dir_path_at ensure_dir_path
  rw [outcome_ite, outcome_ite, ensure_dirs_at_outcome]
  rfl

theorem extract_file_at_outcome {data_pos comp_size uncomp_size : Nat} {record : Record}
    (hfits : data_pos + comp_size ≤ zip_data.length) :
    outcome (extract_file_at env zip_data s path data_pos comp_size uncomp_size record) =
      extract_file env s path ((zip_data.drop data_pos).take comp_size) uncomp_size (data_pos + comp_size) record := by
  have hlength : ((zip_data.drop data_pos).take comp_size).length = comp_size := by
    rw [List.length_take, List.length_drop]
    omega
  unfold extract_file_at extract_file
  cases path_parent path with
  | none => rfl
  | some parent =>
  dsimp only
  rw [outcome_bind, ensure_dir_path_at_outcome]
  apply Option.bind_congr
  rintro ⟨made, s₁⟩ -
  dsimp only
  rw [outcome_ite, outcome_bind, hlength]
  refine ite_congr rfl (fun _ => rfl) fun _ => ?_
  apply Option.bind_congr
  intro found _
  rw [outcome_ite, outcome_ite, outcome_ite]
  refine ite_congr rfl (fun _ => rfl) fun _ => ite_congr rfl (fun _ => rfl) fun _ =>
    ite_congr rfl (fun _ => rfl) fun _ => ?_
  rw [outcome_bind, outcome_lift, Option.bind_some, outcome_bind, value_bytes_at, outcome_bfs_write_file_at, hlength]
  apply Option.bind_congr
  rintro ⟨code, s₂⟩ -
  exact outcome_ite

theorem decode_named_at_outcome {name : Bytes} {crc data_pos comp_size uncomp_size : Nat} :
    outcome (decode_named_at env zip_data s name crc data_pos comp_size uncomp_size) =
      decode_named env zip_data s name crc data_pos comp_size uncomp_size := by
  unfold decode_named_at decode_named
  cases normalize_zip_name name with
  | none => rfl
  | some norm =>
  obtain ⟨norm_name, is_dir⟩ := norm
  dsimp only
  cases join_paths env.out_dir norm_name with
  | none => rfl
  | some out_path =>
  dsimp only
  by_cases hfits : data_pos + comp_size > zip_data.length
  · rw [if_pos hfits, if_pos hfits]
    rfl
  rw [if_neg hfits, if_neg hfits, outcome_ite, outcome_bind, ensure_dir_path_at_outcome,
    extract_file_at_outcome (not_lt.mp hfits)]
  congr 1
  apply Option.bind_congr
  rintro ⟨made, s₁⟩ -
  exact outcome_ite

theorem decode_turn_at_outcome : outcome (decode_turn_at env zip_data s pos) = decode_turn env zip_data s pos := by
  unfold decode_turn_at decode_turn
  rw [outcome_ite]
  refine ite_congr rfl (fun _ => rfl) fun _ => ?_
  rw [outcome_bind, outcome_lift, Option.bind_some, value_read_u32_at, outcome_ite, outcome_ite]
  refine ite_congr rfl (fun _ => rfl) fun _ => ite_congr rfl (fun _ => rfl) fun _ => ?_
  iterate 6 rw [outcome_bind, outcome_lift, Option.bind_some]
  rw [value_read_u16_at, value_read_u16_at, value_read_u32_at, value_read_u32_at, value_read_u16_at, value_read_u16_at,
    outcome_ite, outcome_ite]
  dsimp only
  rw [outcome_ite, outcome_ite]
  refine ite_congr rfl (fun _ => rfl) fun _ => ite_congr rfl (fun _ => rfl) fun _ => ?_
  refine ite_congr rfl (fun _ => rfl) fun _ => ite_congr rfl (fun _ => rfl) fun _ => ?_
  rw [outcome_bind, outcome_lift, Option.bind_some, decode_named_at_outcome, value_bytes_at, record_name]

theorem decode_loop_at_outcome {records : List Record} {fuel : Nat} :
    outcome (decode_loop_at env zip_data s pos records fuel) = decode_loop env zip_data s pos records fuel := by
  induction fuel generalizing s pos records with
  | zero => rfl
  | succ fuel ih =>
    rw [decode_loop_at, decode_loop, outcome_bind, decode_turn_at_outcome]
    apply Option.bind_congr
    intro turn _
    cases turn with
    | stop => rfl
    | fail => rfl
    | next pos s record => exact ih

theorem sevenzip_decode_at_outcome {memory : Nat → Bool} {zip_path : Bytes} :
    outcome (sevenzip_decode_at env memory s zip_path) = sevenzip_decode env memory s zip_path := by
  rw [sevenzip_decode_at, sevenzip_decode, outcome_bind, outcome_call]
  apply Option.bind_congr
  intro size _
  cases size with
  | error code => rfl
  | ok zip_size =>
    dsimp only
    rw [outcome_ite, outcome_bind, outcome_call]
    congr 1
    apply Option.bind_congr
    intro read _
    rw [outcome_ite, outcome_bind, ensure_dir_path_at_outcome]
    congr 1
    apply Option.bind_congr
    rintro ⟨made, s₁⟩ -
    dsimp only
    rw [outcome_ite, decode_loop_at_outcome]
    rfl

end Outcome

/-! ## What is touched -/

/-- Places of the archive, and names on the way to the output directory or below it. Files are only written below. -/
def Allowed (out_dir : Bytes) (zip_size : Nat) : Access → Prop
  | .read i => i < zip_size
  | .create path => OnWay out_dir path ∨ Below out_dir path
  | .write path => Below out_dir path

section Touched

variable {α : Type} {P : Access → Prop} {env : Env} {zip_data path : Bytes} {s : Bfs} {pos : Nat}

theorem allRun_ite {c : Prop} [Decidable c] {x y : Decoding α} (hx : c → AllRun P x) (hy : ¬ c → AllRun P y) :
    AllRun P (if c then x else y) := by
  split
  · next h => exact hx h
  · next h => exact hy h

theorem allRun_call (o : Option α) : AllRun P (call o) := by
  intro e he
  cases he

theorem read_u16_at_all {p : Nat} (h : ∀ i, p ≤ i → i < p + 2 → P (.read i)) : (read_u16_at zip_data p).All P := by
  simp only [read_u16_at, Traced.all_bind, Traced.all_pure, and_true]
  simp only [Traced.All, byte_at, List.mem_singleton, forall_eq]
  exact ⟨h p (by omega) (by omega), h (p + 1) (by omega) (by omega)⟩

theorem read_u32_at_all {p : Nat} (h : ∀ i, p ≤ i → i < p + 4 → P (.read i)) : (read_u32_at zip_data p).All P := by
  simp only [read_u32_at, Traced.all_bind, Traced.all_pure, and_true]
  simp only [Traced.All, byte_at, List.mem_singleton, forall_eq]
  exact ⟨h p (by omega) (by omega), h (p + 1) (by omega) (by omega), h (p + 2) (by omega) (by omega),
    h (p + 3) (by omega) (by omega)⟩

theorem bytes_at_all {p n : Nat} (h : ∀ i, p ≤ i → i < p + n → P (.read i)) : (bytes_at zip_data p n).All P := by
  intro e he
  obtain ⟨i, hi, rfl⟩ := List.mem_map.mp he
  obtain ⟨hlow, hhigh⟩ := List.mem_range'_1.mp hi
  exact h i hlow hhigh

theorem create_dir_at_all (h : path ≠ [] → P (.create path)) : AllRun P (create_dir_at s path) := by
  unfold create_dir_at
  refine allRun_ite (fun _ => allRun_pure _) fun hne => allRun_bind ?_ fun _ _ => allRun_pure _
  intro e he
  rw [List.mem_singleton.mp he]
  exact h fun hnil => hne (List.isEmpty_iff.mpr hnil)

theorem ensure_dirs_at_all {i n : Nat} (h : ∀ dir, OnWay path dir → P (.create dir)) :
    AllRun P (ensure_dirs_at s path i n) := by
  induction n generalizing s i with
  | zero => exact create_dir_at_all fun hne => h path ⟨hne, .inl rfl⟩
  | succ n ih =>
    rw [ensure_dirs_at]
    refine allRun_ite (fun hslash => ?_) fun _ => ih
    obtain ⟨hi, hget⟩ := List.getElem?_eq_some_iff.mp hslash
    -- The part in front of the slash at `i`.
    have hway : path = path.take i ++ SLASH :: path.drop (i + 1) := by
      rw [← hget, List.getElem_cons_drop, List.take_append_drop]
    refine allRun_bind (create_dir_at_all fun hne => h _ ⟨hne, .inr ⟨_, hway⟩⟩) fun r _ => ?_
    exact allRun_ite (fun _ => ih) fun _ => allRun_pure _

theorem ensure_dir_path_at_all (h : ∀ dir, OnWay path dir → P (.create dir)) : AllRun P
    (ensure_dir_path_at s path) := by
  unfold ensure_dir_path_at
  exact allRun_ite (fun _ => allRun_pure _) fun _ => allRun_ite (fun _ => allRun_pure _) fun _ => ensure_dirs_at_all h

theorem extract_file_at_all {data_pos comp_size uncomp_size : Nat} {record : Record}
    (hpath : Below env.out_dir path) (hfits : data_pos + comp_size ≤ zip_data.length) :
    AllRun (Allowed env.out_dir zip_data.length)
      (extract_file_at env zip_data s path data_pos comp_size uncomp_size record) := by
  unfold extract_file_at
  split
  · exact allRun_pure _
  next parent hparent =>
  refine allRun_bind (ensure_dir_path_at_all fun dir hdir => hpath.onWay ?_) fun r _ => ?_
  · rcases path_parent_onWay hparent with rfl | hway
    · -- The empty path has nothing on its way.
      rcases hdir.2 with hnil | ⟨rest, hnil⟩
      · exact absurd hnil hdir.1
      · simp at hnil
    · exact hway.trans hdir
  refine allRun_ite (fun _ => allRun_pure _) fun _ => allRun_bind (allRun_call _) fun found _ => ?_
  refine allRun_ite (fun _ => allRun_pure _) fun _ => allRun_ite (fun _ => allRun_pure _) fun _ => ?_
  refine allRun_ite (fun _ => allRun_pure _) fun _ => allRun_bind ?_ fun data _ => allRun_bind ?_ fun w _ => ?_
  · exact allRun_lift.mpr (bytes_at_all fun i _ hi => show i < zip_data.length by omega)
  · intro e he
    rw [List.mem_singleton.mp he]
    exact hpath
  · exact allRun_ite (fun _ => allRun_pure _) fun _ => allRun_pure _

theorem decode_named_at_all {name : Bytes} {crc data_pos comp_size uncomp_size : Nat} :
    AllRun (Allowed env.out_dir zip_data.length)
      (decode_named_at env zip_data s name crc data_pos comp_size uncomp_size) := by
  unfold decode_named_at
  split
  · exact allRun_pure _
  next norm_name is_dir hnorm =>
  split
  · exact allRun_pure _
  next out_path hjoin =>
  have hpath := normalize_zip_name_below hnorm hjoin
  refine allRun_ite (fun _ => allRun_pure _) fun hfits => allRun_ite (fun _ => ?_) fun _ => ?_
  · refine allRun_bind (ensure_dir_path_at_all fun dir hdir => hpath.onWay hdir) fun r _ => ?_
    exact allRun_ite (fun _ => allRun_pure _) fun _ => allRun_pure _
  · exact extract_file_at_all hpath (not_lt.mp hfits)

theorem decode_turn_at_all : AllRun (Allowed env.out_dir zip_data.length) (decode_turn_at env zip_data s pos) := by
  have hread {p n : Nat} (hfits : p + n ≤ zip_data.length) (i : Nat) (_ : p ≤ i) (hi : i < p + n) :
      Allowed env.out_dir zip_data.length (.read i) := show i < zip_data.length by omega
  unfold decode_turn_at
  refine allRun_ite (fun _ => allRun_pure _) fun hsig => ?_
  refine allRun_bind (allRun_lift.mpr (read_u32_at_all (hread (not_lt.mp hsig)))) fun sig _ => ?_
  refine allRun_ite (fun _ => allRun_pure _) fun _ => allRun_ite (fun _ => allRun_pure _) fun hhead => ?_
  refine allRun_bind (allRun_lift.mpr (read_u16_at_all (hread (by omega)))) fun flags _ => ?_
  refine allRun_bind (allRun_lift.mpr (read_u16_at_all (hread (by omega)))) fun method _ => ?_
  refine allRun_bind (allRun_lift.mpr (read_u32_at_all (hread (by omega)))) fun comp_size _ => ?_
  refine allRun_bind (allRun_lift.mpr (read_u32_at_all (hread (by omega)))) fun uncomp_size _ => ?_
  refine allRun_bind (allRun_lift.mpr (read_u16_at_all (hread (by omega)))) fun name_len _ => ?_
  refine allRun_bind (allRun_lift.mpr (read_u16_at_all (hread (by omega)))) fun extra_len _ => ?_
  refine allRun_ite (fun _ => allRun_pure _) fun _ => allRun_ite (fun _ => allRun_pure _) fun _ => ?_
  refine allRun_ite (fun _ => allRun_pure _) fun hheader => allRun_ite (fun _ => allRun_pure _) fun _ => ?_
  exact allRun_bind (allRun_lift.mpr (bytes_at_all (hread (by omega)))) fun name_buf _ => decode_named_at_all

theorem decode_loop_at_all {records : List Record} {fuel : Nat} :
    AllRun (Allowed env.out_dir zip_data.length) (decode_loop_at env zip_data s pos records fuel) := by
  induction fuel generalizing s pos records with
  | zero => exact allRun_call none
  | succ fuel ih =>
    rw [decode_loop_at]
    refine allRun_bind decode_turn_at_all fun turn _ => ?_
    cases turn with
    | stop => exact allRun_pure _
    | fail => exact allRun_pure _
    | next pos s record => exact ih

theorem read_pages_length {page_num : UInt64} {remaining : Nat} {data : List UInt8}
    (h : s.read_pages page_num remaining = (0, data)) : data.length = remaining := by
  induction remaining using Nat.strong_induction_on generalizing page_num data with
  | _ remaining ih =>
    rw [Bfs.read_pages] at h
    split at h
    · next hzero =>
      rw [← (Prod.mk.inj h).2, hzero]
      rfl
    next hmore =>
    split at h
    · cases h
    next page hpage =>
    dsimp only at h
    cases hrest : s.read_pages (page_num + 1) (remaining - min remaining BFS_PAGE_SIZE) with
    | mk code out =>
      rw [hrest] at h
      obtain ⟨rfl, rfl⟩ := Prod.mk.inj h
      have hpage_size : 0 < BFS_PAGE_SIZE := by decide
      have hout := ih _ (by omega) hrest
      rw [List.length_append, hout, Block.take, List.length_map, List.length_range]
      omega

theorem bfs_read_file_length {name : FileName} {max_size size : UInt64} {read : ReadResult}
    (h : s.bfs_read_file name max_size = some read) (hcode : read.code = 0) (hsize : read.out_size = some size) :
    read.data.length = size.toNat := by
  obtain ⟨found, -, h⟩ := Option.bind_eq_some_iff.mp h
  cases found with
  | error code =>
    rw [← Option.some.inj h] at hsize
    cases hsize
  | ok entry =>
    dsimp only at h
    split at h
    · next hzero =>
      rw [← Option.some.inj h] at hsize ⊢
      rw [← Option.some.inj hsize, hzero]
      rfl
    split at h
    · rw [← Option.some.inj h] at hcode
      cases hcode
    · rw [← Option.some.inj h] at hsize hcode ⊢
      rw [← Option.some.inj hsize]
      exact read_pages_length (Prod.ext hcode rfl)

/-- The size of the archive, and 0 where there is none. -/
def archive_size (s : Bfs) (zip_path : Bytes) : Nat :=
  match s.bfs_file_size (bfs_name zip_path) with
  | some (.ok zip_size) => zip_size.toNat
  | _ => 0

theorem sevenzip_decode_at_all {memory : Nat → Bool} {zip_path : Bytes} :
    AllRun (Allowed env.out_dir (archive_size s zip_path)) (sevenzip_decode_at env memory s zip_path) := by
  rw [sevenzip_decode_at]
  refine allRun_bind (allRun_call _) fun size hsize => ?_
  rw [outcome_call] at hsize
  cases size with
  | error code => exact allRun_pure _
  | ok zip_size =>
    have harchive : archive_size s zip_path = zip_size.toNat := by rw [archive_size, hsize]
    refine allRun_ite (fun _ => allRun_pure _) fun _ => allRun_bind (allRun_call _) fun read hread => ?_
    refine allRun_ite (fun _ => allRun_pure _) fun hgood => ?_
    obtain ⟨hcode, hout⟩ := not_or.mp hgood
    have hlength := bfs_read_file_length hread (not_not.mp hcode) (not_not.mp hout)
    refine allRun_bind (ensure_dir_path_at_all fun dir hdir => .inl hdir) fun r _ => ?_
    refine allRun_ite (fun _ => allRun_pure _) fun _ => ?_
    rw [harchive, ← hlength]
    exact decode_loop_at_all

end Touched

/-! ## The decode ends -/

section Total

variable {env : Env} {zip_data path : Bytes} {s : Bfs} {pos : Nat}

/-- A volume that some space and tree account for. -/
def Kept (s : Bfs) : Prop := ∃ σ t, Accounted s σ t

theorem Kept.find (h : Kept s) (name : FileName) : ∃ found, s.bfs_find name = some found := by
  obtain ⟨σ, t, haccounted⟩ := h
  obtain ⟨r, hr⟩ := haccounted.toImage.search_some (bfs_hash name)
  unfold Bfs.bfs_find
  dsimp only
  rw [hr.1]
  change ∃ found, (if r.found then _ else _) = some found
  split
  · exact ⟨_, rfl⟩
  · exact ⟨_, rfl⟩

theorem Kept.create_dir (h : Kept s) : ∃ made s', create_dir s path = some (made, s') ∧ Kept s' := by
  obtain ⟨σ, t, haccounted⟩ := h
  unfold zip.create_dir
  split
  · exact ⟨true, s, rfl, σ, t, haccounted⟩
  · obtain ⟨code, s', σ', t', hrun, hkept, -⟩ := @Accounted.step s σ t haccounted (.create (bfs_name path) 0)
      (show (0 : UInt64).toNat + 4095 < 2 ^ 64 by decide)
    have hcreate : s.bfs_create (bfs_name path) 0 = some (code, s') := hrun
    rw [hcreate]
    exact ⟨_, s', rfl, σ', t', hkept⟩

theorem Kept.ensure_dirs {i n : Nat} (h : Kept s) :
    ∃ made s', ensure_dirs s path i n = some (made, s') ∧ Kept s' := by
  induction n generalizing s i with
  | zero => exact h.create_dir
  | succ n ih =>
    rw [zip.ensure_dirs]
    split
    · obtain ⟨made, s₁, hcreate, h₁⟩ := @Kept.create_dir (path.take i) s h
      rw [hcreate]
      cases made with
      | true => exact ih h₁
      | false => exact ⟨false, s₁, rfl, h₁⟩
    · exact ih h

theorem Kept.ensure_dir_path (h : Kept s) : ∃ made s', ensure_dir_path s path = some (made, s') ∧ Kept s' := by
  unfold zip.ensure_dir_path
  split
  · exact ⟨true, s, rfl, h⟩
  split
  · exact ⟨false, s, rfl, h⟩
  · exact h.ensure_dirs

/-- What a turn goes on with is kept. -/
def Turn.Kept : Turn → Prop
  | .next _ s _ => zip.Kept s
  | _ => True

theorem Kept.extract_file {data : Bytes} {uncomp_size p : Nat} {record : Record} (h : Kept s)
    (hdata : data.length < 2 ^ 32) :
    ∃ turn, extract_file env s path data uncomp_size p record = some turn ∧ turn.Kept := by
  unfold zip.extract_file
  split
  · exact ⟨.fail, rfl, trivial⟩
  next parent hparent =>
  obtain ⟨made, s₁, hensure, h₁⟩ := @Kept.ensure_dir_path parent s h
  obtain ⟨found, hfound⟩ := h₁.find (bfs_name path)
  rw [hensure, Option.bind_eq_bind, Option.bind_some]
  dsimp only
  split
  · exact ⟨.fail, rfl, trivial⟩
  rw [hfound, Option.bind_eq_bind, Option.bind_some]
  split
  · exact ⟨.next p s₁ record, rfl, h₁⟩
  split
  · exact ⟨.fail, rfl, trivial⟩
  split
  · exact ⟨.fail, rfl, trivial⟩
  obtain ⟨σ, t, haccounted⟩ := h₁
  have hsize : (UInt64.ofNat data.length).toNat = data.length := UInt64.toNat_ofNat_of_lt' (by
    change data.length < 2 ^ 64
    omega)
  obtain ⟨code, s₂, σ₂, t₂, hrun, hkept, -⟩ := @Accounted.step s₁ σ t haccounted
    (.write_file (bfs_name path) (fun i => data.getD i 0) (UInt64.ofNat data.length))
    (by change (UInt64.ofNat data.length).toNat + 4095 < 2 ^ 64; omega)
  have hwrite : s₁.bfs_write_file (bfs_name path) (fun i => data.getD i 0) (UInt64.ofNat data.length) =
    some (code, s₂) := hrun
  rw [hwrite, Option.bind_eq_bind, Option.bind_some]
  dsimp only
  split
  · exact ⟨.fail, rfl, trivial⟩
  · exact ⟨.next p s₂ record, rfl, σ₂, t₂, hkept⟩

theorem Kept.decode_named {name : Bytes} {crc data_pos comp_size uncomp_size : Nat} (h : Kept s)
    (hcomp : comp_size < 2 ^ 32) :
    ∃ turn, decode_named env zip_data s name crc data_pos comp_size uncomp_size = some turn ∧ turn.Kept := by
  unfold zip.decode_named
  split
  · exact ⟨.fail, rfl, trivial⟩
  split
  · exact ⟨.fail, rfl, trivial⟩
  next out_path hjoin =>
  split
  · exact ⟨.stop, rfl, trivial⟩
  dsimp only
  split
  · obtain ⟨made, s₁, hensure, h₁⟩ := @Kept.ensure_dir_path out_path s h
    rw [hensure, Option.bind_eq_bind, Option.bind_some]
    cases made with
    | true => exact ⟨_, rfl, h₁⟩
    | false => exact ⟨.fail, rfl, trivial⟩
  · refine h.extract_file ?_
    rw [List.length_take]
    omega

theorem byte_lt (p : Nat) : byte zip_data p < 2 ^ 8 := UInt8.toNat_lt _

theorem read_u32_lt (p : Nat) : read_u32 zip_data p < 2 ^ 32 := by
  have h0 := @byte_lt zip_data p
  have h1 := @byte_lt zip_data (p + 1)
  have h2 := @byte_lt zip_data (p + 2)
  have h3 := @byte_lt zip_data (p + 3)
  unfold read_u32
  omega

theorem Kept.decode_turn (h : Kept s) : ∃ turn, decode_turn env zip_data s pos = some turn ∧ turn.Kept := by
  unfold zip.decode_turn
  split
  · exact ⟨.stop, rfl, trivial⟩
  split
  · exact ⟨.stop, rfl, trivial⟩
  split
  · exact ⟨.stop, rfl, trivial⟩
  dsimp only
  split
  · exact ⟨.fail, rfl, trivial⟩
  split
  · exact ⟨.fail, rfl, trivial⟩
  split
  · exact ⟨.stop, rfl, trivial⟩
  split
  · exact ⟨.fail, rfl, trivial⟩
  · exact h.decode_named (read_u32_lt _)

theorem Kept.decode_loop {records : List Record} {fuel : Nat} (h : Kept s) (hfuel : zip_data.length < pos + fuel)
    (hpos : pos ≤ zip_data.length) :
    ∃ r, decode_loop env zip_data s pos records fuel = some r := by
  induction fuel generalizing s pos records with
  | zero => omega
  | succ fuel ih =>
    obtain ⟨turn, hturn, hkept⟩ := @Kept.decode_turn env zip_data s pos h
    have hcases := (decode_turn_cases hturn).1
    rw [zip.decode_loop, hturn, Option.bind_eq_bind, Option.bind_some]
    cases turn with
    | stop => exact ⟨_, rfl⟩
    | fail => exact ⟨_, rfl⟩
    | next pos' s' record =>
      have hrecord := hcases pos' s' record rfl
      unfold local_record at hrecord
      dsimp only at hrecord
      split at hrecord
      · next hwhole =>
        have hpos' := (Prod.mk.inj (Option.some.inj hrecord)).2
        exact ih hkept (by omega) (by omega)
      · cases hrecord

theorem Kept.sevenzip_decode {memory : Nat → Bool} {zip_path : Bytes} (h : Kept s) :
    ∃ r, sevenzip_decode env memory s zip_path = some r := by
  obtain ⟨found, hfound⟩ := h.find (bfs_name zip_path)
  unfold zip.sevenzip_decode
  cases found with
  | error code =>
    have hsize : s.bfs_file_size (bfs_name zip_path) = some (.error (-1)) := by
      rw [Bfs.bfs_file_size, hfound]
      rfl
    rw [hsize]
    exact ⟨_, rfl⟩
  | ok entry =>
    have hsize : s.bfs_file_size (bfs_name zip_path) = some (.ok entry.size_bytes) := by
      rw [Bfs.bfs_file_size, hfound]
      rfl
    have hread : ∃ read, s.bfs_read_file (bfs_name zip_path) entry.size_bytes = some read := by
      unfold Bfs.bfs_read_file
      rw [hfound, Option.bind_eq_bind, Option.bind_some]
      dsimp only
      split
      · exact ⟨_, rfl⟩
      split
      · exact ⟨_, rfl⟩
      · exact ⟨_, rfl⟩
    obtain ⟨read, hread⟩ := hread
    obtain ⟨made, s₁, hensure, h₁⟩ := @Kept.ensure_dir_path env.out_dir s h
    rw [hsize, Option.bind_eq_bind, Option.bind_some]
    dsimp only
    split
    · exact ⟨_, rfl⟩
    rw [hread, Option.bind_eq_bind, Option.bind_some]
    split
    · exact ⟨_, rfl⟩
    rw [hensure, Option.bind_eq_bind, Option.bind_some]
    dsimp only
    split
    · exact ⟨_, rfl⟩
    · exact h₁.decode_loop (by omega) (Nat.zero_le _)

end Total

/-- A decode ends. On the way it reads the archive only where it has bytes; what it creates is the output directory, a
part of it that ends in front of a slash, or a path of proper segments below it, and files are only written below. -/
theorem sevenzip_decode_confined (env : Env) (memory : Nat → Bool) {s : Bfs} (hs : s.Reachable) (zip_path : Bytes) :
    (∃ r, sevenzip_decode env memory s zip_path = some r ∧
      outcome (sevenzip_decode_at env memory s zip_path) = some r) ∧
    (∀ e ∈ (sevenzip_decode_at env memory s zip_path).run.events, Allowed env.out_dir (archive_size s zip_path) e) ∧
    ∀ zip_data : Bytes, (∃ r, outcome (decode_loop_at env zip_data s 0 [] (zip_data.length + 1)) = some r) ∧
      ∀ e ∈ (decode_loop_at env zip_data s 0 [] (zip_data.length + 1)).run.events,
        Allowed env.out_dir zip_data.length e := by
  have hkept : Kept s := hs.accounted
  obtain ⟨r, hr⟩ := @Kept.sevenzip_decode env s memory zip_path hkept
  refine ⟨⟨r, hr, sevenzip_decode_at_outcome.trans hr⟩, sevenzip_decode_at_all,
    fun zip_data => ⟨?_, decode_loop_at_all⟩⟩
  rw [decode_loop_at_outcome]
  exact hkept.decode_loop (by omega) (Nat.zero_le _)

/-- The archive of two files is unpacked within these bounds. -/
theorem sevenzip_decode_confined_packed : ∃ s r, s.Reachable ∧
    outcome (sevenzip_decode_at result_env (fun _ => true) s [122]) = some r ∧ r.code = 0 ∧
    r.records = packed.map record_of ∧ ∀ e ∈ (sevenzip_decode_at result_env (fun _ => true) s [122]).run.events,
      Allowed result_env.out_dir (archive_size s [122]) e := by
  obtain ⟨s, r, hs, hdecode, hcode, hrecords, -⟩ := packed_decodes
  obtain ⟨⟨r', hr', hrun⟩, hevents, -⟩ := sevenzip_decode_confined result_env (fun _ => true) hs [122]
  obtain rfl := Option.some.inj (hr'.symm.trans hdecode)
  exact ⟨s, r', hs, hrun, hcode, hrecords, hevents⟩

/-- Files go to the directory `o`. -/
def o_env : Env := { out_dir := [111], overwrite := false, check_overwrite_permission := fun _ => false }

/-- The output directory is created itself, under its own name. -/
theorem sevenzip_decode_creates_out_dir : ∃ s : Bfs, s.Reachable ∧
    .create [111] ∈ (sevenzip_decode_at o_env (fun _ => true) s [97]).run.events ∧
    ∀ name, ([111] : Bytes) ≠ o_env.out_dir ++ SLASH :: name := by
  obtain ⟨σ, haccounted⟩ := fresh_disk_accounted
  have hfree : 0 < σ.free.toNat := by
    rw [← haccounted.has.2]
    decide
  have hnext : σ.next = 3 := haccounted.has.1.symm
  obtain ⟨s, hrun, hreport, -⟩ := empty_write haccounted.toVolume hfree (bfs_name [97])
  have hread := (bfs_write_file_read_file haccounted.toVolume trivial (by decide) (by decide) (by decide) hrun).1 1
    (UInt64.le_refl 1)
  have hsize : s.bfs_file_size (bfs_name [97]) = some (.ok 1) := by
    rw [Bfs.bfs_file_size, bfs_find_eq, hreport, hnext]
    rfl
  refine ⟨s, ?_, ?_, ?_⟩
  · refine ⟨blank_disk, fresh_disk, fun _ => 0, [.write_file (bfs_name [97]) (fun _ => 7) 1], rfl, by decide, by decide,
      ?_, ?_⟩
    · intro op hop
      rw [List.mem_singleton.mp hop]
      decide
    · rw [Bfs.run]
      change ((fresh_disk.bfs_write_file (bfs_name [97]) (fun _ => 7) 1).bind _) = _
      rw [hrun]
      rfl
  · -- The file is read as an archive of one byte, and the directory comes first.
    rw [sevenzip_decode_at]
    apply mem_events_right ((outcome_call _).trans hsize)
    dsimp only
    rw [if_neg (by decide)]
    apply mem_events_right ((outcome_call _).trans hread)
    rw [if_neg (by decide)]
    refine mem_events_left ?_
    change .create [111] ∈ (OptionT.run (bfs_create_at s [111] >>= fun r => pure (r.1 == 0 || r.1 == -1, r.2))).events
    exact mem_events_left (List.mem_singleton.mpr rfl)
  · intro name h
    simp [o_env] at h

end graceos.zip
