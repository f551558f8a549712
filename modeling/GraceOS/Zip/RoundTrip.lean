import GraceOS.Bfs.Room
import GraceOS.Zip.Encode

/-!
# Packing and unpacking

The loop of the decoder over the bytes of the encoder, on a volume that takes the files. Where a file goes is decided
by the hash of its path.
-/

namespace graceos.zip

open bfs List

variable {zip_data rest : Bytes} {pos : Nat} {ent : Entry} {env : Env} {s : Bfs}

/-! ## What the volume is asked for -/

def key (path : Bytes) : UInt64 := bfs_hash (bfs_name path)

/-- The path that an entry is extracted to, and the directory that this lies in. -/
def place (env : Env) (ent : Entry) : Bytes := (join_paths env.out_dir ent.zip_name).getD []

def parent (path : Bytes) : Bytes := (path_parent path).getD []

/-- The prefixes of a path that the loop of `ensure_dir_path` creates from place `i` on, then the path. -/
def prefixes (path : Bytes) (i : Nat) : Nat → List Bytes
  | 0 => [path]
  | n + 1 => if path[i]? = some SLASH then path.take i :: prefixes path (i + 1) n else prefixes path (i + 1) n

def dirs (path : Bytes) : List Bytes :=
  if path.isEmpty then [] else (prefixes path 0 path.length).filter fun dir => !dir.isEmpty

def create_op (dir : Bytes) : Op := .create (bfs_name dir) 0

def write_op (env : Env) (ent : Entry) : Op :=
  .write_file (bfs_name (place env ent)) (fun i => ent.data.getD i 0) (UInt64.ofNat ent.data.length)

/-- The operations for an entry. -/
def entry_ops (env : Env) (ent : Entry) : List Op :=
  (dirs (parent (place env ent))).map create_op ++ [write_op env ent]

/-- An operation that inserts an entry finds the parent fields on its way set. -/
def ParentsSet (s : Bfs) (name : FileName) : Prop :=
  s.report (bfs_hash name) = some (false, 0) →
    ∀ page, s.OnPath (bfs_hash name) page → page ≠ s.root.root_page → (s.node page).parent ≠ 0

/-- The codes that the extraction goes on with: a directory may be there already. -/
def Op.Done : Op → Int → Prop
  | .create _ _, code => code = 0 ∨ code = -1
  | _, code => code = 0

/-- The volume has room for the operations, one after the other. -/
def Accepts (s : Bfs) : List Op → Prop
  | [] => True
  | op :: ops => ParentsSet s op.name ∧ ∃ code s', s.step op = some (code, s') ∧ Op.Done op code ∧ Accepts s' ops

/-- A volume with the same contents under a name. -/
def SameFile (s s' : Bfs) (name : FileName) : Prop :=
  s'.bfs_find name = s.bfs_find name ∧ ∀ max_size, s'.bfs_read_file name max_size = s.bfs_read_file name max_size

theorem SameFile.trans {s s' s'' : Bfs} {name : FileName} (h : SameFile s s' name) (h' : SameFile s' s'' name) :
    SameFile s s'' name :=
  ⟨h'.1.trans h.1, fun max_size => (h'.2 max_size).trans (h.2 max_size)⟩

section Steps

variable {σ : Space} {t : BTree} {s' : Bfs} {code : Int}

theorem bfs_create_unchanged {name : FileName} {size : UInt64} (hrun : s.bfs_create name size = some (-1, s')) :
    s' = s := by
  unfold Bfs.bfs_create at hrun
  dsimp only at hrun
  obtain ⟨search, -, hrun⟩ := Option.bind_eq_some_iff.mp hrun
  split at hrun
  · exact (Prod.mk.inj (Option.some.inj hrun)).2.symm
  split at hrun
  · cases hrun
  · obtain ⟨⟨code, s₂⟩, -, hrun⟩ := Option.bind_eq_some_iff.mp hrun
    dsimp only at hrun
    split at hrun
    · cases hrun
    · cases hrun

theorem ParentsSet.linked {name : FileName} (h : ParentsSet s name) (haccounted : Accounted s σ t)
    (habsent : t.2.entries.lookup (bfs_hash name) = none) : t.2.PathLinked (bfs_hash name) := by
  refine haccounted.pathLinked (h ?_)
  rw [haccounted.report_eq, habsent]
  rfl

theorem step_frame (h : Accounted s σ t) {op : Op} (hsize : op.size + 4095 < 2 ^ 64) (hparents : ParentsSet s op.name)
    (hrun : s.step op = some (code, s')) (hdone : Op.Done op code) :
    (∃ σ' t', Accounted s' σ' t') ∧ ∀ name, bfs_hash name ≠ bfs_hash op.name → SameFile s s' name := by
  obtain ⟨code', s'', σ', t', hrun', haccounted, hstep⟩ := h.step hsize
  obtain ⟨rfl, rfl⟩ := Prod.mk.inj (Option.some.inj (hrun'.symm.trans hrun))
  refine ⟨⟨σ', t', haccounted⟩, fun name hname => ?_⟩
  have hframe (hzero : code' = 0) : SameFile s s'' name := by
    subst hzero
    exact hstep.frame h.toVolume (fun habsent => hparents.linked h habsent) hname
  cases op with
  | create dir size =>
    rcases hdone with hzero | rfl
    · exact hframe hzero
    · rw [bfs_create_unchanged hrun]
      exact ⟨rfl, fun _ => rfl⟩
  | write_file => exact hframe hdone
  | delete => exact hframe hdone

theorem accepts_frame {ops : List Op} (h : Accounted s σ t) (hsizes : ∀ op ∈ ops, op.size + 4095 < 2 ^ 64)
    (haccepts : Accepts s ops) :
    ∃ s', s.run ops = some s' ∧ (∃ σ' t', Accounted s' σ' t') ∧
      ∀ name, (∀ op ∈ ops, bfs_hash name ≠ bfs_hash op.name) → SameFile s s' name := by
  induction ops generalizing s σ t with
  | nil => exact ⟨s, rfl, ⟨σ, t, h⟩, fun _ _ => ⟨rfl, fun _ => rfl⟩⟩
  | cons op ops ih =>
    obtain ⟨hparents, code, s₁, hrun, hdone, hrest⟩ := haccepts
    obtain ⟨⟨σ₁, t₁, h₁⟩, hframe⟩ := step_frame h (hsizes op (mem_cons_self ..)) hparents hrun hdone
    obtain ⟨s', hrun', haccounted, hframe'⟩ := ih h₁ (fun op' hop => hsizes op' (mem_cons_of_mem op hop)) hrest
    refine ⟨s', ?_, haccounted, fun name hname => ?_⟩
    · rw [Bfs.run, hrun]
      exact hrun'
    · exact (hframe name (hname op (mem_cons_self ..))).trans
        (hframe' name fun op' hop => hname op' (mem_cons_of_mem op hop))

theorem Accepts.append {a b : List Op} (h : Accepts s (a ++ b)) :
    Accepts s a ∧ ∀ s', s.run a = some s' → Accepts s' b := by
  induction a generalizing s with
  | nil =>
    refine ⟨trivial, fun s' hs' => ?_⟩
    obtain rfl := Option.some.inj hs'
    exact h
  | cons op a ih =>
    obtain ⟨hparents, code, s₁, hrun, hdone, hrest⟩ := h
    obtain ⟨ha, hb⟩ := ih hrest
    refine ⟨⟨hparents, code, s₁, hrun, hdone, ha⟩, fun s' hs' => hb s' ?_⟩
    rw [Bfs.run, hrun] at hs'
    exact hs'

end Steps
theorem run_append {a b : List Op} {s s' : Bfs} (h : s.run a = some s') : s.run (a ++ b) = s'.run b := by
  induction a generalizing s with
  | nil =>
    rw [Option.some.inj h]
    rfl
  | cons op a ih =>
    rw [Bfs.run] at h
    obtain ⟨⟨code, s₁⟩, hstep, h⟩ := Option.bind_eq_some_iff.mp h
    rw [cons_append, Bfs.run, hstep]
    exact ih h

/-! ## Extraction -/

theorem create_dir_eq {dir : Bytes} {ops : List Op} (h : Accepts s (create_op dir :: ops)) (hne : dir.isEmpty = false) :
    ∃ s', create_dir s dir = some (true, s') ∧ Accepts s' ops ∧ ∀ ops', s.run (create_op dir :: ops') =
        s'.run ops' := by
  obtain ⟨-, code, s', hrun, hdone, hrest⟩ := h
  refine ⟨s', ?_, hrest, fun ops' => ?_⟩
  · have hcreate : s.bfs_create (bfs_name dir) 0 = some (code, s') := hrun
    have hcode : (code == 0 || code == -1) = true := by
      rcases hdone with rfl | rfl
      · rfl
      · rfl
    rw [create_dir, if_neg (by rw [hne]; exact Bool.false_ne_true), hcreate]
    exact congrArg some (congrArg (·, s') hcode)
  · rw [Bfs.run, hrun]
    rfl

theorem ensure_dirs_eq {path : Bytes} {n i : Nat}
    (h : Accepts s (((prefixes path i n).filter fun dir => !dir.isEmpty).map create_op)) :
    ∃ s', ensure_dirs s path i n = some (true, s') ∧
      s.run (((prefixes path i n).filter fun dir => !dir.isEmpty).map create_op) = some s' := by
  have hlast {dir : Bytes} {l : List Bytes} (hempty : dir.isEmpty = true) :
      (dir :: l).filter (fun dir => !dir.isEmpty) = l.filter fun dir => !dir.isEmpty :=
    filter_cons_of_neg (by rw [hempty]; exact Bool.false_ne_true)
  have hkept {dir : Bytes} {l : List Bytes} (hempty : dir.isEmpty = false) :
      (dir :: l).filter (fun dir => !dir.isEmpty) = dir :: l.filter fun dir => !dir.isEmpty :=
    filter_cons_of_pos (by rw [hempty]; rfl)
  induction n generalizing s i with
  | zero =>
    rw [prefixes] at h ⊢
    rw [ensure_dirs]
    cases hempty : path.isEmpty with
    | true =>
      rw [hlast hempty]
      exact ⟨s, by rw [create_dir, if_pos hempty], rfl⟩
    | false =>
      rw [hkept hempty] at h ⊢
      obtain ⟨s', hcreate, -, hrun⟩ := create_dir_eq h hempty
      exact ⟨s', hcreate, hrun []⟩
  | succ n ih =>
    rw [prefixes] at h ⊢
    rw [ensure_dirs]
    split
    · next hslash =>
      rw [if_pos hslash] at h
      cases hempty : (path.take i).isEmpty with
      | true =>
        rw [hlast hempty] at h ⊢
        obtain ⟨s', hensure, hrun⟩ := ih h
        refine ⟨s', ?_, hrun⟩
        rw [create_dir, if_pos hempty]
        exact hensure
      | false =>
        rw [hkept hempty] at h ⊢
        obtain ⟨s₁, hcreate, hrest, hrun⟩ := create_dir_eq h hempty
        obtain ⟨s', hensure, hrun'⟩ := ih hrest
        refine ⟨s', ?_, (hrun _).trans hrun'⟩
        rw [hcreate]
        exact hensure
    · next hslash =>
      rw [if_neg hslash] at h
      exact ih h

theorem ensure_dir_path_eq {path : Bytes} (hlength : path.length < ZIP_PATH_MAX)
    (h : Accepts s ((dirs path).map create_op)) :
    ∃ s', ensure_dir_path s path = some (true, s') ∧ s.run ((dirs path).map create_op) = some s' := by
  rw [dirs] at h ⊢
  rw [ensure_dir_path]
  split
  · exact ⟨s, rfl, rfl⟩
  · next hne =>
    rw [if_neg hne] at h
    rw [if_neg (not_le.mpr hlength)]
    exact ensure_dirs_eq h

theorem path_parent_eq {path : Bytes} (hlength : path.length < ZIP_PATH_MAX) :
    path_parent path = some (parent path) ∧ (parent path).length < ZIP_PATH_MAX := by
  have hsome : ∃ dir, path_parent path = some dir ∧ dir.length < ZIP_PATH_MAX := by
    unfold path_parent
    dsimp only
    split
    · exact ⟨[], rfl, by decide⟩
    · rw [if_neg (by omega)]
      refine ⟨_, rfl, ?_⟩
      rw [length_take]
      omega
  obtain ⟨dir, hdir, hshort⟩ := hsome
  rw [parent, hdir]
  exact ⟨rfl, hshort⟩

theorem join_paths_length {a b path : Bytes} (h : join_paths a b = some path) : path.length < ZIP_PATH_MAX := by
  unfold join_paths at h
  split at h
  · cases h
  next hshort =>
  split at h
  · rw [← Option.some.inj h, length_append]
    omega
  · rw [← Option.some.inj h, length_append, length_append, length_singleton]
    omega

/-- The record that the loop finds for an entry. -/
def record_of (ent : Entry) : Record := { name := ent.zip_name, crc := (crc32_calc ent.data).toNat, data := ent.data }

theorem local_data (h : zip_data.drop pos = local_part ent ++ rest) :
    (zip_data.drop (pos + (30 + ent.zip_name.length))).take ent.data.length = ent.data := by
  have hfront : (local_header ent ++ ent.zip_name).length = 30 + ent.zip_name.length := by
    rw [length_append, local_header_length]
  rw [← drop_drop, h, local_part, append_assoc, drop_left' hfront, take_left' rfl]

/-- An entry is extracted by its operations. -/
theorem decode_turn_entry {σ : Space} {t : BTree} (haccounted : Accounted s σ t)
    (h : zip_data.drop pos = local_part ent ++ rest) (hname : Normal ent.zip_name) (hdata : ent.data.length < 2 ^ 32)
    (hplace : join_paths env.out_dir ent.zip_name = some (place env ent))
    (hnew : s.bfs_find (bfs_name (place env ent)) = some (.error (-1)))
    (hdirs : ∀ dir ∈ dirs (parent (place env ent)), key (place env ent) ≠ key dir)
    (haccepts : Accepts s (entry_ops env ent)) :
    ∃ s', decode_turn env zip_data s pos = some (.next (pos + (local_part ent).length) s' (record_of ent)) ∧
      s.run (entry_ops env ent) = some s' ∧
      ∀ max_size, UInt64.ofNat ent.data.length ≤ max_size → s'.bfs_read_file (bfs_name (place env ent)) max_size =
        some { code := 0, out_size := some (UInt64.ofNat ent.data.length), data := ent.data } := by
  obtain ⟨hdir_ops, hwrite⟩ := haccepts.append
  obtain ⟨hparent, hshort⟩ := path_parent_eq (join_paths_length hplace)
  obtain ⟨s₁, hensure, hrun₁⟩ := ensure_dir_path_eq hshort hdir_ops
  have hsizes : ∀ op ∈ (dirs (parent (place env ent))).map create_op, op.size + 4095 < 2 ^ 64 := by
    intro op hop
    obtain ⟨dir, -, rfl⟩ := List.mem_map.mp hop
    change (0 : UInt64).toNat + 4095 < 2 ^ 64
    decide
  obtain ⟨s₁', hrun₁', ⟨σ₁, t₁, haccounted₁⟩, hframe⟩ := accepts_frame haccounted hsizes hdir_ops
  obtain rfl := Option.some.inj (hrun₁'.symm.trans hrun₁)
  have hfound : s₁'.bfs_find (bfs_name (place env ent)) = some (.error (-1)) := by
    refine (hframe _ fun op hop => ?_).1.trans hnew
    obtain ⟨dir, hdir, rfl⟩ := List.mem_map.mp hop
    exact hdirs dir hdir
  obtain ⟨hparents, code, s₂, hrun₂, hdone, -⟩ := hwrite s₁' hrun₁
  obtain rfl : code = 0 := hdone
  have hrun₂' : s₁'.bfs_write_file (bfs_name (place env ent)) (fun i => ent.data.getD i 0)
      (UInt64.ofNat ent.data.length) = some (0, s₂) := hrun₂
  have hlength := congrArg List.length h
  rw [length_drop, length_append, local_part_length] at hlength
  refine ⟨s₂, ?_, ?_, write_read_back haccounted₁ hdata (hparents.linked haccounted₁) hrun₂'⟩
  · rw [decode_turn_local h hname.length hname.no_nul hdata, decode_named, hname.normalize]
    dsimp only
    rw [hplace]
    dsimp only
    rw [if_neg (by omega), if_neg Bool.false_ne_true, local_data h, extract_file, hparent]
    dsimp only
    rw [hensure]
    simp only [Option.bind_eq_bind, Option.bind_some, Bool.not_true, Bool.false_eq_true, if_false, hfound, Except.isOk,
      Except.toBool, Bool.false_and, ne_eq, not_true_eq_false, hrun₂', local_part_length, record_of,
      Nat.add_assoc pos]
  · rw [entry_ops, run_append hrun₁, Bfs.run, hrun₂]
    rfl

/-! ## Round trips -/

/-- The operations for the entries of an archive. -/
def plan (env : Env) (list : List Entry) : List Op := list.flatMap (entry_ops env)

/-- The file of an entry is found with its contents. -/
def Extracted (env : Env) (s : Bfs) (ent : Entry) : Prop :=
  ∀ max_size, UInt64.ofNat ent.data.length ≤ max_size → s.bfs_read_file (bfs_name (place env ent)) max_size =
    some { code := 0, out_size := some (UInt64.ofNat ent.data.length), data := ent.data }

theorem SameFile.extracted {s s' : Bfs} {ent : Entry} (h : SameFile s s' (bfs_name (place env ent)))
    (hs : Extracted env s ent) : Extracted env s' ent :=
  fun max_size hmax => (h.2 max_size).trans (hs max_size hmax)

/-- No entry goes where another one, or a directory, has to go; where a name goes is decided by its hash. -/
structure Apart (env : Env) (list : List Entry) : Prop where
  files : list.Pairwise fun a b => key (place env a) ≠ key (place env b)
  dirs : ∀ a ∈ list, ∀ b ∈ list, ∀ dir ∈ dirs (parent (place env b)), key (place env a) ≠ key dir

theorem Apart.tail {ent : Entry} {list : List Entry} (h : Apart env (ent :: list)) : Apart env list where
  files := (List.pairwise_cons.mp h.files).2
  dirs a ha b hb := h.dirs a (mem_cons_of_mem ent ha) b (mem_cons_of_mem ent hb)

theorem entry_ops_apart {name : FileName} {ent : Entry} (hfile : bfs_hash name ≠ key (place env ent))
    (hdirs : ∀ dir ∈ dirs (parent (place env ent)), bfs_hash name ≠ key dir) :
    ∀ op ∈ entry_ops env ent, bfs_hash name ≠ bfs_hash op.name := by
  intro op hop
  rcases List.mem_append.mp hop with hop | hop
  · obtain ⟨dir, hdir, rfl⟩ := List.mem_map.mp hop
    exact hdirs dir hdir
  · rw [List.mem_singleton.mp hop]
    exact hfile

theorem entry_ops_size {ent : Entry} (hdata : ent.data.length < 2 ^ 32) :
    ∀ op ∈ entry_ops env ent, op.size + 4095 < 2 ^ 64 := by
  intro op hop
  rcases List.mem_append.mp hop with hop | hop
  · obtain ⟨dir, -, rfl⟩ := List.mem_map.mp hop
    change (0 : UInt64).toNat + 4095 < 2 ^ 64
    decide
  · rw [List.mem_singleton.mp hop]
    change (UInt64.ofNat ent.data.length).toNat + 4095 < 2 ^ 64
    rw [UInt64.toNat_ofNat_of_lt' (by
      change ent.data.length < 2 ^ 64
      omega)]
    omega

theorem plan_size {list : List Entry} (hdata : ∀ ent ∈ list, ent.data.length < 2 ^ 32) :
    ∀ op ∈ plan env list, op.size + 4095 < 2 ^ 64 := by
  intro op hop
  obtain ⟨ent, hent, hop⟩ := List.mem_flatMap.mp hop
  exact entry_ops_size (hdata ent hent) op hop

theorem decode_turn_stop (h : zip_data.drop pos = rest) (hrest : read_u32 rest 0 ≠ ZIP_SIG_LOCAL) :
    decode_turn env zip_data s pos = some .stop := by
  have hsig : read_u32 zip_data pos ≠ ZIP_SIG_LOCAL := fun heq => hrest ((read_u32_of_drop h 0).symm.trans heq)
  unfold decode_turn
  split
  · rfl
  · rfl

theorem decode_loop_next {records : List Record} {pos' : Nat} {s' : Bfs} {record : Record}
    (h : decode_turn env zip_data s pos = some (.next pos' s' record)) (fuel : Nat) :
    decode_loop env zip_data s pos records (fuel + 1) =
      decode_loop env zip_data s' pos' (records ++ [record]) fuel := by
  rw [decode_loop, h]
  rfl

theorem decode_loop_stop {records : List Record} (h : decode_turn env zip_data s pos = some .stop) (fuel : Nat) :
    decode_loop env zip_data s pos records (fuel + 1) = some { code := 0, s, records } := by
  rw [decode_loop, h]
  rfl

/-- The loop over local parts extracts their entries. -/
theorem decode_loop_entries {list : List Entry} {σ : Space} {t : BTree} (haccounted : Accounted s σ t)
    (h : zip_data.drop pos = list.flatMap local_part ++ rest) (hrest : read_u32 rest 0 ≠ ZIP_SIG_LOCAL)
    (hnames : ∀ ent ∈ list, Normal ent.zip_name) (hdata : ∀ ent ∈ list, ent.data.length < 2 ^ 32)
    (hplaces : ∀ ent ∈ list, join_paths env.out_dir ent.zip_name = some (place env ent))
    (habsent : ∀ ent ∈ list, s.bfs_find (bfs_name (place env ent)) = some (.error (-1)))
    (hapart : Apart env list) (haccepts : Accepts s (plan env list)) {records : List Record} {fuel : Nat}
    (hfuel : list.length < fuel) :
    ∃ s', decode_loop env zip_data s pos records fuel =
        some { code := 0, s := s', records := records ++ list.map record_of } ∧
      s.run (plan env list) = some s' ∧ ∀ ent ∈ list, Extracted env s' ent := by
  induction list generalizing s σ t pos records fuel with
  | nil =>
    obtain ⟨fuel, rfl⟩ := Nat.exists_eq_add_one_of_ne_zero (Nat.ne_of_gt hfuel)
    refine ⟨s, ?_, rfl, fun ent hent => absurd hent not_mem_nil⟩
    rw [decode_loop_stop (decode_turn_stop h hrest), map_nil, append_nil]
  | cons ent list ih =>
    obtain ⟨fuel, rfl⟩ := Nat.exists_eq_add_one_of_ne_zero (Nat.ne_of_gt (Nat.lt_of_le_of_lt (Nat.zero_le _) hfuel))
    have hent : ent ∈ ent :: list := mem_cons_self ..
    have hlater : ∀ other ∈ list, other ∈ ent :: list := fun other hother => mem_cons_of_mem ent hother
    rw [flatMap_cons, append_assoc] at h
    obtain ⟨hfirst, hothers⟩ := Accepts.append (a := entry_ops env ent) (b := plan env list) haccepts
    obtain ⟨s₁, hturn, hrun₁, hread⟩ := decode_turn_entry haccounted h (hnames ent hent) (hdata ent hent)
      (hplaces ent hent) (habsent ent hent) (hapart.dirs ent hent ent hent) hfirst
    obtain ⟨s₁', hrun₁', ⟨σ₁, t₁, haccounted₁⟩, hframe₁⟩ :=
      accepts_frame haccounted (entry_ops_size (hdata ent hent)) hfirst
    obtain rfl := Option.some.inj (hrun₁'.symm.trans hrun₁)
    have hfiles := (List.pairwise_cons.mp hapart.files).1
    -- the entries behind are as absent as before
    have habsent₁ : ∀ other ∈ list, s₁'.bfs_find (bfs_name (place env other)) = some (.error (-1)) := by
      intro other hother
      refine (hframe₁ _ ?_).1.trans (habsent other (hlater other hother))
      exact entry_ops_apart (Ne.symm (hfiles other hother)) (hapart.dirs other (hlater other hother) ent hent)
    have hnext : zip_data.drop (pos + (local_part ent).length) = list.flatMap local_part ++ rest := by
      rw [← drop_drop, h, drop_left' rfl]
    obtain ⟨s', hloop, hrun, hextracted⟩ := @ih _ s₁' σ₁ t₁ haccounted₁ hnext
      (fun other hother => hnames other (hlater other hother)) (fun other hother => hdata other (hlater other hother))
      (fun other hother => hplaces other (hlater other hother)) habsent₁ hapart.tail (hothers s₁' hrun₁)
      (records ++ [record_of ent]) fuel (by rw [length_cons] at hfuel; omega)
    refine ⟨s', ?_, ?_, fun other hother => ?_⟩
    · rw [decode_loop_next hturn, hloop, append_assoc, map_cons]
      rfl
    · exact (run_append hrun₁).trans hrun
    · rcases List.mem_cons.mp hother with rfl | hother
      · obtain ⟨s₂, hrun₂, -, hframe₂⟩ := accepts_frame haccounted₁
          (plan_size fun e he => hdata e (hlater e he)) (hothers s₁' hrun₁)
        obtain rfl := Option.some.inj (hrun₂.symm.trans hrun)
        refine (hframe₂ _ fun op hop => ?_).extracted hread
        obtain ⟨e, he, hop⟩ := List.mem_flatMap.mp hop
        exact entry_ops_apart (hfiles e he) (hapart.dirs other hent e (hlater e he)) op hop
      · exact hextracted other hother

theorem mem_local_length {list : List Entry} {ent : Entry} (h : ent ∈ list) :
    (local_part ent).length ≤ (list.flatMap local_part).length := by
  obtain ⟨a, b, rfl⟩ := append_of_mem h
  rw [flatMap_append, flatMap_cons, length_append, length_append]
  omega

theorem length_le_locals (list : List Entry) : list.length ≤ (list.flatMap local_part).length := by
  induction list with
  | nil => exact Nat.zero_le _
  | cons ent list ih =>
    rw [flatMap_cons, length_append, local_part_length, length_cons]
    omega

theorem central_part_head (ent : Entry) (offset : Nat) : append_u32 ZIP_SIG_CENTRAL <+: central_part ent offset := by
  -- the signature is the first of eighteen fields
  iterate 17 refine List.IsPrefix.trans ?_ (List.prefix_append _ _)
  exact prefix_rfl

theorem behind_locals (list : List Entry) (count cd_size cd_offset : Nat) :
    read_u32 (central_parts 0 list ++ end_record count cd_size cd_offset) 0 ≠ ZIP_SIG_LOCAL := by
  have hshape : ∃ sig, append_u32 sig <+: central_parts 0 list ++ end_record count cd_size cd_offset ∧ sig < 2 ^ 32 ∧
      sig ≠ ZIP_SIG_LOCAL := by
    cases list with
    | nil =>
      refine ⟨ZIP_SIG_EOCD, ?_, by decide, by decide⟩
      change _ <+: end_record count cd_size cd_offset
      simp only [end_record, append_assoc]
      exact List.prefix_append _ _
    | cons ent list =>
      refine ⟨ZIP_SIG_CENTRAL, ?_, by decide, by decide⟩
      change _ <+: (central_part ent 0 ++ central_parts (0 + (local_part ent).length) list) ++ _
      exact (central_part_head ent 0).trans ((List.prefix_append _ _).trans (List.prefix_append _ _))
  obtain ⟨sig, ⟨rest, heq⟩, hsig, hne⟩ := hshape
  rw [← heq, read_u32_append hsig]
  exact hne

/-- An archive of less than 4 GiB is extracted as it was packed, where the volume takes its entries and their paths
hash to places of their own; no other file changes. -/
theorem archive_extracted (env : Env) {s : Bfs} {list : List Entry} (hs : s.Reachable)
    (hnames : ∀ ent ∈ list, Normal ent.zip_name) (hsize : (archive list).length < 2 ^ 32)
    (hplaces : ∀ ent ∈ list, join_paths env.out_dir ent.zip_name = some (place env ent))
    (habsent : ∀ ent ∈ list, s.bfs_find (bfs_name (place env ent)) = some (.error (-1)))
    (hapart : Apart env list) (haccepts : Accepts s (plan env list)) :
    ∃ s', decode_loop env (archive list) s 0 [] ((archive list).length + 1) =
        some { code := 0, s := s', records := list.map record_of } ∧
      (∀ ent ∈ list, Extracted env s' ent) ∧
      ∀ name, (∀ ent ∈ list, bfs_hash name ≠ key (place env ent) ∧
        ∀ dir ∈ dirs (parent (place env ent)), bfs_hash name ≠ key dir) → SameFile s s' name := by
  obtain ⟨σ, t, haccounted⟩ := hs.accounted
  have hlocals : (list.flatMap local_part).length ≤ (archive list).length := by
    rw [archive, length_append]
    omega
  have hdata : ∀ ent ∈ list, ent.data.length < 2 ^ 32 := by
    intro ent hent
    have hpart := mem_local_length hent
    rw [local_part_length] at hpart
    omega
  have hfuel := length_le_locals list
  have hloops : ∃ s', decode_loop env (archive list) s 0 [] ((archive list).length + 1) =
      some { code := 0, s := s', records := [] ++ list.map record_of } ∧
      s.run (plan env list) = some s' ∧ ∀ ent ∈ list, Extracted env s' ent :=
    decode_loop_entries haccounted (drop_zero ..) (behind_locals list _ _ _) hnames hdata hplaces habsent hapart
      haccepts (Nat.lt_succ_of_le (hfuel.trans hlocals))
  obtain ⟨s', hloop, hrun, hextracted⟩ := hloops
  obtain ⟨s₂, hrun₂, -, hframe⟩ := accepts_frame haccounted (plan_size hdata) haccepts
  obtain rfl := Option.some.inj (hrun₂.symm.trans hrun)
  refine ⟨s₂, hloop, hextracted, fun name hname => hframe name fun op hop => ?_⟩
  obtain ⟨ent, hent, hop⟩ := List.mem_flatMap.mp hop
  exact entry_ops_apart (hname ent hent).1 (hname ent hent).2 op hop

/-! ## Files in one leaf -/

section Shallow

variable {keys : List UInt64} {free : Nat}

theorem outcome_done {op : Op} {code : Int} {after : List UInt64 × Nat}
    (h : op.outcome keys free = some (code, after)) : Op.Done op code := by
  rcases outcome_code h with rfl | ⟨rfl, name, size, rfl⟩
  · cases op with
    | create => exact .inl rfl
    | write_file | delete => exact (rfl : (0 : Int) = 0)
  · exact .inr rfl

theorem parents_of_shallow (h : Shallow s keys free) (name : FileName) : ParentsSet s name :=
  fun _ _ hpage hne => absurd (h.on_path hpage) hne

theorem accepts_of_shallow {ops : List Op} (h : Shallow s keys free)
    (houtcomes : (outcomes keys free ops).isSome = true) : Accepts s ops := by
  induction ops generalizing s keys free with
  | nil => trivial
  | cons op ops ih =>
    obtain ⟨after, hafter⟩ := Option.isSome_iff_exists.mp houtcomes
    obtain ⟨⟨code, keys₁, free₁⟩, hop, hrest⟩ := Option.bind_eq_some_iff.mp hafter
    obtain ⟨s₁, hstep, h₁⟩ := h.step hop
    exact ⟨parents_of_shallow h op.name, code, s₁, hstep, outcome_done hop,
      ih h₁ (Option.isSome_iff_exists.mpr ⟨after, hrest⟩)⟩

theorem fresh_disk_find (name : FileName) : fresh_disk.bfs_find name = some (.error (-1)) :=
  fresh_disk_shallow.find not_mem_nil

end Shallow

/-- Files go to the root, and are not overwritten. -/
def keep_env : Env := { out_dir := [], overwrite := false, check_overwrite_permission := fun _ => true }

/-- Files go to the directory "result", and are overwritten. -/
def result_env : Env :=
  { out_dir := [114, 101, 115, 117, 108, 116], overwrite := true, check_overwrite_permission := fun _ => true }

def entry_a : Entry := { zip_name := [97], data := [7] }

theorem plain_of_all {segment : Bytes} (h : segment.all (fun c => !is_separator c) = true) :
    ∀ c ∈ segment, is_separator c = false := by
  intro c hc
  have hplain := List.all_eq_true.mp h c hc
  rwa [Bool.not_eq_true'] at hplain

theorem normal_of_segment {name : Bytes} (h : Segment name) (hlength : name.length < ZIP_PATH_MAX)
    (hnul : (0 : UInt8) ∉ name) : Normal name where
  spells := ⟨[name], List.intercalate_singleton.symm, cons_ne_nil _ _, Nat.succ_le_succ (Nat.zero_le 31),
    fun segment hsegment => by
    rw [List.mem_singleton.mp hsegment]
    exact h⟩
  length := hlength
  no_nul := hnul

def entry_d_b : Entry := { zip_name := [100, 47, 98], data := [8, 9] }

/-- The files "a" and "d/b". -/
def packed : List Entry := [entry_a, entry_d_b]

theorem forall_packed {P : Entry → Prop} (ha : P entry_a) (hb : P entry_d_b) : ∀ ent ∈ packed, P ent := by
  intro ent hent
  rcases List.mem_cons.mp hent with rfl | hent
  · exact ha
  · rw [List.mem_singleton.mp hent]
    exact hb

theorem packed_normal : ∀ ent ∈ packed, Normal ent.zip_name := by
  have hsegment {c : UInt8} (hplain : is_separator c = false) (hdot : c ≠ DOT) : Segment [c] :=
    ⟨cons_ne_nil _ _, (show 1 < 48 by decide), fun d hd => by rwa [List.mem_singleton.mp hd],
      fun h => hdot (head_eq_of_cons_eq h), fun h => hdot (head_eq_of_cons_eq h)⟩
  refine forall_packed (normal_of_segment (hsegment (by decide) (by decide)) (by decide) (by decide)) ?_
  refine ⟨⟨[[100], [98]], rfl, cons_ne_nil _ _, by decide, fun segment hmem => ?_⟩, by decide, by decide⟩
  rcases List.mem_cons.mp hmem with rfl | hmem
  · exact hsegment (by decide) (by decide)
  · rw [List.mem_singleton.mp hmem]
    exact hsegment (by decide) (by decide)

/-- The file "z". -/
def name_z : FileName := bfs_name [122]

/-- A file of at most a page is stored as "z". -/
def store_op (zip_data : Bytes) : Op :=
  .write_file name_z (fun i => zip_data.getD i 0) (UInt64.ofNat zip_data.length)

theorem reachable_run {s' : Bfs} {ops : List Op} (h : s.Reachable) (hsizes : ∀ op ∈ ops, op.size + 4095 < 2 ^ 64)
    (hrun : s.run ops = some s') : s'.Reachable := by
  obtain ⟨s₀, s₁, behind, before, hformat, hlow, hhigh, hsizes', hrun'⟩ := h
  refine ⟨s₀, s₁, behind, before ++ ops, hformat, hlow, hhigh, fun op hop => ?_, (run_append hrun').trans hrun⟩
  rcases List.mem_append.mp hop with hop | hop
  · exact hsizes' op hop
  · exact hsizes op hop

theorem stored_disk {zip_data : Bytes} (hpos : 0 < zip_data.length) (hpage : zip_data.length ≤ 4096) :
    ∃ s, fresh_disk.run [store_op zip_data] = some s ∧ s.Reachable ∧ Shallow s [bfs_hash name_z] 4 ∧
      ∀ max_size, UInt64.ofNat zip_data.length ≤ max_size → s.bfs_read_file name_z max_size =
        some { code := 0, out_size := some (UInt64.ofNat zip_data.length), data := zip_data } :=
  disk_with name_z hpos hpage

theorem packed_places : ∀ ent ∈ packed, join_paths result_env.out_dir ent.zip_name = some (place result_env ent) :=
  forall_packed rfl rfl

theorem packed_apart : Apart result_env packed where
  files := by decide +kernel
  dirs := by decide +kernel

/-- Two files, one of them in a directory, are extracted below "result", and the archive stays as it is. -/
theorem archive_extracted_result : ∃ s s', fresh_disk.run [store_op (archive packed)] = some s ∧
    decode_loop result_env (archive packed) s 0 [] ((archive packed).length + 1) =
      some { code := 0, s := s', records := packed.map record_of } ∧
    Extracted result_env s' entry_a ∧ Extracted result_env s' entry_d_b ∧ SameFile s s' name_z := by
  obtain ⟨s, hrun, hs, hshallow, -⟩ := @stored_disk (archive packed) (by decide +kernel) (by decide +kernel)
  have habsent : ∀ ent ∈ packed, s.bfs_find (bfs_name (place result_env ent)) = some (.error (-1)) :=
    forall_packed (hshallow.find (by decide +kernel)) (hshallow.find (by decide +kernel))
  obtain ⟨s', hloop, hextracted, hsame⟩ := archive_extracted result_env hs packed_normal (by decide +kernel)
    packed_places habsent packed_apart (accepts_of_shallow hshallow (by decide +kernel))
  refine ⟨s, s', hrun, hloop, hextracted _ mem_cons_self,
    hextracted _ (mem_cons_of_mem _ (mem_singleton_self _)), hsame name_z ?_⟩
  decide +kernel

theorem read_file_hash {a b : FileName} (h : bfs_hash a = bfs_hash b) (s : Bfs) (max_size : UInt64) :
    s.bfs_find a = s.bfs_find b ∧ s.bfs_read_file a max_size = s.bfs_read_file b max_size := by
  have hfind : s.bfs_find a = s.bfs_find b := by rw [bfs_find_eq, bfs_find_eq, h]
  refine ⟨hfind, ?_⟩
  rw [Bfs.bfs_read_file, Bfs.bfs_read_file, hfind]

def entry_ab : Entry := { zip_name := [97, 98], data := [7] }
def entry_bA : Entry := { zip_name := [98, 65], data := [] }

theorem decode_turn_skip (h : zip_data.drop pos = local_part ent ++ rest) (hname : Normal ent.zip_name)
    (hdata : ent.data.length < 2 ^ 32) (hplace : join_paths env.out_dir ent.zip_name = some (place env ent))
    (hdirs : parent (place env ent) = []) (hkeep : env.overwrite = false) {entry : FileEntry}
    (hfound : s.bfs_find (bfs_name (place env ent)) = some (.ok entry)) :
    decode_turn env zip_data s pos = some (.next (pos + (local_part ent).length) s (record_of ent)) := by
  have hlength := congrArg List.length h
  rw [length_drop, length_append, local_part_length] at hlength
  rw [decode_turn_local h hname.length hname.no_nul hdata, decode_named, hname.normalize]
  dsimp only
  rw [hplace]
  dsimp only
  rw [if_neg (by omega), if_neg Bool.false_ne_true, local_data h, extract_file,
    (path_parent_eq (join_paths_length hplace)).1, hdirs]
  dsimp only
  have hensure : ensure_dir_path s [] = some (true, s) := rfl
  rw [hensure]
  simp only [Option.bind_eq_bind, Option.bind_some, Bool.not_true, Bool.false_eq_true, if_false, hfound, hkeep,
    Bool.not_false, Except.isOk, Except.toBool, Bool.and_self, if_true, local_part_length, record_of, Nat.add_assoc pos]

/-- Entries with different names are not all extracted: "bA" is taken for "ab", which was written before. -/
theorem same_hash_lost :
    ¬ ∀ (env : Env) (s : Bfs) (list : List Entry) (r : Result), s.Reachable →
      (∀ ent ∈ list, Normal ent.zip_name) → (list.map Entry.zip_name).Nodup → (archive list).length < 2 ^ 32 →
      (∀ ent ∈ list, ∃ path, join_paths env.out_dir ent.zip_name = some path ∧
        s.bfs_find (bfs_name path) = some (.error (-1))) →
      decode_loop env (archive list) s 0 [] ((archive list).length + 1) = some r →
      r.code = 0 ∧ ∀ ent ∈ list, Extracted env r.s ent := by
  intro hclaim
  have hab : Normal entry_ab.zip_name :=
    normal_of_segment ⟨by decide, by decide, plain_of_all (by decide), by decide, by decide⟩ (by decide) (by decide)
  have hbA : Normal entry_bA.zip_name :=
    normal_of_segment ⟨by decide, by decide, plain_of_all (by decide), by decide, by decide⟩ (by decide) (by decide)
  have hhash : bfs_hash (bfs_name (place keep_env entry_bA)) = bfs_hash (bfs_name (place keep_env entry_ab)) := by
    decide +kernel
  obtain ⟨σ, haccounted⟩ := fresh_disk_accounted
  have harchive : archive [entry_ab, entry_bA] = local_part entry_ab ++ (local_part entry_bA ++
      (central_parts 0 [entry_ab, entry_bA] ++ end_record 2 (central_parts 0 [entry_ab, entry_bA]).length
        ([entry_ab, entry_bA].flatMap local_part).length)) := by
    rw [archive, flatMap_cons, flatMap_cons, flatMap_nil, append_nil, append_assoc]
    rfl
  have hfront := (drop_zero (l := archive [entry_ab, entry_bA])).trans harchive
  have hdirs : dirs (parent (place keep_env entry_ab)) = [] := rfl
  obtain ⟨s₁, hturn, -, hread⟩ := decode_turn_entry haccounted hfront hab
    (by decide) rfl (fresh_disk_find _) (fun dir hdir => by rw [hdirs] at hdir; cases hdir)
    (accepts_of_shallow fresh_disk_shallow (by decide +kernel))
  have hread_ab := hread 1 (by decide)
  -- the second name is found with the entry of the first
  obtain ⟨entry, hfound⟩ : ∃ entry, s₁.bfs_find (bfs_name (place keep_env entry_bA)) = some (.ok entry) := by
    rw [(read_file_hash hhash s₁ 1).1]
    rw [Bfs.bfs_read_file] at hread_ab
    obtain ⟨found, hfound, hread_ab⟩ := Option.bind_eq_some_iff.mp hread_ab
    cases found with
    | ok entry => exact ⟨entry, hfound⟩
    | error code => cases hread_ab
  have hdrop : (archive [entry_ab, entry_bA]).drop (0 + (local_part entry_ab).length) = local_part entry_bA ++
      (central_parts 0 [entry_ab, entry_bA] ++ end_record 2 (central_parts 0 [entry_ab, entry_bA]).length
        ([entry_ab, entry_bA].flatMap local_part).length) := by
    rw [harchive, Nat.zero_add, drop_left' rfl]
  have hskip : decode_turn keep_env _ s₁ _ = _ := decode_turn_skip hdrop hbA (by decide) rfl rfl rfl hfound
  have hstop := @decode_turn_stop _ _ (0 + (local_part entry_ab).length + (local_part entry_bA).length) keep_env s₁
    (by rw [← drop_drop, hdrop, drop_left' rfl]) (behind_locals [entry_ab, entry_bA] _ _ _)
  obtain ⟨fuel, hfuel⟩ : ∃ fuel, (archive [entry_ab, entry_bA]).length + 1 = fuel + 3 := ⟨_, rfl⟩
  have hloop : decode_loop keep_env (archive [entry_ab, entry_bA]) fresh_disk 0 []
      ((archive [entry_ab, entry_bA]).length + 1) =
      some { code := 0, s := s₁, records := [] ++ [record_of entry_ab] ++ [record_of entry_bA] } := by
    rw [hfuel, decode_loop_next hturn, decode_loop_next hskip, decode_loop_stop hstop]
  have hall {P : Entry → Prop} (h : P entry_ab) (h' : P entry_bA) : ∀ ent ∈ [entry_ab, entry_bA], P ent := by
    intro ent hent
    rcases List.mem_cons.mp hent with rfl | hent
    · exact h
    · rw [List.mem_singleton.mp hent]
      exact h'
  obtain ⟨-, hextracted⟩ := hclaim keep_env fresh_disk [entry_ab, entry_bA] _ fresh_disk_reachable (hall hab hbA)
    (by decide) (by decide +kernel) (hall ⟨_, rfl, fresh_disk_find _⟩ ⟨_, rfl, fresh_disk_find _⟩) hloop
  have hread_bA := hextracted entry_bA (mem_cons_of_mem _ (mem_cons_self ..)) 1 (by decide)
  rw [(read_file_hash hhash s₁ 1).2, hread_ab] at hread_bA
  cases hread_bA

end graceos.zip
