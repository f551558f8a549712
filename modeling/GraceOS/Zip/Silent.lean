import GraceOS.Zip.RoundTrip

/-!
# Archives that are not intact

The loop ends without an error wherever the next record is not there or not whole, and never compares a CRC. A
decode that succeeds has extracted the records that lie whole at the front of the archive, whatever the central
directory announces.
-/

namespace graceos.zip

open bfs

variable {env : Env} {zip_data : Bytes} {s : Bfs} {pos : Nat}

variable {data : Bytes} {uncomp_size p : Nat} {record : Record} {turn : Turn}

/-- A file is written or skipped, and the loop goes on behind its data, or the call fails. -/
theorem extract_file_cases {out_path : Bytes} (h : extract_file env s out_path data uncomp_size p record = some turn) :
    turn = .fail ∨ ∃ s', turn = .next p s' record := by
  unfold extract_file at h
  split at h
  · cases h
    exact .inl rfl
  · obtain ⟨⟨made, s1⟩, -, h⟩ := Option.bind_eq_some_iff.mp h
    dsimp only at h
    split at h
    · cases h
      exact .inl rfl
    obtain ⟨found, -, h⟩ := Option.bind_eq_some_iff.mp h
    split at h
    · cases h
      exact .inr ⟨s1, rfl⟩
    split at h
    · cases h
      exact .inl rfl
    split at h
    · cases h
      exact .inl rfl
    obtain ⟨⟨code, s2⟩, -, h⟩ := Option.bind_eq_some_iff.mp h
    dsimp only at h
    split at h
    · cases h
      exact .inl rfl
    · cases h
      exact .inr ⟨s2, rfl⟩

theorem Turn.of_fail {P : Nat → Bfs → Record → Prop} {Q : Prop} :
    (∀ pos s record, Turn.fail = .next pos s record → P pos s record) ∧ (Turn.fail = .stop → Q) :=
  ⟨fun _ _ _ h => (by cases h), fun h => (by cases h)⟩

theorem Turn.of_stop {P : Nat → Bfs → Record → Prop} {Q : Prop} (hq : Q) :
    (∀ pos s record, Turn.stop = .next pos s record → P pos s record) ∧ (Turn.stop = .stop → Q) :=
  ⟨fun _ _ _ h => (by cases h), fun _ => hq⟩

theorem Turn.of_next {P : Nat → Bfs → Record → Prop} {Q : Prop} {pos : Nat} {s : Bfs} {record : Record}
    (hp : P pos s record) :
    (∀ pos' s' record', Turn.next pos s record = .next pos' s' record' → P pos' s' record') ∧
      (Turn.next pos s record = .stop → Q) :=
  ⟨fun _ _ _ h => (by cases h; exact hp), fun h => (by cases h)⟩

theorem decode_named_cases {name : Bytes} {crc data_pos comp_size : Nat}
    (h : decode_named env zip_data s name crc data_pos comp_size uncomp_size = some turn) :
    (∀ pos' s' record, turn = .next pos' s' record → data_pos + comp_size ≤ zip_data.length ∧
      pos' = data_pos + comp_size ∧ record = { name, crc, data := (zip_data.drop data_pos).take comp_size }) ∧
      (turn = .stop → zip_data.length < data_pos + comp_size) := by
  unfold decode_named at h
  split at h
  · cases h
    exact Turn.of_fail
  split at h
  · cases h
    exact Turn.of_fail
  split at h
  · next hover =>
    cases h
    exact Turn.of_stop hover
  next hfits =>
  dsimp only at h
  split at h
  · obtain ⟨⟨made, s1⟩, -, h⟩ := Option.bind_eq_some_iff.mp h
    dsimp only at h
    split at h
    · cases h
      exact Turn.of_next ⟨by omega, rfl, rfl⟩
    · cases h
      exact Turn.of_fail
  · rcases extract_file_cases h with rfl | ⟨s1, rfl⟩
    · exact Turn.of_fail
    · exact Turn.of_next ⟨by omega, rfl, rfl⟩

/-- A turn goes on behind a record that lies whole in the archive, and stops only where there is none. -/
theorem decode_turn_cases (h : decode_turn env zip_data s pos = some turn) :
    (∀ pos' s' record, turn = .next pos' s' record → local_record zip_data pos = some (record, pos')) ∧
      (turn = .stop → local_record zip_data pos = none) := by
  unfold decode_turn at h
  unfold local_record
  split at h
  · cases h
    exact Turn.of_stop (if_neg (by omega))
  split at h
  · next hsig =>
    cases h
    exact Turn.of_stop (if_neg fun hc => hsig hc.2.1)
  next hsig =>
  split at h
  · cases h
    exact Turn.of_stop (if_neg (by omega))
  next hhead =>
  dsimp only at h ⊢
  split at h
  · cases h
    exact Turn.of_fail
  split at h
  · cases h
    exact Turn.of_fail
  split at h
  · cases h
    exact Turn.of_stop (if_neg (by omega))
  split at h
  · cases h
    exact Turn.of_fail
  obtain ⟨hnext, hstop⟩ := decode_named_cases h
  refine ⟨fun pos' s' record hn => ?_, fun hs => ?_⟩
  · obtain ⟨hfits, rfl, rfl⟩ := hnext pos' s' record hn
    exact if_pos ⟨by omega, not_not.mp hsig, hfits⟩
  · have hover := hstop hs
    exact if_neg fun hc => by omega

variable {r : Result}

theorem decode_loop_records {fuel : Nat} {records : List Record}
    (h : decode_loop env zip_data s pos records fuel = some r) (hcode : r.code = 0) :
    r.records = records ++ local_records zip_data pos fuel := by
  induction fuel generalizing s pos records with
  | zero => cases h
  | succ fuel ih =>
    obtain ⟨turn, hturn, h⟩ := Option.bind_eq_some_iff.mp h
    obtain ⟨hnext, hstop⟩ := decode_turn_cases hturn
    rw [local_records]
    cases turn with
    | stop =>
      rw [hstop rfl, ← Option.some.inj h, List.append_nil]
    | fail =>
      rw [← Option.some.inj h] at hcode
      exact absurd hcode (show ¬ (1 : Int) = 0 by decide)
    | next pos' s' record =>
      rw [hnext pos' s' record rfl, ih h, List.append_assoc]
      rfl

/-! ## Extraction -/

variable {s' : Bfs}

/-- A record is extracted: its directory is made, or its data are written with success. -/
inductive Extracts (env : Env) (s : Bfs) (record : Record) (s' : Bfs) : Prop where
  | directory {norm_name out_path : Bytes} (hname : normalize_zip_name record.name = some (norm_name, true))
      (hpath : join_paths env.out_dir norm_name = some out_path) (hmade : ensure_dir_path s out_path = some (true, s'))
  | file {norm_name out_path parent : Bytes} {s₁ : Bfs} (hname : normalize_zip_name record.name =
      some (norm_name, false))
      (hpath : join_paths env.out_dir norm_name = some out_path) (hparent : path_parent out_path = some parent)
      (hmade : ensure_dir_path s parent = some (true, s₁))
      (hwrite : s₁.bfs_write_file (bfs_name out_path) (fun i => record.data.getD i 0)
        (UInt64.ofNat record.data.length) = some (0, s'))

/-- Records are extracted one after the other. -/
inductive Extraction (env : Env) : Bfs → List Record → Bfs → Prop where
  | nil (s : Bfs) : Extraction env s [] s
  | cons {s s₁ s' : Bfs} {record : Record} {records : List Record} (hfirst : Extracts env s record s₁)
      (hrest : Extraction env s₁ records s') : Extraction env s (record :: records) s'

/-- Where files may be overwritten, a file that the loop goes on behind was written. -/
theorem extract_file_written {out_path : Bytes} {p' : Nat} {record' : Record} (hoverwrite : env.overwrite = true)
    (h : extract_file env s out_path data uncomp_size p record = some (.next p' s' record')) :
    ∃ parent s₁, path_parent out_path = some parent ∧ ensure_dir_path s parent = some (true, s₁) ∧
      s₁.bfs_write_file (bfs_name out_path) (fun i => data.getD i 0) (UInt64.ofNat data.length) = some (0, s') := by
  unfold extract_file at h
  split at h
  · cases h
  next parent hparent =>
  obtain ⟨⟨made, s₁⟩, hmade, h⟩ := Option.bind_eq_some_iff.mp h
  dsimp only at h
  split at h
  · cases h
  next hdone =>
  obtain rfl : made = true := by simpa using hdone
  obtain ⟨found, -, h⟩ := Option.bind_eq_some_iff.mp h
  split at h
  · next hkeep =>
    rw [hoverwrite, Bool.not_true, Bool.and_false] at hkeep
    exact absurd hkeep Bool.false_ne_true
  split at h
  · cases h
  split at h
  · cases h
  obtain ⟨⟨code, s₂⟩, hwrite, h⟩ := Option.bind_eq_some_iff.mp h
  dsimp only at h
  split at h
  · cases h
  next hcode =>
  cases h
  obtain rfl := not_not.mp hcode
  exact ⟨parent, s₁, hparent, hmade, hwrite⟩

theorem decode_named_extracts {name : Bytes} {crc data_pos comp_size : Nat} (hoverwrite : env.overwrite = true)
    (h : decode_named env zip_data s name crc data_pos comp_size uncomp_size = some (.next p s' record)) :
    Extracts env s record s' := by
  have hrecord := ((decode_named_cases h).1 p s' record rfl).2.2
  unfold decode_named at h
  split at h
  · cases h
  next norm_name is_dir hname =>
  split at h
  · cases h
  next out_path hpath =>
  split at h
  · cases h
  dsimp only at h
  cases is_dir with
  | true =>
    rw [if_pos rfl] at h
    obtain ⟨⟨made, s₁⟩, hmade, h⟩ := Option.bind_eq_some_iff.mp h
    dsimp only at h
    split at h
    · next hdone =>
      cases h
      obtain rfl := hdone
      exact .directory hname hpath hmade
    · cases h
  | false =>
    rw [if_neg Bool.false_ne_true] at h
    obtain ⟨parent, s₁, hparent, hmade, hwrite⟩ := extract_file_written hoverwrite h
    rw [hrecord]
    exact .file hname hpath hparent hmade hwrite

theorem decode_turn_extracts (hoverwrite : env.overwrite = true)
    (h : decode_turn env zip_data s pos = some (.next p s' record)) : Extracts env s record s' := by
  unfold decode_turn at h
  split at h
  · cases h
  split at h
  · cases h
  split at h
  · cases h
  dsimp only at h
  split at h
  · cases h
  split at h
  · cases h
  split at h
  · cases h
  split at h
  · cases h
  exact decode_named_extracts hoverwrite h

theorem decode_loop_extraction {fuel : Nat} {records : List Record} (hoverwrite : env.overwrite = true)
    (h : decode_loop env zip_data s pos records fuel = some r) (hcode : r.code = 0) :
    Extraction env s (local_records zip_data pos fuel) r.s := by
  induction fuel generalizing s pos records with
  | zero => cases h
  | succ fuel ih =>
    obtain ⟨turn, hturn, h⟩ := Option.bind_eq_some_iff.mp h
    obtain ⟨hnext, hstop⟩ := decode_turn_cases hturn
    rw [local_records]
    cases turn with
    | stop =>
      rw [hstop rfl, ← Option.some.inj h]
      exact .nil s
    | fail =>
      rw [← Option.some.inj h] at hcode
      exact absurd hcode (show ¬ (1 : Int) = 0 by decide)
    | next pos' s' record =>
      rw [hnext pos' s' record rfl]
      exact .cons (decode_turn_extracts hoverwrite hturn) (ih h)

/-- What a decode that returns 0 has read, and what it has done with it. -/
theorem sevenzip_decode_success {memory : Nat → Bool} {zip_path : Bytes}
    (h : sevenzip_decode env memory s zip_path = some r) (hcode : r.code = 0) :
    ∃ zip_size zip_data s₀, s.bfs_file_size (bfs_name zip_path) = some (.ok zip_size) ∧
      s.bfs_read_file (bfs_name zip_path) zip_size = some { code := 0, out_size := some zip_size, data := zip_data } ∧
      ensure_dir_path s env.out_dir = some (true, s₀) ∧
      decode_loop env zip_data s₀ 0 [] (zip_data.length + 1) = some r := by
  obtain ⟨size, hsize, h⟩ := Option.bind_eq_some_iff.mp h
  cases size with
  | error code =>
    rw [← Option.some.inj h] at hcode
    exact absurd hcode (show ¬ (1 : Int) = 0 by decide)
  | ok zip_size =>
    dsimp only at h
    split at h
    · rw [← Option.some.inj h] at hcode
      exact absurd hcode (show ¬ (1 : Int) = 0 by decide)
    obtain ⟨⟨read_code, out_size, zip_data⟩, hread, h⟩ := Option.bind_eq_some_iff.mp h
    split at h
    · rw [← Option.some.inj h] at hcode
      exact absurd hcode (show ¬ (1 : Int) = 0 by decide)
    next hgood =>
    obtain ⟨hread_code, hout_size⟩ := not_or.mp hgood
    obtain rfl : read_code = 0 := not_not.mp hread_code
    obtain rfl : out_size = some zip_size := not_not.mp hout_size
    obtain ⟨⟨made, s₁⟩, hmade, h⟩ := Option.bind_eq_some_iff.mp h
    dsimp only at h
    split at h
    · rw [← Option.some.inj h] at hcode
      exact absurd hcode (show ¬ (1 : Int) = 0 by decide)
    next hdone =>
    obtain rfl : made = true := by simpa using hdone
    exact ⟨zip_size, zip_data, s₁, hsize, hread, hmade, h⟩

/-- All that the archive announces was extracted, and what was extracted has the CRCs of its local headers. -/
structure Intact (env : Env) (zip_data : Bytes) (s₀ : Bfs) (r : Result) : Prop where
  extraction : Extraction env s₀ r.records r.s
  covers : Covers zip_data r.records
  crcs : CrcsMatch r.records

/-- A decode that succeeds means an intact archive exactly where all that is announced lies in the row of whole
records at the front, with the right CRCs. -/
theorem decode_success_intact_iff {memory : Nat → Bool} {zip_path : Bytes} {r : Result}
    (hoverwrite : env.overwrite = true)
    (h : sevenzip_decode env memory s zip_path = some r) (hcode : r.code = 0) :
    ∃ zip_size zip_data s₀, s.bfs_file_size (bfs_name zip_path) = some (.ok zip_size) ∧
      s.bfs_read_file (bfs_name zip_path) zip_size = some { code := 0, out_size := some zip_size, data := zip_data } ∧
      ensure_dir_path s env.out_dir = some (true, s₀) ∧ (Intact env zip_data s₀ r ↔ Sound zip_data) := by
  obtain ⟨zip_size, zip_data, s₀, hsize, hread, hmade, hloop⟩ := sevenzip_decode_success h hcode
  have hrecords : r.records = local_records zip_data 0 (zip_data.length + 1) := decode_loop_records hloop hcode
  have hextraction := decode_loop_extraction hoverwrite hloop hcode
  rw [← hrecords] at hextraction
  refine ⟨zip_size, zip_data, s₀, hsize, hread, hmade, fun hintact => ?_, fun hsound => ?_⟩
  · exact ⟨hrecords ▸ hintact.covers, hrecords ▸ hintact.crcs⟩
  · exact ⟨hextraction, hrecords ▸ hsound.covers, hrecords ▸ hsound.crcs⟩

/-! ## An archive and its front -/

theorem bfs_file_size_of_read {name : FileName} {max_size size : UInt64}
    (h : s.bfs_read_file name max_size = some { code := 0, out_size := some size, data }) :
    s.bfs_file_size name = some (.ok size) := by
  rw [Bfs.bfs_read_file] at h
  obtain ⟨found, hfound, h⟩ := Option.bind_eq_some_iff.mp h
  cases found with
  | error code => cases h
  | ok entry =>
    have hsize : entry.size_bytes = size := by
      dsimp only at h
      split at h
      · exact Option.some.inj (congrArg ReadResult.out_size (Option.some.inj h))
      split at h
      · exact absurd (congrArg ReadResult.code (Option.some.inj h)) (show ¬ (-2 : Int) = 0 by decide)
      · exact Option.some.inj (congrArg ReadResult.out_size (Option.some.inj h))
    rw [Bfs.bfs_file_size, hfound, ← hsize]
    rfl

theorem result_made (h : Shallow s [bfs_hash name_z] 4) :
    ∃ s₀, ensure_dir_path s result_env.out_dir = some (true, s₀) ∧ s.run [create_op result_env.out_dir] = some s₀ ∧
      Shallow s₀ [key result_env.out_dir, bfs_hash name_z] 4 := by
  have hdirs : (dirs result_env.out_dir).map create_op = [create_op result_env.out_dir] := rfl
  obtain ⟨s₀, hensure, hrun⟩ := ensure_dir_path_eq (show result_env.out_dir.length < ZIP_PATH_MAX by decide)
    (accepts_of_shallow h (by decide +kernel))
  rw [hdirs] at hrun
  obtain ⟨s₁, hrun', hshallow⟩ := h.run (show outcomes [bfs_hash name_z] 4 [create_op result_env.out_dir] =
    some ([key result_env.out_dir, bfs_hash name_z], 4) by decide +kernel)
  obtain rfl := Option.some.inj (hrun'.symm.trans hrun)
  exact ⟨s₁, hensure, hrun, hshallow⟩

/-- A decode of the file "z" into "result" goes through the entries at its front. -/
theorem stored_decodes {zip_data rest : Bytes} {list : List Entry} (hpos : 0 < zip_data.length)
    (hpage : zip_data.length ≤ 4096) (hshape : zip_data = list.flatMap local_part ++ rest)
    (hrest : read_u32 rest 0 ≠ ZIP_SIG_LOCAL) (hnames : ∀ ent ∈ list, Normal ent.zip_name)
    (hplaces : ∀ ent ∈ list, join_paths result_env.out_dir ent.zip_name = some (place result_env ent))
    (hnew : ∀ ent ∈ list, key (place result_env ent) ∉ [key result_env.out_dir, bfs_hash name_z])
    (hapart : Apart result_env list)
    (htakes : (outcomes [key result_env.out_dir, bfs_hash name_z] 4 (plan result_env list)).isSome = true) :
    ∃ s r, s.Reachable ∧ sevenzip_decode result_env (fun _ => true) s [122] = some r ∧ r.code = 0 ∧
      r.records = list.map record_of ∧ s.bfs_file_size name_z = some (.ok (UInt64.ofNat zip_data.length)) ∧
      s.bfs_read_file name_z (UInt64.ofNat zip_data.length) =
        some { code := 0, out_size := some (UInt64.ofNat zip_data.length), data := zip_data } := by
  obtain ⟨s, -, hs, hshallow, hreads⟩ := stored_disk hpos hpage
  have hread := hreads _ (UInt64.le_refl _)
  have hsize := bfs_file_size_of_read hread
  obtain ⟨s₀, hmade, hrun, hshallow₀⟩ := result_made hshallow
  obtain ⟨σ, t, haccounted⟩ := (reachable_run hs (fun op hop => by
    rw [List.mem_singleton.mp hop]
    decide) hrun).accounted
  have hlength := congrArg List.length hshape
  rw [List.length_append] at hlength
  have hcount := length_le_locals list
  have hdata : ∀ ent ∈ list, ent.data.length < 2 ^ 32 := by
    intro ent hent
    have hpart := mem_local_length hent
    rw [local_part_length] at hpart
    omega
  have hloops : ∃ s', decode_loop result_env zip_data s₀ 0 [] (zip_data.length + 1) =
      some { code := 0, s := s', records := [] ++ list.map record_of } ∧
      s₀.run (plan result_env list) = some s' ∧ ∀ ent ∈ list, Extracted result_env s' ent :=
    decode_loop_entries haccounted ((List.drop_zero ..).trans hshape) hrest hnames hdata hplaces
      (fun ent hent => hshallow₀.find (hnew ent hent)) hapart (accepts_of_shallow hshallow₀ htakes) (by omega)
  obtain ⟨s', hloop, -, -⟩ := hloops
  refine ⟨s, { code := 0, s := s', records := list.map record_of }, hs, ?_, rfl, rfl, hsize, hread⟩
  have hsize' : s.bfs_file_size (bfs_name [122]) = _ := hsize
  have hread' : s.bfs_read_file (bfs_name [122]) (UInt64.ofNat zip_data.length) = _ := hread
  rw [sevenzip_decode, hsize', Option.bind_eq_bind, Option.bind_some]
  dsimp only
  rw [Bool.not_true, if_neg Bool.false_ne_true, hread', Option.bind_eq_bind, Option.bind_some, if_neg (by simp), hmade,
    Option.bind_eq_bind, Option.bind_some]
  exact hloop

theorem packed_decodes : ∃ s r, s.Reachable ∧ sevenzip_decode result_env (fun _ => true) s [122] = some r ∧ r.code = 0 ∧
    r.records = packed.map record_of ∧ s.bfs_file_size name_z = some (.ok (UInt64.ofNat (archive packed).length)) ∧
    s.bfs_read_file name_z (UInt64.ofNat (archive packed).length) =
      some { code := 0, out_size := some (UInt64.ofNat (archive packed).length), data := archive packed } :=
  stored_decodes (by decide +kernel) (by decide +kernel) rfl (behind_locals packed _ _ _) packed_normal packed_places
    (by decide +kernel) packed_apart (by decide +kernel)

/-- It is intact. -/
theorem decode_success_intact_packed : ∃ s r s₀, sevenzip_decode result_env (fun _ => true) s [122] = some r ∧
    r.code = 0 ∧ ensure_dir_path s result_env.out_dir = some (true, s₀) ∧ Sound (archive packed) ∧
    Intact result_env (archive packed) s₀ r := by
  obtain ⟨s, r, -, hdecode, hcode, -, hsize, hread⟩ := packed_decodes
  obtain ⟨zip_size, zip_data, s₀, hsize', hread', hmade, hiff⟩ := decode_success_intact_iff rfl hdecode hcode
  obtain rfl := Except.ok.inj (Option.some.inj (hsize'.symm.trans hsize))
  obtain rfl : zip_data = archive packed := congrArg ReadResult.data (Option.some.inj (hread'.symm.trans hread))
  have hsound : Sound (archive packed) :=
    ⟨by unfold Covers; decide +kernel, by unfold CrcsMatch; decide +kernel⟩
  exact ⟨s, r, s₀, hdecode, hcode, hmade, hsound, hiff.mpr hsound⟩

/-- The archive of two files, cut off two bytes behind the first one. -/
def cut_archive : Bytes := (archive packed).take 34

/-- The decode of an archive that was cut off succeeds. -/
theorem decode_success_not_intact :
    ¬ ∀ (env : Env) (memory : Nat → Bool) (s s₀ : Bfs) (zip_path : Bytes) (r : Result) (zip_size : UInt64)
      (zip_data : Bytes), env.overwrite = true → env.out_dir ≠ [] → sevenzip_decode env memory s zip_path = some r →
      r.code = 0 → s.bfs_file_size (bfs_name zip_path) = some (.ok zip_size) →
      s.bfs_read_file (bfs_name zip_path) zip_size = some { code := 0, out_size := some zip_size, data := zip_data } →
      ensure_dir_path s env.out_dir = some (true, s₀) → Intact env zip_data s₀ r := by
  intro hclaim
  have hfirst : ∀ ent ∈ [entry_a], ent = entry_a := fun ent hent => List.mem_singleton.mp hent
  obtain ⟨s, r, -, hdecode, hcode, -, hsize, hread⟩ :=
      @stored_decodes cut_archive [80, 75] [entry_a] (by decide +kernel)
    (by decide +kernel) (by decide +kernel) (by decide)
    (fun ent hent => packed_normal ent (hfirst ent hent ▸ List.mem_cons_self))
    (fun ent hent => packed_places ent (hfirst ent hent ▸ List.mem_cons_self)) (by decide +kernel)
    ⟨by decide +kernel, by decide +kernel⟩ (by decide +kernel)
  obtain ⟨-, -, s₀, -, -, hmade, -⟩ := sevenzip_decode_success hdecode hcode
  obtain ⟨offsets, hoffsets, -⟩ := (hclaim result_env (fun _ => true) s s₀ [122] r _ cut_archive rfl (by decide) hdecode
    hcode hsize hread hmade).covers
  have hnone : announced cut_archive = none := by decide +kernel
  rw [hnone] at hoffsets
  cases hoffsets

end graceos.zip
