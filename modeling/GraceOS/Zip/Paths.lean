import GraceOS.Zip.Encode

/-!
# Where a name of an archive leads

`normalize_zip_name` leaves proper segments only, and what `ensure_dir_path` creates for a path below the output
directory lies below it too, or on the way to it.
-/

namespace graceos.zip

open List

/-! ## Paths -/

/-- A path, or a part of it that ends in front of a slash. -/
def OnWay (path dir : Bytes) : Prop := dir ≠ [] ∧ (dir = path ∨ ∃ rest, path = dir ++ SLASH :: rest)

/-- The directory as `join_paths` puts it in front of a name. -/
def base (out_dir : Bytes) : Bytes :=
  if out_dir.isEmpty || out_dir.getLast? == some SLASH then out_dir else out_dir ++ [SLASH]

/-- One or more proper segments, joined by slashes, behind the directory. -/
def Below (out_dir path : Bytes) : Prop :=
  ∃ segments, segments ≠ [] ∧ (∀ segment ∈ segments, Segment segment) ∧
    path = base out_dir ++ List.intercalate [SLASH] segments

theorem OnWay.trans {path parent dir : Bytes} (h : OnWay path parent) (h' : OnWay parent dir) : OnWay path dir := by
  refine ⟨h'.1, ?_⟩
  rcases h'.2 with rfl | ⟨rest, rfl⟩
  · exact h.2
  · right
    rcases h.2 with rfl | ⟨rest', rfl⟩
    · exact ⟨rest, rfl⟩
    · exact ⟨rest ++ SLASH :: rest', by rw [append_assoc, cons_append]⟩

theorem Segment.slash_notMem {segment : Bytes} (h : Segment segment) : SLASH ∉ segment := by
  intro hmem
  have hplain := h.plain SLASH hmem
  rw [show is_separator SLASH = true by decide] at hplain
  cases hplain

/-- What ends in front of a slash in a name is made of its first segments. -/
theorem cut_segments {segments : List Bytes} (h : ∀ segment ∈ segments, Segment segment) (hne : segments ≠ [])
    {dir rest : Bytes} (hcut : List.intercalate [SLASH] segments = dir ++ SLASH :: rest) :
    ∃ first, first ≠ [] ∧ (∀ segment ∈ first, Segment segment) ∧ dir = List.intercalate [SLASH] first := by
  induction segments generalizing dir with
  | nil => exact absurd rfl hne
  | cons segment segments ih =>
    have hsegment := h segment (mem_cons_self ..)
    have hone : ∃ first, first ≠ [] ∧ (∀ g ∈ first, Segment g) ∧ segment = List.intercalate [SLASH] first :=
      ⟨[segment], cons_ne_nil _ _, fun g hg => by rwa [List.mem_singleton.mp hg],
        (intercalate_singleton ..).symm⟩
    rw [intercalate_cons] at hcut
    rcases List.append_eq_append_iff.mp hcut with ⟨a, hdir, hbehind⟩ | ⟨a, hsplit, hslash⟩
    · -- The cut lies behind the first segment.
      cases segments with
      | nil =>
        rw [behind_segment, flatMap_nil] at hbehind
        exact absurd hbehind.symm (by simp)
      | cons next segments =>
        rw [behind_segment, flatMap_cons, cons_append] at hbehind
        cases a with
        | nil =>
          rw [hdir, append_nil]
          exact hone
        | cons c a =>
          obtain ⟨rfl, htail⟩ := List.cons.inj hbehind
          rw [← behind_segment, ← intercalate_cons] at htail
          obtain ⟨first, hfirst, hall, ha⟩ :=
            ih (fun g hg => h g (mem_cons_of_mem segment hg)) (cons_ne_nil _ _) htail
          refine ⟨segment :: first, cons_ne_nil _ _, ?_, ?_⟩
          · intro g hg
            rcases List.mem_cons.mp hg with rfl | hg
            · exact hsegment
            · exact hall g hg
          · obtain ⟨g, first, rfl⟩ := exists_cons_of_ne_nil hfirst
            rw [hdir, ha, intercalate_cons_cons]
            simp
    · -- A cut within the first segment is at its end.
      cases a with
      | nil =>
        rw [append_nil] at hsplit
        rw [← hsplit]
        exact hone
      | cons c a =>
        obtain ⟨rfl, -⟩ := List.cons.inj hslash
        exact absurd (by rw [hsplit]; simp) hsegment.slash_notMem

theorem base_onWay {out_dir dir rest : Bytes} (hne : dir ≠ []) (hcut : base out_dir = dir ++ SLASH :: rest) :
    OnWay out_dir dir := by
  refine ⟨hne, ?_⟩
  unfold base at hcut
  split at hcut
  · exact .inr ⟨rest, hcut⟩
  · rcases List.append_eq_append_iff.mp hcut with ⟨a, hdir, hslash⟩ | ⟨a, hout, hslash⟩
    · cases a with
      | nil => exact .inl (by rw [hdir, append_nil])
      | cons c a =>
        have hlength := congrArg List.length hslash
        rw [length_singleton, length_append, length_cons, length_cons] at hlength
        omega
    · cases a with
      | nil => exact .inl (by rw [hout, append_nil])
      | cons c a =>
        obtain ⟨rfl, -⟩ := List.cons.inj hslash
        exact .inr ⟨a, hout⟩

theorem Below.onWay {out_dir path dir : Bytes} (h : Below out_dir path) (hway : OnWay path dir) :
    OnWay out_dir dir ∨ Below out_dir dir := by
  rcases hway with ⟨hdir, rfl | ⟨rest, hpath⟩⟩
  · exact .inr h
  obtain ⟨segments, hne, hsegments, hspells⟩ := h
  rw [hspells] at hpath
  rcases List.append_eq_append_iff.mp hpath with ⟨a, hsplit, hcut⟩ | ⟨a, hbase, hslash⟩
  · obtain ⟨first, hfirst, hall, ha⟩ := cut_segments hsegments hne hcut
    exact .inr ⟨first, hfirst, hall, by rw [hsplit, ha]⟩
  · cases a with
    | nil =>
      obtain ⟨segment, segments, rfl⟩ := exists_cons_of_ne_nil hne
      have hsegment := hsegments segment (mem_cons_self ..)
      obtain ⟨c, l, rfl⟩ := exists_cons_of_ne_nil hsegment.ne_nil
      rw [intercalate_cons, nil_append, cons_append] at hslash
      obtain ⟨rfl, -⟩ := List.cons.inj hslash
      exact absurd (mem_cons_self ..) hsegment.slash_notMem
    | cons c a =>
      obtain ⟨rfl, -⟩ := List.cons.inj hslash
      exact .inl (base_onWay hdir hbase)

/-! ## What the helpers return -/

theorem join_paths_below {out_dir name path : Bytes} (h : join_paths out_dir name = some path) :
    path = base out_dir ++ name := by
  unfold join_paths at h
  unfold base
  split at h
  · cases h
  split at h
  · next hbare => rw [if_pos hbare, Option.some.inj h]
  · next hbare => rw [if_neg hbare, Option.some.inj h]

/-- The parent of a path is empty or ends in front of one of its slashes. -/
theorem path_parent_onWay {path dir : Bytes} (h : path_parent path = some dir) : dir = [] ∨ OnWay path dir := by
  unfold path_parent at h
  dsimp only at h
  split at h
  · exact .inl (Option.some.inj h).symm
  next hslash =>
  split at h
  · cases h
  have htake := takeWhile_append_dropWhile (p := fun c => decide (c ≠ SLASH)) (l := path.reverse)
  cases hdrop : path.reverse.dropWhile (fun c => decide (c ≠ SLASH)) with
  | nil =>
    have hall := List.dropWhile_eq_nil_iff.mp hdrop SLASH (List.mem_reverse.mpr (not_not.mp hslash))
    simp at hall
  | cons c front =>
    have hc : c = SLASH := by
      have hhead := List.head?_dropWhile_not (fun c => decide (c ≠ SLASH)) path.reverse
      rw [hdrop] at hhead
      simpa using hhead
    subst hc
    rw [hdrop] at htake
    have hpath : path = front.reverse ++ SLASH :: (path.reverse.takeWhile fun c => decide (c ≠ SLASH)).reverse := by
      conv_lhs => rw [← path.reverse_reverse, ← htake]
      simp
    have hlength := congrArg List.length hpath
    rw [length_append, length_cons, length_reverse, length_reverse] at hlength
    have hdir : dir = front.reverse := by
      rw [← Option.some.inj h]
      conv_lhs => rw [hpath]
      apply take_left'
      rw [length_reverse, ← hpath]
      omega
    rcases eq_or_ne dir [] with hnil | hne
    · exact .inl hnil
    · exact .inr ⟨hne, .inr ⟨_, by rw [hdir]; exact hpath⟩⟩

/-- The loop keeps proper segments only. -/
theorem zip_segments_proper {segments found : List Bytes} {p : Bytes} {fuel : Nat}
    (hfound : ∀ segment ∈ found, Segment segment) (h : zip_segments found p fuel = some segments) :
    ∀ segment ∈ segments, Segment segment := by
  induction fuel generalizing found p with
  | zero => cases h
  | succ fuel ih =>
    rw [zip_segments] at h
    dsimp only at h
    split at h
    · rw [← Option.some.inj h]
      exact hfound
    next hmore =>
    split at h
    · cases h
    next hshort =>
    split at h
    · exact ih hfound h
    next hdot =>
    split at h
    · split at h
      · cases h
      · exact ih (fun g hg => hfound g ((dropLast_sublist found).mem hg)) h
    next hdots =>
    split at h
    · cases h
    · refine ih (fun g hg => ?_) h
      rcases List.mem_append.mp hg with hg | hg
      · exact hfound g hg
      · rw [List.mem_singleton.mp hg]
        refine ⟨fun hnil => hmore ?_, by omega, fun c hc => ?_, hdot, hdots⟩
        · -- The first character behind the separators starts a segment.
          cases hq : p.dropWhile is_separator with
          | nil => rfl
          | cons c q =>
            have hhead := List.head?_dropWhile_not is_separator p
            rw [hq] at hhead
            rw [hq, takeWhile_cons, if_pos (by simpa using hhead)] at hnil
            cases hnil
        · have := mem_takeWhile_imp hc
          simpa using this

theorem join_segments_spells {segments : List Bytes} {out name : Bytes} (hout : out ≠ [])
    (h : join_segments out segments = some name) : name = out ++ behind_segment segments := by
  induction segments generalizing out with
  | nil => rw [← Option.some.inj h, behind_segment, flatMap_nil, append_nil]
  | cons segment segments ih =>
    rw [join_segments] at h
    split at h
    · cases h
    · rw [if_neg (by rw [List.isEmpty_iff]; exact hout)] at h
      rw [ih (by simp) h, behind_segment, behind_segment, flatMap_cons]
      simp

theorem normalize_zip_name_below {name norm_name out_dir path : Bytes} {is_dir : Bool}
    (hnorm : normalize_zip_name name = some (norm_name, is_dir)) (hjoin : join_paths out_dir norm_name = some path) :
    Below out_dir path := by
  obtain ⟨last, -, hnorm⟩ := Option.bind_eq_some_iff.mp hnorm
  obtain ⟨segments, hsegments, hnorm⟩ := Option.bind_eq_some_iff.mp hnorm
  split at hnorm
  · cases hnorm
  next hmore =>
  obtain ⟨out, hout, hnorm⟩ := Option.bind_eq_some_iff.mp hnorm
  obtain ⟨rfl, -⟩ := Prod.mk.inj (Option.some.inj hnorm)
  have hproper := zip_segments_proper (fun _ hg => absurd hg not_mem_nil) hsegments
  have hne : segments ≠ [] := fun hnil => hmore (List.isEmpty_iff.mpr hnil)
  refine ⟨segments, hne, hproper, ?_⟩
  rw [join_paths_below hjoin]
  obtain ⟨segment, segments, rfl⟩ := exists_cons_of_ne_nil hne
  rw [join_segments] at hout
  split at hout
  · cases hout
  · rw [join_segments_spells (hproper segment (mem_cons_self ..)).ne_nil hout, intercalate_cons]

end graceos.zip
