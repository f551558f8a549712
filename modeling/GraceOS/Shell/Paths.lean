import GraceOS.Shell.Canonical

/-!
# Resolution composes

What `shell_resolve_path` returns is told by the walk alone. Directories are what it returned before, so that resolving
below one is resolving the whole path.
-/

namespace graceos.shell

open bfs separated traced List

/-! ## What is returned -/

theorem fitting_eq_iff {out_len : Int} {found ps : List (List Int8)} (h : ((text found).length : Int) < out_len) :
    fitting out_len found ps = found ++ ps ↔ ((text (found ++ ps)).length : Int) < out_len := by
  induction ps generalizing found with
  | nil => rw [fitting, append_nil, eq_self_iff_true, true_iff]; exact h
  | cons p ps ih =>
    have hassoc : found ++ p :: ps = found ++ [p] ++ ps := by simp
    rw [fitting]
    by_cases hlong : ((text (found ++ [p])).length : Int) ≥ out_len
    · rw [if_pos hlong]
      have hmono : (text (found ++ [p])).length ≤ (text (found ++ p :: ps)).length := by
        have hbehind : spelled SLASH (found ++ [p] ++ ps) = spelled SLASH (found ++ [p]) ++ spelled SLASH ps :=
          flatMap_append
        rw [hassoc, text, text, if_neg (by simp), if_neg (by simp), hbehind, length_append]
        omega
      constructor
      · intro hall
        have := congrArg List.length hall
        rw [length_append, length_cons] at this
        omega
      · intro hlt
        omega
    · rw [if_neg hlong, hassoc]
      exact ih (Int.not_le.mp hlong)

/-- What is returned, and what the buffer holds then. -/
def resolved (out : Buffer) (out_len : Int) : Option (List (List Int8)) → Int × Buffer
  | none => (0, out)
  | some ps =>
    if ((text ps).length : Int) < out_len then (if ps = [] then 0 else 1, out.store (text ps ++ [0]))
    else (0, out.store (text (fitting out_len [] ps)))

/-- The segments of a directory fit the table. -/
structure Seeds (cwd : CString) : Prop where
  short : ∀ p ∈ parts SLASH cwd.chars, p.length < SHELL_SEGMENT_MAX
  count : (parts SLASH cwd.chars).length ≤ SHELL_MAX_SEGMENTS

/-- The segments that a path begins with. -/
def start (cwd input : CString) : List (List Int8) :=
  if input.chars.head? ≠ some SLASH then parts SLASH cwd.chars else []

/-- The segments of a path behind a directory. -/
def segments_of (cwd input : CString) : Option (List (List Int8)) := walk (start cwd input) (parts SLASH input.chars)

variable {cwd input : CString}

theorem collect_does (h : input.chars.head? ≠ some SLASH → Seeds cwd) (stack : Table) :
    Does (collect cwd input stack) (segments_of cwd input) := by
  have hempty : Spells stack [] := ⟨fun i hi => absurd hi (Nat.not_lt_zero i), fun p hp => absurd hp not_mem_nil⟩
  rw [collect, segments_of, start]
  by_cases hrelative : input.chars.head? ≠ some SLASH
  · have hseeds := h hrelative
    have hseed := seed_does hempty cwd.no_nul hseeds.short (by rw [length_nil, Nat.zero_add]; exact hseeds.count)
    obtain ⟨segments, hvalue, hspells⟩ := hseed.some_of _ rfl
    rw [if_pos hrelative, if_pos hrelative]
    exact .bind hseed.inside hvalue (apply_input_does hspells input.no_nul hseeds.count)
  · rw [if_neg hrelative, if_neg hrelative]
    exact .bind (allRun_pure _) rfl (apply_input_does hempty input.no_nul (Nat.zero_le _))

/-- A walk meets parts of strings only. -/
theorem walk_parts {ps qs result : List (List Int8)} (h : walk ps qs = some result) :
    ∀ p ∈ result, p ∈ ps ∨ p ∈ qs := by
  induction qs generalizing ps with
  | nil =>
    obtain rfl := Option.some.inj h
    exact fun p hp => .inl hp
  | cons q qs ih =>
    rw [walk, foldlM_cons] at h
    obtain ⟨next, henter, hrest⟩ := Option.bind_eq_some_iff.mp h
    intro p hp
    rcases ih hrest p hp with hnext | hqs
    · have hfrom : p ∈ ps ∨ p = q := by
        unfold enter at henter
        split at henter
        · cases henter
        · split at henter
          · exact .inl (Option.some.inj henter ▸ hnext)
          · split at henter
            · obtain rfl := Option.some.inj henter
              exact .inl (dropLast_subset ps hnext)
            · split at henter
              · cases henter
              · obtain rfl := Option.some.inj henter
                exact (List.mem_append.mp hnext).imp_right List.mem_singleton.mp
      refine hfrom.imp_right fun heq => ?_
      rw [heq]
      exact mem_cons_self ..
    · exact .inr (mem_cons_of_mem q hqs)

theorem segments_of_part {ps : List (List Int8)} (h : segments_of cwd input = some ps) :
    ∀ p ∈ ps, Part SLASH p ∧ 0 ∉ p := by
  intro p hp
  rcases walk_parts h p hp with hstart | hinput
  · rw [start] at hstart
    split at hstart
    · exact ⟨(mem_parts hstart).1, no_nul_part cwd.no_nul hstart⟩
    · exact absurd hstart not_mem_nil
  · exact ⟨(mem_parts hinput).1, no_nul_part input.no_nul hinput⟩

theorem shell_resolve_path_spec (h : input.chars.head? ≠ some SLASH → Seeds cwd) (stack : Table) (out : Buffer)
    (out_len : Int) :
    (shell_resolve_path cwd input stack out out_len).All Inside ∧
      (shell_resolve_path cwd input stack out out_len).value =
        if out_len < 2 then (0, out) else resolved out out_len (segments_of cwd input) := by
  have hdoes := collect_does h stack
  rw [shell_resolve_path]
  by_cases hsmall : out_len < 2
  · rw [if_pos hsmall, if_pos hsmall]
    exact ⟨Traced.all_pure _, rfl⟩
  rw [if_neg hsmall, if_neg hsmall, Traced.value_bind, Traced.all_bind]
  cases hsegments : segments_of cwd input with
  | none =>
    have hvalue : (collect cwd input stack).run.value = none := hdoes.none_of hsegments
    rw [hvalue]
    exact ⟨⟨hdoes.inside, Traced.all_pure _⟩, rfl⟩
  | some ps =>
    obtain ⟨segments, hvalue, hspells⟩ := hdoes.some_of ps hsegments
    have hne : ∀ p ∈ ps, p ≠ [] := fun p hp => (segments_of_part hsegments p hp).1.ne_nil
    have hroot : out.set 0 SLASH = out.store (text []) := by
      funext k
      cases k <;> rfl
    have hwrite := @write_out_eq out segments out_len [] ps hspells hne
    rw [show text [] = [SLASH] from rfl, length_nil, length_singleton, ← range_eq_range'] at hwrite
    change (collect cwd input stack).run.value = some (segments, ps.length) at hvalue
    rw [hvalue]
    dsimp only
    rw [hroot, show text [] = [SLASH] from rfl, hwrite]
    have hfits : fitting out_len [] ps = ps ↔ ((text ps).length : Int) < out_len :=
      fitting_eq_iff (by change (1 : Int) < out_len; omega)
    refine ⟨⟨hdoes.inside, ?_⟩, ?_⟩
    · split <;> exact Traced.all_pure _
    · rw [resolved, nil_append]
      by_cases hlt : ((text ps).length : Int) < out_len
      · have hzero : (text ps).length = 1 ↔ ps = [] := by
          have hpos := text_length_pos hne
          constructor
          · intro hone
            by_contra hnil
            have := hpos.mpr hnil
            omega
          · rintro rfl
            rfl
        rw [if_pos hlt, if_pos (hfits.mpr hlt), hfits.mpr hlt]
        dsimp only
        rw [Traced.value_pure, store_set]
        simp only [hzero]
      · rw [if_neg hlt, if_neg (mt hfits.mp hlt)]
        rfl

/-! ## Directories -/

/-- A segment of a resolved path. -/
structure Segment (p : List Int8) : Prop extends Part SLASH p, Fits p where
  ne_dot : p ≠ [DOT]
  ne_dots : p ≠ [DOT, DOT]

/-- What a walk leads to. -/
structure Normal (ps : List (List Int8)) : Prop where
  count : ps.length ≤ SHELL_MAX_SEGMENTS
  segment : ∀ p ∈ ps, Segment p

/-- The string that a buffer begins with. -/
def Reads (out : Buffer) (s : CString) : Prop := Holds out s.chars

/-- The root, and what paths below a directory were resolved to. -/
inductive Directory : CString → Prop where
  | root : Directory ⟨[SLASH], by decide⟩
  | resolved {cwd input path : CString} {stack : Table} {out : Buffer} {out_len : Int} (h : Directory cwd)
      (hcode : (shell_resolve_path cwd input stack out out_len).value.1 ≠ 0)
      (hreads : Reads (shell_resolve_path cwd input stack out out_len).value.2 path) : Directory path

/-- From the root down, with proper segments and no slash at the end. -/
structure Canonical (path : CString) : Prop where
  starts : path.chars.head? = some SLASH
  ends : path.chars.getLast? ≠ some SLASH
  segments : ∃ ps, path.chars = spelled SLASH ps ∧ Normal ps

section Walks

variable {ps qs result : List (List Int8)}

theorem enter_normal {p : List Int8} (h : Normal ps) (hp : Part SLASH p) (hnul : 0 ∉ p)
    (henter : enter ps p = some result) :
    Normal result := by
  unfold enter at henter
  split at henter
  · cases henter
  · rename_i hshort
    split at henter
    · obtain rfl := Option.some.inj henter
      exact h
    · rename_i hdot
      split at henter
      · obtain rfl := Option.some.inj henter
        have hcount := h.count
        exact ⟨by rw [length_dropLast]; omega, fun q hq => h.segment q (dropLast_subset ps hq)⟩
      · rename_i hdots
        split at henter
        · cases henter
        · obtain rfl := Option.some.inj henter
          refine ⟨by rw [length_append, length_singleton]; omega, fun q hq => ?_⟩
          cases List.mem_append.mp hq with
          | inl hold => exact h.segment q hold
          | inr hnew =>
            obtain rfl := List.mem_singleton.mp hnew
            exact ⟨hp, ⟨Nat.lt_of_not_le hshort, hnul⟩, hdot, hdots⟩

theorem walk_normal (h : Normal ps) (hparts : ∀ q ∈ qs, Part SLASH q ∧ 0 ∉ q) (hwalk : walk ps qs = some result) :
    Normal result := by
  induction qs generalizing ps with
  | nil => exact Option.some.inj hwalk ▸ h
  | cons q qs ih =>
    rw [walk, foldlM_cons] at hwalk
    obtain ⟨next, henter, hrest⟩ := Option.bind_eq_some_iff.mp hwalk
    obtain ⟨hpart, hnul⟩ := hparts q (mem_cons_self ..)
    exact ih (enter_normal h hpart hnul henter) (fun r hr => hparts r (mem_cons_of_mem q hr)) hrest

theorem walk_self (h : Normal (ps ++ qs)) : walk ps qs = some (ps ++ qs) := by
  induction qs generalizing ps with
  | nil => rw [append_nil]; rfl
  | cons q qs ih =>
    have hq := h.segment q (by simp)
    have hcount := h.count
    rw [length_append, length_cons] at hcount
    have hassoc : ps ++ q :: qs = ps ++ [q] ++ qs := by simp
    rw [walk, foldlM_cons, enter, if_neg (Nat.not_le.mpr hq.short), if_neg hq.ne_dot, if_neg hq.ne_dots,
      if_neg (by omega), hassoc]
    exact ih (hassoc ▸ h)

theorem walk_append (ps qs rs : List (List Int8)) : walk ps (qs ++ rs) = (walk ps qs).bind fun mid => walk mid rs := by
  rw [walk, foldlM_append]
  rfl

theorem Normal.parts_text (h : Normal ps) : parts SLASH (text ps) = ps := by
  rw [text]
  split
  · rename_i hnil
    rw [hnil, parts_sep_cons, parts_nil]
  · exact parts_spelled fun p hp => (h.segment p hp).toPart

theorem text_head (ps : List (List Int8)) : (text ps).head? = some SLASH := by
  cases ps <;> rfl

theorem no_nul_text (h : Normal ps) : 0 ∉ text ps := by
  rw [text]
  split
  · decide
  · rw [spelled, mem_flatMap]
    rintro ⟨p, hp, hin⟩
    cases hin with
    | tail _ hin => exact (h.segment p hp).no_nul hin

theorem holds_unique {row : Nat → Int8} {p q : List Int8} (hp : Holds row p) (hq : Holds row q) (hnulp : 0 ∉ p)
    (hnulq : 0 ∉ q) : p = q := by
  have hle : ∀ {p q : List Int8}, Holds row p → Holds row q → 0 ∉ q → q.length ≤ p.length := by
    intro p q hp hq hnul
    by_contra hlt
    have hlt : p.length < q.length := Nat.not_le.mp hlt
    have hend := hp p.length le_rfl
    rw [getD_eq_default _ _ le_rfl, hq _ hlt.le, getD_eq_getElem _ _ hlt] at hend
    exact hnul (hend ▸ getElem_mem hlt)
  refine ext_getElem (Nat.le_antisymm (hle hq hp hnulp) (hle hp hq hnulq)) fun j hj hj' => ?_
  rw [← getD_eq_getElem p 0 hj, ← getD_eq_getElem q 0 hj', ← hp j hj.le, ← hq j hj'.le]

theorem holds_store (out : Buffer) (s : List Int8) : Holds (out.store (s ++ [0])) s := by
  intro j hj
  rw [Buffer.store]
  by_cases hlt : j < s.length
  · rw [getD_append _ _ _ _ hlt, getD_eq_getElem _ _ hlt, getD_eq_getElem _ _ hlt]
  · obtain rfl : j = s.length := by omega
    rw [getD_append_right _ _ _ _ le_rfl, Nat.sub_self, getD_eq_default _ _ le_rfl]
    rfl

end Walks

/-- A directory is the path of its parts. -/
structure Rooted (cwd : CString) : Prop where
  spells : cwd.chars = text (parts SLASH cwd.chars)
  normal : Normal (parts SLASH cwd.chars)

theorem Rooted.seeds (h : Rooted cwd) : Seeds cwd :=
  ⟨fun p hp => (h.normal.segment p hp).short, h.normal.count⟩

theorem normal_nil : Normal [] := ⟨Nat.zero_le _, fun _ hp => absurd hp not_mem_nil⟩

theorem Rooted.segments_normal (h : Rooted cwd) {ps : List (List Int8)} (hps : segments_of cwd input = some ps) :
    Normal ps := by
  refine walk_normal ?_ (fun q hq => ⟨(mem_parts hq).1, no_nul_part input.no_nul hq⟩) hps
  rw [start]
  split
  · exact h.normal
  · exact normal_nil

theorem shell_resolve_path_found (h : Rooted cwd) {stack : Table} {out : Buffer} {out_len : Int}
    (hcode : (shell_resolve_path cwd input stack out out_len).value.1 ≠ 0) :
    ∃ ps, segments_of cwd input = some ps ∧ ps ≠ [] ∧ ((text ps).length : Int) < out_len ∧ ¬ out_len < 2 ∧
      Holds (shell_resolve_path cwd input stack out out_len).value.2 (text ps) := by
  rw [(shell_resolve_path_spec (fun _ => h.seeds) stack out out_len).2] at hcode ⊢
  by_cases hsmall : out_len < 2
  · rw [if_pos hsmall] at hcode
    exact absurd rfl hcode
  rw [if_neg hsmall] at hcode ⊢
  cases hsegments : segments_of cwd input with
  | none =>
    rw [hsegments] at hcode
    exact absurd rfl hcode
  | some ps =>
    rw [hsegments, resolved] at hcode
    by_cases hlt : ((text ps).length : Int) < out_len
    · rw [if_pos hlt] at hcode
      refine ⟨ps, rfl, ?_, hlt, hsmall, ?_⟩
      · rintro rfl
        exact hcode rfl
      · rw [resolved, if_pos hlt]
        exact holds_store out (text ps)
    · rw [if_neg hlt] at hcode
      exact absurd rfl hcode

theorem Directory.rooted (h : Directory cwd) : Rooted cwd := by
  induction h with
  | root => exact ⟨by rw [parts_sep_cons, parts_nil]; rfl, by rw [parts_sep_cons, parts_nil]; exact normal_nil⟩
  | @resolved cwd input path stack out out_len _ hcode hreads ih =>
    obtain ⟨ps, hsegments, -, -, -, hholds⟩ := shell_resolve_path_found ih hcode
    have hnormal := ih.segments_normal hsegments
    have hpath := holds_unique hreads hholds path.no_nul (no_nul_text hnormal)
    constructor
    · rw [hpath, hnormal.parts_text]
    · rw [hpath, hnormal.parts_text]
      exact hnormal

theorem text_getLast {ps : List (List Int8)} (hne : ps ≠ []) (h : ∀ p ∈ ps, Part SLASH p) :
    (text ps).getLast? ≠ some SLASH := by
  obtain ⟨front, p, rfl⟩ : ∃ front p, ps = front ++ [p] := ⟨_, _, (dropLast_concat_getLast hne).symm⟩
  have hp := h p (by simp)
  rw [text_snoc, ← append_assoc, List.getLast?_append, List.getLast?_eq_some_getLast hp.ne_nil]
  intro hlast
  have hmem := getLast_mem hp.ne_nil
  rw [Option.some.inj hlast] at hmem
  exact hp.whole hmem

/-- Resolution is canonical and composes: below any directory, a resolved path starts at the root, has proper segments
that fit the table, fits the buffer and is resolved to itself; a relative path is resolved as the directory, a slash
and the path are; and the table of the segments is not left. -/
theorem shell_resolve_path_canonical {cwd : CString} (hcwd : Directory cwd) (input : CString) (stack : Table)
    (out : Buffer) (out_len : Int) :
    (shell_resolve_path cwd input stack out out_len).All Inside ∧
    ((shell_resolve_path cwd input stack out out_len).value.1 ≠ 0 →
      ∃ path, Reads (shell_resolve_path cwd input stack out out_len).value.2 path ∧ Canonical path ∧
        (path.chars.length : Int) + 1 ≤ out_len ∧
        ∀ other stack₂ out₂, (shell_resolve_path other path stack₂ out₂ out_len).value.1 ≠ 0 ∧
          Reads (shell_resolve_path other path stack₂ out₂ out_len).value.2 path) ∧
    (input.chars.head? ≠ some SLASH → ∀ whole : CString, whole.chars = cwd.chars ++ SLASH :: input.chars →
      ∀ other stack₂, (shell_resolve_path other whole stack₂ out out_len).value =
        (shell_resolve_path cwd input stack out out_len).value) := by
  have hrooted := hcwd.rooted
  obtain ⟨hinside, hvalue⟩ := @shell_resolve_path_spec cwd input (fun _ => hrooted.seeds) stack out out_len
  refine ⟨hinside, fun hcode => ?_, fun hrelative whole hwhole other stack₂ => ?_⟩
  · obtain ⟨ps, hsegments, hne, hlt, hsmall, hholds⟩ := shell_resolve_path_found hrooted hcode
    have hnormal := hrooted.segments_normal hsegments
    have hparts := fun p hp => (hnormal.segment p hp).toPart
    refine ⟨⟨text ps, no_nul_text hnormal⟩, hholds, ⟨text_head ps, text_getLast hne hparts, ps, if_neg hne, hnormal⟩,
      by change ((text ps).length : Int) + 1 ≤ out_len; omega, fun other stack₂ out₂ => ?_⟩
    -- the path is absolute and walked to the same segments
    have habsolute : ∀ h : (text ps).head? ≠ some SLASH, Seeds other := fun h => absurd (text_head ps) h
    have hsame : segments_of other ⟨text ps, no_nul_text hnormal⟩ = some ps := by
      rw [segments_of, start, if_neg (not_not.mpr (text_head ps)), hnormal.parts_text]
      exact walk_self hnormal
    rw [(shell_resolve_path_spec habsolute stack₂ out₂ out_len).2, hsame, if_neg hsmall, resolved, if_pos hlt]
    exact ⟨by rw [if_neg hne]; exact Int.one_ne_zero, holds_store out₂ (text ps)⟩
  · have hhead : whole.chars.head? = some SLASH := by
      rw [hwhole, hrooted.spells, List.head?_append, text_head]
      rfl
    have hsame : segments_of other whole = segments_of cwd input := by
      rw [segments_of, segments_of, start, start, if_neg (not_not.mpr hhead), if_pos hrelative, hwhole,
        parts_append_sep,
        walk_append, walk_self hrooted.normal]
      rfl
    rw [hvalue, (shell_resolve_path_spec (fun h => absurd hhead h) stack₂ out out_len).2, hsame]

/-- The path ".//a/../bc/" below the root is resolved to "/bc". -/
theorem shell_resolve_path_canonical_relative :
    let input : CString := ⟨[46, 47, 47, 97, 47, 46, 46, 47, 98, 99, 47], by decide⟩
    ∃ path, Reads (shell_resolve_path ⟨[SLASH], by decide⟩ input (fun _ _ => 1) (fun _ => 1) 64).value.2 path ∧
      Canonical path ∧
      (shell_resolve_path ⟨[SLASH], by decide⟩ ⟨[47, 47] ++ input.chars, by decide⟩
        (fun _ _ => 1) (fun _ => 1) 64).value =
        (shell_resolve_path ⟨[SLASH], by decide⟩ input (fun _ _ => 1) (fun _ => 1) 64).value := by
  intro input
  obtain ⟨-, hfound, hcompose⟩ := shell_resolve_path_canonical .root input (fun _ _ => 1) (fun _ => 1) 64
  obtain ⟨path, hreads, hcanonical, -, -⟩ := hfound (by decide +kernel)
  exact ⟨path, hreads, hcanonical, hcompose (by decide) _ rfl _ _⟩

end graceos.shell
