import GraceOS.Shell.Paths
import GraceOS.Bfs.ReadBack

/-!
# The current directory

`cmd_chdir` of `shell.c` calls `shell_resolve_path` with a buffer that it never filled, and goes by what the buffer
holds then. The size of the entry that is found is not looked at.
-/

namespace graceos.shell

open bfs separated traced List

/-- What the stack holds from the buffer of `cmd_chdir` on. Somewhere behind the buffer there is another character than
a slash. -/
structure Stack where
  cells : Buffer
  stop : Nat
  behind : SHELL_PATH_MAX ≤ stop
  other : cells stop ≠ SLASH

/-- The characters that `shell_copy_str` copies. -/
def copied (src : Buffer) (dst_size : Nat) : List Int8 := ((List.range (dst_size - 1)).map src).takeWhile (· ≠ 0)

theorem no_nul_copied (src : Buffer) (dst_size : Nat) : 0 ∉ copied src dst_size :=
  fun hin => by simpa using mem_takeWhile_imp hin

/-- The string that is left in `dst`, and whether it is all of `src`. -/
def shell_copy_str (src : Buffer) (dst_size : Nat) : CString × Bool :=
  (⟨copied src dst_size, no_nul_copied src dst_size⟩, src (copied src dst_size).length = 0)

/-- The slashes at the start. -/
def slashes (shell_path : Buffer) (stop : Nat) : Nat := ((List.range stop).takeWhile (shell_path · = SLASH)).length

/-- Convert a shell path to a BranchFS filename. -/
def shell_to_fs_path (shell_path : Buffer) (stop : Nat) (fs_len : Nat) : Option CString :=
  let n := slashes shell_path stop
  if shell_path n = 0 then none
  else
    match shell_copy_str (fun k => shell_path (n + k)) fs_len with
    | (fs_path, true) => some fs_path
    | (_, false) => none

def root : CString := ⟨[SLASH], by decide⟩

/-- The current directory afterwards. -/
def cmd_chdir (g_bfs : Bfs) (shell_cwd : CString) (args : Option CString) (segments : Table) (path : Stack) :
    Option CString :=
  match args with
  | none => some root
  | some args =>
    if args.chars = [] then some root
    else
      let out := (shell_resolve_path shell_cwd args segments path.cells SHELL_PATH_MAX).value.2
      if out 0 = SLASH ∧ out 1 = 0 then some root
      else
        match shell_to_fs_path out path.stop SHELL_PATH_MAX with
        | none => some shell_cwd
        | some fs_path => do
          match ← g_bfs.bfs_find fs_path with
          | .error _ => some shell_cwd
          | .ok _ => some (shell_copy_str out SHELL_PATH_MAX).1

/-! ## Any current directory -/

section AnyDirectory

variable {segments : Table} {n i : Nat} {p c : List Int8}

theorem seed_segment_long (hi : i < SHELL_SEGMENT_MAX) (hlong : i + p.length ≥ SHELL_SEGMENT_MAX) :
    outcome (seed_segment n i p segments) = none := by
  induction p generalizing i segments with
  | nil =>
    rw [length_nil] at hlong
    omega
  | cons c p ih =>
    rw [length_cons] at hlong
    rw [seed_segment]
    by_cases hlast : i + 1 ≥ SHELL_SEGMENT_MAX
    · rw [if_pos hlast]
      rfl
    · rw [if_neg hlast, outcome_bind, outcome_lift]
      exact ih (by omega) (by omega)

/-- A directory with a long segment or with too many is given up. -/
theorem seed_fails (h : (∃ p ∈ parts SLASH c, p.length ≥ SHELL_SEGMENT_MAX) ∨
    n + (parts SLASH c).length > SHELL_MAX_SEGMENTS) (hn : n ≤ SHELL_MAX_SEGMENTS) :
    outcome (seed segments n c) = none := by
  induction c using @parts.induct _ _ SLASH generalizing segments n with
  | case1 c hnil =>
    rw [parts_of_nil hnil] at h
    rcases h with ⟨p, hp, -⟩ | hmany
    · exact absurd hp not_mem_nil
    · rw [length_nil] at hmany
      omega
  | case2 c hne ih =>
    rw [seed, dif_neg hne]
    have hparts := parts_of_ne hne
    rw [hparts] at h
    set p := (c.dropWhile (· = SLASH)).takeWhile (· ≠ SLASH)
    have hpos : p.length > 0 :=
      List.length_pos_iff.mpr (mem_parts (hparts ▸ mem_cons_self .. : p ∈ parts SLASH c)).1.ne_nil
    rw [outcome_bind]
    cases hsegment : outcome (seed_segment n 0 p segments) with
    | none => rfl
    | some segments' =>
      have hshort : ¬ p.length ≥ SHELL_SEGMENT_MAX := by
        intro hlong
        rw [seed_segment_long (by decide) (by rw [Nat.zero_add]; exact hlong)] at hsegment
        cases hsegment
      rw [Option.bind_some, if_pos hpos]
      by_cases hfull : n ≥ SHELL_MAX_SEGMENTS
      · rw [if_pos hfull]
        rfl
      · rw [if_neg hfull, outcome_bind, outcome_lift]
        refine ih ?_ (by omega)
        rcases h with ⟨q, hq, hlong⟩ | hmany
        · cases List.mem_cons.mp hq with
          | inl hfirst => exact absurd hlong (hfirst ▸ hshort)
          | inr hrest => exact .inl ⟨q, hrest, hlong⟩
        · rw [length_cons] at hmany
          exact .inr (by omega)

end AnyDirectory

/-- The segments of the argument, where none is too long and there are never too many. -/
def resolution (cwd args : CString) : Option (List (List Int8)) :=
  if args.chars.head? ≠ some SLASH ∧
    ¬ ((∀ p ∈ parts SLASH cwd.chars, p.length < SHELL_SEGMENT_MAX) ∧
      (parts SLASH cwd.chars).length ≤ SHELL_MAX_SEGMENTS) then none
  else segments_of cwd args

theorem shell_resolve_path_any (cwd args : CString) (segments : Table) (out : Buffer) {out_len : Int}
    (hlen : ¬ out_len < 2) :
    (shell_resolve_path cwd args segments out out_len).value = resolved out out_len (resolution cwd args) := by
  rw [resolution]
  by_cases hbad : args.chars.head? ≠ some SLASH ∧
    ¬ ((∀ p ∈ parts SLASH cwd.chars, p.length < SHELL_SEGMENT_MAX) ∧
      (parts SLASH cwd.chars).length ≤ SHELL_MAX_SEGMENTS)
  · rw [if_pos hbad]
    have hseed : outcome (seed segments 0 cwd.chars) = none := by
      refine seed_fails ?_ (Nat.zero_le _)
      by_contra hgood
      rw [not_or] at hgood
      refine hbad.2 ⟨fun p hp => ?_, by omega⟩
      by_contra hlong
      exact hgood.1 ⟨p, hp, Nat.not_lt.mp hlong⟩
    have hcollect : (collect cwd args segments).run.value = none := by
      change outcome (collect cwd args segments) = none
      rw [collect, if_pos hbad.1, outcome_bind, hseed]
      rfl
    rw [shell_resolve_path, if_neg hlen, Traced.value_bind, hcollect]
    rfl
  · rw [if_neg hbad, (shell_resolve_path_spec ?_ segments out out_len).2, if_neg hlen]
    intro hrelative
    rw [not_and, not_not] at hbad
    exact ⟨(hbad hrelative).1, (hbad hrelative).2⟩

/-! ## What is found in the buffer -/

section Found

variable {src : Buffer} {s : List Int8}

theorem copied_eq (h : Holds src s) (hnul : 0 ∉ s) {dst_size : Nat} (hlen : s.length < dst_size) :
    copied src dst_size = s := by
  have hchars : (List.range s.length).map src = s := by
    refine ext_getElem (by simp) fun j hj hj' => ?_
    rw [getElem_map, getElem_range, h j hj'.le, getD_eq_getElem _ _ hj']
  have hplain : ∀ c ∈ s, decide (c ≠ 0) = true := by
    intro c hc
    simpa using fun hzero : c = 0 => hnul (hzero ▸ hc)
  have hend : src s.length = 0 := (h s.length le_rfl).trans (getD_eq_default _ _ le_rfl)
  rw [copied, @range_split s.length (dst_size - 1) (by omega), map_append, hchars, takeWhile_append_of_pos hplain]
  cases dst_size - 1 - s.length with
  | zero => exact append_nil s
  | succ n =>
    rw [List.range'_succ, map_cons, hend]
    exact append_nil s

theorem shell_to_fs_path_eq {name : CString} (hne : name.chars ≠ []) (hhead : name.chars.head? ≠ some SLASH)
    (h : Holds src (SLASH :: name.chars)) {stop fs_len : Nat} (hstop : 1 < stop) (hlen : name.chars.length < fs_len) :
    shell_to_fs_path src stop fs_len = some name := by
  obtain ⟨chars, hnul⟩ := name
  obtain ⟨c, rest, rfl⟩ := exists_cons_of_ne_nil hne
  have hc : src 1 = c := h 1 (by simp)
  have hslash : c ≠ SLASH := fun heq => hhead (congrArg some heq)
  have hone : slashes src stop = 1 := by
    obtain ⟨k, rfl⟩ : ∃ k, stop = k + 2 := ⟨stop - 2, by omega⟩
    have hfirst : src 0 = SLASH := h 0 (Nat.zero_le _)
    rw [slashes, range_eq_range', List.range'_succ, List.range'_succ]
    simp [hfirst, hc, hslash]
  have hbehind : Holds (fun k => src (1 + k)) (c :: rest) := by
    intro j hj
    dsimp only
    rw [Nat.add_comm, h (j + 1) (Nat.succ_le_succ hj)]
    rfl
  have hcopied := copied_eq hbehind hnul hlen
  have hend : src (1 + (c :: rest).length) = 0 :=
    (hbehind _ le_rfl).trans (getD_eq_default _ _ le_rfl)
  rw [shell_to_fs_path, hone, if_neg (fun hzero => hnul (by rw [← hzero, hc]; exact mem_cons_self ..)), shell_copy_str]
  simp only [hcopied, hend, decide_true]

end Found

/-! ## Where the current directory goes -/

/-- A segment is too long, there are too many, or the result is too long. -/
def Rejected (cwd arg : CString) : Prop :=
  arg.chars ≠ [] ∧ ∀ ps, resolution cwd arg = some ps → SHELL_PATH_MAX ≤ (text ps).length

/-- The current directory is kept, or it is the root, or the argument was resolved to an entry of size zero; and it is
kept where the argument is rejected. -/
structure Confined (g_bfs : Bfs) (cwd : CString) (args : Option CString) (cwd' : CString) : Prop where
  goes : cwd' = cwd ∨ cwd' = root ∨ ∃ arg ps name entry, args = some arg ∧ resolution cwd arg = some ps ∧
    (text ps).length < SHELL_PATH_MAX ∧ cwd'.chars = text ps ∧ name.chars = (text ps).tail ∧
    g_bfs.bfs_find name = some (.ok entry) ∧ entry.size_bytes = 0
  stays : ∀ arg, args = some arg → Rejected cwd arg → cwd' = cwd

/-- What a rejected argument leaves in the buffer: what was there, behind the segments that fit. -/
def left (cwd arg : CString) (path : Buffer) : Buffer :=
  match resolution cwd arg with
  | none => path
  | some ps => path.store (text (fitting SHELL_PATH_MAX [] ps))

/-- No entry with a size is found under a resolved path other than the current one, and what a rejected argument leaves
in the buffer leads nowhere else. -/
structure Safe (g_bfs : Bfs) (cwd arg : CString) (path : Stack) : Prop where
  found : ∀ ps, resolution cwd arg = some ps → (text ps).length < SHELL_PATH_MAX → ps ≠ [] →
    ∀ name entry, name.chars = (text ps).tail → g_bfs.bfs_find name = some (.ok entry) →
      entry.size_bytes = 0 ∨ cwd.chars = text ps
  rejected : Rejected cwd arg →
    if left cwd arg path.cells 0 = SLASH ∧ left cwd arg path.cells 1 = 0 then cwd = root
    else ∀ name entry, shell_to_fs_path (left cwd arg path.cells) path.stop SHELL_PATH_MAX = some name →
      g_bfs.bfs_find name = some (.ok entry) → cwd.chars = copied (left cwd arg path.cells) SHELL_PATH_MAX

theorem ext_chars {a b : CString} (h : a.chars = b.chars) : a = b := by
  cases a
  cases b
  cases h
  rfl

variable {g_bfs : Bfs} {cwd arg : CString} {segments : Table} {path : Stack}

theorem cmd_chdir_eq (hne : arg.chars ≠ []) {out : Buffer}
    (hout : (shell_resolve_path cwd arg segments path.cells SHELL_PATH_MAX).value.2 = out) :
    cmd_chdir g_bfs cwd (some arg) segments path =
      if out 0 = SLASH ∧ out 1 = 0 then some root
      else match shell_to_fs_path out path.stop SHELL_PATH_MAX with
        | none => some cwd
        | some fs_path => (g_bfs.bfs_find fs_path).bind fun
          | .error _ => some cwd
          | .ok _ => some (shell_copy_str out SHELL_PATH_MAX).1 := by
  subst hout
  rw [cmd_chdir]
  dsimp only
  rw [if_neg hne]
  rfl

theorem resolution_part {ps : List (List Int8)} (h : resolution cwd arg = some ps) :
    ∀ p ∈ ps, Part SLASH p ∧ 0 ∉ p := by
  rw [resolution] at h
  split at h
  · cases h
  · exact segments_of_part h

/-- A resolved argument goes to its entry, whatever the size of the entry is. -/
theorem cmd_chdir_resolved {ps : List (List Int8)} (hne : arg.chars ≠ []) (hps : resolution cwd arg = some ps)
    (hlen : (text ps).length < SHELL_PATH_MAX) (hpath : ps ≠ []) :
    ∃ name : CString, name.chars = (text ps).tail ∧
      ∃ whole : CString, whole.chars = text ps ∧ cmd_chdir g_bfs cwd (some arg) segments path =
        (g_bfs.bfs_find name).bind fun
          | .error _ => some cwd
          | .ok _ => some whole := by
  obtain ⟨p, rest, rfl⟩ := exists_cons_of_ne_nil hpath
  have hp := resolution_part hps p (mem_cons_self ..)
  obtain ⟨c, chars, rfl⟩ := exists_cons_of_ne_nil hp.1.ne_nil
  have hnul : 0 ∉ text ((c :: chars) :: rest) := by
    rw [text, if_neg hpath, spelled, mem_flatMap]
    rintro ⟨q, hq, hin⟩
    cases hin with
    | tail _ hin => exact (resolution_part hps q hq).2 hin
  have htext : text ((c :: chars) :: rest) = SLASH :: c :: (chars ++ spelled SLASH rest) := by
    rw [text, if_neg hpath]
    rfl
  have hslash : c ≠ SLASH := fun heq => hp.1.whole (heq ▸ mem_cons_self ..)
  have hzero : c ≠ 0 := fun heq => hp.2 (heq ▸ mem_cons_self ..)
  have hlen' : ((text ((c :: chars) :: rest)).length : Int) < (SHELL_PATH_MAX : Int) := by omega
  have hvalue := @shell_resolve_path_any cwd arg segments path.cells SHELL_PATH_MAX (by decide)
  rw [hps, resolved, if_pos hlen'] at hvalue
  have hholds := holds_store path.cells (text ((c :: chars) :: rest))
  let name : CString := ⟨c :: (chars ++ spelled SLASH rest), fun hin =>
    hnul (htext ▸ mem_cons_of_mem SLASH hin)⟩
  refine ⟨name, by rw [htext]; rfl, ⟨_, hnul⟩, rfl, ?_⟩
  rw [cmd_chdir_eq hne (congrArg Prod.snd hvalue)]
  have hone : (path.cells.store (text ((c :: chars) :: rest) ++ [0])) 1 = c := by
    rw [hholds 1 (by rw [htext]; simp), htext]
    rfl
  have hname : shell_to_fs_path (path.cells.store (text ((c :: chars) :: rest) ++ [0])) path.stop SHELL_PATH_MAX =
      some name := by
    have hhead : name.chars.head? ≠ some SLASH := fun heq => hslash (Option.some.inj heq)
    refine shell_to_fs_path_eq (cons_ne_nil _ _) hhead ?_ ?_ ?_
    · rw [← htext]
      exact hholds
    · exact Nat.lt_of_lt_of_le (by decide) path.behind
    · rw [htext, length_cons] at hlen
      exact Nat.lt_of_succ_lt hlen
  have hwhole := copied_eq hholds hnul hlen
  rw [if_neg (fun hroot => hzero (hone.symm.trans hroot.2)), hname]
  simp only [shell_copy_str, hwhole]

theorem cmd_chdir_rejected (hrejected : Rejected cwd arg) :
    cmd_chdir g_bfs cwd (some arg) segments path =
      if left cwd arg path.cells 0 = SLASH ∧ left cwd arg path.cells 1 = 0 then some root
      else match shell_to_fs_path (left cwd arg path.cells) path.stop SHELL_PATH_MAX with
        | none => some cwd
        | some fs_path => (g_bfs.bfs_find fs_path).bind fun
          | .error _ => some cwd
          | .ok _ => some (shell_copy_str (left cwd arg path.cells) SHELL_PATH_MAX).1 := by
  refine cmd_chdir_eq hrejected.1 ?_
  rw [shell_resolve_path_any cwd arg segments path.cells (by decide), left]
  cases hps : resolution cwd arg with
  | none => rfl
  | some ps =>
    have hlong := hrejected.2 ps hps
    rw [resolved, if_neg (by omega)]

theorem cmd_chdir_root (hne : arg.chars ≠ []) (hps : resolution cwd arg = some []) :
    cmd_chdir g_bfs cwd (some arg) segments path = some root := by
  have hvalue := @shell_resolve_path_any cwd arg segments path.cells SHELL_PATH_MAX (by decide)
  rw [hps] at hvalue
  rw [cmd_chdir_eq hne (congrArg Prod.snd hvalue)]
  exact if_pos ⟨rfl, rfl⟩

theorem confined_rejected (hrejected : Rejected cwd arg) {cwd' : CString} :
    Confined g_bfs cwd (some arg) cwd' ↔ cwd' = cwd :=
  ⟨fun h => h.stays arg rfl hrejected, fun h => ⟨.inl h, fun _ _ _ => h⟩⟩

/-- A rejected argument. -/
theorem confined_iff_rejected (hrejected : Rejected cwd arg) :
    (∀ cwd', cmd_chdir g_bfs cwd (some arg) segments path = some cwd' → Confined g_bfs cwd (some arg) cwd') ↔
      Safe g_bfs cwd arg path := by
  have hsafe : Safe g_bfs cwd arg path ↔ _ :=
    ⟨fun h => h.rejected hrejected, fun h => ⟨fun ps hps hlen => absurd (hrejected.2 ps hps) (Nat.not_le.mpr hlen),
      fun _ => h⟩⟩
  rw [hsafe, cmd_chdir_rejected hrejected]
  simp only [confined_rejected hrejected]
  by_cases hroot : left cwd arg path.cells 0 = SLASH ∧ left cwd arg path.cells 1 = 0
  · rw [if_pos hroot, if_pos hroot]
    exact ⟨fun h => (h root rfl).symm, fun h cwd' hrun => (Option.some.inj hrun).symm.trans h.symm⟩
  rw [if_neg hroot, if_neg hroot]
  cases hname : shell_to_fs_path (left cwd arg path.cells) path.stop SHELL_PATH_MAX with
  | none => exact iff_of_true (fun cwd' hrun => (Option.some.inj hrun).symm) fun name entry hsome => by cases hsome
  | some name =>
    dsimp only
    cases hfind : g_bfs.bfs_find name with
    | none =>
      refine iff_of_true (fun cwd' hrun => ?_) fun name' entry hsome hentry => ?_
      · cases hrun
      · rw [← Option.some.inj hsome, hfind] at hentry
        cases hentry
    | some result =>
      cases result with
      | error code =>
        refine iff_of_true (fun cwd' hrun => (Option.some.inj hrun).symm) fun name' entry hsome hentry => ?_
        rw [← Option.some.inj hsome, hfind] at hentry
        cases hentry
      | ok entry =>
        constructor
        · exact fun h name' entry' _ _ => congrArg FileName.chars (h _ rfl).symm
        · intro h cwd' hrun
          rw [← Option.some.inj hrun]
          exact (ext_chars (h name entry rfl hfind)).symm

/-- An argument that is resolved to a path that fits. -/
theorem confined_iff_resolved {ps : List (List Int8)} (hne : arg.chars ≠ []) (hps : resolution cwd arg = some ps)
    (hlen : (text ps).length < SHELL_PATH_MAX) :
    (∀ cwd', cmd_chdir g_bfs cwd (some arg) segments path = some cwd' → Confined g_bfs cwd (some arg) cwd') ↔
      Safe g_bfs cwd arg path := by
  have hsame : ∀ qs, resolution cwd arg = some qs → qs = ps := fun qs hqs => Option.some.inj (hqs.symm.trans hps)
  have hnot : ¬ Rejected cwd arg := fun h => Nat.not_le.mpr hlen (h.2 ps hps)
  have hstays : ∀ cwd' arg', some arg = some arg' → Rejected cwd arg' → cwd' = cwd :=
    fun cwd' arg' harg hrejected => absurd (Option.some.inj harg ▸ hrejected) hnot
  by_cases hpath : ps = []
  · subst hpath
    rw [cmd_chdir_root hne hps]
    refine iff_of_true (fun cwd' hrun => ⟨.inr (.inl (Option.some.inj hrun).symm), hstays cwd'⟩)
      ⟨fun qs hqs _ hqne => ?_,
      fun h => absurd h hnot⟩
    exact absurd (hsame qs hqs) hqne
  obtain ⟨name, hname, whole, hwhole, hrun⟩ :=
    @cmd_chdir_resolved g_bfs cwd arg segments path ps hne hps hlen hpath
  have hfile : ∀ name' : CString, name'.chars = (text ps).tail → name' = name := fun name' h =>
    ext_chars (h.trans hname.symm)
  constructor
  · intro h
    refine ⟨fun qs hqs _ _ name' entry hname' hfind => ?_, fun hrejected => absurd hrejected hnot⟩
    obtain rfl := hsame qs hqs
    obtain rfl := hfile name' hname'
    rw [hrun, hfind] at h
    have hconfined := h whole rfl
    rcases hconfined.goes with hcwd | hroot | ⟨arg', qs, other, entry', harg, hqs', -, -, hother, hfind', hzero⟩
    · exact .inr (hcwd ▸ hwhole)
    · -- only the root is spelled by a slash
      have hparts := congrArg List.length (hwhole.symm.trans (congrArg FileName.chars hroot))
      have hpos := (text_length_pos fun p hp => (resolution_part hps p hp).1.ne_nil).mpr hpath
      change (text qs).length = 1 at hparts
      omega
    · obtain rfl := Option.some.inj harg
      obtain rfl := hsame qs hqs'
      obtain rfl := hfile other hother
      obtain rfl := Except.ok.inj (Option.some.inj (hfind.symm.trans hfind'))
      exact .inl hzero
  · intro hsafe cwd' hcwd'
    rw [hrun] at hcwd'
    refine ⟨?_, hstays cwd'⟩
    cases hfind : g_bfs.bfs_find name with
    | none =>
      rw [hfind] at hcwd'
      cases hcwd'
    | some result =>
      rw [hfind] at hcwd'
      cases result with
      | error code => exact .inl (Option.some.inj hcwd').symm
      | ok entry =>
        obtain rfl := Option.some.inj hcwd'
        rcases hsafe.found ps hps hlen hpath name entry hname hfind with hzero | hcwd
        · exact .inr (.inr ⟨arg, ps, name, entry, rfl, hps, hlen, hwhole, hname, hfind, hzero⟩)
        · exact .inl (ext_chars (hwhole.trans hcwd.symm))

/-- The current directory only goes where it should exactly where the argument is safe. -/
theorem cmd_chdir_confined_iff (g_bfs : Bfs) (cwd : CString) (args : Option CString) (segments : Table) (path : Stack) :
    (∀ cwd', cmd_chdir g_bfs cwd args segments path = some cwd' → Confined g_bfs cwd args cwd') ↔
      ∀ arg, args = some arg → arg.chars ≠ [] → Safe g_bfs cwd arg path := by
  cases args with
  | none =>
    refine iff_of_true (fun cwd' hrun => ?_) fun arg harg => by cases harg
    obtain rfl := Option.some.inj hrun
    exact ⟨.inr (.inl rfl), fun arg harg => by cases harg⟩
  | some arg =>
    by_cases hempty : arg.chars = []
    · refine iff_of_true (fun cwd' hrun => ?_) fun arg' harg hne => ?_
      · rw [cmd_chdir] at hrun
        dsimp only at hrun
        rw [if_pos hempty] at hrun
        obtain rfl := Option.some.inj hrun
        exact ⟨.inr (.inl rfl), fun arg' harg hrejected => absurd (Option.some.inj harg ▸ hempty) hrejected.1⟩
      · exact absurd (Option.some.inj harg ▸ hempty) hne
    rw [show (∀ a, some arg = some a → a.chars ≠ [] → Safe g_bfs cwd a path) ↔ Safe g_bfs cwd arg path from
      ⟨fun h => h arg rfl hempty, fun h a ha _ => Option.some.inj ha ▸ h⟩]
    by_cases hrejected : Rejected cwd arg
    · exact confined_iff_rejected hrejected
    · simp only [Rejected, not_and, not_forall, Nat.not_le] at hrejected
      obtain ⟨ps, hps, hlen⟩ := hrejected hempty
      exact confined_iff_resolved hempty hps hlen

/-- A file of one byte is entered. -/
theorem cmd_chdir_enters_file : ∃ g_bfs : Bfs, ∃ cwd',
    cmd_chdir g_bfs root (some name_a) (fun _ _ => 1) ⟨fun _ => 1, 64, by decide, by decide⟩ = some cwd' ∧
      ¬ Confined g_bfs root (some name_a) cwd' := by
  have hvolume : Volume (disk_of empty_tree 3 10) near_space empty_tree := empty_volume (σ := near_space) (by decide)
  obtain ⟨s', -, hreport, -⟩ := empty_write hvolume (by decide) name_a
  have hfind : s'.bfs_find name_a = some (.ok { inode := bfs_hash name_a, start_block := 3, size_bytes := 1
                                                flags := 0 }) := by
    rw [bfs_find_eq, hreport]
    rfl
  have hps : resolution root name_a = some [[97]] := by decide +kernel
  obtain ⟨name, hname, whole, hwhole, hrun⟩ :=
    @cmd_chdir_resolved s' root name_a (fun _ _ => 1) ⟨fun _ => 1, 64, by decide, by decide⟩ _ (by decide) hps
      (by decide) (by decide)
  obtain rfl : name = name_a := ext_chars hname
  rw [hfind] at hrun
  refine ⟨s', whole, hrun, fun hconfined => ?_⟩
  rcases hconfined.goes with rfl | rfl | ⟨arg, ps, name', entry, harg, hps', -, -, hname', hfind', hzero⟩
  · exact absurd hwhole (by decide)
  · exact absurd hwhole (by decide)
  · obtain rfl := Option.some.inj harg
    obtain rfl := Option.some.inj (hps.symm.trans hps')
    obtain rfl : name' = name_a := ext_chars hname'
    obtain rfl := Except.ok.inj (Option.some.inj (hfind.symm.trans hfind'))
    exact absurd hzero (by decide)

end graceos.shell
