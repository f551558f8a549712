import GraceOS.Bfs.Names
import GraceOS.Bfs.Room

/-!
# Listing a directory

`bfs_list_dir` goes through the name table and copies the last parts of the names that lie directly below a directory,
and `cmd_ls` of `shell.c` prints the strings in the copy. Strings are given by their bytes before the NUL. The word
prefix of the source is `dir` here.
-/

namespace graceos.bfs

open List

def SLASH : UInt8 := 0x2F

/-- The part of a name that is listed. -/
def entry_of (dir name : List UInt8) : Option (List UInt8) :=
  if dir = [] then
    if SLASH ∈ name then none else some name
  else if name.take dir.length = dir ∧ name[dir.length]? = some SLASH then
    let rest := name.drop (dir.length + 1)
    if SLASH ∉ rest ∧ rest ≠ [] then some rest else none
  else none

/-- The loop of `bfs_list_dir`, which stops at the first entry that does not fit. -/
def list_dir_loop (dir : List UInt8) (out_len : Int) : List NameEntry → Nat → List UInt8 → Nat × List UInt8
  | [], count, out => (count, out)
  | e :: entries, count, out =>
    if e.hash = 0 then list_dir_loop dir out_len entries count out
    else
      match entry_of dir (c_string e.name) with
      | none => list_dir_loop dir out_len entries count out
      | some entry =>
        let text := entry ++ (if e.size_bytes = 0 then [SLASH] else []) ++ [0]
        if (out.length + text.length + 1 : Nat) ≥ out_len then (count, out)
        else list_dir_loop dir out_len entries (count + 1) (out ++ text)

/-- The number of entries, and what was written to the buffer. -/
def Bfs.bfs_list_dir (s : Bfs) (dir : List UInt8) (out_len : Int) : Int × List UInt8 :=
  if out_len ≤ 1 then (-1, [])
  else
    match s.bfs_name_table_read with
    | none => (0, [0])
    | some table =>
      match list_dir_loop dir out_len ((List.finRange BFS_NAME_ENTRIES).map table.entries) 0 [] with
      | (count, out) => (count, out ++ [0])

/-- The loop of `cmd_ls`: the strings that it prints, up to the first empty one. -/
def ls_strings (p : List UInt8) : List (List UInt8) :=
  if p.headD 0 = 0 then []
  else p.takeWhile (· ≠ 0) :: ls_strings (p.drop ((p.takeWhile (· ≠ 0)).length + 1))
termination_by p.length
decreasing_by
  cases p with
  | nil => contradiction
  | cons c p =>
    rw [length_drop, length_cons]
    omega

/-! ## What is listed -/

/-- `name` lies directly in `dir`, as `child`. -/
structure ChildOf (dir name child : List UInt8) : Prop where
  path : name = if dir = [] then child else dir ++ SLASH :: child
  nonempty : child ≠ []
  direct : SLASH ∉ child

theorem entry_of_iff {dir name child : List UInt8} (hname : name ≠ []) :
    entry_of dir name = some child ↔ ChildOf dir name child := by
  unfold entry_of
  constructor
  · intro h
    split at h
    case isTrue hroot =>
      split at h
      · cases h
      · rename_i hdirect
        obtain rfl := Option.some.inj h
        exact ⟨(if_pos hroot).symm, hname, hdirect⟩
    case isFalse hdir =>
      split at h
      case isTrue hfront =>
        dsimp only at h
        split at h
        · rename_i hrest
          obtain rfl := Option.some.inj h
          obtain ⟨hlt, hslash⟩ := List.getElem?_eq_some_iff.mp hfront.2
          refine ⟨?_, hrest.2, hrest.1⟩
          rw [if_neg hdir, ← hslash, ← drop_eq_getElem_cons hlt]
          exact (take_append_drop dir.length name).symm.trans (congrArg (· ++ name.drop dir.length) hfront.1)
        · cases h
      · cases h
  · intro h
    obtain ⟨hpath, hnonempty, hdirect⟩ := h
    by_cases hroot : dir = []
    · rw [if_pos hroot] at hpath ⊢
      rw [hpath, if_neg hdirect]
    · rw [if_neg hroot] at hpath
      have hdrop : (dir ++ SLASH :: child).drop (dir.length + 1) = child := by simp
      rw [if_neg hroot, hpath, if_pos ⟨by simp, by simp⟩]
      dsimp only
      rw [hdrop, if_pos ⟨hdirect, hnonempty⟩]

/-- The string for a slot of the table. -/
def listed (dir : List UInt8) (e : NameEntry) : Option (List UInt8) :=
  if e.hash = 0 then none
  else (entry_of dir (c_string e.name)).map fun entry => entry ++ if e.size_bytes = 0 then [SLASH] else []

/-- Strings in a row, each with its NUL. -/
def spell (strings : List (List UInt8)) : List UInt8 := strings.flatMap (· ++ [0])

theorem list_dir_loop_eq {dir : List UInt8} {out_len : Int} (entries : List NameEntry) (count : Nat) (out : List UInt8)
    (hfit : ((out ++ spell (entries.filterMap (listed dir))).length + 1 : Int) < out_len) :
    list_dir_loop dir out_len entries count out =
      (count + (entries.filterMap (listed dir)).length, out ++ spell (entries.filterMap (listed dir))) := by
  induction entries generalizing count out with
  | nil => simp [list_dir_loop, spell]
  | cons e entries ih =>
    rw [list_dir_loop]
    by_cases hfree : e.hash = 0
    · have hnone : listed dir e = none := if_pos hfree
      rw [filterMap_cons_none hnone] at hfit ⊢
      rw [if_pos hfree]
      exact ih count out hfit
    · rw [if_neg hfree]
      cases hentry : entry_of dir (c_string e.name) with
      | none =>
        have hnone : listed dir e = none := by rw [listed, if_neg hfree, hentry, Option.map_none]
        rw [filterMap_cons_none hnone] at hfit ⊢
        exact ih count out hfit
      | some entry =>
        have hsome : listed dir e = some (entry ++ if e.size_bytes = 0 then [SLASH] else []) := by
          rw [listed, if_neg hfree, hentry, Option.map_some]
        rw [filterMap_cons_some hsome] at hfit ⊢
        dsimp only
        generalize (entry ++ if e.size_bytes = 0 then [SLASH] else []) = text at *
        rw [spell, flatMap_cons, ← append_assoc] at hfit
        have hlength := @List.length_append _ (out ++ (text ++ [0])) (spell (entries.filterMap (listed dir)))
        have hfront : (out ++ (text ++ [0])).length = out.length + (text ++ [0]).length := length_append
        change ((out ++ (text ++ [0]) ++ spell (entries.filterMap (listed dir))).length + 1 : Int) < out_len at hfit
        rw [if_neg (by omega), ih (count + 1) _ hfit]
        refine Prod.ext ?_ (append_assoc _ _ _)
        change count + 1 + _ = count + (_ + 1)
        omega

theorem ls_strings_spell {strings : List (List UInt8)} (h : ∀ l ∈ strings, l ≠ [] ∧ 0 ∉ l) :
    ls_strings (spell strings ++ [0]) = strings := by
  induction strings with
  | nil => rw [ls_strings]; rfl
  | cons l strings ih =>
    obtain ⟨hne, hzero⟩ := h l mem_cons_self
    obtain ⟨c, l, rfl⟩ := exists_cons_of_ne_nil hne
    have hc : c ≠ 0 := fun hc => hzero (hc ▸ mem_cons_self)
    have htake : (spell ((c :: l) :: strings) ++ [0]).takeWhile (· ≠ 0) = c :: l := by
      have hpos : ∀ b ∈ c :: l, decide (b ≠ 0) = true := fun b hb => decide_eq_true fun hb0 => hzero (hb0 ▸ hb)
      rw [spell, flatMap_cons, append_assoc, append_assoc, takeWhile_append_of_pos hpos,
        singleton_append, takeWhile_cons_of_neg (by simp), append_nil]
    have hdrop : (spell ((c :: l) :: strings) ++ [0]).drop ((c :: l).length + 1) = spell strings ++ [0] := by
      rw [spell, flatMap_cons, append_assoc, append_assoc, drop_append]
      simp [spell]
    rw [ls_strings, if_neg, htake, hdrop, ih fun l hl => h l (mem_cons_of_mem _ hl)]
    exact hc

/-! ## The files of a directory -/

section find

variable {s : Bfs} {name : FileName}

theorem find_of_report {value : UInt64} (h : s.report (bfs_hash name) = some (true, value)) :
    s.bfs_find name = some (.ok ⟨bfs_hash name, start_block value, size_bytes value, 0⟩) := by
  obtain ⟨r, hsearch, hr⟩ := Option.map_eq_some_iff.mp h
  obtain ⟨hfound, hvalue⟩ := Prod.mk.inj hr
  simp only [Bfs.bfs_find, hsearch, Option.bind_eq_bind, Option.bind_some, hfound, hvalue, if_true]

theorem find_of_absent (h : s.report (bfs_hash name) = some (false, 0)) : s.bfs_find name = some (.error (-1)) := by
  obtain ⟨r, hsearch, hr⟩ := Option.map_eq_some_iff.mp h
  obtain ⟨hfound, -⟩ := Prod.mk.inj hr
  simp only [Bfs.bfs_find, hsearch, Option.bind_eq_bind, Option.bind_some, hfound, Bool.false_eq_true, if_false]

end find

namespace Catalogued

variable {s : Bfs} {d : Catalog} {name : FileName} {file : FileEntry}

theorem find_iff (h : Catalogued s d) : s.bfs_find name = some (.ok file) ↔
    ∃ r, d (bfs_hash name) = some r ∧ file = ⟨bfs_hash name, r.start, r.size, 0⟩ := by
  have hfound := h.found (bfs_hash name)
  cases hd : d (bfs_hash name) with
  | none =>
    rw [hd] at hfound
    simp [find_of_absent hfound]
  | some r =>
    obtain ⟨-, hstart, hsize⟩ := h.records _ r hd
    rw [hd] at hfound
    have hfind := @find_of_report s name (pack r.start r.size) hfound
    have hbytes : size_bytes (pack r.start r.size) = r.size := by
      rw [← UInt64.toNat_inj, size_bytes_pack hstart, Nat.mod_eq_of_lt hsize]
    rw [start_block_pack hstart, hbytes] at hfind
    rw [hfind]
    simp [eq_comm]

/-- The strings for the slots are those of the files that can be found. -/
theorem listed_iff (h : Catalogued s d) {names : FileName → Prop} (hnames : ∀ hash r, d hash = some r → names r.name)
    (hnamed : ∀ name, names name → name.chars ≠ [])
    (hdistinct : ∀ name name', names name → names name' → bfs_hash name = bfs_hash name' → name.chars = name'.chars)
    {dir x : List UInt8} : (∃ i, listed dir (s.names.entries i) = some x) ↔
      ∃ name child file, names name ∧ ChildOf dir name.bytes child ∧ s.bfs_find name = some (.ok file) ∧
        x = child ++ if file.size_bytes = 0 then [SLASH] else [] := by
  have hbytes : ∀ name, names name → name.bytes ≠ [] := fun name hname hnil =>
    hnamed name hname (List.map_eq_nil_iff.mp hnil)
  constructor
  · rintro ⟨i, hi⟩
    unfold listed at hi
    split at hi
    · cases hi
    · rename_i hused
      obtain ⟨child, hchild, rfl⟩ := Option.map_eq_some_iff.mp hi
      obtain ⟨r, hr, hshows⟩ := h.lists.sound i hused
      have hname := hnames _ r hr
      rw [hshows.name] at hchild
      refine ⟨r.name, child, _, hname, (entry_of_iff (hbytes _ hname)).mp hchild, h.find_iff.mpr ⟨r, ?_, rfl⟩, ?_⟩
      · rw [(h.records _ r hr).1]
        exact hr
      · rw [hshows.size]
  · rintro ⟨name, child, file, hname, hchild, hfind, rfl⟩
    obtain ⟨r, hr, rfl⟩ := h.find_iff.mp hfind
    obtain ⟨i, hi⟩ := h.lists.complete _ r hr
    have hused : (s.names.entries i).hash ≠ 0 := by
      intro hzero
      rw [← hi, hzero, h.lists.zero] at hr
      cases hr
    obtain ⟨r', hr', hshows⟩ := h.lists.sound i hused
    rw [hi, hr] at hr'
    obtain rfl := Option.some.inj hr'
    have hsame : r.name.chars = name.chars := hdistinct _ _ (hnames _ r hr) hname (h.records _ r hr).1
    have hstring : c_string (s.names.entries i).name = name.bytes :=
        hshows.name.trans (congrArg (List.map Int8.toUInt8) hsame)
    refine ⟨i, ?_⟩
    rw [listed, if_neg hused, hstring, (entry_of_iff (hbytes _ hname)).mpr hchild, Option.map_some, hshows.size]

end Catalogued

/-- The strings for the slots of the table, in their order. -/
def Bfs.listing (s : Bfs) (dir : List UInt8) : List (List UInt8) :=
  ((List.finRange BFS_NAME_ENTRIES).map s.names.entries).filterMap (listed dir)

theorem Bfs.bfs_list_dir_eq {s : Bfs} {dir : List UInt8} {out_len : Int} (henabled : s.name_table_enabled = true)
    (hfit : ((spell (s.listing dir)).length + 1 : Int) < out_len) :
    s.bfs_list_dir dir out_len = (((s.listing dir).length : Int), spell (s.listing dir) ++ [0]) := by
  rw [Bfs.listing] at hfit ⊢
  have hloop := @list_dir_loop_eq dir out_len ((List.finRange BFS_NAME_ENTRIES).map s.names.entries) 0 []
    (by rw [nil_append]; exact hfit)
  rw [Nat.zero_add, nil_append] at hloop
  rw [Bfs.bfs_list_dir, if_neg (by omega), Lists.read henabled]
  dsimp only
  rw [hloop]

/-- After any history whose names can be listed, have different hashes and are not empty, what is listed of a directory
are the files in it that can be found, an empty file as a directory. -/
theorem list_dir_shows_files {s₀ s : Bfs} {behind : Fin 64 → UInt8} (hformat : s₀.bfs_format behind = (0, s))
    (hlow : 3 ≤ (s₀.disk_size / UInt64.ofNat BFS_PAGE_SIZE).toNat)
    (hhigh : (s₀.disk_size / UInt64.ofNat BFS_PAGE_SIZE).toNat < 2 ^ 32) {ops : List Op} (hops : s.Along Listable ops)
    (hnamed : ∀ op ∈ ops, op.name.chars ≠ [])
    (hdistinct : ∀ op ∈ ops, ∀ op' ∈ ops, bfs_hash op.name = bfs_hash op'.name → op.name.chars = op'.name.chars) :
    ∃ s', s.run ops = some s' ∧ ∀ (dir : List UInt8) (out_len : Int), (spell (s'.listing dir)).length + 1 < out_len →
      ∃ count out, s'.bfs_list_dir dir out_len = (count, out) ∧ count = (ls_strings out).length ∧
        ∀ x, x ∈ ls_strings out ↔ ∃ op ∈ ops, ∃ child file, ChildOf dir op.name.bytes child ∧
          s'.bfs_find op.name = some (.ok file) ∧ x = child ++ if file.size_bytes = 0 then [SLASH] else [] := by
  obtain ⟨s', d, hrun, h, hnames⟩ := (format_catalogued hformat hlow hhigh).run hops
  refine ⟨s', hrun, fun dir out_len hfit => ?_⟩
  have hknown : ∀ hash r, d hash = some r → ∃ op ∈ ops, r.name = op.name := fun hash r hr =>
    (hnames hash r hr).resolve_left (by simp)
  have hiff := fun x => @h.listed_iff _ _ (fun name => ∃ op ∈ ops, name = op.name) hknown
    (by rintro _ ⟨op, hop, rfl⟩; exact hnamed op hop)
    (by rintro _ _ ⟨op, hop, rfl⟩ ⟨op', hop', rfl⟩; exact hdistinct op hop op' hop') dir x
  have hmem : ∀ x, x ∈ s'.listing dir ↔ ∃ i, listed dir (s'.names.entries i) = some x := by
    intro x
    simp [Bfs.listing]
  have hstrings : ∀ x ∈ s'.listing dir, x ≠ [] ∧ 0 ∉ x := by
    intro x hx
    obtain ⟨name, child, file, -, hchild, -, rfl⟩ := (hiff x).mp ((hmem x).mp hx)
    refine ⟨fun hnil => hchild.nonempty (List.append_eq_nil_iff.mp hnil).1, fun hzero => ?_⟩
    rcases List.mem_append.mp hzero with hin | hin
    · refine name.zero_notMem ?_
      rw [hchild.path]
      split
      · exact hin
      · exact mem_append_right _ (mem_cons_of_mem _ hin)
    · split at hin
      · exact absurd hin (by decide)
      · cases hin
  refine ⟨_, _, Bfs.bfs_list_dir_eq h.enabled hfit, ?_⟩
  rw [ls_strings_spell hstrings]
  refine ⟨rfl, fun x => ?_⟩
  rw [hmem, hiff]
  constructor
  · rintro ⟨_, child, file, ⟨op, hop, rfl⟩, hchild, hfind, hx⟩
    exact ⟨op, hop, child, file, hchild, hfind, hx⟩
  · rintro ⟨op, hop, child, file, hchild, hfind, hx⟩
    exact ⟨op.name, child, file, ⟨op, hop, rfl⟩, hchild, hfind, hx⟩

theorem listable_of_shallow {s : Bfs} {keys : List UInt64} {free : Nat} {op : Op} {code : Int}
    {after : List UInt64 × Nat}
    (h : Shallow s keys free) (houtcome : op.outcome keys free = some (code, after)) (hhash : bfs_hash op.name ≠ 0)
    (hshort : op.name.chars.length < BFS_NAME_MAX) (hsize : op.size < 2 ^ 32)
    (hslot : s.names.slot (bfs_hash op.name) ≠ none) : Listable s op where
  hash := hhash
  short := hshort
  size := hsize
  linked := fun _ _ hpage hne => absurd (h.on_path hpage) hne
  slot := fun _ => hslot
  placed := by
    intro code' s' hrun
    obtain ⟨keys', free'⟩ := after
    obtain ⟨s'', hstep, -⟩ := h.step houtcome
    obtain ⟨rfl, -⟩ := Prod.mk.inj (Option.some.inj (hstep.symm.trans hrun))
    have hcode := outcome_code houtcome
    cases op with
    | create name size =>
      change code ≠ -3
      omega
    | write_file name buffer size =>
      change code ≠ -4
      omega
    | delete name => exact id

theorem Lists.slot_of_one {table : NameTable} {d : Catalog} (h : Lists table d) (known : UInt64)
    (hone : ∀ hash r, d hash = some r → hash = known) (hash : UInt64) : table.slot hash ≠ none := by
  by_cases hfirst : (table.entries ⟨0, by decide⟩).hash = 0
  · exact slot_of_free hfirst
  by_cases hsecond : (table.entries ⟨1, by decide⟩).hash = 0
  · exact slot_of_free hsecond
  obtain ⟨r, hr, -⟩ := h.sound _ hfirst
  obtain ⟨r', hr', -⟩ := h.sound _ hsecond
  have hsame := h.apart _ _ hfirst ((hone _ r hr).trans (hone _ r' hr').symm)
  exact absurd (congrArg Fin.val hsame) Nat.zero_ne_one

/-- The names "d" and "d/b". -/
def name_d : FileName := ⟨[100], by decide⟩
def name_d_b : FileName := ⟨[100, 47, 98], by decide⟩

/-- The directory "d" with the file "b". -/
def directory_ops : List Op := [.create name_d 0, .write_file name_d_b (fun _ => 7) 1]

theorem directory_listable : fresh_disk.Along Listable directory_ops := by
  have hempty := format_catalogued (show blank_disk.bfs_format (fun _ => 0) = (0, fresh_disk) from rfl) (by decide)
    (by decide)
  have hfirst : Listable fresh_disk (.create name_d 0) :=
    listable_of_shallow fresh_disk_shallow (show Op.outcome [] 5 (.create name_d 0) = some (0, [bfs_hash name_d], 5) by
      decide) (by decide) (by decide) (by decide) (hempty.lists.slot_of_one 0 (fun _ _ hr => nomatch hr) _)
  refine ⟨hfirst, fun code s hstep => ⟨?_, fun _ _ _ => trivial⟩⟩
  obtain ⟨code', s', d, hstep', hcatalogued, hnames⟩ := hempty.step hfirst
  obtain ⟨-, rfl⟩ := Prod.mk.inj (Option.some.inj (hstep'.symm.trans hstep))
  have hshallows : ∃ s', fresh_disk.step (.create name_d 0) = some (0, s') ∧ Shallow s' [bfs_hash name_d] 5 :=
    fresh_disk_shallow.step (by decide)
  obtain ⟨s'', hstep'', hshallow⟩ := hshallows
  obtain ⟨-, rfl⟩ := Prod.mk.inj (Option.some.inj (hstep'.symm.trans hstep''))
  refine listable_of_shallow hshallow (show Op.outcome [bfs_hash name_d] 5 (.write_file name_d_b (fun _ => 7) 1) =
    some (0, [bfs_hash name_d_b, bfs_hash name_d], 4) by decide) (by decide) (by decide) (by decide)
    (hcatalogued.lists.slot_of_one (bfs_hash name_d) (fun hash r hr => ?_) _)
  -- what is known behind the first operation has its name
  rcases hnames hash r hr with hold | hname
  · cases hold
  · rw [← (hcatalogued.records hash r hr).1, hname]
    rfl

/-- The small disk with a directory and a file in it. -/
theorem list_dir_shows_files_directory : ∃ s', fresh_disk.run directory_ops = some s' ∧
    ∀ (dir : List UInt8) (out_len : Int), (spell (s'.listing dir)).length + 1 < out_len →
      ∃ count out, s'.bfs_list_dir dir out_len = (count, out) ∧ count = (ls_strings out).length ∧
        ∀ x, x ∈ ls_strings out ↔ ∃ op ∈ directory_ops, ∃ child file,
          ChildOf dir op.name.bytes child ∧ s'.bfs_find op.name = some (.ok file) ∧
            x = child ++ if file.size_bytes = 0 then [SLASH] else [] :=
  list_dir_shows_files (show blank_disk.bfs_format (fun _ => 0) = (0, fresh_disk) from rfl) (by decide) (by decide)
    directory_listable (by decide) (by decide)

end graceos.bfs
