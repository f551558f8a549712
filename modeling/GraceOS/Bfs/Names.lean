import GraceOS.Bfs.History

/-!
# The name table

The tree knows the files by the hashes of their names. The name table on page 2 keeps the names, with where the file
lies and how long it is. Each operation updates both. As long as a new name finds a free slot, the table lists the files
of the tree. -/

namespace graceos.bfs

open bplus List Function

/-! ## The table on its page -/

namespace NameTable

theorem encode_byte (table : NameTable) (i : Fin BFS_NAME_ENTRIES) {j : Nat} (hj : j < 72) :
    table.encode.byte (72 * i + j) = (table.entries i).byte j := by
  have hi : i.val < 56 := i.isLt
  have hslot : (72 * i.val + j) / 72 = i.val := by omega
  have hbyte : (72 * i.val + j) % 72 = j := by omega
  rw [Block.byte, dif_pos (by simp only [BFS_PAGE_SIZE]; omega)]
  simp only [encode, hslot, hbyte, i.isLt, dif_pos, Fin.eta]

theorem encode_tail (table : NameTable) (i : Fin 64) : table.encode.byte (4032 + i) = table.tail i := by
  have hslot : ¬ (4032 + i.val) / 72 < BFS_NAME_ENTRIES := by
    simp only [BFS_NAME_ENTRIES, BFS_PAGE_SIZE]
    omega
  rw [Block.byte, dif_pos (by simp only [BFS_PAGE_SIZE]; omega)]
  simp only [encode, hslot, dif_neg, not_false_eq_true, Nat.add_sub_cancel_left, i.isLt, dif_pos, Fin.eta]

theorem load_word (table : NameTable) (i : Fin BFS_NAME_ENTRIES) {offset : Nat} {x : UInt64} (hend : offset + 8 ≤ 24)
    (hbytes : ∀ index < 8, (table.entries i).byte (offset + index) = word.byte x.toNat index) :
    UInt64.ofNat (word.load table.encode.byte (72 * i + offset) 8) = x := by
  have hload : word.load table.encode.byte (72 * i + offset) 8 = x.toNat := by
    refine (word.load_of_bytes fun index hindex => ?_).trans (Nat.mod_eq_of_lt x.toNat_lt)
    rw [Nat.add_assoc, encode_byte table i (by omega)]
    exact hbytes index hindex
  rw [hload, UInt64.ofNat_toNat]

theorem set_self (table : NameTable) (i : Fin BFS_NAME_ENTRIES) (e : NameEntry) : (table.set i e).entries i = e :=
  update_self _ _ _

theorem set_ne (table : NameTable) {i j : Fin BFS_NAME_ENTRIES} (hne : j ≠ i) (e : NameEntry) :
    (table.set i e).entries j = table.entries j :=
  update_of_ne hne _ _

@[simp] theorem decode_encode (table : NameTable) : decode table.encode = table := by
  have hentry : ∀ i : Fin BFS_NAME_ENTRIES, NameEntry.decode table.encode (72 * i) = table.entries i := by
    intro i
    have hhash := @load_word table i 0 (table.entries i).hash (by omega) fun index hindex => by
      rw [NameEntry.byte, if_pos (by omega), Nat.zero_add]
    have hstart := @load_word table i 8 (table.entries i).start_block (by omega) fun index hindex => by
      rw [NameEntry.byte, if_neg (by omega), if_pos (by omega), Nat.add_sub_cancel_left]
    have hsize := @load_word table i 16 (table.entries i).size_bytes (by omega) fun index hindex => by
      rw [NameEntry.byte, if_neg (by omega), if_neg (by omega), if_pos (by omega), Nat.add_sub_cancel_left]
    have hname : ∀ j : Fin BFS_NAME_MAX, table.encode.byte (72 * i + 24 + j) = (table.entries i).name j := by
      intro j
      have hj : j.val < 48 := j.isLt
      rw [Nat.add_assoc, encode_byte table i (by omega), NameEntry.byte, if_neg (by omega), if_neg (by omega),
        if_neg (by omega)]
      simp only [Nat.add_sub_cancel_left, j.isLt, dif_pos, Fin.eta]
    rw [Nat.add_zero] at hhash
    simp only [NameEntry.decode, hhash, hstart, hsize, hname]
  simp only [decode, hentry, encode_tail]

end NameTable

/-! ## Names in a slot -/

/-- The bytes of a name. -/
def FileName.bytes (name : FileName) : List UInt8 := name.chars.map Int8.toUInt8

theorem FileName.zero_notMem (name : FileName) : 0 ∉ name.bytes := by
  intro h
  obtain ⟨c, hc, hzero⟩ := List.mem_map.mp h
  obtain rfl : c = 0 := congrArg Int8.ofUInt8 hzero
  exact name.no_nul hc

/-- The string at the front of an array of bytes. -/
def c_string {n : Nat} (f : Fin n → UInt8) : List UInt8 := (List.ofFn f).takeWhile (· ≠ 0)

theorem c_string_eq {n : Nat} {f : Fin n → UInt8} {l : List UInt8} (hl : 0 ∉ l) (hlt : l.length < n)
    (hfront : ∀ (i : Nat) (hi : i < l.length), f ⟨i, by omega⟩ = l[i]) (hend : f ⟨l.length, hlt⟩ = 0) :
    c_string f = l := by
  have htake : (List.ofFn f).take l.length = l := by
    refine ext_getElem (by simp; omega) fun i hi hi' => ?_
    rw [getElem_take, List.getElem_ofFn]
    exact hfront i hi'
  have hdrop : (List.ofFn f).drop l.length = 0 :: (List.ofFn f).drop (l.length + 1) := by
    rw [drop_eq_getElem_cons (by simpa using hlt), List.getElem_ofFn, hend]
  have hpos : ∀ c ∈ l, decide (c ≠ 0) = true := fun c hc => decide_eq_true fun hzero => hl (hzero ▸ hc)
  rw [c_string, ← take_append_drop l.length (List.ofFn f), htake, hdrop,
    takeWhile_append_of_pos hpos, takeWhile_cons_of_neg (by simp), append_nil]

theorem c_string_set_name (e : NameEntry) {name : FileName} (hshort : name.chars.length < BFS_NAME_MAX) :
    c_string (e.set_name name).name = name.bytes := by
  have htake : name.chars.take (BFS_NAME_MAX - 1) = name.chars := take_of_length_le (by omega)
  have hlength : name.bytes.length = name.chars.length := length_map _
  refine c_string_eq name.zero_notMem (by omega) (fun i hi => ?_) ?_
  · simp only [NameEntry.set_name, htake]
    rw [dif_pos (by omega)]
    simp [FileName.bytes]
  · simp only [NameEntry.set_name, htake]
    rw [dif_neg (by omega), if_pos hlength]

/-! ## The files that a table lists -/

/-- A file, as the name table knows it. -/
structure Record where
  name : FileName
  start : UInt64
  size : UInt64

/-- The files by the hashes of their names. -/
abbrev Catalog := UInt64 → Option Record

structure NameEntry.Shows (e : NameEntry) (r : Record) : Prop where
  start : e.start_block = r.start
  size : e.size_bytes = r.size
  name : c_string e.name = r.name.bytes

/-- Each file has one slot, and the other slots are free. -/
structure Lists (table : NameTable) (d : Catalog) : Prop where
  zero : d 0 = none
  apart : ∀ i j, (table.entries i).hash ≠ 0 → (table.entries i).hash = (table.entries j).hash → i = j
  sound : ∀ i, (table.entries i).hash ≠ 0 → ∃ r, d (table.entries i).hash = some r ∧ (table.entries i).Shows r
  complete : ∀ h r, d h = some r → ∃ i, (table.entries i).hash = h

namespace Lists

variable {table : NameTable} {d : Catalog} {hash : UInt64}

theorem slot_cases {i : Fin BFS_NAME_ENTRIES} (hslot : table.slot hash = some i) :
    (table.entries i).hash = hash ∨ (table.entries i).hash = 0 ∧ ∀ j, (table.entries j).hash ≠ hash := by
  unfold NameTable.slot at hslot
  dsimp only at hslot
  split at hslot
  · rename_i k hfind
    obtain rfl := Option.some.inj hslot
    have hsame := List.find?_some hfind
    exact .inl (beq_iff_eq.mp hsame)
  · rename_i hfind
    have hfree := List.find?_some hslot
    refine .inr ⟨beq_iff_eq.mp hfree, fun j hj => ?_⟩
    exact List.find?_eq_none.mp hfind j (mem_finRange j) (beq_iff_eq.mpr hj)

theorem slot_of_free {i : Fin BFS_NAME_ENTRIES} (hfree : (table.entries i).hash = 0) : table.slot hash ≠ none := by
  intro hnone
  unfold NameTable.slot at hnone
  dsimp only at hnone
  split at hnone
  · cases hnone
  · exact List.find?_eq_none.mp hnone i (mem_finRange i) (beq_iff_eq.mpr hfree)

/-- The slot of a file, or a free slot, comes to show another record. -/
theorem put (h : Lists table d) (hzero : hash ≠ 0) {i : Fin BFS_NAME_ENTRIES} (hslot : table.slot hash = some i)
    {e : NameEntry} {r : Record} (hhash : e.hash = hash) (hshows : e.Shows r) :
    Lists (table.set i e) (update d hash (some r)) := by
  have hcases := slot_cases hslot
  -- No other slot has the hash.
  have hothers : ∀ j, j ≠ i → (table.entries j).hash ≠ hash := by
    intro j hne heq
    rcases hcases with hsame | ⟨-, hnone⟩
    · exact hne (h.apart j i (heq ▸ hzero) (heq.trans hsame.symm))
    · exact hnone j heq
  refine ⟨?_, fun j k hj heq => ?_, fun j hj => ?_, fun g r' hg => ?_⟩
  · rw [update_of_ne (Ne.symm hzero)]
    exact h.zero
  · by_cases hji : j = i
    · by_cases hki : k = i
      · rw [hji, hki]
      · rw [hji, NameTable.set_self, NameTable.set_ne _ hki, hhash] at heq
        exact absurd heq.symm (hothers k hki)
    · rw [NameTable.set_ne _ hji] at hj heq
      by_cases hki : k = i
      · rw [hki, NameTable.set_self, hhash] at heq
        exact absurd heq (hothers j hji)
      · rw [NameTable.set_ne _ hki] at heq
        exact h.apart j k hj heq
  · by_cases hji : j = i
    · rw [hji, NameTable.set_self, hhash, update_self]
      exact ⟨r, rfl, hshows⟩
    · rw [NameTable.set_ne _ hji] at hj ⊢
      rw [update_of_ne (hothers j hji)]
      exact h.sound j hj
  · by_cases hgh : g = hash
    · refine ⟨i, ?_⟩
      rw [NameTable.set_self, hhash, hgh]
    · rw [update_of_ne hgh] at hg
      obtain ⟨j, hj⟩ := h.complete g r' hg
      have hji : j ≠ i := by
        rintro rfl
        rcases hcases with hsame | ⟨hfree, -⟩
        · exact hgh (hj.symm.trans hsame)
        · rw [← hj, hfree, h.zero] at hg
          cases hg
      refine ⟨j, ?_⟩
      rw [NameTable.set_ne _ hji]
      exact hj

/-- The slot of a file is freed. -/
theorem drop (h : Lists table d) (hzero : hash ≠ 0) {i : Fin BFS_NAME_ENTRIES} (hi : (table.entries i).hash = hash)
    {e : NameEntry} (hfree : e.hash = 0) : Lists (table.set i e) (update d hash none) := by
  have hothers : ∀ j, j ≠ i → (table.entries j).hash ≠ hash := fun j hne heq =>
    hne (h.apart j i (heq ▸ hzero) (heq.trans hi.symm))
  have hset : ∀ j, ((table.set i e).entries j).hash ≠ 0 → j ≠ i ∧ (table.set i e).entries j = table.entries j := by
    intro j hj
    by_cases hji : j = i
    · rw [hji, NameTable.set_self, hfree] at hj
      exact absurd rfl hj
    · exact ⟨hji, table.set_ne hji e⟩
  refine ⟨?_, fun j k hj heq => ?_, fun j hj => ?_, fun g r hg => ?_⟩
  · rw [update_of_ne (Ne.symm hzero)]
    exact h.zero
  · have hk : ((table.set i e).entries k).hash ≠ 0 := heq ▸ hj
    obtain ⟨-, hj'⟩ := hset j hj
    obtain ⟨-, hk'⟩ := hset k hk
    rw [hj'] at hj heq
    rw [hk'] at heq
    exact h.apart j k hj heq
  · obtain ⟨hji, hsame⟩ := hset j hj
    rw [hsame] at hj ⊢
    rw [update_of_ne (hothers j hji)]
    exact h.sound j hj
  · by_cases hgh : g = hash
    · rw [hgh, update_self] at hg
      cases hg
    · rw [update_of_ne hgh] at hg
      obtain ⟨j, hj⟩ := h.complete g r hg
      have hji : j ≠ i := fun hji => hgh (hj.symm.trans (hji ▸ hi))
      refine ⟨j, ?_⟩
      rw [NameTable.set_ne _ hji]
      exact hj

end Lists

/-! ## The table of a volume -/

/-- The name table on the disk. -/
def Bfs.names (s : Bfs) : NameTable := NameTable.decode (s.bfs_raw_read BFS_NAME_TABLE_PAGE)

/-- Another state with the same table. -/
structure SameNames (s s' : Bfs) : Prop where
  names : s'.names = s.names
  enabled : s'.name_table_enabled = s.name_table_enabled

theorem SameNames.trans {s s' s'' : Bfs} (h : SameNames s s') (h' : SameNames s' s'') : SameNames s s'' :=
  ⟨h'.names.trans h.names, h'.enabled.trans h.enabled⟩

theorem Bfs.Touches.sameNames {touched : Set UInt64} {s s' : Bfs} (h : Bfs.Touches touched s s')
    (hoff : BFS_NAME_TABLE_PAGE ∉ touched) : SameNames s s' :=
  ⟨congrArg NameTable.decode (h.frame _ (by decide : (2 : UInt64).toNat < 2 ^ 52) hoff), h.name_table_enabled⟩

namespace Lists

variable {s : Bfs} {d : Catalog} {hash : UInt64}

theorem write (henabled : s.name_table_enabled = true) (table : NameTable) :
    (s.bfs_name_table_write table).names = table := by
  rw [Bfs.bfs_name_table_write, if_pos henabled, Bfs.names, Bfs.raw_read_write, NameTable.decode_encode]

theorem read (henabled : s.name_table_enabled = true) : s.bfs_name_table_read = some s.names := by
  rw [Bfs.bfs_name_table_read, if_pos henabled]
  rfl

theorem upsert (h : Lists s.names d) (henabled : s.name_table_enabled = true) (hzero : hash ≠ 0)
    (hslot : s.names.slot hash ≠ none) {name : FileName} (hshort : name.chars.length < BFS_NAME_MAX)
    (start size : UInt64) :
    Lists (s.bfs_name_table_upsert hash name start size).names (update d hash (some ⟨name, start, size⟩)) := by
  obtain ⟨i, hi⟩ := Option.ne_none_iff_exists'.mp hslot
  rw [Bfs.bfs_name_table_upsert, read henabled]
  dsimp only
  rw [hi]
  dsimp only
  rw [write henabled]
  exact h.put hzero hi rfl ⟨rfl, rfl, c_string_set_name _ hshort⟩

theorem remove (h : Lists s.names d) (henabled : s.name_table_enabled = true) (hzero : hash ≠ 0) :
    Lists (s.bfs_name_table_remove hash).names (update d hash none) := by
  rw [Bfs.bfs_name_table_remove, read henabled]
  dsimp only
  split
  case h_1 hfind =>
    have hnone : d hash = none := by
      by_contra hne
      obtain ⟨r, hr⟩ := Option.ne_none_iff_exists'.mp hne
      obtain ⟨i, hi⟩ := h.complete hash r hr
      exact List.find?_eq_none.mp hfind i (mem_finRange i) (beq_iff_eq.mpr hi)
    rw [write henabled, Function.update_eq_self_iff.mpr hnone.symm]
    exact h
  case h_2 i hfind =>
    have hi := List.find?_some hfind
    rw [write henabled]
    exact h.drop hzero (beq_iff_eq.mp hi) rfl

end Lists

/-! ## What the operations record -/

/-- A file was written to the tree, and to the table as it was before. -/
structure Recorded (s s' : Bfs) (name : FileName) (start size : UInt64) : Prop where
  start_lt : start.toNat < 2 ^ 32
  report : s'.report (bfs_hash name) = some (true, pack start size)
  names : ∃ s₁, SameNames s s₁ ∧ SameNames (s₁.bfs_name_table_upsert (bfs_hash name) name start size) s'

theorem write_contents_names {s : Bfs} {σ : Space} {start size : UInt64} (hhas : s.Has σ) (name : FileName)
    (buffer : Nat → UInt8) (hend : start.toNat + blocks size.toNat ≤ 2 ^ 52)
    (hoff : BFS_NAME_TABLE_PAGE ∉ stretch start.toNat (blocks size.toNat)) :
    SameNames (s.bfs_name_table_upsert (bfs_hash name) name start size) (s.write_contents name buffer start size) := by
  obtain ⟨hnames, -⟩ := Bfs.name_table_upsert_moves hhas (bfs_hash name) name start size
  obtain ⟨hpages, -⟩ := Bfs.write_pages_moves hnames.has buffer start size.toNat hend
  exact hpages.touches.sameNames hoff

namespace Volume

variable {s : Bfs} {σ : Space} {t : BTree} {start size : UInt64} {s₁ : Bfs}

theorem names_off_tree (h : Volume s σ t) : BFS_NAME_TABLE_PAGE ∉ touched t.2.pages σ := by
  rintro (hzero | hpage | hfree)
  · exact absurd hzero (by decide)
  · exact h.unreserved _ hpage rfl
  · have hstart := h.start
    have hlow : σ.next.toNat ≤ 2 := hfree.1
    omega

theorem names_off_clear {n : Nat} (hclear : Clear t σ start.toNat n) : BFS_NAME_TABLE_PAGE ∉ stretch start.toNat n :=
  fun hin => absurd (hclear _ hin).1 (by decide)

theorem clear_addressable (hclear : Clear t σ start.toNat (blocks size.toNat)) (hstart : start.toNat < 2 ^ 32) :
    start.toNat + blocks size.toNat ≤ 2 ^ 52 := by
  have hbound := σ.bound
  rcases clear_end_le hclear hstart with hzero | hle <;> omega

theorem reserve_names (h : Volume s σ t) (hsize : size.toNat + 4095 < 2 ^ 64)
    (hreserve : s.reserve size = (some start, s₁)) : SameNames s s₁ := by
  rcases Bfs.reserve_cases h.has hsize with ⟨hnone, -⟩ | ⟨start', s', σ', hrun, hmoves, -⟩
  · rw [hnone] at hreserve
    cases hreserve
  · obtain ⟨-, rfl⟩ := Prod.mk.inj (hrun.symm.trans hreserve)
    refine hmoves.touches.sameNames ?_
    rintro (hzero | hin)
    · exact absurd hzero (by decide)
    · have hstart := h.start
      have hlow : σ.next.toNat ≤ 2 := hin.1
      omega

theorem place_names (h : Volume s σ t) (hnext : σ.next.toNat < 2 ^ 32) (hsize : size.toNat + 4095 < 2 ^ 64)
    {key : UInt64} {code : Int} {s₂ : Bfs} (hreserve : s.reserve size = (some start, s₁))
    (hinsert : s₁.bfs_insert key (pack start size) = some (code, s₂)) : SameNames s s₂ := by
  rcases h.reserve hnext hsize key with hnone | ⟨start', s', σ₁, hrun, hvolume, -, -, -, -, howns, -⟩
  · rw [hnone] at hreserve
    cases hreserve
  · obtain ⟨hstart, rfl⟩ := Prod.mk.inj (hrun.symm.trans hreserve)
    obtain rfl := Option.some.inj hstart
    obtain ⟨flag, t', s', σ', hrun', -, hmoves, -⟩ := hvolume.insert howns
    obtain ⟨-, rfl⟩ := Prod.mk.inj (Option.some.inj (hrun'.symm.trans hinsert))
    exact (h.reserve_names hsize hreserve).trans (hmoves.touches.sameNames hvolume.names_off_tree)

theorem create_records (h : Volume s σ t) (hnext : σ.next.toNat < 2 ^ 32) (hsize : size.toNat + 4095 < 2 ^ 64)
    {name : FileName} (hlinked : t.2.entries.lookup (bfs_hash name) = none → t.2.PathLinked (bfs_hash name)) :
    (∃ code, s.bfs_create name size = some (code, s) ∧ code ≠ 0) ∨ (∃ s', s.bfs_create name size = some (-3, s')) ∨
      ∃ start s', s.bfs_create name size = some (0, s') ∧ Recorded s s' name start size := by
  obtain ⟨r, hsearch, -⟩ := h.search_some (bfs_hash name)
  rw [Bfs.bfs_create]
  simp only [hsearch, Option.bind_eq_bind, Option.bind_some]
  cases r.found with
  | true => exact .inl ⟨-1, rfl, by decide⟩
  | false =>
    simp only [Bool.false_eq_true, if_false]
    rcases h.place hnext hsize (bfs_hash name) with hnone | ⟨start, s₁, flag, s₂, σ₂, t₂, hreserve, hrun, hvolume, -,
      hstart, -, -, hentries⟩
    · rw [hnone]
      exact .inl ⟨-2, rfl, by decide⟩
    · have hplaced := h.place_names hnext hsize hreserve hrun
      rw [hreserve]
      simp only [hrun, Option.bind_some]
      cases flag with
      | false => exact .inr (.inl ⟨_, rfl⟩)
      | true =>
        have hcounted := hvolume.set_file_count (s₂.root.file_count + 1)
        have hcount := Bfs.set_file_count_moves hvolume.has (s₂.root.file_count + 1)
        obtain ⟨hupsert, hroot⟩ := Bfs.name_table_upsert_moves hcounted.has (bfs_hash name) name start size
        have hlisted := hcounted.of_moves hupsert (fun b hb hname => hcounted.unreserved b hb hname)
          (congrArg Root.root_page hroot)
        refine .inr (.inr ⟨start, _, rfl, hstart, ?_, _,
          hplaced.trans (hcount.touches.sameNames (by decide)), rfl, rfl⟩)
        rw [hlisted.report_eq, hentries rfl hlinked, lookup_upsert, if_pos rfl]
        rfl

theorem write_found_records (h : Volume s₁ σ t) (hsame : SameNames s s₁) {name : FileName} {r : SearchResult}
    (hsearch : s₁.bfs_search (bfs_hash name) = some r) (hfound : r.found = true)
    (hclear : Clear t σ start.toNat (blocks size.toNat)) (hstart : start.toNat < 2 ^ 32)
    (howns : Owns t σ (bfs_hash name) (pack start size)) (buffer : Nat → UInt8) :
    ∃ s', s₁.write_found r name buffer start size = (0, s') ∧ Recorded s s' name start size := by
  obtain ⟨s', σ', t', hrun, hvolume, -, hentries, -⟩ := h.write_found hsearch hfound hclear hstart howns name buffer
  have hpage : r.page_num ∈ t.2.pages := by
    obtain ⟨r', hsearch', hpage, -⟩ := h.search_position (bfs_hash name)
    obtain rfl := Option.some.inj (hsearch.symm.trans hsearch')
    rw [hpage]
    exact t.2.leafFor_mem_pages _
  obtain ⟨-, haddr, -⟩ := h.sits.pages _ hpage
  refine ⟨s', hrun, hstart, ?_, ?_⟩
  · rw [hvolume.report_eq, hentries, lookup_upsert, if_pos rfl]
    rfl
  · unfold Bfs.write_found at hrun
    split at hrun
    · cases (Prod.mk.inj hrun).1
    · rename_i page hread
      obtain ⟨-, rfl⟩ := Prod.mk.inj hrun
      have hleaf := (s₁.raw_write_touches r.page_num
        ((Page.decode page).set_value r.index.toNat (pack start size)).encode haddr).sameNames
        fun hin => h.unreserved _ hpage (Set.mem_singleton_iff.mp hin).symm
      have hflush := (Bfs.flush_root_touches (s₁.bfs_write_page r.page_num
        ((Page.decode page).set_value r.index.toNat (pack start size)).encode)).sameNames (by decide)
      have hhas : (s₁.bfs_write_page r.page_num
        ((Page.decode page).set_value r.index.toNat (pack start size)).encode).bfs_flush_root.Has σ := h.has
      exact ⟨_, (hsame.trans hleaf).trans hflush,
        write_contents_names hhas name buffer (clear_addressable hclear hstart) (names_off_clear hclear)⟩

theorem write_file_records (h : Volume s σ t) (hnext : σ.next.toNat < 2 ^ 32) (hsize : size.toNat + 4095 < 2 ^ 64)
    {name : FileName} (hlinked : t.2.entries.lookup (bfs_hash name) = none → t.2.PathLinked (bfs_hash name))
    (buffer : Nat → UInt8) :
    (∃ code, s.bfs_write_file name buffer size = some (code, s) ∧ code ≠ 0) ∨
      (∃ s', s.bfs_write_file name buffer size = some (-4, s')) ∨
      ∃ start s', s.bfs_write_file name buffer size = some (0, s') ∧ Recorded s s' name start size := by
  obtain ⟨r, hsearch, hanswer⟩ := h.search_some (bfs_hash name)
  unfold SearchResult.answer at hanswer
  rw [Bfs.bfs_write_file]
  simp only [hsearch, Option.bind_eq_bind, Option.bind_some]
  cases hfound : r.found with
  | true =>
    rw [hfound, if_pos rfl] at hanswer
    have hentry := mem_of_lookup hanswer.symm
    rw [if_pos rfl]
    by_cases hgrows : size_bytes r.value < size
    · rw [if_pos hgrows]
      rcases h.reserve hnext hsize (bfs_hash name) with hnone | ⟨start, s₁, σ₁, hreserve, hvolume, -, -, hstart, hclear,
        howns, -, hsame⟩
      · rw [hnone]
        exact .inl ⟨-2, rfl, by decide⟩
      · obtain ⟨s', hrun, hrecorded⟩ := hvolume.write_found_records (h.reserve_names hsize hreserve)
          ((hsame _).trans hsearch) hfound hclear hstart howns buffer
        rw [hreserve]
        exact .inr (.inr ⟨start, s', congrArg some hrun, hrecorded⟩)
    · rw [if_neg hgrows]
      have hle : size.toNat ≤ (size_bytes r.value).toNat := by
        rw [UInt64.lt_iff_toNat_lt] at hgrows
        omega
      have hstart := start_block_lt r.value
      have howned := h.owned _ hentry
      have hsub : stretch (start_block r.value).toNat (blocks size.toNat) ⊆ extent r.value :=
        stretch_mono (blocks_mono hle)
      have howns : Owns t σ (bfs_hash name) (pack (start_block r.value) size) := by
        intro b hb
        rw [extent, start_block_pack hstart, size_bytes_pack hstart] at hb
        exact howned b (hsub (stretch_mono (blocks_mono (Nat.mod_le _ _)) hb))
      obtain ⟨s', hrun, hrecorded⟩ := h.write_found_records ⟨rfl, rfl⟩ hsearch hfound
        (fun b hb => ⟨(howned b (hsub hb)).1, (howned b (hsub hb)).2.1, (howned b (hsub hb)).2.2.1⟩) hstart howns buffer
      exact .inr (.inr ⟨_, s', congrArg some hrun, hrecorded⟩)
  | false =>
    simp only [Bool.false_eq_true, if_false]
    rcases h.place hnext hsize (bfs_hash name) with hnone | ⟨start, s₁, flag, s₂, σ₂, t₂, hreserve, hrun, hvolume, -,
      hstart, hclear, -, hentries⟩
    · rw [hnone]
      exact .inl ⟨-3, rfl, by decide⟩
    · have hplaced := h.place_names hnext hsize hreserve hrun
      rw [hreserve]
      simp only [hrun, Option.bind_some]
      cases flag with
      | false => exact .inr (.inl ⟨_, rfl⟩)
      | true =>
        have hcounted := hvolume.set_file_count (s₂.root.file_count + 1)
        have hcount := Bfs.set_file_count_moves hvolume.has (s₂.root.file_count + 1)
        obtain ⟨hwritten, -, -⟩ := hcounted.write_contents hclear hstart name buffer
        refine .inr (.inr ⟨start, _, rfl, hstart, ?_, _, hplaced.trans (hcount.touches.sameNames (by decide)),
          write_contents_names hcounted.has name buffer (clear_addressable hclear hstart) (names_off_clear hclear)⟩)
        rw [hwritten.report_eq, hentries rfl hlinked, lookup_upsert, if_pos rfl]
        rfl

theorem delete_records (h : Volume s σ t) (name : FileName) :
    (∃ code, s.bfs_delete name = some (code, s) ∧ code ≠ 0) ∨
      ∃ s₁, s.bfs_delete name = some (0, s₁.bfs_name_table_remove (bfs_hash name)) ∧ SameNames s s₁ ∧
        t.2.entries.lookup (bfs_hash name) ≠ none ∧
        (s₁.bfs_name_table_remove (bfs_hash name)).report (bfs_hash name) = some (false, 0) := by
  obtain ⟨r, hsearch, hanswer⟩ := h.search_some (bfs_hash name)
  unfold SearchResult.answer at hanswer
  rw [Bfs.bfs_delete]
  simp only [hsearch, Option.bind_eq_bind, Option.bind_some]
  cases hfound : r.found with
  | false => exact .inl ⟨-1, rfl, by decide⟩
  | true =>
    obtain ⟨page, s', hread, hwritten, himage, hmoves⟩ := h.toImage.erase hsearch hfound
    have hvolume := h.erase himage
    rw [hfound, if_pos rfl] at hanswer
    rw [if_pos rfl, hread]
    have hcounted := hvolume.set_file_count (s'.root.file_count - 1)
    have hcount := Bfs.set_file_count_moves hvolume.has (s'.root.file_count - 1)
    obtain ⟨hnames, hroot⟩ := Bfs.name_table_remove_moves hcounted.has (bfs_hash name)
    subst hwritten
    refine .inr ⟨_, rfl, (hmoves.touches.sameNames h.names_off_tree).trans
      (hcount.touches.sameNames (by decide)), ?_, ?_⟩
    · rw [← hanswer]
      simp
    · have hlisted := hcounted.of_moves hnames (fun b hb hname => hcounted.unreserved b hb hname)
        (congrArg Root.root_page hroot)
      rw [hlisted.report_eq, h.bounded.erase_entries trivial, lookup_without, if_pos rfl]
      rfl

end Volume

/-! ## Runs -/

/-- The insertion of a new entry into the tree failed. -/
def Op.Unplaced : Op → Int → Prop
  | .create _ _, code => code = -3
  | .write_file _ _ _, code => code = -4
  | .delete _, _ => False

/-- An operation whose name can be listed. A new name finds the parent fields on its way set and a slot for it, and the
insertion does not run out of pages half way. -/
structure Listable (s : Bfs) (op : Op) : Prop where
  hash : bfs_hash op.name ≠ 0
  short : op.name.chars.length < BFS_NAME_MAX
  size : op.size < 2 ^ 32
  linked : s.report (bfs_hash op.name) = some (false, 0) →
    ∀ page, s.OnPath (bfs_hash op.name) page → page ≠ s.root.root_page → (s.node page).parent ≠ 0
  slot : (∀ name, op ≠ .delete name) → s.names.slot (bfs_hash op.name) ≠ none
  placed : ∀ code s', s.step op = some (code, s') → ¬ op.Unplaced code

/-- A property of each operation of a history, in the state before it. -/
def Bfs.Along (P : Bfs → Op → Prop) (s : Bfs) : List Op → Prop
  | [] => True
  | op :: ops => P s op ∧ ∀ code s', s.step op = some (code, s') → s'.Along P ops

/-- The tree and the name table know the same files. -/
structure Catalogued (s : Bfs) (d : Catalog) : Prop where
  accounted : ∃ σ t, Accounted s σ t
  enabled : s.name_table_enabled = true
  lists : Lists s.names d
  found : ∀ hash, s.report hash = some (reported ((d hash).map fun r => pack r.start r.size))
  records : ∀ hash r, d hash = some r → bfs_hash r.name = hash ∧ r.start.toNat < 2 ^ 32 ∧ r.size.toNat < 2 ^ 32

namespace Catalogued

variable {s s' : Bfs} {d : Catalog} {op : Op}

/-- A file comes to be known, or is known with another size. -/
theorem record (h : Catalogued s d) (haccounted : ∃ σ t, Accounted s' σ t) {name : FileName} {start size : UInt64}
    (hrecorded : Recorded s s' name start size) (hzero : bfs_hash name ≠ 0) (hshort : name.chars.length < BFS_NAME_MAX)
    (hsize : size.toNat < 2 ^ 32) (hslot : s.names.slot (bfs_hash name) ≠ none)
    (hothers : ∀ query, query ≠ bfs_hash name → s'.report query = s.report query) :
    Catalogued s' (update d (bfs_hash name) (some ⟨name, start, size⟩)) := by
  obtain ⟨s₁, hsame, hupserted⟩ := hrecorded.names
  have henabled : s₁.name_table_enabled = true := hsame.enabled.trans h.enabled
  have hkept : (s₁.bfs_name_table_upsert (bfs_hash name) name start size).name_table_enabled = true := by
    unfold Bfs.bfs_name_table_upsert Bfs.bfs_name_table_write
    split
    · exact henabled
    · split
      · exact henabled
      · dsimp only
        split <;> exact henabled
  refine ⟨haccounted, hupserted.enabled.trans hkept, ?_, fun hash => ?_, fun hash r hr => ?_⟩
  · rw [hupserted.names]
    refine Lists.upsert ?_ henabled hzero ?_ hshort start size
    · rw [hsame.names]
      exact h.lists
    · rw [hsame.names]
      exact hslot
  · by_cases heq : hash = bfs_hash name
    · rw [heq, update_self, hrecorded.report]
      rfl
    · rw [update_of_ne heq, hothers hash heq]
      exact h.found hash
  · by_cases heq : hash = bfs_hash name
    · rw [heq, update_self] at hr
      obtain rfl := Option.some.inj hr
      exact ⟨heq.symm, hrecorded.start_lt, hsize⟩
    · rw [update_of_ne heq] at hr
      exact h.records hash r hr

/-- A file is forgotten. -/
theorem forget (h : Catalogued s d) {s₁ : Bfs} (hsame : SameNames s s₁) {hash : UInt64} (hzero : hash ≠ 0)
    (haccounted : ∃ σ t, Accounted (s₁.bfs_name_table_remove hash) σ t)
    (hreport : (s₁.bfs_name_table_remove hash).report hash = some (false, 0))
    (hothers : ∀ query, query ≠ hash → (s₁.bfs_name_table_remove hash).report query = s.report query) :
    Catalogued (s₁.bfs_name_table_remove hash) (update d hash none) := by
  have henabled : s₁.name_table_enabled = true := hsame.enabled.trans h.enabled
  refine ⟨haccounted, ?_, ?_, fun query => ?_, fun query r hr => ?_⟩
  · unfold Bfs.bfs_name_table_remove Bfs.bfs_name_table_write
    split
    · exact henabled
    · split
      · split <;> exact henabled
      · dsimp only
        split <;> exact henabled
  · refine Lists.remove ?_ henabled hzero
    rw [hsame.names]
    exact h.lists
  · by_cases heq : query = hash
    · rw [heq, update_self, hreport]
      rfl
    · rw [update_of_ne heq, hothers query heq]
      exact h.found query
  · by_cases heq : query = hash
    · rw [heq, update_self] at hr
      cases hr
    · rw [update_of_ne heq] at hr
      exact h.records query r hr

/-- One operation. The names that are known afterwards were known before, or are its own. -/
theorem step (h : Catalogued s d) (hop : Listable s op) :
    ∃ code s' d', s.step op = some (code, s') ∧ Catalogued s' d' ∧
      ∀ hash r, d' hash = some r → d hash = some r ∨ r.name = op.name := by
  obtain ⟨σ, t, haccounted⟩ := h.accounted
  have hopsize := hop.size
  have hsize : op.size + 4095 < 2 ^ 64 := by omega
  obtain ⟨code, s', σ', t', hrun, haccounted', hstep⟩ := haccounted.step hsize
  have hnext : σ.next.toNat < 2 ^ 32 := by
    have htotal := haccounted.total
    have hsmall := haccounted.small
    omega
  have hlinked : t.2.entries.lookup (bfs_hash op.name) = none → t.2.PathLinked (bfs_hash op.name) := by
    intro habsent
    refine haccounted.pathLinked (hop.linked ?_)
    rw [haccounted.report_eq, habsent]
    rfl
  have hothers : code = 0 → ∀ query, query ≠ bfs_hash op.name → s'.report query = s.report query := by
    intro hcode query hquery
    rw [haccounted'.report_eq, haccounted.report_eq, hstep.others hcode hlinked query hquery]
  have hnew : ∀ name start size, name = op.name → ∀ hash r,
      update d (bfs_hash name) (some ⟨name, start, size⟩) hash = some r → d hash = some r ∨ r.name = op.name := by
    rintro name start size rfl hash r hr
    by_cases heq : hash = bfs_hash op.name
    · rw [heq, update_self] at hr
      obtain rfl := Option.some.inj hr
      exact .inr rfl
    · rw [update_of_ne heq] at hr
      exact .inl hr
  have hplaced := hop.placed code s' hrun
  cases op with
  | create name size =>
    rcases haccounted.create_records hnext hsize hlinked with ⟨code', hrun', -⟩ | ⟨s'', hrun'⟩ | ⟨start, s'', hrun',
      hrecorded⟩
    · exact ⟨code', s, d, hrun', h, fun hash r hr => .inl hr⟩
    · obtain ⟨rfl, -⟩ := Prod.mk.inj (Option.some.inj (hrun.symm.trans hrun'))
      exact absurd rfl hplaced
    · obtain ⟨rfl, rfl⟩ := Prod.mk.inj (Option.some.inj (hrun.symm.trans hrun'))
      exact ⟨0, s', _, hrun, h.record ⟨σ', t', haccounted'⟩ hrecorded hop.hash hop.short hop.size
        (hop.slot (fun _ => nofun)) (hothers rfl), hnew name start size rfl⟩
  | write_file name buffer size =>
    rcases haccounted.write_file_records hnext hsize hlinked buffer with ⟨code', hrun', -⟩ | ⟨s'', hrun'⟩ | ⟨start, s'',
      hrun', hrecorded⟩
    · exact ⟨code', s, d, hrun', h, fun hash r hr => .inl hr⟩
    · obtain ⟨rfl, -⟩ := Prod.mk.inj (Option.some.inj (hrun.symm.trans hrun'))
      exact absurd rfl hplaced
    · obtain ⟨rfl, rfl⟩ := Prod.mk.inj (Option.some.inj (hrun.symm.trans hrun'))
      exact ⟨0, s', _, hrun, h.record ⟨σ', t', haccounted'⟩ hrecorded hop.hash hop.short hop.size
        (hop.slot (fun _ => nofun)) (hothers rfl), hnew name start size rfl⟩
  | delete name =>
    rcases haccounted.delete_records name with ⟨code', hrun', -⟩ | ⟨s₁, hrun', hsame, -, hreport⟩
    · exact ⟨code', s, d, hrun', h, fun hash r hr => .inl hr⟩
    · obtain ⟨rfl, rfl⟩ := Prod.mk.inj (Option.some.inj (hrun.symm.trans hrun'))
      refine ⟨0, _, _, hrun, h.forget hsame hop.hash ⟨σ', t', haccounted'⟩ hreport (hothers rfl), fun hash r hr => ?_⟩
      by_cases heq : hash = bfs_hash name
      · rw [heq, update_self] at hr
        cases hr
      · rw [update_of_ne heq] at hr
        exact .inl hr

theorem run (h : Catalogued s d) {ops : List Op} (hops : s.Along Listable ops) :
    ∃ s' d', s.run ops = some s' ∧ Catalogued s' d' ∧
      ∀ hash r, d' hash = some r → d hash = some r ∨ ∃ op ∈ ops, r.name = op.name := by
  induction ops generalizing s d with
  | nil => exact ⟨s, d, rfl, h, fun hash r hr => .inl hr⟩
  | cons op ops ih =>
    obtain ⟨code, s₁, d₁, hstep, hcatalogued, hnames⟩ := h.step hops.1
    obtain ⟨s', d', hrun, hcatalogued', hnames'⟩ := ih hcatalogued (hops.2 code s₁ hstep)
    refine ⟨s', d', ?_, hcatalogued', fun hash r hr => ?_⟩
    · rw [Bfs.run, hstep]
      exact hrun
    · rcases hnames' hash r hr with hmid | ⟨op', hop', hname⟩
      · rcases hnames hash r hmid with hold | hname
        · exact .inl hold
        · exact .inr ⟨op, mem_cons_self, hname⟩
      · exact .inr ⟨op', mem_cons_of_mem _ hop', hname⟩

end Catalogued

theorem format_catalogued {s₀ s : Bfs} {behind : Fin 64 → UInt8} (hformat : s₀.bfs_format behind = (0, s))
    (hlow : 3 ≤ (s₀.disk_size / UInt64.ofNat BFS_PAGE_SIZE).toNat)
    (hhigh : (s₀.disk_size / UInt64.ofNat BFS_PAGE_SIZE).toNat < 2 ^ 32) : Catalogued s fun _ => none := by
  obtain ⟨σ, haccounted⟩ := format_accounted hformat hlow hhigh
  have htable : s.name_table_enabled = true ∧ s.names = ⟨fun _ => NameEntry.zero, behind⟩ := by
    unfold Bfs.bfs_format at hformat
    split at hformat
    · cases (Prod.mk.inj hformat).1
    · obtain rfl := (Prod.mk.inj hformat).2
      exact ⟨rfl, Lists.write rfl _⟩
  refine ⟨⟨σ, _, haccounted⟩, htable.1, ?_, fun hash => haccounted.report_eq hash, fun _ _ hr => nomatch hr⟩
  rw [htable.2]
  exact ⟨rfl, fun i j hi => absurd rfl hi, fun i hi => absurd rfl hi, fun _ _ hr => nomatch hr⟩

end graceos.bfs
