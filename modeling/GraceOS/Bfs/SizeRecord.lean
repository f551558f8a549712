import GraceOS.Bfs.ReadBack

/-!
# The recorded size

The entry of a file has 32 bits for its size and 32 for its first page. `bfs_create` and `bfs_write_file` accept any
64-bit size that the disk has pages for, and store what is left of it.
-/

namespace graceos.bfs

open bplus

/-- The file is found with the size it was created with, and the pages it needs were handed out first, from its first
block on. -/
def Records (s s' : Bfs) (name : FileName) (size : UInt64) : Prop :=
  ∃ entry rest, s'.bfs_find name = some (.ok entry) ∧ entry.size_bytes = size ∧
    s'.handed_out = s.handed_out ++
      (List.range' entry.start_block.toNat (blocks size.toNat)).map UInt64.ofNat ++ rest

theorem pack_low (start size : UInt64) : pack start size = pack (UInt64.ofNat (start.toNat % 2 ^ 32)) size := by
  have hlow : (UInt64.ofNat (start.toNat % 2 ^ 32)).toNat = start.toNat % 2 ^ 32 := by
    rw [UInt64.toNat_ofNat', Nat.mod_eq_of_lt (by omega)]
  have hshift : start <<< 32 = UInt64.ofNat (start.toNat % 2 ^ 32) <<< 32 := by
    rw [← UInt64.toNat_inj, UInt64.toNat_shiftLeft, UInt64.toNat_shiftLeft, hlow, Nat.shiftLeft_eq, Nat.shiftLeft_eq]
    change start.toNat * 2 ^ 32 % 2 ^ 64 = start.toNat % 2 ^ 32 * 2 ^ 32 % 2 ^ 64
    omega
  rw [pack, hshift, pack]

theorem pack_spec (start size : UInt64) : (start_block (pack start size)).toNat = start.toNat % 2 ^ 32 ∧
    (size_bytes (pack start size)).toNat = size.toNat % 2 ^ 32 := by
  have hlow : (UInt64.ofNat (start.toNat % 2 ^ 32)).toNat = start.toNat % 2 ^ 32 := by
    rw [UInt64.toNat_ofNat', Nat.mod_eq_of_lt (by omega)]
  have hlt : (UInt64.ofNat (start.toNat % 2 ^ 32)).toNat < 2 ^ 32 := by
    rw [hlow]
    exact Nat.mod_lt _ (by decide)
  rw [pack_low, start_block_pack hlt, size_bytes_pack hlt]
  exact ⟨hlow, rfl⟩

section Place

variable {s : Bfs} {σ : Space} {t : BTree} {size : UInt64}

theorem taken_split {σ' : Space} {n : Nat} (hend : σ.next.toNat + n ≤ σ'.next.toNat) :
    ∃ rest, σ.taken σ' = (List.range' σ.next.toNat n).map UInt64.ofNat ++ rest := by
  refine ⟨(List.range' (σ.next.toNat + n) (σ'.next.toNat - σ.next.toNat - n)).map UInt64.ofNat, ?_⟩
  rw [Space.taken, ← List.map_append, List.range'_append_1]
  congr 2
  omega

/-- Reserving the blocks of a new file and inserting its entry, wherever the free pages are. -/
theorem place_new (h : Image s σ t) (hlow : 3 ≤ σ.next.toNat) (hreserved : ∀ b ∈ t.2.pages, b ≠ BFS_NAME_TABLE_PAGE)
    (hsize : size.toNat + 4095 < 2 ^ 64) (key : UInt64) :
    s.reserve size = (none, s) ∧ σ.free.toNat < blocks size.toNat ∨
      ∃ start s₁ flag s₂ σ₂ t', s.reserve size = (some start, s₁) ∧
        s₁.bfs_insert key (pack start size) = some (if flag then 0 else -1, s₂) ∧ Image s₂ σ₂ t' ∧
        (∀ b ∈ t'.2.pages, b ≠ BFS_NAME_TABLE_PAGE ∧ b ∉ stretch σ.next.toNat (blocks size.toNat)) ∧
        s₂.handed_out = s.handed_out ++ σ.taken σ₂ ∧ (blocks size.toNat = 0 ∨ start = σ.next) ∧
        σ.next.toNat + blocks size.toNat ≤ σ₂.next.toNat ∧
        (t.2.PathLinked key →
          (flag = true ↔ blocks size.toNat + t.cost BFS_MAX_KEYS BFS_INTERNAL_MAX_KEYS key ≤ σ.free.toNat)) ∧
        blocks size.toNat ≤ σ.free.toNat ∧
        (t.cost BFS_MAX_KEYS BFS_INTERNAL_MAX_KEYS key = 0 → t.2.PathLinked key →
          t'.1 = t.1 ∧ σ₂.free.toNat + blocks size.toNat = σ.free.toNat) ∧
        (flag = true → t.2.PathLinked key → t'.2.entries = upsert key (pack start size) t.2.entries) := by
  rcases Bfs.reserve_cases h.has hsize with hnone | ⟨start, s₁, σ₁, hreserve, hmoves₁, hroot₁, -, hfresh⟩
  · exact .inl hnone
  have htotal := hmoves₁.later.total
  have hnext₁ : σ₁.next.toNat = σ.next.toNat + blocks size.toNat := by
    rcases hfresh with hzero | ⟨-, hend⟩
    · -- nothing is taken for an empty file
      have hneeded : Bfs.blocks_needed size = 0 := by
        rw [← UInt64.toNat_inj, toNat_blocks_needed hsize, hzero]
        rfl
      have hsame : s.reserve size = (some 0, s) := by
        rw [Bfs.reserve, hneeded, if_neg UInt64.not_lt_zero, if_pos rfl]
      have hstate : s₁ = s := (Prod.mk.inj (hreserve.symm.trans hsame)).2
      rw [hzero, ← hmoves₁.has.1, hstate, h.has.1]
      rfl
    · exact hend
  -- the pages of the file are behind the tree
  have hbehind : ∀ b ∈ t.2.pages, b.toNat < σ.next.toNat := fun b hb => (h.pages b hb).2
  have himage₁ : Image s₁ σ₁ t := by
    refine h.of_moves hmoves₁ (fun b hb => ?_) hroot₁
    rintro (hzero | hin)
    · exact (h.pages b hb).1 hzero
    · exact absurd hin.1 (not_le.mpr (hbehind b hb))
  obtain ⟨flag, t', s₂, σ₂, hends, hrun, himage₂, hmoves₂⟩ := himage₁.insert key (pack start size)
  have hok := hends.pagesOk Space.supply himage₁.nodup fun b hb => (himage₁.sits.pages b hb).2.2
  have hmoves := hmoves₁.trans hmoves₂
  refine .inr ⟨start, s₁, flag, s₂, σ₂, t', hreserve, hrun, himage₂, fun b hb => ?_, hmoves.handed_out,
    hfresh.imp_right And.left, hnext₁.ge.trans hmoves₂.later.next_le, fun hlinked => ?_, by omega,
    fun hcost hlinked => ?_, ?_⟩
  · rcases hok.mem b hb with hold | hnew
    · exact ⟨hreserved b hold, fun hin => absurd hin.1 (not_le.mpr (hbehind b hold))⟩
    · have hge := hnew.1.1
      refine ⟨?_, fun hin => ?_⟩
      · rintro rfl
        change σ₁.next.toNat ≤ 2 at hge
        omega
      · have hlt := hin.2
        omega
  · rw [hends.paid Space.supply hlinked]
    change _ ≤ σ₁.free.toNat ↔ _
    omega
  · obtain ⟨hheight, hbudget⟩ := hends.uncut Space.supply hlinked hcost
    change σ₂.free.toNat = σ₁.free.toNat at hbudget
    exact ⟨hheight, by omega⟩
  · rintro rfl hlinked
    exact (hends.splices himage₁.bounded hlinked).entries_eq

end Place

/-! ## What is recorded -/

section Created

variable {s s' : Bfs} {σ : Space} {t : BTree} {name : FileName} {size start : UInt64}

theorem records_small (h : Records s s' name size) : size.toNat < 2 ^ 32 := by
  obtain ⟨entry, rest, hfind, rfl, -⟩ := h
  rw [bfs_find_eq] at hfind
  obtain ⟨answer, -, hentry⟩ := Option.map_eq_some_iff.mp hfind
  split at hentry
  · cases hentry
    exact size_bytes_lt answer.2
  · cases hentry

/-- The pages were handed out from the next free one on; the entry has the low half of its number. -/
theorem records_iff {σ' : Space} (hreport : s'.report (bfs_hash name) = some (true, pack start size))
    (hlog : s'.handed_out = s.handed_out ++ σ.taken σ') (hsize : size.toNat < 2 ^ 32)
    (hstart : blocks size.toNat = 0 ∨ start = σ.next) (hend : σ.next.toNat + blocks size.toNat ≤ σ'.next.toNat) :
    Records s s' name size ↔ size = 0 ∨ σ.next.toNat < 2 ^ 32 := by
  obtain ⟨hfirst, hbytes⟩ := pack_spec start size
  have hfind : s'.bfs_find name = some (.ok { inode := bfs_hash name, start_block := start_block (pack start size)
                                              size_bytes := size_bytes (pack start size), flags := 0 }) := by
    rw [bfs_find_eq, hreport]
    rfl
  have hrecorded : size_bytes (pack start size) = size := by
    rw [← UInt64.toNat_inj, hbytes, Nat.mod_eq_of_lt hsize]
  obtain ⟨rest, hsplit⟩ := taken_split hend
  have hzero : blocks size.toNat = 0 ↔ size = 0 := by
    rw [← UInt64.toNat_inj]
    change (size.toNat + 4095) / 4096 = 0 ↔ size.toNat = 0
    omega
  constructor
  · rintro ⟨entry, rest', hentry, -, hlog'⟩
    rw [or_iff_not_imp_left]
    intro hne
    obtain rfl := hstart.resolve_left (mt hzero.mp hne)
    obtain rfl := Except.ok.inj (Option.some.inj (hfind.symm.trans hentry))
    -- the first page that was handed out is the first page of the entry
    obtain ⟨n, hn⟩ := Nat.exists_eq_succ_of_ne_zero (mt hzero.mp hne)
    rw [hlog, hsplit, List.append_assoc, List.append_cancel_left_eq, hn, List.range'_succ, List.range'_succ] at hlog'
    have hhead := (List.cons.inj hlog').1
    rw [← UInt64.toNat_inj] at hhead
    simp only [UInt64.ofNat_toNat] at hhead
    rw [hfirst] at hhead
    omega
  · intro hcond
    refine ⟨_, rest, hfind, hrecorded, ?_⟩
    rw [hlog, hsplit, List.append_assoc]
    rcases hcond with rfl | hlt
    · rfl
    · rcases hstart with hnone | rfl
      · rw [hnone]
        rfl
      · rw [hfirst, Nat.mod_eq_of_lt hlt]

/-- What follows the insertion of a new entry goes to the super-block, the name table and the pages of the file. -/
def Finishes (s₂ s' : Bfs) (σ : Space) (start size : UInt64) : Prop :=
  ∀ σ₂ : Space, s₂.Has σ₂ → σ.next.toNat + blocks size.toNat ≤ σ₂.next.toNat →
    blocks size.toNat = 0 ∨ start = σ.next →
    Bfs.Moves ({0} ∪ ({BFS_NAME_TABLE_PAGE} ∪ stretch σ.next.toNat (blocks size.toNat))) s₂ s' σ₂ σ₂ ∧
      s'.root.root_page = s₂.root.root_page

theorem Finishes.image {s₂ : Bfs} {σ₂ : Space} {t' : BTree} (hafter : Finishes s₂ s' σ start size)
    (himage : Image s₂ σ₂ t') (hend : σ.next.toNat + blocks size.toNat ≤ σ₂.next.toNat)
    (hstart : blocks size.toNat = 0 ∨ start = σ.next)
    (hpages : ∀ b ∈ t'.2.pages, b ≠ BFS_NAME_TABLE_PAGE ∧ b ∉ stretch σ.next.toNat (blocks size.toNat)) :
    Image s' σ₂ t' ∧ s'.handed_out = s₂.handed_out := by
  obtain ⟨hmoves, hroot⟩ := hafter σ₂ himage.has hend hstart
  refine ⟨himage.of_moves hmoves (fun b hb => ?_) hroot, ?_⟩
  · rintro (hzero | hname | hin)
    · exact (himage.pages b hb).1 hzero
    · exact (hpages b hb).1 hname
    · exact (hpages b hb).2 hin
  · rw [hmoves.handed_out, Space.taken_self, List.append_nil]

theorem records_after (h : Image s σ t) (hattached : t.2.Attached) (hlow : 3 ≤ σ.next.toNat)
    (hreserved : ∀ b ∈ t.2.pages, b ≠ BFS_NAME_TABLE_PAGE) (hsize : size.toNat < 2 ^ 32) {s₁ s₂ : Bfs}
    (hreserve : s.reserve size = (some start, s₁))
    (hinsert : s₁.bfs_insert (bfs_hash name) (pack start size) = some (0, s₂))
    (hafter : Finishes s₂ s' σ start size) :
    Records s s' name size ↔ size = 0 ∨ σ.next.toNat < 2 ^ 32 := by
  have hfits : size.toNat + 4095 < 2 ^ 64 := by omega
  rcases place_new h hlow hreserved hfits (bfs_hash name) with ⟨hnone, -⟩ | ⟨start', s₁', flag, s₂', σ₂, t', hreserve',
    hrun, himage, hpages, hlog, hstart, hend, -, -, -, hentries⟩
  · rw [hnone] at hreserve
    cases hreserve
  · obtain ⟨hsame, rfl⟩ := Prod.mk.inj (hreserve'.symm.trans hreserve)
    obtain rfl := Option.some.inj hsame
    obtain ⟨hcode, rfl⟩ := Prod.mk.inj (Option.some.inj (hrun.symm.trans hinsert))
    cases flag with
    | false => exact absurd hcode (by decide)
    | true =>
      obtain ⟨himage', hlog'⟩ := hafter.image himage hend hstart hpages
      refine records_iff ?_ (hlog'.trans hlog) hsize hstart hend
      rw [himage'.report_eq, hentries rfl (hattached.pathLinked _), lookup_upsert, if_pos rfl]
      rfl

theorem write_pages_new {σ' : Space} (hhas : s.Has σ') (buffer : Nat → UInt8)
    (hend : σ.next.toNat + blocks size.toNat ≤ σ'.next.toNat) (hstart : blocks size.toNat = 0 ∨ start = σ.next) :
    Bfs.Moves (stretch σ.next.toNat (blocks size.toNat)) s (s.write_pages buffer start size.toNat) σ' σ' ∧
      (s.write_pages buffer start size.toNat).root = s.root := by
  have hbound := σ'.bound
  rcases hstart with hzero | rfl
  · have hnone : size.toNat = 0 := by
      change (size.toNat + 4095) / 4096 = 0 at hzero
      omega
    rw [Bfs.write_pages, if_pos hnone]
    exact ⟨(Bfs.Moves.refl hhas).mono (Set.empty_subset _), rfl⟩
  · exact Bfs.write_pages_moves hhas buffer σ.next size.toNat (by omega)

theorem create_finishes {s₂ : Bfs} :
    Finishes s₂ ((s₂.set_file_count (s₂.root.file_count + 1)).bfs_name_table_upsert (bfs_hash name) name start size) σ
      start size := by
  intro σ₂ hhas _ _
  have hcount := Bfs.set_file_count_moves hhas (s₂.root.file_count + 1)
  obtain ⟨hnames, hroot⟩ := Bfs.name_table_upsert_moves hcount.has (bfs_hash name) name start size
  exact ⟨hcount.trans (hnames.mono Set.subset_union_left), (congrArg Root.root_page hroot).trans rfl⟩

theorem write_finishes {s₂ : Bfs} (buffer : Nat → UInt8) :
    Finishes s₂ ((s₂.set_file_count (s₂.root.file_count + 1)).write_contents name buffer start size) σ start size := by
  intro σ₂ hhas hend hstart
  have hcount := Bfs.set_file_count_moves hhas (s₂.root.file_count + 1)
  obtain ⟨hnames, hroot⟩ := Bfs.name_table_upsert_moves hcount.has (bfs_hash name) name start size
  obtain ⟨hpages, hroot'⟩ := write_pages_new hnames.has buffer hend hstart
  exact ⟨hcount.trans (hnames.trans hpages), (congrArg Root.root_page (hroot'.trans hroot)).trans rfl⟩

end Created

section Runs

variable {s s' : Bfs} {name : FileName} {size : UInt64} {r : SearchResult}

theorem placed_of_success {key : UInt64} {full fails : Int} {after : UInt64 → Bfs → Bfs} (hfull : full ≠ 0)
    (hfails : fails ≠ 0)
    (hrun : (match s.reserve size with
      | (none, s) => some (full, s)
      | (some start, s) => (s.bfs_insert key (pack start size)).bind fun placed =>
          if placed.1 ≠ 0 then some (fails, placed.2) else some (0, after start placed.2)) = some (0, s')) :
    ∃ start s₁ s₂, s.reserve size = (some start, s₁) ∧ s₁.bfs_insert key (pack start size) = some (0, s₂) ∧
      s' = after start s₂ := by
  generalize hreserve : s.reserve size = reserved at hrun
  obtain ⟨_ | start, s₁⟩ := reserved
  · exact absurd (Prod.mk.inj (Option.some.inj hrun)).1 hfull
  · obtain ⟨⟨code, s₂⟩, hinsert, hrest⟩ := Option.bind_eq_some_iff.mp hrun
    by_cases hcode : code = 0
    · subst hcode
      exact ⟨start, s₁, s₂, rfl, hinsert, (Prod.mk.inj (Option.some.inj hrest)).2.symm⟩
    · rw [if_pos hcode] at hrest
      exact absurd (Prod.mk.inj (Option.some.inj hrest)).1 hfails

theorem bfs_create_new (hsearch : s.bfs_search (bfs_hash name) = some r) (hfound : r.found = false)
    (hrun : s.bfs_create name size = some (0, s')) :
    ∃ start s₁ s₂, s.reserve size = (some start, s₁) ∧
      s₁.bfs_insert (bfs_hash name) (pack start size) = some (0, s₂) ∧
      s' = (s₂.set_file_count (s₂.root.file_count + 1)).bfs_name_table_upsert (bfs_hash name) name start size := by
  rw [Bfs.bfs_create] at hrun
  simp only [hsearch, hfound, Option.bind_eq_bind, Option.bind_some, Bool.false_eq_true, if_false] at hrun
  exact placed_of_success (by decide) (by decide) hrun

theorem bfs_write_file_new {buffer : Nat → UInt8} (hsearch : s.bfs_search (bfs_hash name) = some r)
    (hfound : r.found = false) (hrun : s.bfs_write_file name buffer size = some (0, s')) :
    ∃ start s₁ s₂, s.reserve size = (some start, s₁) ∧
      s₁.bfs_insert (bfs_hash name) (pack start size) = some (0, s₂) ∧
      s' = (s₂.set_file_count (s₂.root.file_count + 1)).write_contents name buffer start size := by
  rw [Bfs.bfs_write_file] at hrun
  simp only [hsearch, hfound, Option.bind_eq_bind, Option.bind_some, Bool.false_eq_true, if_false] at hrun
  exact placed_of_success (by decide) (by decide) hrun

end Runs

/-- A file that was created or written under a new name is recorded with its size and its fresh pages exactly where the
size fits 32 bits and the number of the first page does. -/
theorem bfs_records_size_iff {s : Bfs} {σ : Space} {t : BTree} (h : Image s σ t) (hattached : t.2.Attached)
    (hlow : 3 ≤ σ.next.toNat) (hreserved : ∀ b ∈ t.2.pages, b ≠ BFS_NAME_TABLE_PAGE) {name : FileName} {size : UInt64}
    (hnew : s.bfs_find name = some (.error (-1))) :
    (∀ s', s.bfs_create name size = some (0, s') →
      (Records s s' name size ↔ size.toNat < 2 ^ 32 ∧ (size = 0 ∨ s.root.next_free.toNat < 2 ^ 32))) ∧
    (∀ buffer s', s.bfs_write_file name buffer size = some (0, s') →
      (Records s s' name size ↔ size.toNat < 2 ^ 32 ∧ (size = 0 ∨ s.root.next_free.toNat < 2 ^ 32))) := by
  -- the search of both functions finds nothing
  obtain ⟨r, hsearch, hanswer⟩ := h.search_some (bfs_hash name)
  have hfound : r.found = false := by
    cases hfound : r.found with
    | false => rfl
    | true =>
      rw [Bfs.bfs_find] at hnew
      simp [hsearch, hfound] at hnew
  rw [h.has.1]
  by_cases hsize : size.toNat < 2 ^ 32
  · rw [and_iff_right hsize]
    constructor
    · intro s' hrun
      obtain ⟨start, s₁, s₂, hreserve, hinsert, rfl⟩ := bfs_create_new hsearch hfound hrun
      exact records_after h hattached hlow hreserved hsize hreserve hinsert create_finishes
    · intro buffer s' hrun
      obtain ⟨start, s₁, s₂, hreserve, hinsert, rfl⟩ := bfs_write_file_new hsearch hfound hrun
      exact records_after h hattached hlow hreserved hsize hreserve hinsert (write_finishes buffer)
  · refine ⟨fun s' _ => ?_, fun buffer s' _ => ?_⟩
    · exact iff_of_false (fun hrec => hsize (records_small hrec)) fun hcond => hsize hcond.1
    · exact iff_of_false (fun hrec => hsize (records_small hrec)) fun hcond => hsize hcond.1

section Examples

/-- Room for a file of 2 ^ 32 bytes behind the first three pages. -/
def wide_space : Space := ⟨3, 2097152, near_space.positive, by decide⟩

theorem empty_create (name : FileName) (size : UInt64) (hsize : size.toNat ≤ 2 ^ 32) :
    ∃ s', (disk_of empty_tree 3 2097152).bfs_create name size = some (0, s') := by
  have hvolume : Volume (disk_of empty_tree 3 2097152) wide_space empty_tree :=
    empty_volume (σ := wide_space) (by decide)
  obtain ⟨r, hsearch, hanswer⟩ := hvolume.search_some (bfs_hash name)
  have hfound : r.found = false := by
    cases hfound : r.found with
    | false => rfl
    | true =>
      rw [SearchResult.answer, hfound, if_pos rfl] at hanswer
      cases hanswer
  have hfits : size.toNat + 4095 < 2 ^ 64 := by omega
  rcases place_new hvolume.toImage (by decide) (forall_mem_of_all (by decide)) hfits (bfs_hash name) with
    ⟨-, hfew⟩ | ⟨start, s₁, flag, s₂, σ₂, t', hreserve, hinsert, -, -, -, -, -, hflag, -, -, -⟩
  · change 2097152 < (size.toNat + 4095) / 4096 at hfew
    omega
  · obtain rfl := (hflag trivial).mpr (by
      change (size.toNat + 4095) / 4096 + 0 ≤ 2097152
      omega)
    refine ⟨(s₂.set_file_count (s₂.root.file_count + 1)).bfs_name_table_upsert (bfs_hash name) name start size, ?_⟩
    rw [Bfs.bfs_create]
    simp only [hsearch, hfound, hreserve, hinsert, Option.bind_eq_bind, Option.bind_some, Bool.false_eq_true, if_false,
      if_true, ne_eq, not_true_eq_false]

/-- A file of one byte is recorded. -/
theorem bfs_records_size_byte : ∃ s', (disk_of empty_tree 3 2097152).bfs_create name_a 1 = some (0, s') ∧
    Records (disk_of empty_tree 3 2097152) s' name_a 1 := by
  have hvolume : Volume (disk_of empty_tree 3 2097152) wide_space empty_tree :=
    empty_volume (σ := wide_space) (by decide)
  obtain ⟨s', hrun⟩ := empty_create name_a 1 (by decide)
  have hnew : (disk_of empty_tree 3 2097152).bfs_find name_a = some (.error (-1)) := by
    rw [bfs_find_eq, hvolume.report_eq]
    rfl
  refine ⟨s', hrun, ((bfs_records_size_iff hvolume.toImage trivial (by decide) (forall_mem_of_all (by decide))
    hnew).1 s' hrun).mpr ⟨by decide, .inr (by decide)⟩⟩

/-- A file of 2 ^ 32 bytes is created with success, and no entry of its size is found. -/
theorem bfs_create_loses_size : ∃ s', (disk_of empty_tree 3 2097152).bfs_find name_a = some (.error (-1)) ∧
    (disk_of empty_tree 3 2097152).bfs_create name_a 4294967296 = some (0, s') ∧
    ¬ Records (disk_of empty_tree 3 2097152) s' name_a 4294967296 := by
  have hvolume : Volume (disk_of empty_tree 3 2097152) wide_space empty_tree :=
    empty_volume (σ := wide_space) (by decide)
  obtain ⟨s', hrun⟩ := empty_create name_a 4294967296 (by decide)
  refine ⟨s', ?_, hrun, fun hrecords => absurd (records_small hrecords) (by decide)⟩
  rw [bfs_find_eq, hvolume.report_eq]
  rfl

end Examples

end graceos.bfs
