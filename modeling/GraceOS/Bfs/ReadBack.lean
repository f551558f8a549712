import GraceOS.Bfs.FileOps

namespace graceos.bfs

open bplus

section Frame

variable {s s' : Bfs} {σ σ' : Space} {t t' : BTree}

theorem bfs_find_eq (s : Bfs) (name : FileName) :
    s.bfs_find name = (s.report (bfs_hash name)).map fun answer =>
      if answer.1 then .ok { inode := bfs_hash name, start_block := start_block answer.2
                             size_bytes := size_bytes answer.2, flags := 0 }
      else .error (-1) := by
  unfold Bfs.bfs_find Bfs.report
  dsimp only
  generalize s.bfs_search (bfs_hash name) = search
  cases search with
  | none => rfl
  | some r => cases hfound : r.found <;> simp [hfound]

theorem bfs_read_file_found {name : FileName} {value : UInt64}
    (hreport : s.report (bfs_hash name) = some (true, value)) (max_size : UInt64) :
    s.bfs_read_file name max_size =
      if size_bytes value = 0 then some { code := 0, out_size := some (size_bytes value), data := [] }
      else if max_size < size_bytes value then
        some { code := -2, out_size := some (size_bytes value), data := [] }
      else
        some { code := (s.read_pages (start_block value) (size_bytes value).toNat).1
               out_size := some (size_bytes value)
               data := (s.read_pages (start_block value) (size_bytes value).toNat).2 } := by
  rw [Bfs.bfs_read_file, bfs_find_eq, hreport]
  rfl

theorem bfs_read_file_missing {name : FileName} {value : UInt64}
    (hreport : s.report (bfs_hash name) = some (false, value)) (max_size : UInt64) :
    s.bfs_read_file name max_size = some { code := -1, out_size := none, data := [] } := by
  rw [Bfs.bfs_read_file, bfs_find_eq, hreport]
  rfl

theorem FileStep.frame {key : UInt64} (hstep : FileStep key s s' σ σ' t t' 0) (h : Volume s σ t)
    (hlinked : t.2.entries.lookup key = none → t.2.PathLinked key) {other : FileName}
    (hother : bfs_hash other ≠ key) :
    s'.bfs_find other = s.bfs_find other ∧ ∀ max_size, s'.bfs_read_file other max_size =
        s.bfs_read_file other max_size := by
  have hlookup := hstep.others rfl hlinked _ hother
  have hreport : s'.report (bfs_hash other) = s.report (bfs_hash other) := by
    rw [hstep.volume.report_eq, h.report_eq, hlookup]
  refine ⟨by rw [bfs_find_eq, bfs_find_eq, hreport], fun max_size => ?_⟩
  cases hentry : t.2.entries.lookup (bfs_hash other) with
  | none =>
    have hmissing : s.report (bfs_hash other) = some (false, 0) := by rw [h.report_eq, hentry]; rfl
    rw [bfs_read_file_missing hmissing, bfs_read_file_missing (hreport.trans hmissing)]
  | some value =>
    have hfound : s.report (bfs_hash other) = some (true, value) := by rw [h.report_eq, hentry]; rfl
    have hpages := h.apart_scope (Volume.mem_of_lookup hentry) hother
    have hstart := start_block_lt value
    have hsize := size_bytes_lt value
    have hread : s'.read_pages (start_block value) (size_bytes value).toNat =
        s.read_pages (start_block value) (size_bytes value).toNat := by
      refine Bfs.read_pages_congr _ _ ?_ hstep.moves.touches.total_pages fun b hb => ?_
      · simp only [blocks, BFS_PAGE_SIZE]
        omega
      · exact hstep.moves.touches.frame b (hpages b hb).1 (hpages b hb).2
    rw [bfs_read_file_found hfound, bfs_read_file_found (hreport.trans hfound), hread]

end Frame

theorem map_getD_range (data : List UInt8) : (List.range data.length).map (fun i => data.getD i 0) = data := by
  apply List.ext_getElem?
  intro k
  rw [List.getElem?_map]
  by_cases hk : k < data.length
  · rw [List.getElem?_range hk, List.getElem?_eq_getElem hk]
    simp [hk]
  · rw [List.getElem?_eq_none (by rw [List.length_range]; omega), List.getElem?_eq_none (by omega)]
    rfl

/-- A file that was written with success is read back as it was written, and all
files whose names hash otherwise are read as before. The start of a fresh extent
has to fit the 32 bits it gets in the entry. -/
theorem bfs_write_file_read_file {s s' : Bfs} {σ : Space} {t : BTree} (h : Volume s σ t)
    (hattached : t.2.Attached) (hnext : s.root.next_free.toNat < 2 ^ 32) {name : FileName}
    {buffer : Nat → UInt8} {size : UInt64} (hpos : 0 < size.toNat) (hsize : size.toNat < 2 ^ 32)
    (hrun : s.bfs_write_file name buffer size = some (0, s')) :
    (∀ max_size, size ≤ max_size → s'.bfs_read_file name max_size =
      some { code := 0, out_size := some size, data := (List.range size.toNat).map buffer }) ∧
    ∀ other, bfs_hash other ≠ bfs_hash name →
      ∀ max_size, s'.bfs_read_file other max_size = s.bfs_read_file other max_size := by
  rw [h.has.1] at hnext
  have hlinked := hattached.pathLinked (bfs_hash name)
  have hfits : size.toNat + 4095 < 2 ^ 64 := by omega
  obtain ⟨code, s'', σ', t', hrun', hstep, hread⟩ := h.write_file hnext hfits name buffer
  obtain ⟨rfl, rfl⟩ := Prod.mk.inj (Option.some.inj (hrun'.symm.trans hrun))
  refine ⟨fun max_size hmax => ?_, fun other hother => (hstep.frame h (fun _ => hlinked) hother).2⟩
  obtain ⟨start, hstart, hlookup, hcontents⟩ := hread rfl fun _ => hlinked
  have hreport : s''.report (bfs_hash name) = some (true, pack start size) := by
    rw [hstep.volume.report_eq, hlookup]
    rfl
  have hbytes : size_bytes (pack start size) = size := by
    rw [← UInt64.toNat_inj, size_bytes_pack hstart, Nat.mod_eq_of_lt hsize]
  rw [bfs_read_file_found hreport, hbytes, start_block_pack hstart, hcontents, if_neg, if_neg]
  · exact UInt64.not_lt.mpr hmax
  · rintro rfl
    exact absurd hpos (by decide)

section Examples

/-- The name "a". -/
def name_a : FileName := ⟨[97], by decide⟩

/-- An empty leaf on page 1, as `bfs_format` leaves it. -/
def empty_tree : BTree :=
  ⟨0, ({ addr := 1, next := 0, entries := [], linked := false } : Leaf UInt64 UInt64 UInt64)⟩

theorem empty_volume {σ : Space} (hlow : 3 ≤ σ.next.toNat) :
    Volume (disk_of empty_tree σ.next σ.free) σ empty_tree := by
  have hpages : ∀ b ∈ empty_tree.2.pages, b ≠ 0 ∧ b.toNat < σ.next.toNat := by
    intro b hb
    obtain rfl := List.mem_singleton.mp hb
    exact ⟨by decide, by change 1 < _; omega⟩
  have hcheck : empty_tree.2.check none none = true := by decide
  have himage := disk_of_image (Tree.bounded_of_check hcheck) (by decide) (by decide) rfl (by decide) hpages
  exact ⟨himage, hlow, forall_mem_of_all (by decide), fun entry hentry => absurd hentry List.not_mem_nil⟩

/-- A byte goes to the first free page of an empty volume, and the entry of the
file is the packed number of that page. -/
theorem empty_write {s : Bfs} {σ : Space} (h : Volume s σ empty_tree) (hfree : 0 < σ.free.toNat)
    (name : FileName) :
    ∃ s', s.bfs_write_file name (fun _ => 7) 1 = some (0, s') ∧
      s'.report (bfs_hash name) = some (true, pack σ.next 1) ∧
      Bfs.Touches { b | b.toNat < 3 ∨ σ.next.toNat ≤ b.toNat } s s' := by
  have hlow := h.start
  have hbound := σ.bound
  obtain ⟨r, hsearch, hanswer⟩ := h.search_some (bfs_hash name)
  have hfound : r.found = false := by
    cases hfound : r.found with
    | false => rfl
    | true =>
      rw [SearchResult.answer, hfound, if_pos rfl] at hanswer
      cases hanswer
  have hsize : (1 : UInt64).toNat + 4095 < 2 ^ 64 := by decide
  rcases Bfs.reserve_cases h.has hsize with ⟨_, hfew⟩ | ⟨start, s₁, σ₁, hreserve, hmoves₁, hroot₁, _, hfresh⟩
  · exact absurd hfew (by change ¬ σ.free.toNat < 1; omega)
  · obtain ⟨rfl, hnext₁⟩ := hfresh.resolve_left (by decide)
    -- Pages behind the first three are not in the tree, and stay so.
    have himage₁ : Image s₁ σ₁ empty_tree := by
      refine h.toImage.of_moves hmoves₁ (fun b hb => ?_) hroot₁
      obtain rfl := List.mem_singleton.mp hb
      rintro (hzero | hin)
      · exact absurd hzero (by decide)
      · exact absurd hin.1 (by change ¬ σ.next.toNat ≤ 1; omega)
    obtain ⟨flag, t', s₂, σ₂, hends, hrun₂, himage₂, hmoves₂⟩ := himage₁.insert (bfs_hash name) (pack σ.next 1)
    have hcost : empty_tree.cost BFS_MAX_KEYS BFS_INTERNAL_MAX_KEYS (bfs_hash name) = 0 := rfl
    obtain rfl := (hends.paid Space.supply trivial).mpr (hcost ▸ Nat.zero_le _)
    have hentries : t'.2.entries = [(bfs_hash name, pack σ.next 1)] :=
      (hends.splices himage₁.bounded trivial).entries_eq
    have hok := hends.pagesOk Space.supply himage₁.nodup fun b hb => (himage₁.sits.pages b hb).2.2
    have hlow' : ∀ b ∈ t'.2.pages, b = 1 ∨ σ.next.toNat < b.toNat := by
      intro b hb
      rcases hok.mem b hb with hold | hnew
      · exact .inl (List.mem_singleton.mp hold)
      · have hle := hnew.1.1
        exact .inr (by change σ₁.next.toNat = σ.next.toNat + 1 at hnext₁; omega)
    have hcount := Bfs.set_file_count_moves himage₂.has (s₂.root.file_count + 1)
    obtain ⟨hnames, hrootN⟩ := Bfs.name_table_upsert_moves hcount.has (bfs_hash name) name σ.next 1
    obtain ⟨hpages, hrootP⟩ := Bfs.write_pages_moves hnames.has (fun _ => 7) σ.next (1 : UInt64).toNat
      (by change σ.next.toNat + 1 ≤ 2 ^ 52; omega)
    have htail := hcount.trans (hnames.trans hpages)
    have hapart : ∀ b ∈ t'.2.pages, b ∉ {0} ∪ ({BFS_NAME_TABLE_PAGE} ∪ stretch σ.next.toNat 1) := by
      rintro b hb (hzero | hname | hin)
      · exact (himage₂.pages b hb).1 hzero
      · obtain rfl : b = 2 := hname
        rcases hlow' 2 hb with hone | hlt
        · exact absurd hone (by decide)
        · exact absurd hlt (by change ¬ _ < 2; omega)
      · have hle := hin.1
        have hlt : b.toNat < σ.next.toNat + 1 := hin.2
        rcases hlow' b hb with rfl | hgt
        · exact absurd hle (by change ¬ _ ≤ 1; omega)
        · omega
    have hroot := congrArg Root.root_page (hrootP.trans hrootN)
    have himage := himage₂.of_moves htail hapart hroot
    refine ⟨_, ?_, ?_, ((hmoves₁.trans hmoves₂).trans htail).touches.mono ?_⟩
    · rw [Bfs.bfs_write_file]
      simp only [hsearch, hfound, hreserve, hrun₂, Option.bind_eq_bind, Option.bind_some, Bool.false_eq_true, if_false,
        if_true, ne_eq, not_true_eq_false]
      rfl
    · rw [himage.report_eq, hentries]
      simp [reported]
    · rintro b ((((rfl | hb) | (rfl | hb | hb)) | (rfl | rfl | hb)))
      · exact .inl (by decide)
      · exact .inr hb.1
      · exact .inl (by decide)
      · obtain rfl := List.mem_singleton.mp hb
        exact .inl (by decide)
      · have hle := hb.1
        exact .inr (by change σ₁.next.toNat = σ.next.toNat + 1 at hnext₁; omega)
      · exact .inl (by decide)
      · exact .inl (by decide)
      · exact .inr hb.1

/-- Ten free pages behind the first three. -/
def near_space : Space := ⟨3, 10, by decide, by decide⟩

/-- One byte written to a fresh disk and read back. -/
theorem empty_write_file_read_file : ∃ s', (disk_of empty_tree 3 10).bfs_write_file name_a (fun _ => 7) 1 =
    some (0, s') ∧ s'.bfs_read_file name_a 1 = some { code := 0, out_size := some 1, data := [7] } := by
  have hvolume : Volume (disk_of empty_tree 3 10) near_space empty_tree :=
    empty_volume (σ := near_space) (by decide)
  obtain ⟨s', hrun, _⟩ := empty_write hvolume (by decide) name_a
  have hread := bfs_write_file_read_file hvolume trivial (by decide) (by decide) (by decide) hrun
  exact ⟨s', hrun, hread.1 1 (UInt64.le_refl 1)⟩

/-- Ten free pages behind page 2 ^ 32. -/
def far_space : Space := ⟨4294967301, 10, by decide, by decide⟩

/-- On a disk with more than 2 ^ 32 pages the entry keeps the low half of the
page number only: the byte goes to one page and page 5 is read instead. -/
theorem far_write_file_not_read : Volume (disk_of empty_tree 4294967301 10) far_space empty_tree ∧
    empty_tree.2.Attached ∧ ∃ s', (disk_of empty_tree 4294967301 10).bfs_write_file name_a (fun _ => 7) 1 =
      some (0, s') ∧ s'.bfs_read_file name_a 1 = some { code := 0, out_size := some 1, data := [0] } := by
  have hvolume : Volume (disk_of empty_tree 4294967301 10) far_space empty_tree :=
    empty_volume (σ := far_space) (by decide)
  obtain ⟨s', hrun, hreport, htouches⟩ := empty_write hvolume (by decide) name_a
  have hpage : s'.bfs_raw_read 5 = fun _ => 0 := by
    refine (htouches.frame 5 (by decide : (5 : UInt64).toNat < 2 ^ 52) ?_).trans rfl
    rintro (hlt | hle)
    · exact absurd hlt (by decide)
    · exact absurd hle (by decide)
  have hread : s'.bfs_read_page 5 = some fun _ => 0 := by
    rw [Bfs.bfs_read_page, htouches.total_pages]
    exact (if_neg (by decide)).trans (congrArg some hpage)
  have hpages : s'.read_pages 5 1 = (0, [0]) := by
    rw [Bfs.read_pages, if_neg (by decide), hread]
    dsimp only
    rw [Bfs.read_pages, if_pos (by decide)]
    rfl
  refine ⟨hvolume, trivial, s', hrun, ?_⟩
  rw [bfs_read_file_found hreport]
  exact congrArg (fun result : Int × List UInt8 => some (ReadResult.mk result.1 (some 1) result.2)) hpages

end Examples

end graceos.bfs
