import GraceOS.Bfs.Volume

namespace graceos.bfs

open bplus

/-- What an operation on one file does to a volume, whether it succeeds or not.
After success the other keys are found as before, unless the key was new and the
way to it has a node without its parent field. -/
structure FileStep (key : UInt64) (s s' : Bfs) (σ σ' : Space) (t t' : BTree) (code : Int) : Prop where
  volume : Volume s' σ' t'
  moves : Bfs.Moves (scope t σ key) s s' σ σ'
  others : code = 0 → (t.2.entries.lookup key = none → t.2.PathLinked key) →
    ∀ query, query ≠ key → t'.2.entries.lookup query = t.2.entries.lookup query

theorem FileStep.unchanged {s : Bfs} {σ : Space} {t : BTree} (h : Volume s σ t) (key : UInt64) (code : Int) :
    FileStep key s s σ σ t t code :=
  ⟨h, (Bfs.Moves.refl h.has).mono (Set.empty_subset _), fun _ _ _ _ => rfl⟩

theorem touched_later {t : BTree} {σ σ' : Space} (hlater : Space.Until σ σ') (key : UInt64) :
    touched t.2.pages σ' ⊆ scope t σ key := by
  rintro b (hb | hb | hb)
  · exact .inl hb
  · exact .inr (.inr (.inl hb))
  · exact .inr (.inr (.inr (.inl (hlater.region_subset hb))))

theorem Image.search_some {s : Bfs} {σ : Space} {t : BTree} (h : Image s σ t) (key : UInt64) :
    ∃ r, s.bfs_search key = some r ∧ r.answer = t.2.entries.lookup key := by
  have hanswer := h.search_answer key
  rw [h.search_eq] at hanswer ⊢
  exact ⟨_, rfl, Option.some.inj hanswer⟩

namespace Volume

variable {s : Bfs} {σ : Space} {t : BTree} {key start size : UInt64}

theorem mem_of_lookup {value : UInt64} (hlookup : t.2.entries.lookup key = some value) :
    (key, value) ∈ t.2.entries := by
  obtain ⟨before, after, heq, _⟩ := List.lookup_eq_some_iff.mp hlookup
  rw [heq]
  simp

theorem set_file_count (h : Volume s σ t) (file_count : UInt64) : Volume (s.set_file_count file_count) σ t :=
  h.of_moves (Bfs.set_file_count_moves h.has file_count) (fun b hb hzero => (h.pages b hb).1 hzero) rfl

theorem clear_end_le (hclear : Clear t σ start.toNat (blocks size.toNat)) (hstart : start.toNat < 2 ^ 32) :
    blocks size.toNat = 0 ∨ start.toNat + blocks size.toNat ≤ σ.next.toNat := by
  refine stretch_end_le (fun b hb => (hclear b hb).2.1) ?_
  have hlt := size.toNat_lt
  unfold blocks
  simp only [BFS_PAGE_SIZE]
  omega

/-- Recording a name and writing the contents to pages that are clear. -/
theorem write_contents (h : Volume s σ t) (hclear : Clear t σ start.toNat (blocks size.toNat))
    (hstart : start.toNat < 2 ^ 32) (name : FileName) (buffer : Nat → UInt8) :
    Volume (s.write_contents name buffer start size) σ t ∧
      Bfs.Moves ({BFS_NAME_TABLE_PAGE} ∪ stretch start.toNat (blocks size.toNat)) s
        (s.write_contents name buffer start size) σ σ ∧
      (s.write_contents name buffer start size).read_pages start size.toNat =
        (0, (List.range size.toNat).map buffer) := by
  have hbound := σ.bound
  have hdisk := h.on_disk
  have hend : start.toNat + blocks size.toNat ≤ 2 ^ 52 := by
    rcases clear_end_le hclear hstart with hzero | hle <;> omega
  obtain ⟨hnames, hroot⟩ := Bfs.name_table_upsert_moves h.has (bfs_hash name) name start size
  obtain ⟨hpages, hroot'⟩ := Bfs.write_pages_moves hnames.has buffer start size.toNat hend
  have hmoves := hnames.trans hpages
  refine ⟨h.of_moves hmoves ?_ ?_, hmoves, ?_⟩
  · rintro b hb (hname | hin)
    · exact h.unreserved b hb hname
    · exact (hclear b hin).2.2 hb
  · exact congrArg Root.root_page (hroot'.trans hroot)
  · rcases clear_end_le hclear hstart with hzero | hle
    · have hnone : size.toNat = 0 := by
        simp only [blocks, BFS_PAGE_SIZE] at hzero
        omega
      rw [hnone, Bfs.read_pages, if_pos rfl]
      rfl
    · refine Bfs.read_pages_write_pages hnames.has buffer start size.toNat hend ?_
      rw [congrArg Root.total_pages hroot]
      omega

theorem place (h : Volume s σ t) (hnext : σ.next.toNat < 2 ^ 32) (hsize : size.toNat + 4095 < 2 ^ 64)
    (key : UInt64) :
    s.reserve size = (none, s) ∨
      ∃ start s₁ flag s' σ' t', s.reserve size = (some start, s₁) ∧
        s₁.bfs_insert key (pack start size) = some (if flag then 0 else -1, s') ∧ Volume s' σ' t' ∧
        Bfs.Moves (scope t σ key) s s' σ σ' ∧ start.toNat < 2 ^ 32 ∧
        Clear t' σ' start.toNat (blocks size.toNat) ∧ stretch start.toNat (blocks size.toNat) ⊆ scope t σ key ∧
        (flag = true → (t.2.entries.lookup key = none → t.2.PathLinked key) →
          t'.2.entries = upsert key (pack start size) t.2.entries) := by
  rcases h.reserve hnext hsize key with hnone | ⟨start, s₁, σ₁, hreserve, hvolume, hmoves, _, hstart, hclear, howns,
    hscope, _⟩
  · exact .inl hnone
  · obtain ⟨flag, t', s', σ', hrun, hvolume', hmoves', hpages, hentries⟩ := hvolume.insert howns
    refine .inr ⟨start, s₁, flag, s', σ', t', hreserve, hrun, hvolume', ?_, hstart, fun b hb => ?_, hscope, hentries⟩
    · exact (hmoves.trans hmoves').mono (Set.union_subset le_rfl (touched_later hmoves.later key))
    · obtain ⟨hlow, hlt, htree⟩ := hclear b hb
      refine ⟨hlow, hlt.trans_le hmoves'.later.next_le, fun hin => ?_⟩
      rcases hpages b hin with hold | hfree
      · exact htree hold
      · exact absurd hfree.1 (by omega)

theorem create (h : Volume s σ t) (hnext : σ.next.toNat < 2 ^ 32) (hsize : size.toNat + 4095 < 2 ^ 64)
    (name : FileName) :
    ∃ code s' σ' t', s.bfs_create name size = some (code, s') ∧
      FileStep (bfs_hash name) s s' σ σ' t t' code ∧
      (code = -1 ↔ t.2.entries.lookup (bfs_hash name) ≠ none) := by
  obtain ⟨r, hsearch, hanswer⟩ := h.search_some (bfs_hash name)
  unfold SearchResult.answer at hanswer
  rw [Bfs.bfs_create]
  simp only [hsearch, Option.bind_eq_bind, Option.bind_some]
  cases hfound : r.found with
  | true =>
    rw [hfound, if_pos rfl] at hanswer
    exact ⟨-1, s, σ, t, rfl, .unchanged h _ _, by simp [← hanswer]⟩
  | false =>
    rw [hfound, if_neg Bool.false_ne_true] at hanswer
    simp only [Bool.false_eq_true, if_false, ← hanswer, ne_eq, not_true_eq_false, iff_false]
    rcases h.place hnext hsize (bfs_hash name) with hnone | ⟨start, s₁, flag, s', σ', t', hreserve, hrun, hvolume,
      hmoves, _, _, _, hentries⟩
    · rw [hnone]
      exact ⟨-2, s, σ, t, rfl, .unchanged h _ _, by decide⟩
    · rw [hreserve]
      simp only [hrun, Option.bind_some]
      cases flag with
      | false => exact ⟨-3, s', σ', t', rfl, ⟨hvolume, hmoves, fun hcode => absurd hcode (by decide)⟩, by decide⟩
      | true =>
        have hcounted := hvolume.set_file_count (s'.root.file_count + 1)
        obtain ⟨hnames, hroot⟩ := Bfs.name_table_upsert_moves hcounted.has (bfs_hash name) name start size
        have hcount := Bfs.set_file_count_moves hvolume.has (s'.root.file_count + 1)
        refine ⟨0, _, σ', t', rfl, ⟨?_, ((hmoves.trans hcount).trans hnames).mono ?_, ?_⟩, by decide⟩
        · exact hcounted.of_moves hnames (fun b hb hname => hcounted.unreserved b hb hname)
            (congrArg Root.root_page hroot)
        · rintro b ((hb | hb) | hb)
          · exact hb
          · exact .inl hb
          · exact .inr (.inl hb)
        · intro _ hlinked query hquery
          rw [hentries rfl hlinked, lookup_upsert, if_neg hquery]

/-- Changing the entry of a file in the leaf where it was found, and writing the
contents. -/
theorem write_found (h : Volume s σ t) {r : SearchResult} (hsearch : s.bfs_search key = some r)
    (hfound : r.found = true) (hclear : Clear t σ start.toNat (blocks size.toNat)) (hstart : start.toNat < 2 ^ 32)
    (howns : Owns t σ key (pack start size)) (name : FileName) (buffer : Nat → UInt8) :
    ∃ s' σ' t', s.write_found r name buffer start size = (0, s') ∧ Volume s' σ' t' ∧
      Bfs.Moves (touched t.2.pages σ ∪ ({0} ∪ ({BFS_NAME_TABLE_PAGE} ∪ stretch start.toNat (blocks size.toNat))))
        s s' σ σ' ∧
      t'.2.entries = upsert key (pack start size) t.2.entries ∧
      s'.read_pages start size.toNat = (0, (List.range size.toNat).map buffer) := by
  have hdisk := h.on_disk
  obtain ⟨flag, t', s₁, σ', hrun, hvolume, hmoves, hpages, hentries⟩ := h.insert howns
  have hanswer := h.search_answer key
  rw [hsearch, Option.map_some, SearchResult.answer, if_pos hfound, Option.some.injEq] at hanswer
  have hpage : r.page_num ∈ t.2.pages := by
    obtain ⟨r', hsearch', hpage, _⟩ := h.search_position key
    obtain rfl := Option.some.inj (hsearch.symm.trans hsearch')
    rw [hpage]
    exact t.2.leafFor_mem_pages key
  have hread : s.bfs_read_page r.page_num = some (s.bfs_raw_read r.page_num) := by
    have hlt := (h.pages _ hpage).2
    refine if_neg ?_
    rw [UInt64.le_iff_toNat_le]
    omega
  -- The source writes the leaf as `bfs_insert` does for a key that is there.
  have hinsert : s.bfs_insert key (pack start size) = some (0, s.bfs_write_page r.page_num
      ((s.node r.page_num).set_value r.index.toNat (pack start size)).encode) := by
    rw [Bfs.bfs_insert, hsearch]
    exact if_pos hfound
  obtain ⟨hcode, rfl⟩ := Prod.mk.inj (Option.some.inj (hrun.symm.trans hinsert))
  obtain rfl : flag = true := by
    cases flag with
    | true => rfl
    | false => exact absurd hcode (by decide)
  have hclear' : Clear t' σ' start.toNat (blocks size.toNat) := by
    intro b hb
    obtain ⟨hlow, hlt, htree⟩ := hclear b hb
    refine ⟨hlow, hlt.trans_le hmoves.later.next_le, fun hin => ?_⟩
    rcases hpages b hin with hold | hfree
    · exact htree hold
    · exact absurd hfree.1 (by omega)
  have hflush := Bfs.flush_root_moves hvolume.has
  have hflushed := hvolume.of_moves hflush (fun b hb hzero => (hvolume.pages b hb).1 hzero) rfl
  obtain ⟨hvolume', hmoves', hcontents⟩ := hflushed.write_contents hclear' hstart name buffer
  refine ⟨_, σ', t', ?_, hvolume', (hmoves.trans (hflush.trans hmoves')), ?_, hcontents⟩
  · rw [Bfs.write_found, hread]
    rfl
  · exact hentries rfl fun habsent => absurd (hanswer.trans habsent) (by simp)

theorem write_file (h : Volume s σ t) (hnext : σ.next.toNat < 2 ^ 32) (hsize : size.toNat + 4095 < 2 ^ 64)
    (name : FileName) (buffer : Nat → UInt8) :
    ∃ code s' σ' t', s.bfs_write_file name buffer size = some (code, s') ∧
      FileStep (bfs_hash name) s s' σ σ' t t' code ∧
      (code = 0 → (t.2.entries.lookup (bfs_hash name) = none → t.2.PathLinked (bfs_hash name)) →
        ∃ start : UInt64, start.toNat < 2 ^ 32 ∧ t'.2.entries.lookup (bfs_hash name) = some (pack start size) ∧
          s'.read_pages start size.toNat = (0, (List.range size.toNat).map buffer)) := by
  obtain ⟨r, hsearch, hanswer⟩ := h.search_some (bfs_hash name)
  unfold SearchResult.answer at hanswer
  rw [Bfs.bfs_write_file]
  simp only [hsearch, Option.bind_eq_bind, Option.bind_some]
  cases hfound : r.found with
  | true =>
    rw [hfound, if_pos rfl] at hanswer
    have hentry := mem_of_lookup hanswer.symm
    -- Both ways to the blocks end in the same change of the entry.
    have hfinish : ∀ {start : UInt64} {s₁ : Bfs} {σ₁ : Space}, Volume s₁ σ₁ t → s₁.bfs_search (bfs_hash name) = some r →
        Bfs.Moves (scope t σ (bfs_hash name)) s s₁ σ σ₁ → Clear t σ₁ start.toNat (blocks size.toNat) →
        start.toNat < 2 ^ 32 → Owns t σ₁ (bfs_hash name) (pack start size) →
        stretch start.toNat (blocks size.toNat) ⊆ scope t σ (bfs_hash name) →
        ∃ s' σ' t', s₁.write_found r name buffer start size = (0, s') ∧
          FileStep (bfs_hash name) s s' σ σ' t t' 0 ∧
          ∃ start : UInt64, start.toNat < 2 ^ 32 ∧ t'.2.entries.lookup (bfs_hash name) = some (pack start size) ∧
            s'.read_pages start size.toNat = (0, (List.range size.toNat).map buffer) := by
      intro start s₁ σ₁ hvolume hsearch₁ hmoves hclear hstart howns hscope
      obtain ⟨s', σ', t', hrun, hvolume', hmoves', hentries, hcontents⟩ :=
        hvolume.write_found hsearch₁ hfound hclear hstart howns name buffer
      refine ⟨s', σ', t', hrun, ⟨hvolume', (hmoves.trans hmoves').mono ?_, fun _ _ query hquery => ?_⟩,
        start, hstart, ?_, hcontents⟩
      · rintro b (hb | hb | hb | hb | hb)
        · exact hb
        · exact touched_later hmoves.later _ hb
        · exact .inl hb
        · exact .inr (.inl hb)
        · exact hscope hb
      · rw [hentries, lookup_upsert, if_neg hquery]
      · rw [hentries, lookup_upsert, if_pos rfl]
    rw [if_pos rfl]
    by_cases hgrows : size_bytes r.value < size
    · rw [if_pos hgrows]
      rcases h.reserve hnext hsize (bfs_hash name) with hnone | ⟨start, s₁, σ₁, hreserve, hvolume, hmoves, _, hstart,
        hclear, howns, hscope, hsame⟩
      · rw [hnone]
        exact ⟨-2, s, σ, t, rfl, .unchanged h _ _, fun hcode => absurd hcode (by decide)⟩
      · obtain ⟨s', σ', t', hrun, hstep, hread⟩ :=
          hfinish hvolume ((hsame _).trans hsearch) hmoves hclear hstart howns hscope
        rw [hreserve]
        exact ⟨0, s', σ', t', congrArg some hrun, hstep, fun _ _ => hread⟩
    · rw [if_neg hgrows]
      have hle : size.toNat ≤ (size_bytes r.value).toNat := by
        rw [UInt64.lt_iff_toNat_lt] at hgrows
        omega
      have hstart := start_block_lt r.value
      have hsub : stretch (start_block r.value).toNat (blocks size.toNat) ⊆ extent r.value :=
        stretch_mono (blocks_mono hle)
      have howned := h.owned _ hentry
      have howns : Owns t σ (bfs_hash name) (pack (start_block r.value) size) := by
        intro b hb
        rw [extent, start_block_pack hstart, size_bytes_pack hstart] at hb
        exact howned b (hsub (stretch_mono (blocks_mono (Nat.mod_le _ _)) hb))
      obtain ⟨s', σ', t', hrun, hstep, hread⟩ := hfinish h hsearch
        ((Bfs.Moves.refl h.has).mono (Set.empty_subset _))
        (fun b hb => ⟨(howned b (hsub hb)).1, (howned b (hsub hb)).2.1, (howned b (hsub hb)).2.2.1⟩) hstart howns
        fun b hb => .inr (.inr (.inr (.inr ⟨_, hentry, rfl, hsub hb⟩)))
      exact ⟨0, s', σ', t', congrArg some hrun, hstep, fun _ _ => hread⟩
  | false =>
    rw [hfound, if_neg Bool.false_ne_true] at hanswer
    simp only [Bool.false_eq_true, if_false]
    rcases h.place hnext hsize (bfs_hash name) with hnone | ⟨start, s₁, flag, s', σ', t', hreserve, hrun, hvolume,
      hmoves, hstart, hclear, hscope, hentries⟩
    · rw [hnone]
      exact ⟨-3, s, σ, t, rfl, .unchanged h _ _, fun hcode => absurd hcode (by decide)⟩
    · rw [hreserve]
      simp only [hrun, Option.bind_some]
      cases flag with
      | false =>
        exact ⟨-4, s', σ', t', rfl, ⟨hvolume, hmoves, fun hcode => absurd hcode (by decide)⟩,
          fun hcode => absurd hcode (by decide)⟩
      | true =>
        have hcounted := hvolume.set_file_count (s'.root.file_count + 1)
        have hcount := Bfs.set_file_count_moves hvolume.has (s'.root.file_count + 1)
        obtain ⟨hvolume', hmoves', hcontents⟩ := hcounted.write_contents hclear hstart name buffer
        refine ⟨0, _, σ', t', rfl, ⟨hvolume', ((hmoves.trans hcount).trans hmoves').mono ?_, ?_⟩, ?_⟩
        · rintro b ((hb | hb) | hb | hb)
          · exact hb
          · exact .inl hb
          · exact .inr (.inl hb)
          · exact hscope hb
        · intro _ hlinked query hquery
          rw [hentries rfl hlinked, lookup_upsert, if_neg hquery]
        · intro _ hlinked
          exact ⟨start, hstart, by rw [hentries rfl hlinked, lookup_upsert, if_pos rfl], hcontents⟩

theorem delete (h : Volume s σ t) (name : FileName) :
    ∃ code s' t', s.bfs_delete name = some (code, s') ∧ FileStep (bfs_hash name) s s' σ σ t t' code := by
  obtain ⟨r, hsearch, _⟩ := h.search_some (bfs_hash name)
  rw [Bfs.bfs_delete]
  simp only [hsearch, Option.bind_eq_bind, Option.bind_some]
  cases hfound : r.found with
  | false => exact ⟨-1, s, t, rfl, .unchanged h _ _⟩
  | true =>
    obtain ⟨page, s', hread, hwritten, himage, hmoves⟩ := h.toImage.erase hsearch hfound
    have hvolume := h.erase himage
    rw [if_pos rfl, hread]
    have hcounted := hvolume.set_file_count (s'.root.file_count - 1)
    have hcount := Bfs.set_file_count_moves hvolume.has (s'.root.file_count - 1)
    obtain ⟨hnames, hroot⟩ := Bfs.name_table_remove_moves hcounted.has (bfs_hash name)
    subst hwritten
    refine ⟨0, _, ⟨t.1, t.2.erase (bfs_hash name)⟩, rfl,
      ⟨?_, ((hmoves.trans hcount).trans hnames).mono ?_, fun _ _ query hquery => ?_⟩⟩
    · exact hcounted.of_moves hnames (fun b hb hname => hcounted.unreserved b hb hname)
        (congrArg Root.root_page hroot)
    · rintro b ((hb | hb) | hb)
      · exact touched_subset_scope t σ _ hb
      · exact .inl hb
      · exact .inr (.inl hb)
    · rw [h.bounded.erase_entries trivial, lookup_without, if_neg hquery]

end Volume

end graceos.bfs
