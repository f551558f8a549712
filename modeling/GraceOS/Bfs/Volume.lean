import GraceOS.Bfs.Map
import GraceOS.Bfs.Remove

namespace graceos.bfs

open bplus

/-- The blocks of a file are its own: they lie behind the first three pages and
below the free ones, outside the tree and outside the blocks of the other keys. -/
def Owns (t : BTree) (σ : Space) (key value : UInt64) : Prop :=
  ∀ b ∈ extent value, 3 ≤ b.toNat ∧ b.toNat < σ.next.toNat ∧ b ∉ t.2.pages ∧
    ∀ entry ∈ t.2.entries, entry.1 ≠ key → b ∉ extent entry.2

/-- A disk with a tree of files on it. -/
structure Volume (s : Bfs) (σ : Space) (t : BTree) : Prop extends Image s σ t where
  start : 3 ≤ σ.next.toNat
  unreserved : ∀ b ∈ t.2.pages, b ≠ BFS_NAME_TABLE_PAGE
  owned : ∀ entry ∈ t.2.entries, Owns t σ entry.1 entry.2

/-- Pages below the free ones that neither the tree nor the records use. -/
def Clear (t : BTree) (σ : Space) (first count : Nat) : Prop :=
  ∀ b ∈ stretch first count, 3 ≤ b.toNat ∧ b.toNat < σ.next.toNat ∧ b ∉ t.2.pages

/-- The pages an operation on one file may write: the super-block, the name
table, the tree, free pages, and the old blocks of the file. -/
def scope (t : BTree) (σ : Space) (key : UInt64) : Set UInt64 :=
  { b | b = 0 ∨ b = BFS_NAME_TABLE_PAGE ∨ b ∈ t.2.pages ∨ b ∈ σ.region ∨
    ∃ entry ∈ t.2.entries, entry.1 = key ∧ b ∈ extent entry.2 }

theorem touched_subset_scope (t : BTree) (σ : Space) (key : UInt64) : touched t.2.pages σ ⊆ scope t σ key := by
  rintro b (hb | hb | hb)
  · exact .inl hb
  · exact .inr (.inr (.inl hb))
  · exact .inr (.inr (.inr (.inl hb)))

theorem stretch_end_le {first count bound : Nat} (h : ∀ b ∈ stretch first count, b.toNat < bound)
    (hword : first + count < 2 ^ 64) : count = 0 ∨ first + count ≤ bound := by
  rcases Nat.eq_zero_or_pos count with hzero | hpos
  · exact .inl hzero
  · have hlast : (UInt64.ofNat (first + count - 1)).toNat = first + count - 1 := by
      rw [UInt64.toNat_ofNat', Nat.mod_eq_of_lt (by omega)]
    have hlt := h (UInt64.ofNat (first + count - 1)) ⟨by omega, by omega⟩
    exact .inr (by omega)

theorem Image.of_moves {s s' : Bfs} {σ σ' : Space} {t : BTree} {touched : Set UInt64} (h : Image s σ t)
    (hmoves : Bfs.Moves touched s s' σ σ') (hapart : ∀ b ∈ t.2.pages, b ∉ touched)
    (hroot : s'.root.root_page = s.root.root_page) : Image s' σ' t := by
  have hlater := hmoves.later
  have htotal := hlater.total
  have hnext := hlater.next_le
  have hdisk := h.on_disk
  refine ⟨hmoves.has, hroot.trans h.root_page, ?_, h.unlinked, h.bounded, h.fill, h.nodup, fun b hb => ?_, ?_⟩
  · exact h.holds.of_touches hmoves.touches fun b hb => ⟨(h.sits.pages b hb).2.1, hapart b hb⟩
  · exact ⟨(h.pages b hb).1, (h.pages b hb).2.trans_le hnext⟩
  · rw [hmoves.touches.total_pages]
    omega

theorem Owns.later {t : BTree} {σ σ' : Space} {key value : UInt64} (h : Owns t σ key value)
    (hlater : Space.Until σ σ') : Owns t σ' key value := by
  intro b hb
  obtain ⟨hlow, hlt, htree, hothers⟩ := h b hb
  exact ⟨hlow, hlt.trans_le hlater.next_le, htree, hothers⟩

namespace Volume

variable {s s' : Bfs} {σ σ' : Space} {t : BTree} {key value : UInt64}

theorem of_moves {touched : Set UInt64} (h : Volume s σ t) (hmoves : Bfs.Moves touched s s' σ σ')
    (hapart : ∀ b ∈ t.2.pages, b ∉ touched) (hroot : s'.root.root_page = s.root.root_page) : Volume s' σ' t :=
  ⟨h.toImage.of_moves hmoves hapart hroot, h.start.trans hmoves.later.next_le, h.unreserved,
    fun entry hentry => (h.owned entry hentry).later hmoves.later⟩

theorem apart_scope (h : Volume s σ t) {entry : UInt64 × UInt64} (hentry : entry ∈ t.2.entries)
    (hkey : entry.1 ≠ key) : ∀ b ∈ extent entry.2, Addressable b ∧ b ∉ scope t σ key := by
  intro b hb
  obtain ⟨hlow, hlt, htree, hothers⟩ := h.owned entry hentry b hb
  have hbound := σ.bound
  refine ⟨by unfold Addressable; omega, ?_⟩
  rintro (rfl | rfl | hin | hfree | ⟨other, hother, rfl, hin⟩)
  · exact absurd hlow (by decide)
  · exact absurd hlow (by decide)
  · exact htree hin
  · exact absurd hfree.1 (by omega)
  · exact hothers other hother (Ne.symm hkey) hin

theorem present_iff (h : Volume s σ t) :
    t.2.entries.lookup key ≠ none ↔ key ∈ (t.2.leafFor key).entries.map Prod.fst := by
  rw [← h.bounded.lookup_leafFor trivial, ne_eq, lookup_eq_none_iff_forall]
  simp

/-- Inserting a file whose blocks are its own. -/
theorem insert (h : Volume s σ t) (howns : Owns t σ key value) :
    ∃ flag t' s' σ', s.bfs_insert key value = some (if flag then 0 else -1, s') ∧ Volume s' σ' t' ∧
      Bfs.Moves (touched t.2.pages σ) s s' σ σ' ∧ (∀ b ∈ t'.2.pages, b ∈ t.2.pages ∨ b ∈ σ.region) ∧
      (flag = true → (t.2.entries.lookup key = none → t.2.PathLinked key) →
        t'.2.entries = upsert key value t.2.entries) := by
  obtain ⟨flag, t', s', σ', hends, hrun, himage, hmoves⟩ := h.toImage.insert key value
  have hok := hends.pagesOk Space.supply h.nodup fun b hb => (h.sits.pages b hb).2.2
  have hpages : ∀ b ∈ t'.2.pages, b ∈ t.2.pages ∨ b ∈ σ.region :=
    fun b hb => (hok.mem b hb).imp_right And.left
  have hmem := hends.mem_entries h.bounded
  have hnext := hmoves.later.next_le
  -- What was outside the tree and below the free pages is outside the new tree.
  have houtside : ∀ b, b.toNat < σ.next.toNat → b ∉ t.2.pages → b ∉ t'.2.pages := by
    intro b hlt hnot hin
    rcases hpages b hin with hold | hfree
    · exact hnot hold
    · exact absurd hfree.1 (by omega)
  refine ⟨flag, t', s', σ', hrun, ⟨himage, h.start.trans hnext, fun b hb => ?_, fun entry hentry b hb => ?_⟩,
    hmoves, hpages, ?_⟩
  · rcases hpages b hb with hold | hfree
    · exact h.unreserved b hold
    · rintro rfl
      have hstart := h.start
      exact absurd hfree.1 (by change ¬ _ ≤ 2; omega)
  · rcases hmem entry hentry with rfl | hold
    · obtain ⟨hlow, hlt, htree, hothers⟩ := howns b hb
      refine ⟨hlow, hlt.trans_le hnext, houtside b hlt htree, fun other hother hne => ?_⟩
      rcases hmem other hother with rfl | hother
      · exact absurd rfl hne
      · exact hothers other hother hne
    · obtain ⟨hlow, hlt, htree, hothers⟩ := h.owned entry hold b hb
      refine ⟨hlow, hlt.trans_le hnext, houtside b hlt htree, fun other hother hne => ?_⟩
      rcases hmem other hother with rfl | hother
      · exact fun hin => (howns b hin).2.2.2 entry hold (Ne.symm hne) hb
      · exact hothers other hother hne
  · rintro rfl hlinked
    by_cases hpresent : t.2.entries.lookup key = none
    · exact (hends.splices h.bounded (hlinked hpresent)).entries_eq
    · exact (hends.splices_of_present h.bounded (h.present_iff.mp hpresent)).entries_eq

theorem erase (h : Volume s σ t) (himage : Image s' σ ⟨t.1, t.2.erase key⟩) :
    Volume s' σ ⟨t.1, t.2.erase key⟩ := by
  refine ⟨himage, h.start, ?_, fun entry hentry b hb => ?_⟩
  · rw [Tree.erase_pages]
    exact h.unreserved
  · rw [h.bounded.erase_entries trivial] at hentry
    obtain ⟨hlow, hlt, htree, hothers⟩ := h.owned entry (mem_without.mp hentry).1 b hb
    refine ⟨hlow, hlt, by rwa [Tree.erase_pages], fun other hother hne => ?_⟩
    rw [h.bounded.erase_entries trivial] at hother
    exact hothers other (mem_without.mp hother).1 hne

/-- Getting the blocks of a file that is about to be written. -/
theorem reserve (h : Volume s σ t) (hnext : σ.next.toNat < 2 ^ 32) {size : UInt64}
    (hsize : size.toNat + 4095 < 2 ^ 64) (key : UInt64) :
    s.reserve size = (none, s) ∨
      ∃ start s' σ', s.reserve size = (some start, s') ∧ Volume s' σ' t ∧
        Bfs.Moves (scope t σ key) s s' σ σ' ∧ s'.root.root_page = s.root.root_page ∧ start.toNat < 2 ^ 32 ∧
        Clear t σ' start.toNat (blocks size.toNat) ∧ Owns t σ' key (pack start size) ∧
        stretch start.toNat (blocks size.toNat) ⊆ scope t σ key ∧
        ∀ query, s'.bfs_search query = s.bfs_search query := by
  rcases Bfs.reserve_cases h.has hsize with ⟨hnone, _⟩ | ⟨start, s', σ', hrun, hmoves, hroot, hle, hfresh⟩
  · exact .inl hnone
  · refine .inr ⟨start, s', σ', hrun, ?_⟩
    have hstart : start.toNat < 2 ^ 32 := by omega
    have hbegin := h.start
    have hlater := hmoves.later
    have htotal := hlater.total
    -- All pages of the file were free before.
    have hpages : ∀ b ∈ stretch start.toNat (blocks size.toNat),
        b ∈ σ.region ∧ b.toNat < σ'.next.toNat := by
      intro b hb
      rcases hfresh with hzero | ⟨rfl, hend⟩
      · exact absurd hb.2 (by rw [hzero]; have := hb.1; omega)
      · have hlow := hb.1
        have hlt := hb.2
        exact ⟨⟨hlow, by omega⟩, by omega⟩
    have hwritten : ∀ b ∈ stretch σ.next.toNat (blocks size.toNat), b ∈ σ.region := by
      intro b hb
      rcases hfresh with hzero | ⟨rfl, _⟩
      · exact absurd hb.2 (by rw [hzero]; have := hb.1; omega)
      · exact (hpages b hb).1
    have houtside : ∀ b ∈ σ.region, b ∉ t.2.pages := by
      intro b hfree hin
      have hlt := (h.pages b hin).2
      exact absurd hfree.1 (by omega)
    have hclear : Clear t σ' start.toNat (blocks size.toNat) := by
      intro b hb
      obtain ⟨hfree, hlt⟩ := hpages b hb
      exact ⟨hbegin.trans hfree.1, hlt, houtside b hfree⟩
    have hapart : ∀ b ∈ t.2.pages, b ∉ {0} ∪ stretch σ.next.toNat (blocks size.toNat) := by
      rintro b hb (hzero | hin)
      · exact (h.pages b hb).1 hzero
      · exact houtside b (hwritten b hin) hb
    have hvolume := h.of_moves hmoves hapart hroot
    refine ⟨hvolume, hmoves.mono ?_, hroot, hstart, hclear, fun b hb => ?_, fun b hb => ?_, fun query => ?_⟩
    · rintro b (hb | hb)
      · exact .inl hb
      · exact .inr (.inr (.inr (.inl (hwritten b hb))))
    · have hin : b ∈ stretch start.toNat (blocks size.toNat) := by
        rw [extent, start_block_pack hstart, size_bytes_pack hstart] at hb
        exact stretch_mono (blocks_mono (Nat.mod_le _ _)) hb
      obtain ⟨hlow, hlt, htree⟩ := hclear b hin
      refine ⟨hlow, hlt, htree, fun entry hentry _ hother => ?_⟩
      have hold := (h.owned entry hentry b hother).2.1
      exact absurd (hpages b hin).1.1 (by omega)
    · exact .inr (.inr (.inr (.inl (hpages b hb).1)))
    · have hleaf := t.2.leafFor_mem_pages query
      have hnode := hmoves.touches.node_eq (h.sits.pages _ hleaf).2.1 (hapart _ hleaf)
      rw [hvolume.search_eq, h.search_eq, hnode]

end Volume

end graceos.bfs
