import GraceOS.Bfs.Refine
import Mathlib.Data.Finset.Card
import Mathlib.Data.Finset.Range

namespace graceos.bfs

open bplus

/-- A disk that holds a tree. The super-block points to its root, its counters
account for pages of the disk only, and every page of the tree has been handed
out. Back links may be missing, and the leaf chain is not considered. -/
structure Image (s : Bfs) (σ : Space) (t : BTree) : Prop where
  has : s.Has σ
  root_page : s.root.root_page = t.2.addr
  holds : s.Holds 0 t.2
  unlinked : t.2.linked = false
  bounded : t.2.Bounded Set.univ
  fill : t.2.Fill BFS_MAX_KEYS BFS_INTERNAL_MAX_KEYS
  nodup : t.2.pages.Nodup
  pages : ∀ b ∈ t.2.pages, b ≠ 0 ∧ b.toNat < σ.next.toNat
  on_disk : σ.next.toNat + σ.free.toNat ≤ s.root.total_pages.toNat

/-- The insertions at the root with the capacities of the source. -/
abbrev Ended (key value : UInt64) (t : BTree) (σ : Space) (flag : Bool) (t' : BTree) (σ' : Space) : Prop :=
  SizedTree.Ends BFS_MAX_KEYS BFS_INTERNAL_MAX_KEYS Space.take key value t σ flag t' σ'

namespace Image

variable {s : Bfs} {σ : Space} {t : BTree}

theorem sits (h : Image s σ t) : s.Sits σ 0 t.2 := by
  refine ⟨h.has, h.holds, h.nodup, fun b hb => ?_⟩
  obtain ⟨hne, hlt⟩ := h.pages b hb
  have hbound := σ.bound
  exact ⟨hne, by unfold Addressable; omega, fun hregion => absurd hregion.1 (by omega)⟩

theorem length_pages_le (h : Image s σ t) : t.2.pages.length ≤ σ.next.toNat := by
  have hnodup : (t.2.pages.map UInt64.toNat).Nodup :=
    h.nodup.map fun _ _ heq => UInt64.toNat_inj.mp heq
  have hsub : (t.2.pages.map UInt64.toNat).toFinset ⊆ Finset.range σ.next.toNat := by
    intro n hn
    obtain ⟨b, hb, rfl⟩ := List.mem_map.mp (List.mem_toFinset.mp hn)
    exact Finset.mem_range.mpr (h.pages b hb).2
  have hcard := Finset.card_le_card hsub
  rwa [List.toFinset_card_of_nodup hnodup, List.length_map, Finset.card_range] at hcard

theorem level_lt (h : Image s σ t) : t.1 < σ.next.toNat :=
  Nat.lt_two_pow_self.trans_le (h.fill.two_pow_le.trans h.length_pages_le)

theorem level_le (h : Image s σ t) : t.1 ≤ 52 := by
  have hpow : 2 ^ t.1 ≤ 2 ^ 52 := by
    have hbound := σ.bound
    have hlength := h.fill.two_pow_le.trans h.length_pages_le
    omega
  exact (Nat.pow_le_pow_iff_right (by decide)).mp hpow

theorem search_eq (h : Image s σ t) (key : UInt64) :
    s.bfs_search key =
      some (search_leaf (t.2.leafFor key).addr (s.node (t.2.leafFor key).addr) key) := by
  have hdisk := h.on_disk
  rw [Bfs.bfs_search, h.root_page]
  refine h.holds.search_eq (fun b hb => ?_) key ?_
  · rw [UInt64.lt_iff_toNat_lt]
    have hlt := (h.pages b hb).2
    omega
  · have hlevel := h.level_lt
    omega

theorem leaf_entries (h : Image s σ t) (key : UInt64) :
    (s.node (t.2.leafFor key).addr).entries = (t.2.leafFor key).entries := by
  have hholds := h.holds
  generalize (0 : UInt64) = par at hholds
  obtain ⟨l, t⟩ := t
  dsimp only at hholds ⊢
  clear h
  induction l generalizing par with
  | zero => exact hholds.2.2.2
  | succ l ih => exact ih _ _ (Every.target hholds.2.2.2.2 key)

end Image

/-- The answer of a search: the value of the key, if it was found. -/
def SearchResult.answer (r : SearchResult) : Option UInt64 :=
  if r.found then some r.value else none

theorem search_leaf_answer (a : UInt64) {p : Page} (hsorted : Sorted p.entries) (key : UInt64) :
    (search_leaf a p key).answer = p.entries.lookup key := by
  rcases search_leaf_cases a p key with ⟨i, hi, hkey, hsearch⟩ | ⟨habsent, hsearch⟩
  · rw [hsearch, SearchResult.answer, if_pos rfl]
    have hset : (upsert key p.entries[i].2 p.entries).lookup key = some p.entries[i].2 := by
      rw [lookup_upsert, if_pos rfl]
    rw [upsert_eq_set hsorted hi hkey, ← hkey, List.set_getElem_self] at hset
    rw [← hkey, hset]
  · rw [hsearch, SearchResult.answer, if_neg Bool.false_ne_true, eq_comm, lookup_eq_none_iff_forall]
    rintro entry hentry rfl
    exact habsent (List.mem_map_of_mem hentry)

namespace Image

variable {s : Bfs} {σ : Space} {t : BTree}

theorem search_answer (h : Image s σ t) (key : UInt64) :
    (s.bfs_search key).map SearchResult.answer = some (t.2.entries.lookup key) := by
  have hsorted : Sorted (s.node (t.2.leafFor key).addr).entries := by
    rw [h.leaf_entries]
    exact h.bounded.leafFor_sorted trivial
  rw [h.search_eq, Option.map_some, search_leaf_answer _ hsorted, h.leaf_entries,
    h.bounded.lookup_leafFor trivial]

/-- `bfs_insert` on an image: it returns, with 0 or -1, and leaves an image that
holds what the insertion of the library says. -/
theorem insert (h : Image s σ t) (key value : UInt64) :
    ∃ flag t' s' σ', Ended key value t σ flag t' σ' ∧
      s.bfs_insert key value = some (if flag then 0 else -1, s') ∧ Image s' σ' t' ∧
      Bfs.Moves (touched t.2.pages σ) s s' σ σ' := by
  have hrun : s.bfs_insert key value = s.insert_at (search_leaf (t.2.leafFor key).addr
      (s.node (t.2.leafFor key).addr) key) key value := by
    rw [Bfs.bfs_insert, h.search_eq]
    rfl
  have hlevel : t.1 + 1 < 2 ^ 16 := by
    have hle := h.level_le
    omega
  have hinserts := Tree.insert_inserts BFS_MAX_KEYS BFS_INTERNAL_MAX_KEYS Space.take key value t.2 σ
  generalize t.2.insert BFS_MAX_KEYS BFS_INTERNAL_MAX_KEYS Space.take key value σ = result at hinserts
  obtain ⟨o, σ₁⟩ := result
  obtain ⟨s₁, hruns, hmoves⟩ := Bfs.insert_runs hinserts h.sits h.bounded trivial h.fill hlevel
  rw [← hrun] at hruns
  -- Whatever the tree is, once the disk holds it the rest of the image follows.
  have hfinish : ∀ {flag : Bool} {t' : BTree} {s' : Bfs} {σ' : Space}, Ended key value t σ flag t' σ' →
      s.bfs_insert key value = some (if flag then 0 else -1, s') → s'.Holds 0 t'.2 →
      s'.root.root_page = t'.2.addr → Bfs.Moves (touched t.2.pages σ) s s' σ σ' →
      ∃ flag t' s' σ', Ended key value t σ flag t' σ' ∧
        s.bfs_insert key value = some (if flag then 0 else -1, s') ∧ Image s' σ' t' ∧
        Bfs.Moves (touched t.2.pages σ) s s' σ σ' := by
    intro flag t' s' σ' hends hcode hholds hroot hmoves
    have hok := hends.pagesOk Space.supply h.nodup fun b hb => (h.sits.pages b hb).2.2
    have hlater := hmoves.later
    refine ⟨flag, t', s', σ', hends, hcode, ⟨hmoves.has, hroot, hholds, hends.not_linked h.unlinked,
      hends.bounded (by decide) (by decide) h.bounded, hends.fill (by decide) (by decide) h.bounded h.fill,
      hok.nodup, fun b hb => ?_, ?_⟩, hmoves⟩
    · rcases hok.mem b hb with hold | ⟨hregion, hnot⟩
      · exact ⟨(h.pages b hold).1, (h.pages b hold).2.trans_le hlater.next_le⟩
      · refine ⟨Space.ne_zero_of_mem hregion, ?_⟩
        have hlt := hregion.2
        have htotal := hlater.total
        by_contra hge
        exact hnot ⟨by omega, by omega⟩
    · have htotal := hlater.total
      have hdisk := h.on_disk
      rw [hmoves.touches.total_pages]
      omega
  cases o with
  | done t' =>
    exact hfinish (.done hinserts) hruns.1 hruns.2.1
      (hruns.2.2.trans (h.root_page.trans hinserts.kept.1.symm)) hmoves
  | failed t' =>
    exact hfinish (.failed hinserts) hruns.1 hruns.2.1
      (hruns.2.2.trans (h.root_page.trans hinserts.kept.1.symm)) hmoves
  | rerooted root => exact hfinish (.rerooted hinserts) hruns.1 hruns.2.1 hruns.2.2 hmoves
  | split left separator right =>
    obtain ⟨hcode, hleft, hright, hroot⟩ := hruns
    have hunlinked : left.linked = false := hinserts.kept.2.1.trans h.unlinked
    rw [Bfs.insert_in_parent_root (Bfs.parent_unlinked hleft hunlinked)] at hcode
    obtain ⟨hnodup, hpages⟩ := h.sits.outcome_pages hinserts
    cases halloc : σ₁.take with
    | none =>
      rw [Bfs.new_root_none hmoves.has halloc] at hcode
      exact hfinish (.rootFailed hinserts halloc) hcode hleft
        (hroot.trans (h.root_page.trans hinserts.kept.1.symm)) hmoves
    | some answer =>
      obtain ⟨fresh, σ₂⟩ := answer
      obtain ⟨s₂, hstep, hholds, hroot', hmoves'⟩ := Bfs.new_root_some separator
        hmoves.has halloc hleft hright hnodup (fun b hb => (hpages b hb).1) hlevel
      rw [hstep] at hcode
      refine hfinish (.rootSplit hinserts halloc) hcode hholds hroot' ((hmoves.trans hmoves').mono ?_)
      rintro b (hb | hb | hb | hb)
      · exact hb
      · exact .inl hb
      · exact (hpages b hb).2
      · exact .inr (.inr (hmoves.later.region_subset hb))

end Image

end graceos.bfs
