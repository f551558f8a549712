import GraceOS.Bfs.Blocks
import GraceOS.Bfs.Image
import GraceOS.Lib.BPlusTree.Erase

namespace graceos.bfs

open bplus

section Page

variable {p : Page} {i : Nat}

theorem shift_left_slots (p : Page) (n i j : Nat) (hend : i + n < BFS_MAX_KEYS) :
    (p.shift_left n i).key j = (if i ≤ j ∧ j < i + n then p.key (j + 1) else p.key j) ∧
      (p.shift_left n i).value j = (if i ≤ j ∧ j < i + n then p.value (j + 1) else p.value j) := by
  induction n generalizing p i with
  | zero => rw [Page.shift_left, if_neg (by omega), if_neg (by omega)]; exact ⟨rfl, rfl⟩
  | succ n ih =>
    have hi : i < BFS_MAX_KEYS := by omega
    obtain ⟨hkey, hvalue⟩ := ih ((p.set_key i (p.key (i + 1))).set_value i (p.value (i + 1))) (i + 1) (by omega)
    rw [Page.shift_left, hkey, hvalue, Page.set_value_key, Page.key_set_key _ _ _ _ hi,
      Page.key_set_key _ _ _ _ hi, Page.value_set_value _ _ _ _ hi, Page.value_set_value _ _ _ _ hi,
      Page.set_key_value]
    constructor <;> split_ifs <;> first | rfl | omega | (subst_vars; rfl)

theorem shift_left_head (p : Page) (n i : Nat) :
    p.SameHead (p.shift_left n i) ∧ (p.shift_left n i).count = p.count := by
  induction n generalizing p i with
  | zero => exact ⟨⟨rfl, rfl, rfl⟩, rfl⟩
  | succ n ih =>
    obtain ⟨hhead, hcount⟩ := ih ((p.set_key i (p.key (i + 1))).set_value i (p.value (i + 1))) (i + 1)
    exact ⟨⟨hhead.level, hhead.next, hhead.parent⟩, hcount⟩

theorem remove_at_head (p : Page) (i : Nat) : p.SameHead (p.remove_at i) :=
  have h := (shift_left_head p (p.count.toNat - 1 - i) i).1
  ⟨h.level, h.next, h.parent⟩

theorem remove_at_entries (hcount : p.count.toNat ≤ BFS_MAX_KEYS) (hi : i < p.count.toNat) :
    (p.remove_at i).entries = p.entries.eraseIdx i := by
  have hne : p.count ≠ 0 := by
    intro h
    rw [h] at hi
    exact absurd hi (by simp)
  have hless : (p.remove_at i).count.toNat = p.count.toNat - 1 := by
    change ((p.shift_left (p.count.toNat - 1 - i) i).count - 1).toNat = _
    rw [(shift_left_head p (p.count.toNat - 1 - i) i).2]
    exact UInt16.toNat_sub_of_le _ _ (UInt16.le_iff_toNat_le.mpr (by change 1 ≤ _; omega))
  have hslots := fun j => shift_left_slots p (p.count.toNat - 1 - i) i j (by omega)
  refine List.ext_getElem ?_ fun j hj _ => ?_
  · rw [Page.length_entries, hless, List.length_eraseIdx_of_lt (by simpa using hi), Page.length_entries]
  · rw [Page.length_entries, hless] at hj
    have hpair : (p.remove_at i).entries[j] =
        ((p.shift_left (p.count.toNat - 1 - i) i).key j, (p.shift_left (p.count.toNat - 1 - i) i).value j) := by
      simp only [Page.entries, pairs, List.getElem_map, List.getElem_range]
      rfl
    rw [hpair, (hslots j).1, (hslots j).2, List.getElem_eraseIdx]
    by_cases hlt : j < i
    · rw [dif_pos hlt, if_neg (by omega), if_neg (by omega)]
      simp [Page.entries, pairs]
    · rw [dif_neg hlt, if_pos (by omega), if_pos (by omega)]
      simp [Page.entries, pairs]

end Page

namespace Bfs

variable {s : Bfs} {σ : Space} {key : UInt64}

/-- Writing back a leaf without the entry of a key removes the key from the
tree around the leaf. -/
theorem Sits.erased {l : Nat} {par : UInt64} {t : Node l} (h : s.Sits σ par t) {q : Page}
    (hhead : (s.node (t.leafFor key).addr).SameHead q)
    (hentries : q.entries = without key (t.leafFor key).entries) :
    (s.bfs_raw_write (t.leafFor key).addr q.encode).Holds par (t.erase key) ∧
      Moves (touched t.pages σ) s (s.bfs_raw_write (t.leafFor key).addr q.encode) σ σ := by
  induction l generalizing par with
  | zero =>
    have haddr : Addressable (Leaf.toChunk t).addr := h.addr.2.1
    refine ⟨holds_leaf h.holds (s.node_write _ q) hhead.level hhead.parent rfl rfl ?_ hentries, ?_⟩
    · exact hhead.next.trans h.holds.2.2.1
    · exact (raw_write_moves h.has haddr _).mono fun b hb =>
        .inr (.inl (by rw [Set.mem_singleton_iff.mp hb]; exact t.addr_mem_pages))
  | succ l ih =>
    obtain ⟨hholds, hmoves⟩ := ih (h.target key) hhead hentries
    exact ⟨h.replaced hmoves hholds (Tree.erase_addr _), hmoves.mono touched_child⟩

end Bfs

/-- Deleting a key that was found, in the leaf where it was found. -/
theorem Image.erase {s : Bfs} {σ : Space} {t : BTree} (h : Image s σ t) {key : UInt64} {r : SearchResult}
    (hsearch : s.bfs_search key = some r) (hfound : r.found = true) :
    ∃ page s', s.bfs_read_page r.page_num = some page ∧
      s' = s.bfs_write_page r.page_num ((Page.decode page).remove_at r.index.toNat).encode ∧
      Image s' σ ⟨t.1, t.2.erase key⟩ ∧ Bfs.Moves (touched t.2.pages σ) s s' σ σ := by
  have hdisk := h.on_disk
  have hleaf : r = search_leaf (t.2.leafFor key).addr (s.node (t.2.leafFor key).addr) key :=
    Option.some.inj (hsearch.symm.trans (h.search_eq key))
  have hentriesEq := h.leaf_entries key
  have hsorted : Sorted (s.node (t.2.leafFor key).addr).entries := by
    rw [hentriesEq]
    exact h.bounded.leafFor_sorted trivial
  rcases search_leaf_cases (t.2.leafFor key).addr (s.node (t.2.leafFor key).addr) key with
    ⟨i, hi, hkey, hresult⟩ | ⟨_, hresult⟩
  · rw [hresult] at hleaf
    subst hleaf
    have hmem : (t.2.leafFor key).addr ∈ t.2.pages := t.2.leafFor_mem_pages key
    have hlt := (h.pages _ hmem).2
    have hread : s.bfs_read_page (t.2.leafFor key).addr = some (s.bfs_raw_read (t.2.leafFor key).addr) := by
      refine if_neg ?_
      rw [UInt64.le_iff_toNat_le]
      omega
    have hcap : (s.node (t.2.leafFor key).addr).count.toNat ≤ BFS_MAX_KEYS := by
      rw [← Page.length_entries, hentriesEq]
      exact h.fill.leafFor key
    have hentries : ((s.node (t.2.leafFor key).addr).remove_at i).entries =
        without key (t.2.leafFor key).entries := by
      rw [remove_at_entries hcap (by simpa using hi), ← without_eq_eraseIdx hsorted hi hkey, hentriesEq]
    obtain ⟨hholds, hmoves⟩ := h.sits.erased (remove_at_head _ i) hentries
    refine ⟨_, _, hread, rfl, ⟨h.has, ?_, hholds, ?_, ?_, ?_, ?_, ?_, h.on_disk⟩, hmoves⟩
    · exact h.root_page.trans (Tree.erase_addr _).symm
    · exact (Tree.erase_linked _).trans h.unlinked
    · exact h.bounded.erase trivial
    · exact Tree.erase_fill h.fill
    · rw [Tree.erase_pages]
      exact h.nodup
    · rw [Tree.erase_pages]
      exact h.pages
  · rw [hleaf, hresult] at hfound
    cases hfound

end graceos.bfs
