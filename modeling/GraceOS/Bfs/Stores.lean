import GraceOS.Bfs.Node
import GraceOS.Bfs.Space
import GraceOS.Lib.BPlusTree.Position
import GraceOS.Lib.BPlusTree.Root

namespace graceos.bfs

open bplus

/-- Trees of page numbers, hashes and packed extents. -/
abbrev Node (l : Nat) := Tree UInt64 UInt64 UInt64 l

/-- A tree of any height. -/
abbrev BTree := SizedTree UInt64 UInt64 UInt64

/-- The parent field of a node below `par`, whose link may be missing. -/
def back (par : UInt64) (linked : Bool) : UInt64 := if linked then par else 0

/-- The pages of the disk hold a tree, whose root hangs below page `par`. -/
def Bfs.Holds (s : Bfs) : {l : Nat} → UInt64 → Node l → Prop
  | 0, par, (t : Leaf UInt64 UInt64 UInt64) =>
    (s.node t.addr).level = 0 ∧ (s.node t.addr).parent = back par t.linked ∧
      (s.node t.addr).next = t.next ∧ (s.node t.addr).entries = t.entries
  | l + 1, par, (t : Inner UInt64 UInt64 (Node l)) =>
    (s.node t.addr).level.toNat = l + 1 ∧ (s.node t.addr).parent = back par t.linked ∧
      (s.node t.addr).value 0 = t.first.addr ∧
      (s.node t.addr).children = t.rest.map (fun pair => (pair.1, pair.2.addr)) ∧
      Every (s.Holds t.addr) t.first t.rest

namespace Bfs.Holds

variable {s s' : Bfs} {l : Nat} {par : UInt64} {t : Node l}

theorem parent (h : s.Holds par t) : (s.node t.addr).parent = back par t.linked := by
  cases l with
  | zero => exact h.2.1
  | succ l => exact h.2.1

theorem level_eq (h : s.Holds par t) : (s.node t.addr).level.toNat = l := by
  cases l with
  | zero => exact congrArg UInt16.toNat h.1
  | succ l => exact h.1

theorem congr (h : s.Holds par t) (hsame : ∀ a ∈ t.pages, s'.node a = s.node a) : s'.Holds par t := by
  induction l generalizing par with
  | zero =>
    have hroot := hsame _ t.addr_mem_pages
    unfold Holds at h ⊢
    change (s'.node (Leaf.toChunk t).addr) = _ at hroot
    rw [hroot]
    exact h
  | succ l ih =>
    obtain ⟨hlevel, hparent, hfirst, hrest, hchildren⟩ := h
    have hroot : s'.node (Inner.addr t) = s.node (Inner.addr t) := hsame _ t.addr_mem_pages
    refine ⟨by rw [hroot, hlevel], by rw [hroot, hparent], by rw [hroot, hfirst], by rw [hroot, hrest],
      ih hchildren.1 fun a ha => hsame a ?_, fun pair hpair => ih (hchildren.2 pair hpair) fun a ha => hsame a ?_⟩
    · exact List.mem_cons_of_mem _ (mem_gather.mpr (.inl ha))
    · exact List.mem_cons_of_mem _ (mem_gather.mpr (.inr ⟨pair, hpair, ha⟩))

/-- Writing a new parent into the root page of a tree links it. -/
theorem link {par' : UInt64} (h : s.Holds par t)
    (hroot : s'.node t.addr = { s.node t.addr with parent := par' })
    (hsame : ∀ a ∈ t.pages, a ≠ t.addr → s'.node a = s.node a) (hnodup : t.pages.Nodup) :
    s'.Holds par' t.link := by
  cases l with
  | zero =>
    obtain ⟨hlevel, _, hnext, hentries⟩ := h
    change s'.node (Leaf.toChunk t).addr = { s.node (Leaf.toChunk t).addr with parent := par' } at hroot
    refine ⟨?_, ?_, ?_, ?_⟩
    · rw [Tree.link, hroot, hlevel]
    · rw [Tree.link, hroot]
      rfl
    · rw [Tree.link, hroot, hnext]
    · rw [Tree.link, hroot]
      exact hentries
  | succ l =>
    obtain ⟨hlevel, _, hfirst, hrest, hchildren⟩ := h
    change s'.node (Inner.addr t) = { s.node (Inner.addr t) with parent := par' } at hroot
    obtain ⟨hnot, _⟩ := List.nodup_cons.mp hnodup
    have hbelow : ∀ a ∈ gather Tree.pages (Inner.first t) (Inner.rest t), s'.node a = s.node a := by
      intro a ha
      refine hsame a (List.mem_cons_of_mem _ ha) ?_
      rintro rfl
      exact hnot ha
    refine ⟨?_, ?_, ?_, ?_, ?_⟩
    · rw [Tree.link, hroot, hlevel]
    · rw [Tree.link, hroot]
      rfl
    · rw [Tree.link, hroot]
      exact hfirst
    · rw [Tree.link, hroot]
      exact hrest
    · exact ⟨hchildren.1.congr fun a ha => hbelow a (mem_gather.mpr (.inl ha)),
        fun pair hpair => (hchildren.2 pair hpair).congr fun a ha =>
          hbelow a (mem_gather.mpr (.inr ⟨pair, hpair, ha⟩))⟩

end Bfs.Holds

section Search

theorem bfs_key_pos_eq (p : Page) (key : UInt64) : bfs_key_pos p key = position key p.children :=
  scan_pairs (fun k => decide (key < k)) p.key _ p.count.toNat

/-- The three ways in which the source picks a child agree. -/
theorem search_child_eq (p : Page) (key : UInt64) : search_child p key = p.value (bfs_key_pos p key) := by
  unfold search_child bfs_key_pos
  dsimp only
  split
  · rename_i h
    rw [h.1]
  · rename_i h
    split
    · rfl
    · rename_i hzero
      obtain hscan : scan (fun i => decide (key < p.key i)) 0 p.count.toNat = 0 := by omega
      cases hcount : p.count.toNat with
      | zero => rfl
      | succ n =>
        exfalso
        rw [hcount, scan] at hscan
        split at hscan
        · rename_i hlt
          refine h ⟨by rw [hcount, scan, if_pos hlt], ?_, by simpa using hlt⟩
          rw [UInt16.lt_iff_toNat_lt, hcount]
          exact Nat.succ_pos n
        · have hge : ∀ (start m : Nat), start ≤ scan (fun i => decide (key < p.key i)) start m := by
            intro start m
            induction m generalizing start with
            | zero => exact le_refl _
            | succ m ih =>
              unfold scan
              split
              · exact le_refl _
              · exact (Nat.le_succ start).trans (ih (start + 1))
          have := hge (0 + 1) n
          omega

/-- What the search finds in its leaf: the entry with the key, or the position
that keeps the leaf sorted. -/
theorem search_leaf_cases (a : UInt64) (p : Page) (key : UInt64) :
    (∃ (i : Nat) (h : i < p.entries.length), p.entries[i].1 = key ∧
        search_leaf a p key =
          { found := true, page_num := a, index := i, value := p.entries[i].2 }) ∨
      (key ∉ p.entries.map Prod.fst ∧
        search_leaf a p key =
          { found := false, page_num := a, index := position key p.entries, value := 0 }) := by
  have hscan : scan (fun i => decide (p.key i = key)) 0 p.count.toNat =
      p.entries.findIdx fun entry => decide (entry.1 = key) :=
    scan_pairs (fun k => decide (k = key)) p.key p.value p.count.toNat
  have hpos : scan (fun i => decide (key < p.key i)) 0 p.count.toNat = position key p.entries :=
    scan_pairs (fun k => decide (key < k)) p.key p.value p.count.toNat
  unfold search_leaf
  dsimp only
  rw [hscan, hpos, ← p.length_entries]
  by_cases hfound : (p.entries.findIdx fun entry => decide (entry.1 = key)) < p.entries.length
  · refine .inl ⟨_, hfound, ?_, ?_⟩
    · simpa using List.findIdx_getElem (w := hfound)
    · rw [if_pos hfound]
      simp [Page.entries, pairs]
  · refine .inr ⟨?_, if_neg hfound⟩
    intro hmem
    obtain ⟨entry, hentry, hkey⟩ := List.mem_map.mp hmem
    exact hfound (List.findIdx_lt_length_of_exists ⟨entry, hentry, by simpa using hkey⟩)

theorem search_child_target {l : Nat} {p : Page} {first : Node l}
    {rest : List (UInt64 × Node l)} (hfirst : p.value 0 = first.addr)
    (hrest : p.children = rest.map fun pair => (pair.1, pair.2.addr)) (key : UInt64) :
    search_child p key = (target key first rest).addr := by
  have hpos : bfs_key_pos p key = slot key first rest := by
    rw [bfs_key_pos_eq, hrest, position_map key Tree.addr, slot_eq_position]
  have hvalue := p.value_at (bfs_key_pos_le p key)
  have htarget : (first.addr :: rest.map fun pair => pair.2.addr)[slot key first rest]? =
      some (target key first rest).addr := target_at_slot Tree.addr
  rw [hfirst, hrest, List.map_map, hpos] at hvalue
  rw [search_child_eq, hpos]
  exact Option.some.inj (hvalue.symm.trans htarget)

theorem Bfs.search_from_succ {s : Bfs} {a : UInt64} (ha : a < s.root.total_pages) (key : UInt64)
    (fuel : Nat) :
    s.search_from key (fuel + 1) a =
      if 0 < (s.node a).level then s.search_from key fuel (search_child (s.node a) key)
      else some (search_leaf a (s.node a) key) := by
  rw [search_from, bfs_read_page, if_neg (not_le.mpr ha)]
  rfl

theorem Bfs.Holds.search_eq {s : Bfs} {l : Nat} {par : UInt64} {t : Node l}
    (h : s.Holds par t) (hpages : ∀ a ∈ t.pages, a < s.root.total_pages) (key : UInt64) {fuel : Nat}
    (hfuel : l < fuel) :
    s.search_from key fuel t.addr =
      some (search_leaf (t.leafFor key).addr (s.node (t.leafFor key).addr) key) := by
  induction l generalizing par fuel with
  | zero =>
    obtain ⟨fuel, rfl⟩ : ∃ n, fuel = n + 1 := ⟨fuel - 1, by omega⟩
    have hleaf : (s.node (Tree.addr (l := 0) t)).level = 0 := h.1
    rw [search_from_succ (hpages _ t.addr_mem_pages), hleaf, if_neg (by decide)]
    rfl
  | succ l ih =>
    obtain ⟨fuel, rfl⟩ : ∃ n, fuel = n + 1 := ⟨fuel - 1, by omega⟩
    obtain ⟨hlevel, _, hfirst, hrest, hchildren⟩ := h
    have hpositive : 0 < (s.node (Tree.addr (l := l + 1) t)).level := by
      rw [UInt16.lt_iff_toNat_lt]
      change 0 < (s.node (Inner.addr t)).level.toNat
      omega
    rw [search_from_succ (hpages _ t.addr_mem_pages), if_pos hpositive]
    change s.search_from key fuel (search_child (s.node (Inner.addr t)) key) = _
    rw [search_child_target hfirst hrest]
    exact ih (Every.target hchildren key)
      (fun a ha => hpages a (List.mem_cons_of_mem _ (mem_gather_of_target ha))) (by omega)

end Search

end graceos.bfs
