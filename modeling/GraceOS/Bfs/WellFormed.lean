import GraceOS.Bfs.Layout

namespace graceos.bfs

open bplus

/-- A well-formed image: the disk holds an ordered and filled tree, every node
below the root has its parent field set, and the leaves are chained from left to
right up to page 0. -/
structure WellFormed (s : Bfs) (t : BTree) : Prop where
  image : ∃ σ, Image s σ t
  attached : t.2.Attached
  chained : Chained 0 t.2.chunks

section Unique

theorem back_inj {par : UInt64} (hpar : par ≠ 0) {first second : Bool} (h : back par first = back par second) :
    first = second := by
  cases first <;> cases second <;> simp_all [back, eq_comm]

/-- Lists of children with the same view are equal when children with the same
view are. -/
theorem eq_of_view {C : Type} {P Q : C → Prop} {f : C → UInt64}
    (h : ∀ c c', P c → Q c' → f c = f c' → c = c') {rest rest' : List (UInt64 × C)}
    (hview : rest.map (fun pair => (pair.1, f pair.2)) = rest'.map fun pair => (pair.1, f pair.2))
    (hrest : ∀ pair ∈ rest, P pair.2) (hrest' : ∀ pair ∈ rest', Q pair.2) : rest = rest' := by
  induction rest generalizing rest' with
  | nil => exact (List.map_eq_nil_iff.mp hview.symm).symm
  | cons pair rest ih =>
    cases rest' with
    | nil => exact absurd hview (by simp)
    | cons pair' rest' =>
      simp only [List.map_cons, List.cons.injEq, Prod.mk.injEq] at hview
      have hpair : pair = pair' := Prod.ext hview.1.1
        (h _ _ (hrest _ List.mem_cons_self) (hrest' _ List.mem_cons_self) hview.1.2)
      rw [hpair, ih hview.2 (fun p hp => hrest p (List.mem_cons_of_mem _ hp))
        fun p hp => hrest' p (List.mem_cons_of_mem _ hp)]

/-- A disk determines the tree at a page. -/
theorem Bfs.Holds.unique {s : Bfs} {l : Nat} {par : UInt64} {t t' : Node l} (h : s.Holds par t)
    (h' : s.Holds par t') (haddr : t.addr = t'.addr) (hlinked : t.linked = t'.linked)
    (hne : ∀ b ∈ t.pages, b ≠ 0) : t = t' := by
  induction l generalizing par with
  | zero =>
    obtain ⟨_, _, hnext, hentries⟩ := h
    obtain ⟨_, _, hnext', hentries'⟩ := h'
    obtain ⟨⟨addr, next, entries⟩, linked⟩ := t
    obtain ⟨⟨addr', next', entries'⟩, linked'⟩ := t'
    obtain rfl : addr = addr' := haddr
    obtain rfl : linked = linked' := hlinked
    obtain rfl : next = next' := hnext.symm.trans hnext'
    obtain rfl : entries = entries' := hentries.symm.trans hentries'
    rfl
  | succ l ih =>
    obtain ⟨_, _, hfirst, hrest, hchildren⟩ := h
    obtain ⟨_, _, hfirst', hrest', hchildren'⟩ := h'
    obtain ⟨addr, linked, first, rest⟩ := t
    obtain ⟨addr', linked', first', rest'⟩ := t'
    obtain rfl : addr = addr' := haddr
    obtain rfl : linked = linked' := hlinked
    have hroot : addr ≠ 0 := hne addr List.mem_cons_self
    -- Children at the same page below a parent that is not page 0 are the same.
    have hchild : ∀ {c c' : Node l}, s.Holds addr c → s.Holds addr c' → c.addr = c'.addr →
        (∀ b ∈ c.pages, b ≠ 0) → c = c' := by
      intro c c' hc hc' hsame hpages
      refine ih hc hc' hsame (back_inj hroot ?_) hpages
      rw [← hc.parent, ← hc'.parent, hsame]
    obtain rfl : first = first' := hchild hchildren.1 hchildren'.1 (hfirst.symm.trans hfirst')
      fun b hb => hne b (List.mem_cons_of_mem _ (mem_gather.mpr (.inl hb)))
    obtain rfl : rest = rest' := by
      refine eq_of_view (P := fun c => s.Holds addr c ∧ ∀ b ∈ c.pages, b ≠ 0) (Q := s.Holds addr)
        (fun c c' hc hc' hsame => hchild hc.1 hc' hsame hc.2) (hrest.symm.trans hrest') ?_ hchildren'.2
      exact fun pair hpair => ⟨hchildren.2 pair hpair, fun b hb =>
        hne b (List.mem_cons_of_mem _ (mem_gather.mpr (.inr ⟨pair, hpair, hb⟩)))⟩
    rfl

theorem Image.unique {s : Bfs} {σ σ' : Space} {t t' : BTree} (h : Image s σ t) (h' : Image s σ' t') :
    t = t' := by
  have haddr : t.2.addr = t'.2.addr := h.root_page.symm.trans h'.root_page
  have hlevel : t.1 = t'.1 := by
    rw [← h.holds.level_eq, ← h'.holds.level_eq, haddr]
  obtain ⟨l, t⟩ := t
  obtain ⟨l', t'⟩ := t'
  obtain rfl : l = l' := hlevel
  exact congrArg (Sigma.mk l) (h.holds.unique h'.holds haddr (h.unlinked.trans h'.unlinked.symm)
    fun b hb => (h.pages b hb).1)

end Unique

/-- `bfs_insert` on a well-formed image returns 0 exactly when the free pages
suffice for the nodes it splits, and the image is well-formed again exactly when
no new node keeps a parent field of 0. -/
theorem WellFormed.insert {s : Bfs} {t : BTree} (h : WellFormed s t) (key value : UInt64) :
    ∃ flag s', s.bfs_insert key value = some (if flag then 0 else -1, s') ∧
      (flag = true ↔ t.cost BFS_MAX_KEYS BFS_INTERNAL_MAX_KEYS key ≤ s.root.free_pages.toNat) ∧
      (flag = true → ((∃ t', WellFormed s' t') ↔ ¬ t.2.Orphans BFS_MAX_KEYS BFS_INTERNAL_MAX_KEYS key)) := by
  obtain ⟨σ, himage⟩ := h.image
  obtain ⟨flag, t', s', σ', hends, hrun, himage', _⟩ := himage.insert key value
  have hlinked := h.attached.pathLinked key
  have hfree : s.root.free_pages.toNat = σ.budget := by rw [himage.has.2]; rfl
  refine ⟨flag, s', hrun, by rw [hfree]; exact hends.paid Space.supply hlinked, ?_⟩
  rintro rfl
  constructor
  · rintro ⟨t'', hwell⟩
    obtain ⟨σ'', himage''⟩ := hwell.image
    obtain rfl := himage''.unique himage'
    exact (hends.attached_iff h.attached).mp hwell.attached
  · intro horphans
    exact ⟨t', ⟨σ', himage'⟩, (hends.attached_iff h.attached).mpr horphans,
      (hends.splices himage.bounded hlinked).chained h.chained⟩

/-- An insertion that returns 0 leaves a well-formed image unless some internal
node on the way to the key is split together with its parent and stands in the
lower half of it: the new sibling of that node keeps a parent field of 0. Where
the free pages do not suffice the insertion does not return 0 at all. -/
theorem bfs_insert_wellFormed_iff {s : Bfs} {t : BTree} (h : WellFormed s t) (key value : UInt64) :
    (∀ s', s.bfs_insert key value = some (0, s') → ∃ t', WellFormed s' t') ↔
      (t.2.Orphans BFS_MAX_KEYS BFS_INTERNAL_MAX_KEYS key →
        s.root.free_pages.toNat < t.cost BFS_MAX_KEYS BFS_INTERNAL_MAX_KEYS key) := by
  obtain ⟨flag, s', hrun, hpaid, hwell⟩ := h.insert key value
  rw [hrun]
  constructor
  · intro hkeeps horphans
    by_contra hcost
    obtain rfl := hpaid.mpr (Nat.not_lt.mp hcost)
    exact (hwell rfl).mp (hkeeps s' rfl) horphans
  · intro hcond s'' hsame
    obtain ⟨hcode, rfl⟩ := Prod.mk.inj (Option.some.inj hsame)
    cases flag with
    | false => exact absurd hcode (by decide)
    | true =>
      have hcost := hpaid.mp rfl
      exact (hwell rfl).mpr fun horphans => absurd (hcond horphans) (Nat.not_lt.mpr hcost)

section Orphan

/-- A leaf of the tree below. -/
private def small_leaf (addr next : Nat) (entries : List (UInt64 × UInt64)) : Leaf UInt64 UInt64 UInt64 :=
  { addr := UInt64.ofNat addr, next := UInt64.ofNat next, entries := entries, linked := true }

/-- A tree of height three whose root is full, with a full first child and a full
first leaf in it. -/
def crowded_tree : BTree :=
  let full_leaf := small_leaf 5 6 ((List.range 127).map fun i => (UInt64.ofNat (i + 2), 0))
  let full_node : Inner UInt64 UInt64 (Node 0) :=
    { addr := 4, linked := true, first := full_leaf
      rest := (List.range 126).map fun i =>
        (UInt64.ofNat (1000 * (i + 1)), small_leaf (i + 6) (if i = 125 then 133 else i + 7) []) }
  let node (i : Nat) : Inner UInt64 UInt64 (Node 0) :=
    { addr := UInt64.ofNat (132 + 3 * i), linked := true, first := small_leaf (133 + 3 * i) (134 + 3 * i) []
      rest := [(UInt64.ofNat (1000000 * (i + 1) + 1),
        small_leaf (134 + 3 * i) (if i = 125 then 0 else 136 + 3 * i) [])] }
  let root : Inner UInt64 UInt64 (Node 1) :=
    { addr := 3, linked := false, first := full_node
      rest := (List.range 126).map fun i => (UInt64.ofNat (1000000 * (i + 1)), node i) }
  ⟨2, root⟩

/-- The counters behind the pages of `crowded_tree`. -/
def crowded_space : Space where
  next := 510
  free := 10
  positive := by decide
  bound := by decide

set_option maxRecDepth 100000 in
theorem crowded_wellFormed : WellFormed (disk_of crowded_tree 510 10) crowded_tree := by
  have hchain : crowded_tree.2.pages.IsChain (· < ·) := by decide +kernel
  have hpages : ∀ b ∈ crowded_tree.2.pages, b ≠ 0 ∧ b.toNat < 510 :=
    forall_mem_of_all (by decide +kernel)
  have hnodup : crowded_tree.2.pages.Nodup := (List.isChain_iff_pairwise.mp hchain).imp ne_of_lt
  have hcheck : crowded_tree.2.check none none = true := by decide +kernel
  have hfill : crowded_tree.2.Fill BFS_MAX_KEYS BFS_INTERNAL_MAX_KEYS := by decide +kernel
  have hlevel : crowded_tree.1 < 2 ^ 16 := by decide
  refine ⟨⟨crowded_space, ?_⟩, by decide +kernel, by decide +kernel⟩
  exact disk_of_image (σ := crowded_space) (Tree.bounded_of_check hcheck) hfill hlevel rfl hnodup hpages

/-- The pages from the root on are used, up to the next one. -/
example : crowded_tree.2.pages.length = 510 - 3 := by decide +kernel

set_option maxRecDepth 100000 in
/-- Key 1000 goes to a leaf with room, and nothing is split. -/
theorem crowded_insert_wellFormed : ∃ s', (disk_of crowded_tree 510 10).bfs_insert 1000 7 = some (0, s') ∧
    ∃ t', WellFormed s' t' := by
  have hcost : crowded_tree.cost BFS_MAX_KEYS BFS_INTERNAL_MAX_KEYS 1000 ≤ 10 := by decide +kernel
  obtain ⟨flag, s', hrun, hpaid, -⟩ := crowded_wellFormed.insert 1000 7
  obtain rfl := hpaid.mpr hcost
  refine ⟨s', hrun, (bfs_insert_wellFormed_iff crowded_wellFormed 1000 7).mpr (fun horphans => ?_) s' hrun⟩
  exact absurd horphans (by decide +kernel)

set_option maxRecDepth 100000 in
/-- The insertion of key 1 splits the first leaf, the node above it and the root,
and returns 0. The second half of the split node has a parent field of 0. -/
theorem crowded_insert_not_wellFormed :
    WellFormed (disk_of crowded_tree 510 10) crowded_tree ∧
      ∃ s', (disk_of crowded_tree 510 10).bfs_insert 1 7 = some (0, s') ∧ ¬ ∃ t', WellFormed s' t' := by
  have horphans : crowded_tree.2.Orphans BFS_MAX_KEYS BFS_INTERNAL_MAX_KEYS 1 := by decide +kernel
  have hcost : crowded_tree.cost BFS_MAX_KEYS BFS_INTERNAL_MAX_KEYS 1 ≤ 10 := by decide +kernel
  obtain ⟨flag, s', hrun, hpaid, hwell⟩ := crowded_wellFormed.insert 1 7
  obtain rfl := hpaid.mpr hcost
  exact ⟨crowded_wellFormed, s', hrun, fun hkeeps => (hwell rfl).mp hkeeps horphans⟩

end Orphan

end graceos.bfs
