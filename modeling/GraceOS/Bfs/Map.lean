import GraceOS.Bfs.WellFormed

namespace graceos.bfs

open bplus

/-- The found flag and the value that `bfs_search` reports, if it returns. -/
def Bfs.report (s : Bfs) (key : UInt64) : Option (Bool × UInt64) :=
  (s.bfs_search key).map fun r => (r.found, r.value)

/-- The report of a search for a key with the given value. -/
def reported (answer : Option UInt64) : Bool × UInt64 :=
  (answer.isSome, answer.getD 0)

theorem reported_inj {first second : Option UInt64} (h : reported first = reported second) : first = second := by
  cases first <;> cases second <;> simp_all [reported]

theorem search_leaf_reported (a : UInt64) (p : Page) (key : UInt64) :
    ((search_leaf a p key).found, (search_leaf a p key).value) = reported (search_leaf a p key).answer := by
  rcases search_leaf_cases a p key with ⟨i, hi, _, hsearch⟩ | ⟨_, hsearch⟩
  · rw [hsearch]
    rfl
  · rw [hsearch]
    rfl

namespace Image

variable {s : Bfs} {σ : Space} {t : BTree}

theorem report_eq (h : Image s σ t) (key : UInt64) : s.report key = some (reported (t.2.entries.lookup key)) := by
  have hanswer := h.search_answer key
  rw [h.search_eq, Option.map_some, Option.some.injEq] at hanswer
  rw [Bfs.report, h.search_eq, Option.map_some, search_leaf_reported, hanswer]

/-- A search that does not find its key returns the position in the leaf of the
key that keeps the leaf sorted. -/
theorem search_position (h : Image s σ t) (key : UInt64) :
    ∃ r, s.bfs_search key = some r ∧ r.page_num = (t.2.leafFor key).addr ∧
      (r.found = false → ∃ i : Nat, r.index = i ∧ i ≤ (s.node r.page_num).count.toNat ∧
        ∀ value, Sorted (insertAt i (key, value) (s.node r.page_num).entries)) := by
  refine ⟨_, h.search_eq key, ?_⟩
  have hsorted : Sorted (s.node (t.2.leafFor key).addr).entries := by
    rw [h.leaf_entries]
    exact h.bounded.leafFor_sorted trivial
  generalize (t.2.leafFor key).addr = page at hsorted
  rcases search_leaf_cases page (s.node page) key with ⟨i, hi, _, hsearch⟩ | ⟨habsent, hsearch⟩
  · rw [hsearch]
    exact ⟨rfl, fun hfound => absurd hfound (by simp)⟩
  · rw [hsearch]
    refine ⟨rfl, fun _ => ⟨_, rfl, ?_, fun value => ?_⟩⟩
    · rw [← Page.length_entries]
      exact position_le _ _
    · rw [← upsert_eq_insertAt habsent]
      exact upsert_sorted hsorted

/-- What the searches report after an insertion along set parent fields. -/
theorem insert_report (h : Image s σ t) (key : UInt64) (hlinked : t.2.PathLinked key) (value : UInt64) :
    ∃ flag s', s.bfs_insert key value = some (if flag then 0 else -1, s') ∧
      (flag = true ↔ t.cost BFS_MAX_KEYS BFS_INTERNAL_MAX_KEYS key ≤ s.root.free_pages.toNat) ∧
      (flag = true → ∀ query, s'.report query = if query = key then some (true, value) else s.report query) ∧
      (flag = false → ((∀ query, s'.report query = s.report query) ↔ s.root.free_pages = 0)) := by
  obtain ⟨flag, t', s', σ', hends, hrun, himage', _⟩ := h.insert key value
  have hfree : s.root.free_pages = σ.free := h.has.2
  refine ⟨flag, s', hrun, ?_, ?_, ?_⟩
  · rw [hfree]
    exact (hends.paid Space.supply hlinked : flag = true ↔ _ ≤ σ.budget)
  · rintro rfl query
    have hentries : t'.2.entries = upsert key value t.2.entries := (hends.splices h.bounded hlinked).entries_eq
    rw [himage'.report_eq, h.report_eq, hentries, lookup_upsert]
    split <;> rfl
  · rintro rfl
    have hdry : σ.take = none ↔ s.root.free_pages = 0 := by
      rw [hfree, ← UInt64.toNat_inj]
      exact Space.supply.dry_iff
    rw [← hdry]
    constructor
    · intro hsame
      by_contra hsome
      obtain ⟨query, hchanged⟩ := hends.lookup_changes h.bounded (by decide) hsome
      have hreport := hsame query
      rw [himage'.report_eq, h.report_eq, Option.some.injEq] at hreport
      exact hchanged (reported_inj hreport)
    · intro hnone query
      rw [himage'.report_eq, h.report_eq, hends.unchanged_of_dry hnone]

end Image

/-- `bfs_insert` and `bfs_search` behave as a finite map. A search ends for every
key, in the leaf where the key belongs, and a successful insertion changes what
is found for its own key only. -/
theorem bfs_insert_search_map {s : Bfs} {σ : Space} {t : BTree} (h : Image s σ t) (hattached : t.2.Attached) :
    (∀ key, ∃ r, s.bfs_search key = some r ∧ r.page_num = (t.2.leafFor key).addr ∧
      (r.found = false → ∃ i : Nat, r.index = i ∧ i ≤ (s.node r.page_num).count.toNat ∧
        ∀ value, Sorted (insertAt i (key, value) (s.node r.page_num).entries))) ∧
    ∀ key value s', s.bfs_insert key value = some (0, s') →
      s'.report key = some (true, value) ∧ ∀ query, query ≠ key → s'.report query = s.report query := by
  refine ⟨h.search_position, fun key value s' hzero => ?_⟩
  obtain ⟨flag, s'', hrun, _, hreport, _⟩ := h.insert_report key (hattached.pathLinked key) value
  obtain ⟨hcode, rfl⟩ := Prod.mk.inj (Option.some.inj (hrun.symm.trans hzero))
  cases flag with
  | false => exact absurd hcode (by decide)
  | true =>
    refine ⟨by rw [hreport rfl, if_pos rfl], fun query hquery => ?_⟩
    rw [hreport rfl, if_neg hquery]

/-- A single leaf with the keys from 1 to 127. -/
def full_leaf_tree : BTree :=
  ⟨0, ({ addr := 3, next := 0, entries := (List.range 127).map fun i => (UInt64.ofNat (i + 1), 5)
         linked := false } : Leaf UInt64 UInt64 UInt64)⟩

/-- The counters of a disk with the page of `full_leaf_tree` and one or two
pages behind it. -/
def full_leaf_space (two : Bool) : Space where
  next := 4
  free := if two then 2 else 1
  positive := by decide
  bound := by cases two <;> decide

theorem full_leaf_image (two : Bool) :
    Image (disk_of full_leaf_tree 4 (if two then 2 else 1)) (full_leaf_space two) full_leaf_tree := by
  have hcheck : full_leaf_tree.2.check none none = true := by decide +kernel
  have hfill : full_leaf_tree.2.Fill BFS_MAX_KEYS BFS_INTERNAL_MAX_KEYS := by decide +kernel
  have hlevel : full_leaf_tree.1 < 2 ^ 16 := by decide
  have hpages : ∀ b ∈ full_leaf_tree.2.pages, b ≠ 0 ∧ b.toNat < 4 := forall_mem_of_all (by decide)
  exact disk_of_image (σ := full_leaf_space two) (Tree.bounded_of_check hcheck) hfill hlevel rfl (by decide) hpages

example : full_leaf_tree.2.entries.length = BFS_MAX_KEYS := by decide +kernel

/-- With two free pages a full leaf at the root takes one more key. -/
theorem full_leaf_insert_map : ∃ s', (disk_of full_leaf_tree 4 2).bfs_insert 200 7 = some (0, s') ∧
    s'.report 200 = some (true, 7) ∧
      ∀ query, query ≠ 200 → s'.report query = (disk_of full_leaf_tree 4 2).report query := by
  have hcost : full_leaf_tree.cost BFS_MAX_KEYS BFS_INTERNAL_MAX_KEYS 200 ≤ 2 := by decide +kernel
  have himage : Image (disk_of full_leaf_tree 4 2) (full_leaf_space true) full_leaf_tree := full_leaf_image true
  obtain ⟨flag, s', hrun, hpaid, _⟩ := himage.insert_report 200 trivial 7
  obtain rfl := hpaid.mpr hcost
  exact ⟨s', hrun, (bfs_insert_search_map himage trivial).2 200 7 s' hrun⟩

/-- A failed `bfs_insert` loses nothing exactly when it fails at once: some
page was free but fewer than the insertion needs, and the halves already written
are not all reachable any more. -/
theorem bfs_insert_failed_keeps_iff {s : Bfs} {σ : Space} {t : BTree} (h : Image s σ t) (hattached : t.2.Attached)
    (key value : UInt64) :
    (∀ code s', s.bfs_insert key value = some (code, s') → code ≠ 0 → ∀ query, s'.report query = s.report query) ↔
      s.root.free_pages = 0 ∨ t.cost BFS_MAX_KEYS BFS_INTERNAL_MAX_KEYS key ≤ s.root.free_pages.toNat := by
  obtain ⟨flag, s', hrun, hpaid, _, hkeeps⟩ := h.insert_report key (hattached.pathLinked key) value
  rw [← hpaid, hrun]
  cases flag with
  | true =>
    refine ⟨fun _ => .inr rfl, fun _ code s'' hsame hcode => ?_⟩
    exact absurd (Prod.mk.inj (Option.some.inj hsame)).1.symm hcode
  | false =>
    rw [← hkeeps rfl]
    constructor
    · exact fun hfails => .inl (hfails (-1) s' rfl (by decide))
    · rintro (hsame | hpaid') code s'' heq _
      · obtain ⟨_, rfl⟩ := Prod.mk.inj (Option.some.inj heq)
        exact hsame
      · cases hpaid'

/-- With two free pages nothing fails. -/
theorem full_leaf_insert_keeps :
    full_leaf_tree.cost BFS_MAX_KEYS BFS_INTERNAL_MAX_KEYS 200 ≤ 2 ∧
      ∀ code s', (disk_of full_leaf_tree 4 2).bfs_insert 200 7 = some (code, s') →
        code ≠ 0 → ∀ query, s'.report query = (disk_of full_leaf_tree 4 2).report query := by
  have hcost : full_leaf_tree.cost BFS_MAX_KEYS BFS_INTERNAL_MAX_KEYS 200 ≤ 2 := by decide +kernel
  exact ⟨hcost, (bfs_insert_failed_keeps_iff (full_leaf_image true) trivial 200 7).mpr (.inr hcost)⟩

/-- With one free page the right half of the leaf is written, and the new root
cannot be allocated: the insertion fails and the right half is out of reach. -/
theorem full_leaf_insert_loses : Image (disk_of full_leaf_tree 4 1) (full_leaf_space false) full_leaf_tree ∧
    full_leaf_tree.2.Attached ∧ ∃ s', (disk_of full_leaf_tree 4 1).bfs_insert 200 7 = some (-1, s') ∧
      ¬ ∀ query, s'.report query = (disk_of full_leaf_tree 4 1).report query := by
  have hcost : ¬ full_leaf_tree.cost BFS_MAX_KEYS BFS_INTERNAL_MAX_KEYS 200 ≤ 1 := by decide +kernel
  have himage : Image (disk_of full_leaf_tree 4 1) (full_leaf_space false) full_leaf_tree := full_leaf_image false
  obtain ⟨flag, s', hrun, hpaid, _, hkeeps⟩ := himage.insert_report 200 trivial 7
  cases flag with
  | true => exact absurd (hpaid.mp rfl) hcost
  | false => exact ⟨himage, trivial, s', hrun, fun hsame => absurd ((hkeeps rfl).mp hsame) (by decide)⟩

end graceos.bfs
