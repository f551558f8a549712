import GraceOS.Bfs.Attach

namespace graceos.bfs

open bplus

namespace Bfs

/-- How a run of the code relates to an outcome of the library: it returned and
the disk holds the outcome, or it is about to push a separator into the parent. -/
def Runs (s : Bfs) (run : Option (Int × Bfs)) (par : UInt64) {l : Nat} (s' : Bfs) :
    Outcome UInt64 UInt64 UInt64 l → Prop
  | .done t => run = some (0, s') ∧ s'.Holds par t ∧ s'.root.root_page = s.root.root_page
  | .failed t => run = some (-1, s') ∧ s'.Holds par t ∧ s'.root.root_page = s.root.root_page
  | .split left separator right =>
    run = bfs_insert_in_parent (s'.root.free_pages.toNat + 1) s' left.addr separator right.addr ∧
      s'.Holds par left ∧ s'.Holds par right ∧ s'.root.root_page = s.root.root_page
  | .rerooted root => run = some (0, s') ∧ s'.Holds 0 root.2 ∧ s'.root.root_page = root.2.addr

section Leaf

variable {s : Bfs} {σ σ' : Space} {par key value : UInt64} {t : Leaf UInt64 UInt64 UInt64}

theorem holds_leaf {s' : Bfs} {q : Page} {t' : Leaf UInt64 UInt64 UInt64}
    (h : s.Holds (l := 0) par t) (hq : s'.node t.addr = q) (hlevel : q.level = (s.node t.addr).level)
    (hparent : q.parent = (s.node t.addr).parent) (haddr : t'.addr = t.addr) (hlinked : t'.linked = t.linked)
    (hnext : q.next = t'.next) (hentries : q.entries = t'.entries) : s'.Holds (l := 0) par t' := by
  obtain ⟨hlevel', hparent', _, _⟩ := h
  unfold Holds
  rw [haddr, hlinked, hq]
  exact ⟨hlevel.trans hlevel', hparent.trans hparent', hnext, hentries⟩

/-- The leaf takes the entry. -/
theorem leaf_done (h : s.Sits (l := 0) σ par t) (hsorted : Sorted t.entries)
    (hcap : t.entries.length ≤ BFS_MAX_KEYS)
    (hroom : key ∈ t.entries.map Prod.fst ∨ t.entries.length < BFS_MAX_KEYS) :
    ∃ s', s.insert_at (search_leaf t.addr (s.node t.addr) key) key value = some (0, s') ∧
      s'.Holds (l := 0) par { t with entries := upsert key value t.entries } ∧
      s'.root.root_page = s.root.root_page ∧ Moves (touched [t.addr] σ) s s' σ σ := by
  obtain ⟨_, haddr, _⟩ := h.addr
  change Addressable t.addr at haddr
  obtain ⟨_, _, hnext, hentries⟩ := h.holds
  have hcount : (s.node t.addr).count.toNat = t.entries.length := by
    rw [← Page.length_entries, hentries]
  have hwrite : ∀ q : Page, Moves (touched [t.addr] σ) s (s.bfs_raw_write t.addr q.encode) σ σ :=
    fun q => (raw_write_moves h.has haddr q.encode).mono fun b hb => .inr (.inl (by simpa using hb))
  rcases search_leaf_cases t.addr (s.node t.addr) key with ⟨i, hi, hkey, hsearch⟩ | ⟨habsent, hsearch⟩
  · rw [hsearch]
    refine ⟨_, rfl, ?_, rfl, hwrite _⟩
    have hi' : i < (s.node t.addr).count.toNat := by simpa using hi
    have hkey' : (s.node t.addr).key i = key := by
      rw [← hkey]
      simp [Page.entries, pairs]
    refine holds_leaf h.holds (s.node_write t.addr _) rfl rfl rfl rfl hnext ?_
    change ((s.node t.addr).set_value i value).entries = upsert key value t.entries
    rw [set_value_entries (by rw [hcount]; exact hcap) hi', hkey', hentries]
    refine (upsert_eq_set hsorted (by rw [← hcount]; exact hi') ?_).symm
    simpa [hentries] using hkey
  · have hlt : (s.node t.addr).count.toNat < BFS_MAX_KEYS := by
      rw [hcount]
      exact hroom.resolve_left (by rw [← hentries]; exact habsent)
    have hpos : position key (s.node t.addr).entries ≤ (s.node t.addr).count.toNat := by
      rw [← Page.length_entries]
      exact position_le key _
    rw [hsearch, insert_at]
    dsimp only
    rw [if_neg (by decide), if_pos hlt, Int.toNat_natCast]
    have hhead := insert_in_leaf_head (s.node t.addr) (position key (s.node t.addr).entries) key value
    refine ⟨_, rfl, ?_, rfl, hwrite _⟩
    refine holds_leaf h.holds (s.node_write t.addr _) hhead.level hhead.parent rfl rfl
      (hhead.next.trans hnext) ?_
    rw [insert_in_leaf_entries hlt hpos]
    change insertAt _ _ _ = upsert key value t.entries
    rw [hentries, upsert_eq_insertAt (by rw [← hentries]; exact habsent)]

theorem insert_at_full (h : s.Sits (l := 0) σ par t) (habsent : key ∉ t.entries.map Prod.fst)
    (hfull : BFS_MAX_KEYS ≤ t.entries.length) :
    s.insert_at (search_leaf t.addr (s.node t.addr) key) key value =
      match s.bfs_alloc_page with
      | (right_page, s₁) =>
        if right_page = 0 then some (-1, s₁)
        else
          let left_leaf := split_leaf_left (s.node t.addr) (position key t.entries) key value right_page
          let right_leaf := split_leaf_right (s.node t.addr) (position key t.entries) key value
          let s₃ := (s₁.bfs_raw_write t.addr left_leaf.encode).bfs_raw_write right_page right_leaf.encode
          bfs_insert_in_parent (s₃.root.free_pages.toNat + 1) s₃ t.addr (right_leaf.key 0) right_page := by
  obtain ⟨_, _, _, hentries⟩ := h.holds
  have hcount : (s.node t.addr).count.toNat = t.entries.length := by
    rw [← Page.length_entries, hentries]
  rcases search_leaf_cases t.addr (s.node t.addr) key with ⟨i, hi, hkey, _⟩ | ⟨_, hsearch⟩
  · refine absurd ?_ habsent
    rw [← hentries, ← hkey]
    exact List.mem_map_of_mem (List.getElem_mem hi)
  · rw [hsearch, insert_at]
    dsimp only
    rw [if_neg (by decide), if_neg (by rw [hcount]; omega), Int.toNat_natCast, hentries]

/-- The two halves of a leaf are written, and their separator is about to go up. -/
theorem leaf_split (h : s.Sits (l := 0) σ par t) (habsent : key ∉ t.entries.map Prod.fst)
    (hcap : t.entries.length ≤ BFS_MAX_KEYS) (hfull : BFS_MAX_KEYS ≤ t.entries.length) {fresh : UInt64}
    (halloc : σ.take = some (fresh, σ')) {entry : UInt64 × UInt64} {lower upper : List (UInt64 × UInt64)}
    (hcut : lower ++ entry :: upper = upsert key value t.entries)
    (hmid : lower.length = (upsert key value t.entries).length / 2) :
    ∃ s', s.insert_at (search_leaf t.addr (s.node t.addr) key) key value =
        bfs_insert_in_parent (s'.root.free_pages.toNat + 1) s' t.addr entry.1 fresh ∧
      s'.Holds (l := 0) par { t with next := fresh, entries := lower } ∧
      s'.Holds (l := 0) par
        { addr := fresh, next := t.next, entries := entry :: upper, linked := t.linked } ∧
      s'.root.root_page = s.root.root_page ∧ Moves (touched [t.addr] σ) s s' σ σ' := by
  obtain ⟨hlevel, hparent, hnext, hentries⟩ := h.holds
  obtain ⟨hne, haddr, hnotFree⟩ := h.addr
  change Addressable t.addr at haddr
  have hmem := Space.supply.mem_free halloc
  have hfreshAddr := Space.addressable_of_mem hmem
  have hfreshNe : t.addr ≠ fresh := by
    rintro rfl
    exact hnotFree hmem
  have hcount : (s.node t.addr).count.toNat = t.entries.length := by
    rw [← Page.length_entries, hentries]
  have hpos : position key t.entries ≤ (s.node t.addr).count.toNat := by
    rw [hcount]
    exact position_le key _
  obtain ⟨hboth, hlength⟩ := split_leaf_entries (p := s.node t.addr) (x := key) (y := value)
    fresh (by rw [hcount]; exact hcap) hpos
  have hupsert : (s.node t.addr).entries.take (position key t.entries) ++
      (key, value) :: (s.node t.addr).entries.drop (position key t.entries) = upsert key value t.entries := by
    rw [upsert_eq_insertAt habsent, hentries]
    rfl
  rw [hupsert, ← hcut] at hboth
  rw [upsert_length_of_absent habsent] at hmid
  obtain ⟨hleft, hright⟩ := List.append_inj hboth (by rw [hlength, hcount, hmid])
  rw [insert_at_full h habsent hfull]
  obtain ⟨s₁, hallocRun, hallocMoves, hallocRoot⟩ := alloc_page_some h.has halloc
  rw [hallocRun]
  dsimp only
  rw [if_neg (Space.ne_zero_of_mem hmem)]
  generalize hq : split_leaf_left (s.node t.addr) (position key t.entries) key value fresh = q at hleft ⊢
  generalize hr : split_leaf_right (s.node t.addr) (position key t.entries) key value = r at hright ⊢
  have hwrite := raw_write_moves hallocMoves.has haddr q.encode
  have hwriteFresh := raw_write_moves hwrite.has hfreshAddr r.encode
  have hmoves := (hallocMoves.trans hwrite).trans hwriteFresh
  have hseparator : r.key 0 = entry.1 := by
    have hcountR : 0 < r.count.toNat := by
      rw [← Page.length_entries, hright]
      exact Nat.succ_pos _
    have hhead : r.entries.head? = some (r.key 0, r.value 0) := by
      obtain ⟨n, hn⟩ : ∃ n, r.count.toNat = n + 1 := ⟨r.count.toNat - 1, by omega⟩
      rw [Page.entries, hn, pairs_succ]
      rfl
    rw [hright] at hhead
    exact (congrArg Prod.fst (Option.some.inj hhead)).symm
  rw [hseparator]
  refine ⟨(s₁.bfs_raw_write t.addr q.encode).bfs_raw_write fresh r.encode, rfl, ?_, ?_, hallocRoot,
    hmoves.mono ?_⟩
  · refine holds_leaf h.holds (q := q) ?_ ?_ ?_ rfl rfl ?_ hleft
    · rw [hwriteFresh.touches.node_eq haddr hfreshNe, node_write]
    · rw [← hq]
      rfl
    · rw [← hq]
      rfl
    · rw [← hq]
      rfl
  · unfold Holds
    rw [node_write]
    refine ⟨?_, ?_, ?_, hright⟩
    · rw [← hr]
      exact hlevel
    · rw [← hr]
      exact hparent
    · rw [← hr]
      exact hnext
  · rintro b (((hb | hb) | hb) | hb)
    · exact .inl hb
    · exact .inr (.inr (hb ▸ hmem))
    · exact .inr (.inl (by simpa using hb))
    · exact .inr (.inr (hb ▸ hmem))

end Leaf

section Inner

variable {s : Bfs} {left_page separator right_page par_page : UInt64} {fuel : Nat}

theorem insert_in_parent_root (hparent : (s.node left_page).parent = 0) :
    bfs_insert_in_parent (fuel + 1) s left_page separator right_page =
      some (s.insert_new_root left_page separator right_page) := by
  rw [bfs_insert_in_parent, hparent]
  rfl

theorem insert_in_parent_room (hparent : (s.node left_page).parent = par_page) (hne : par_page ≠ 0)
    (hroom : (s.node par_page).count.toNat < BFS_INTERNAL_MAX_KEYS) :
    bfs_insert_in_parent (fuel + 1) s left_page separator right_page =
      some (s.insert_with_room par_page separator right_page) := by
  rw [bfs_insert_in_parent, hparent, if_neg hne]
  exact if_pos hroom

theorem insert_in_parent_full (hparent : (s.node left_page).parent = par_page) (hne : par_page ≠ 0)
    (hfull : BFS_INTERNAL_MAX_KEYS ≤ (s.node par_page).count.toNat) {new_right : UInt64} {s' : Bfs}
    (hsplit : s.insert_split par_page separator right_page = (new_right, s')) :
    bfs_insert_in_parent (fuel + 1) s left_page separator right_page =
      if new_right = 0 then some (-1, s')
      else bfs_insert_in_parent fuel s' par_page
        (split_node_promoted (s.node par_page) separator) new_right := by
  rw [bfs_insert_in_parent, hparent, if_neg hne]
  dsimp only
  rw [if_neg (by omega), hsplit]

end Inner

section Step

variable {s s' : Bfs} {σ σ₁ : Space} {par key value separator : UInt64} {l : Nat}
  {t : Inner UInt64 UInt64 (Node l)} {left right : Node l} {range : Set UInt64}

theorem touched_child :
    touched (target key t.first t.rest).pages σ ⊆ touched (Tree.pages (l := l + 1) t) σ :=
  fun _ hb => touched_target _ (.inl hb)

theorem parent_unlinked (h : s.Holds par left) (hlinked : left.linked = false) :
    (s.node left.addr).parent = 0 := by
  rw [h.parent, hlinked]
  rfl

theorem Pending.parent_linked {s₁ : Bfs} (h : Pending s s₁ σ σ₁ par key value separator t left right)
    (hlinked : left.linked = true) : (s₁.node left.addr).parent = t.addr := by
  rw [h.holds_left.parent, hlinked]
  rfl

theorem Sits.replaced (h : s.Sits (l := l + 1) σ par t)
    (hmoves : Moves (touched (bplus.target key t.first t.rest).pages σ) s s' σ σ₁) {child : Node l}
    (hchild : s'.Holds t.addr child) (haddr : child.addr = (bplus.target key t.first t.rest).addr) :
    s'.Holds (l := l + 1) par (t.replace key child) := by
  obtain ⟨hlevel, hparent, hfirst, hrest, _⟩ := h.holds
  have hnode : s'.node t.addr = s.node t.addr :=
    hmoves.touches.node_eq h.inner_addr.2.1 h.addr_untouched
  obtain ⟨hviewFirst, hviewRest⟩ := graft_view Tree.addr haddr
  have hevery := (h.others (hmoves.touches.mono Set.subset_union_left)).graft (child, [])
    ⟨hchild, by simp⟩
  refine ⟨?_, ?_, ?_, ?_, hevery⟩
  · rw [Inner.replace, hnode, hlevel]
  · rw [Inner.replace, hnode, hparent]
  · rw [Inner.replace, hnode, hfirst, hviewFirst]
  · rw [Inner.replace, hnode, hrest, hviewRest]

theorem child_runs {o : Outcome UInt64 UInt64 UInt64 l} {run : Option (Int × Bfs)}
    (hsits : s.Sits (l := l + 1) σ par t)
    (hbounded : Tree.Bounded (l := l + 1) range t) (hkey : key ∈ range)
    (hfill : Tree.Fill BFS_MAX_KEYS BFS_INTERNAL_MAX_KEYS (l := l + 1) t)
    (hlevel : l + 1 + 1 < 2 ^ 16)
    (ih : ∀ {par : UInt64}, s.Sits σ par (target key t.first t.rest) → ∀ {range : Set UInt64},
      (target key t.first t.rest).Bounded range → key ∈ range →
      (target key t.first t.rest).Fill BFS_MAX_KEYS BFS_INTERNAL_MAX_KEYS → l + 1 < 2 ^ 16 →
      ∃ s', Runs s run par s' o ∧ Moves (touched (target key t.first t.rest).pages σ) s s' σ σ₁) :
    ∃ s', Runs s run t.addr s' o ∧ Moves (touched (target key t.first t.rest).pages σ) s s' σ σ₁ := by
  obtain ⟨sub, _, hkeySub, htarget, _, _⟩ := Within.focus (Tree.widens_bounded _) hbounded hkey
  exact ih (hsits.target key) htarget hkeySub (Every.target hfill.2.2 key) (by omega)

end Step

/-- Running `bfs_insert` below a node is inserting into the tree it holds. -/
theorem insert_runs {s : Bfs} {σ σ' : Space} {par key value : UInt64} {l : Nat} {t : Node l}
    {o : Outcome UInt64 UInt64 UInt64 l} (hins : Inserted key value t σ o σ')
    (hsits : s.Sits σ par t) {range : Set UInt64} (hbounded : t.Bounded range) (hkey : key ∈ range)
    (hfill : t.Fill BFS_MAX_KEYS BFS_INTERNAL_MAX_KEYS) (hlevel : l + 1 < 2 ^ 16) :
    ∃ s', Runs s (s.insert_at (search_leaf (t.leafFor key).addr (s.node (t.leafFor key).addr) key) key
        value) par s' o ∧ Moves (touched t.pages σ) s s' σ σ' := by
  induction hins generalizing par range with
  | leafDone hroom =>
    obtain ⟨s', hrun, hholds, hroot, hmoves⟩ := leaf_done hsits hbounded.1 hfill hroom
    exact ⟨s', ⟨hrun, hholds, hroot⟩, hmoves⟩
  | leafFailed habsent hfull halloc =>
    refine ⟨s, ⟨?_, hsits.holds, rfl⟩, (Moves.refl hsits.has).mono (Set.empty_subset _)⟩
    exact (insert_at_full hsits habsent hfull).trans (by rw [alloc_page_none hsits.has halloc]; rfl)
  | leafSplit habsent hfull halloc hcut hmid =>
    obtain ⟨s', hrun, hleft, hright, hroot, hmoves⟩ :=
      leaf_split hsits habsent hfill hfull halloc hcut hmid
    exact ⟨s', ⟨hrun, hleft, hright, hroot⟩, hmoves⟩
  | @childDone l t σ σ₁ child hchild ih =>
    obtain ⟨s', ⟨hrun, hholds, hroot⟩, hmoves⟩ := child_runs hsits hbounded hkey hfill hlevel ih
    exact ⟨s', ⟨hrun, hsits.replaced hmoves hholds hchild.kept.1, hroot⟩, hmoves.mono touched_child⟩
  | @childFailed l t σ σ₁ child hchild ih =>
    obtain ⟨s', ⟨hrun, hholds, hroot⟩, hmoves⟩ := child_runs hsits hbounded hkey hfill hlevel ih
    exact ⟨s', ⟨hrun, hsits.replaced hmoves hholds hchild.kept.1, hroot⟩, hmoves.mono touched_child⟩
  | @childRerooted l t σ σ₁ root hchild ih =>
    obtain ⟨s', hruns, hmoves⟩ := child_runs hsits hbounded hkey hfill hlevel ih
    exact ⟨s', hruns, hmoves.mono touched_child⟩
  | @attachDone l t σ σ₁ left right separator run hchild hlinked hroom hrun ih =>
    obtain ⟨s₁, ⟨hcode, hleft, hright, hroot⟩, hmoves⟩ := child_runs hsits hbounded hkey hfill hlevel ih
    have hpending : Pending s s₁ σ σ₁ par key value separator t left right :=
      ⟨hsits, hchild, hmoves, hleft, hright⟩
    obtain ⟨s', hstep, hholds, hmoves', hroot'⟩ := hpending.room hbounded hkey hroom hrun
    refine ⟨s', ⟨?_, hholds, hroot'.trans hroot⟩, hmoves'⟩
    rw [← hstep, ← insert_in_parent_room (hpending.parent_linked hlinked) hsits.inner_addr.1
      (by rw [hpending.node_eq, hpending.count_eq]; exact hroom)]
    exact hcode
  | @attachFailed l t σ σ₁ left right separator first lower upper hchild hlinked hfull hrun hmid
      halloc ih =>
    obtain ⟨s₁, ⟨hcode, hleft, hright, hroot⟩, hmoves⟩ := child_runs hsits hbounded hkey hfill hlevel ih
    have hpending : Pending s s₁ σ σ₁ par key value separator t left right :=
      ⟨hsits, hchild, hmoves, hleft, hright⟩
    obtain ⟨s', hstep, hholds, hmoves', hroot'⟩ :=
      hpending.full_none hbounded hkey hfill.2.1 hrun hmid halloc
    refine ⟨s', ⟨?_, hholds, hroot'.trans hroot⟩, hmoves'⟩
    refine hcode.trans ?_
    rw [insert_in_parent_full (hpending.parent_linked hlinked) hsits.inner_addr.1
      (by rw [hpending.node_eq, hpending.count_eq]; exact hfull) hstep, if_pos rfl]
  | @attachSplit l t σ σ₁ σ₂ left right separator promoted first child lower upper fresh hchild
      hlinked hfull hrun hmid halloc ih =>
    obtain ⟨s₁, ⟨hcode, hleft, hright, hroot⟩, hmoves⟩ := child_runs hsits hbounded hkey hfill hlevel ih
    have hpending : Pending s s₁ σ σ₁ par key value separator t left right :=
      ⟨hsits, hchild, hmoves, hleft, hright⟩
    obtain ⟨s', hstep, hpromoted, hkept, hmoved, hmoves', hroot'⟩ :=
      hpending.full_some hbounded hkey hfill.2.1 hrun hmid halloc rfl rfl
        (.attachSplit hchild hlinked hfull hrun hmid halloc)
    refine ⟨s', ⟨?_, hkept, hmoved, hroot'.trans hroot⟩, hmoves'⟩
    -- One call deeper there is one page less to hand out.
    have hfuel : s₁.root.free_pages.toNat = s'.root.free_pages.toNat + 1 := by
      rw [hmoves.has.2, hmoves'.has.2]
      exact Space.supply.spent halloc
    have hne : fresh ≠ 0 := Space.ne_zero_of_mem (Space.supply.mem_free halloc)
    refine hcode.trans ?_
    rw [insert_in_parent_full (hpending.parent_linked hlinked) hsits.inner_addr.1
      (by rw [hpending.node_eq, hpending.count_eq]; exact hfull) hstep, if_neg hne, hpending.node_eq,
      hpromoted, hfuel]
    rfl
  | @rerootFailed l t σ σ₁ left right separator hchild hlinked halloc ih =>
    obtain ⟨s₁, ⟨hcode, hleft, hright, hroot⟩, hmoves⟩ := child_runs hsits hbounded hkey hfill hlevel ih
    refine ⟨s₁, ⟨?_, hsits.replaced hmoves hleft hchild.kept.1, hroot⟩, hmoves.mono touched_child⟩
    refine hcode.trans ?_
    rw [insert_in_parent_root (parent_unlinked hleft hlinked), new_root_none hmoves.has halloc]
  | @rerootDone l t σ σ₁ σ₂ left right separator fresh hchild hlinked halloc ih =>
    obtain ⟨s₁, ⟨hcode, hleft, hright, hroot⟩, hmoves⟩ := child_runs hsits hbounded hkey hfill hlevel ih
    have hpending : Pending s s₁ σ σ₁ par key value separator t left right :=
      ⟨hsits, hchild, hmoves, hleft, hright⟩
    obtain ⟨hnodup, hpages⟩ := hpending.halves
    obtain ⟨s', hstep, hholds, hroot', hmoves'⟩ := new_root_some separator hmoves.has halloc
      hleft hright hnodup (fun b hb => (hpages b hb).1) (by omega)
    refine ⟨s', ⟨?_, hholds, hroot'⟩, (hmoves.trans hmoves').mono ?_⟩
    · refine hcode.trans ?_
      rw [insert_in_parent_root (parent_unlinked hleft hlinked), hstep]
    · rintro b (hb | hb | hb | hb)
      · exact touched_child hb
      · exact .inl hb
      · exact touched_child (hpages b hb).2.2
      · exact .inr (.inr (hmoves.later.region_subset hb))

end Bfs

end graceos.bfs
