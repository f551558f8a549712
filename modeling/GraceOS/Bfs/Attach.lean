import GraceOS.Bfs.Parents

namespace graceos.bfs

open bplus List

/-- The pages a piece of an insertion may write: the super-block, the pages of
the tree it works on, and free pages. -/
def touched (pages : List UInt64) (σ : Space) : Set UInt64 :=
  { b | b = 0 ∨ b ∈ pages ∨ b ∈ σ.region }

theorem touched_mono {small large : List UInt64} {σ : Space} (h : ∀ b ∈ small, b ∈ large) :
    touched small σ ⊆ touched large σ := by
  rintro b (hb | hb | hb)
  · exact .inl hb
  · exact .inr (.inl (h b hb))
  · exact .inr (.inr hb)

/-- The insertions of the library with the capacities of the source. -/
abbrev Inserted (key value : UInt64) {l : Nat} (t : Node l) (σ : Space)
    (o : Outcome UInt64 UInt64 UInt64 l) (σ' : Space) : Prop :=
  Inserts BFS_MAX_KEYS BFS_INTERNAL_MAX_KEYS Space.take key value t σ o σ'

/-- A tree sits on the disk, apart from the super-block and the free pages. -/
structure Bfs.Sits (s : Bfs) (σ : Space) (par : UInt64) {l : Nat} (t : Node l) : Prop where
  has : s.Has σ
  holds : s.Holds par t
  nodup : t.pages.Nodup
  pages : ∀ b ∈ t.pages, b ≠ 0 ∧ Addressable b ∧ b ∉ σ.region

namespace Bfs.Sits

variable {s s' : Bfs} {σ σ' : Space} {par key value : UInt64}

theorem addr {l : Nat} {t : Node l} (h : s.Sits σ par t) :
    t.addr ≠ 0 ∧ Addressable t.addr ∧ t.addr ∉ σ.region :=
  h.pages _ t.addr_mem_pages

theorem outcome_pages {l : Nat} {t : Node l} {o : Outcome UInt64 UInt64 UInt64 l}
    (h : s.Sits σ par t) (hins : Inserted key value t σ o σ') :
    o.pages.Nodup ∧ ∀ b ∈ o.pages, (b ≠ 0 ∧ Addressable b ∧ b ∉ σ'.region) ∧ b ∈ touched t.pages σ := by
  have hok := hins.pagesOk Space.supply h.nodup fun b hb => (h.pages b hb).2.2
  refine ⟨hok.nodup, fun b hb => ?_⟩
  rcases hok.mem b hb with hold | hnew
  · obtain ⟨hne, haddr, hfree⟩ := h.pages b hold
    exact ⟨⟨hne, haddr, fun hin => hfree (hok.shrinks hin)⟩, .inr (.inl hold)⟩
  · exact ⟨⟨Space.ne_zero_of_mem hnew.1, Space.addressable_of_mem hnew.1, hnew.2⟩, .inr (.inr hnew.1)⟩

section Inner

variable {l : Nat} {t : Inner UInt64 UInt64 (Node l)}

theorem inner_addr (h : s.Sits (l := l + 1) σ par t) :
    t.addr ≠ 0 ∧ Addressable t.addr ∧ t.addr ∉ σ.region :=
  h.addr

theorem addr_notMem (h : s.Sits (l := l + 1) σ par t) :
    t.addr ∉ gather Tree.pages t.first t.rest :=
  (List.nodup_cons.mp h.nodup).1

theorem target (h : s.Sits (l := l + 1) σ par t) (key : UInt64) :
    s.Sits σ t.addr (bplus.target key t.first t.rest) := by
  refine ⟨h.has, Every.target h.holds.2.2.2.2 key, ?_, fun b hb => ?_⟩
  · obtain ⟨before, after, hold, _⟩ := gather_graft Tree.pages key t.first t.rest
    have hnodup := (List.nodup_cons.mp h.nodup).2
    change (gather Tree.pages t.first t.rest).Nodup at hnodup
    rw [hold] at hnodup
    exact (List.nodup_append.mp (List.nodup_append.mp hnodup).1).2.1
  · exact h.pages b (mem_cons_of_mem _ (mem_gather_of_target hb))

theorem addr_untouched (h : s.Sits (l := l + 1) σ par t) :
    t.addr ∉ touched (bplus.target key t.first t.rest).pages σ := by
  rintro (hzero | hin | hfree)
  · exact h.addr.1 hzero
  · exact h.addr_notMem (mem_gather_of_target hin)
  · exact h.addr.2.2 hfree

/-- The other children of a node keep their trees while the target and the node
itself are written. -/
theorem others (h : s.Sits (l := l + 1) σ par t)
    (htouches : Touches (touched (bplus.target key t.first t.rest).pages σ ∪ {t.addr}) s s') :
    Others key (s'.Holds t.addr) t.first t.rest := by
  have hinside : Every (fun child : Node l => ∀ b ∈ child.pages, b ∈ gather Tree.pages t.first t.rest)
      t.first t.rest :=
    ⟨fun b hb => mem_gather.mpr (.inl hb), fun pair hpair b hb => mem_gather.mpr (.inr ⟨pair, hpair, hb⟩)⟩
  have hapart := others_disjoint (List.nodup_cons.mp h.nodup).2 key
  refine ((hinside.others key).imp (R := fun child : Node l => ∀ b ∈ child.pages,
    Addressable b ∧ b ∉ touched (bplus.target key t.first t.rest).pages σ ∪ {t.addr}) ?_ hapart).imp ?_
    (Every.others h.holds.2.2.2.2 key)
  · intro child hin hdisjoint b hb
    obtain ⟨hne, haddr, hfree⟩ := h.pages b (mem_cons_of_mem _ (hin b hb))
    refine ⟨haddr, ?_⟩
    rintro ((hzero | htarget | hregion) | hroot)
    · exact hne hzero
    · exact hdisjoint b hb htarget
    · exact hfree hregion
    · obtain rfl : b = t.addr := hroot
      exact h.addr_notMem (hin t.addr hb)
  · intro child hpages hholds
    exact hholds.of_touches htouches hpages

end Inner

end Bfs.Sits

section Attach

variable {s s₁ : Bfs} {σ σ₁ : Space} {par key value separator : UInt64} {l : Nat}
  {t : Inner UInt64 UInt64 (Node l)} {left right : Node l} {range : Set UInt64}

theorem touched_target (key : UInt64) :
    touched (target key t.first t.rest).pages σ ∪ {t.addr} ⊆
      touched (Tree.pages (l := l + 1) t) σ := by
  rintro b (hb | rfl)
  · exact touched_mono (fun c hc => mem_cons_of_mem _ (mem_gather_of_target hc)) hb
  · exact .inr (.inl mem_cons_self)

/-- The state after a child was split, before its halves are hung into the
parent. -/
structure Bfs.Pending (s s₁ : Bfs) (σ σ₁ : Space) (par key value separator : UInt64)
    (t : Inner UInt64 UInt64 (Node l)) (left right : Node l) : Prop where
  sits : s.Sits (l := l + 1) σ par t
  inserted : Inserted key value (target key t.first t.rest) σ (.split left separator right) σ₁
  moves : Bfs.Moves (touched (target key t.first t.rest).pages σ) s s₁ σ σ₁
  holds_left : s₁.Holds t.addr left
  holds_right : s₁.Holds t.addr right

namespace Bfs.Pending

theorem left_addr (h : Pending s s₁ σ σ₁ par key value separator t left right) :
    left.addr = (target key t.first t.rest).addr :=
  h.inserted.kept.1

theorem node_eq (h : Pending s s₁ σ σ₁ par key value separator t left right) :
    s₁.node t.addr = s.node t.addr :=
  h.moves.touches.node_eq h.sits.addr.2.1 h.sits.addr_untouched

/-- The pages of the two halves: no duplicates, on the disk, not free, and not
the page of the parent. -/
theorem halves (h : Pending s s₁ σ σ₁ par key value separator t left right) :
    (left.pages ++ right.pages).Nodup ∧ ∀ b ∈ left.pages ++ right.pages,
      (b ≠ 0 ∧ Addressable b ∧ b ∉ σ₁.region) ∧ b ≠ t.addr ∧
        b ∈ touched (target key t.first t.rest).pages σ := by
  obtain ⟨hnodup, hpages⟩ := (h.sits.target key).outcome_pages h.inserted
  refine ⟨hnodup, fun b hb => ⟨(hpages b hb).1, ?_, (hpages b hb).2⟩⟩
  rintro rfl
  exact h.sits.addr_untouched (hpages _ hb).2

/-- The code finds the place of the new child by its separator, and that is
right behind the target. -/
theorem key_pos (h : Pending s s₁ σ σ₁ par key value separator t left right)
    (hbounded : Tree.Bounded (l := l + 1) range t) (hkey : key ∈ range) :
    bfs_key_pos (s.node t.addr) separator = slot key t.first t.rest := by
  obtain ⟨sub, _, hkeySub, htarget, _, hsplit⟩ := Within.focus (Tree.widens_bounded _) hbounded hkey
  obtain ⟨hsep, hlower, hleft, hright⟩ := h.inserted.bounded (by decide) (by decide) htarget hkeySub
  have hwithin := hsplit left separator right hsep hlower hleft hright
  rw [bfs_key_pos_eq, h.sits.holds.2.2.2.1, position_map separator Tree.addr, position_separator hwithin]

theorem view (h : Pending s s₁ σ σ₁ par key value separator t left right)
    (hbounded : Tree.Bounded (l := l + 1) range t) (hkey : key ∈ range) {right' : Node l}
    (hright : right'.addr = right.addr) {run : Node l × List (UInt64 × Node l)}
    (hrun : graft key (left, [(separator, right')]) t.first t.rest = run) :
    run.1.addr = (s.node t.addr).value 0 ∧
      run.2.map (fun pair => (pair.1, pair.2.addr)) =
        (s.node t.addr).children.take (bfs_key_pos (s.node t.addr) separator) ++ (separator, right.addr) ::
          (s.node t.addr).children.drop (bfs_key_pos (s.node t.addr) separator) := by
  subst hrun
  have hview : (graft key (left, [(separator, right')]) t.first t.rest).1.addr = t.first.addr ∧
      (graft key (left, [(separator, right')]) t.first t.rest).2.map (fun pair => (pair.1, pair.2.addr)) =
        insertAt (slot key t.first t.rest) (separator, right'.addr) (t.rest.map fun pair => (pair.1, pair.2.addr)) :=
    graft_view_insertAt Tree.addr h.left_addr
  obtain ⟨hfirst, hrest⟩ := hview
  rw [h.key_pos hbounded hkey, h.sits.holds.2.2.2.1, h.sits.holds.2.2.1, hrest, ← hright]
  exact ⟨hfirst, rfl⟩

theorem count_eq (h : Pending s s₁ σ σ₁ par key value separator t left right) :
    (s.node t.addr).count.toNat = t.rest.length := by
  rw [← Page.length_children, h.sits.holds.2.2.2.1, length_map]

theorem holds_node (h : Pending s s₁ σ σ₁ par key value separator t left right) {s' : Bfs} {q : Page}
    {first : Node l} {rest : List (UInt64 × Node l)} (hq : s'.node t.addr = q)
    (hhead : (s.node t.addr).SameHead q) (hfirst : q.value 0 = first.addr)
    (hrest : q.children = rest.map fun pair => (pair.1, pair.2.addr))
    (hevery : Every (s'.Holds t.addr) first rest) :
    s'.Holds (l := l + 1) par { t with first := first, rest := rest } := by
  obtain ⟨hlevel, hparent, _, _, _⟩ := h.sits.holds
  refine ⟨?_, ?_, ?_, ?_, hevery⟩
  · rw [hq, hhead.level, hlevel]
  · rw [hq, hhead.parent, hparent]
  · rw [hq, hfirst]
  · rw [hq, hrest]

/-- While only the parent page, the super-block and free pages are written, all
children are there, the new one among them. -/
theorem every_graft (h : Pending s s₁ σ σ₁ par key value separator t left right) {s' : Bfs}
    {written : Set UInt64} (htouches : Touches written s₁ s')
    (hwritten : ∀ b ∈ written, b = 0 ∨ b = t.addr ∨ b ∈ σ₁.region) :
    Every (s'.Holds t.addr) (graft key (left, [(separator, right)]) t.first t.rest).1
      (graft key (left, [(separator, right)]) t.first t.rest).2 := by
  have hall : Touches (touched (target key t.first t.rest).pages σ ∪ {t.addr}) s s' := by
    refine (h.moves.touches.trans htouches).mono ?_
    rintro b (hb | hb)
    · exact .inl hb
    · rcases hwritten b hb with hzero | hroot | hfree
      · exact .inl (.inl hzero)
      · exact .inr hroot
      · exact .inl (.inr (.inr (h.moves.later.region_subset hfree)))
  have hapart : ∀ b ∈ left.pages ++ right.pages, Addressable b ∧ b ∉ written := by
    intro b hb
    obtain ⟨⟨hne, haddr, hfree⟩, hroot, _⟩ := h.halves.2 b hb
    refine ⟨haddr, fun hin => ?_⟩
    rcases hwritten b hin with hzero | hsame | hregion
    · exact hne hzero
    · exact hroot hsame
    · exact hfree hregion
  refine (h.sits.others hall).graft _ ⟨?_, fun pair hpair => ?_⟩
  · exact h.holds_left.of_touches htouches fun b hb => hapart b (mem_append_left _ hb)
  · obtain rfl := List.mem_singleton.mp hpair
    exact h.holds_right.of_touches htouches fun b hb => hapart b (mem_append_right _ hb)

/-- The parent has room. -/
theorem room (h : Pending s s₁ σ σ₁ par key value separator t left right)
    (hbounded : Tree.Bounded (l := l + 1) range t) (hkey : key ∈ range)
    (hroom : t.rest.length < BFS_INTERNAL_MAX_KEYS)
    {run : Node l × List (UInt64 × Node l)}
    (hrun : graft key (left, [(separator, right.link)]) t.first t.rest = run) :
    ∃ s', s₁.insert_with_room t.addr separator right.addr = (0, s') ∧
      s'.Holds (l := l + 1) par { t with first := run.1, rest := run.2 } ∧
      Moves (touched (Tree.pages (l := l + 1) t) σ) s s' σ σ₁ ∧
      s'.root.root_page = s₁.root.root_page := by
  obtain ⟨hnodup, hpages⟩ := h.halves
  have haddr := h.sits.inner_addr.2.1
  have hrightMem : right.addr ∈ left.pages ++ right.pages := mem_append_right _ right.addr_mem_pages
  obtain ⟨⟨_, hrightAddr, _⟩, hrightNe, hrightIn⟩ := hpages _ hrightMem
  obtain ⟨hviewFirst, hviewRest⟩ := h.view hbounded hkey (Tree.link_addr right) hrun
  obtain ⟨hchildren, hvalue⟩ := insert_in_node_children (p := s.node t.addr) (x := separator)
    (y := right.addr) (by rw [h.count_eq]; exact hroom)
  generalize hq : insert_in_node (s.node t.addr) separator right.addr = q at hchildren hvalue
  have hwrite := raw_write_moves h.moves.has haddr q.encode
  have hset := set_parent_moves t.addr hwrite.has hrightAddr
  have hmoves := (h.moves.trans hwrite).trans hset
  have hwritten : Touches (touched (target key t.first t.rest).pages σ ∪ {t.addr}) s
      ((s₁.bfs_raw_write t.addr q.encode).set_parent right.addr t.addr) := by
    refine hmoves.touches.mono ?_
    rintro b ((hb | hb) | rfl)
    · exact .inl hb
    · exact .inr hb
    · exact .inl hrightIn
  obtain ⟨hnodupLeft, hnodupRight, hcross⟩ := List.nodup_append.mp hnodup
  have hevery : Every (((s₁.bfs_raw_write t.addr q.encode).set_parent right.addr t.addr).Holds t.addr)
      run.1 run.2 := by
    rw [← hrun]
    have hapart : ∀ b ∈ left.pages ++ right.pages, Addressable b ∧ b ∉ ({t.addr} : Set UInt64) :=
      fun b hb => ⟨(hpages b hb).1.2.1, (hpages b hb).2.1⟩
    refine (h.sits.others hwritten).graft _ ⟨?_, fun pair hpair => ?_⟩
    · refine (h.holds_left.of_touches hwrite.touches fun b hb => hapart b (mem_append_left _ hb)).of_touches
        hset.touches fun b hb => ⟨(hpages b (mem_append_left _ hb)).1.2.1, ?_⟩
      exact fun heq => hcross b hb _ right.addr_mem_pages heq
    · obtain rfl := List.mem_singleton.mp hpair
      exact (h.holds_right.of_touches hwrite.touches fun b hb => hapart b (mem_append_right _ hb)).set_parent
        hnodupRight fun b hb => (hpages b (mem_append_right _ hb)).1.2.1
  refine ⟨_, ?_, ?_, ⟨hwritten.mono (touched_target key), hmoves.has, hmoves.later, hmoves.handed_out⟩, rfl⟩
  · rw [insert_with_room, h.node_eq, hq]
  · refine h.holds_node (q := q) ?_ (hq ▸ insert_in_node_head) (hvalue.trans hviewFirst.symm)
      (hchildren.trans hviewRest.symm) hevery
    rw [hset.touches.node_eq haddr (Ne.symm hrightNe), node_write]

theorem cut (h : Pending s s₁ σ σ₁ par key value separator t left right)
    (hbounded : Tree.Bounded (l := l + 1) range t) (hkey : key ∈ range)
    (hfill : t.rest.length ≤ BFS_INTERNAL_MAX_KEYS) {first : Node l}
    {lower tail : List (UInt64 × Node l)}
    (hrun : graft key (left, [(separator, right)]) t.first t.rest = (first, lower ++ tail))
    (hmid : lower.length = (t.rest.length + 1) / 2) :
    (split_node_left (s.node t.addr) separator right.addr).value 0 = first.addr ∧
      (split_node_left (s.node t.addr) separator right.addr).children =
        lower.map (fun pair => (pair.1, pair.2.addr)) ∧
      (split_node_promoted (s.node t.addr) separator,
          (split_node_right (s.node t.addr) separator right.addr).value 0) ::
          (split_node_right (s.node t.addr) separator right.addr).children =
        tail.map fun pair => (pair.1, pair.2.addr) := by
  obtain ⟨hviewFirst, hviewRest⟩ := h.view hbounded hkey rfl hrun
  obtain ⟨hall, hlength, hvalue⟩ := split_node_children (p := s.node t.addr) (x := separator)
    (y := right.addr) (by rw [h.count_eq]; exact hfill)
  rw [← hviewRest, map_append] at hall
  obtain ⟨hlower, htail⟩ := append_inj hall (by rw [hlength, h.count_eq, length_map, hmid])
  exact ⟨hvalue.trans hviewFirst.symm, hlower, htail⟩

theorem split_node_left_head {p : Page} (x y : UInt64) : p.SameHead (split_node_left p x y) :=
  ⟨rfl, rfl, rfl⟩

theorem full_none (h : Pending s s₁ σ σ₁ par key value separator t left right)
    (hbounded : Tree.Bounded (l := l + 1) range t) (hkey : key ∈ range)
    (hfill : t.rest.length ≤ BFS_INTERNAL_MAX_KEYS) {first : Node l}
    {lower upper : List (UInt64 × Node l)}
    (hrun : graft key (left, [(separator, right)]) t.first t.rest = (first, lower ++ upper))
    (hmid : lower.length = (t.rest.length + 1) / 2) (halloc : σ₁.take = none) :
    ∃ s', s₁.insert_split t.addr separator right.addr = (0, s') ∧
      s'.Holds (l := l + 1) par { t with first := first, rest := lower } ∧
      Moves (touched (Tree.pages (l := l + 1) t) σ) s s' σ σ₁ ∧
      s'.root.root_page = s₁.root.root_page := by
  obtain ⟨hvalue, hchildren, _⟩ := h.cut hbounded hkey hfill hrun hmid
  have haddr := h.sits.inner_addr.2.1
  generalize hq : split_node_left (s.node t.addr) separator right.addr = q at hvalue hchildren
  have hwrite := raw_write_moves h.moves.has haddr q.encode
  have hmoves := h.moves.trans hwrite
  have hevery := h.every_graft hwrite.touches fun b hb => .inr (.inl hb)
  rw [hrun] at hevery
  refine ⟨s₁.bfs_raw_write t.addr q.encode, ?_, ?_, hmoves.mono (touched_target key), rfl⟩
  · rw [insert_split, h.node_eq, hq]
    dsimp only
    rw [alloc_page_none hwrite.has halloc]
    rfl
  · refine h.holds_node (q := q) (s₁.node_write _ _) (hq ▸ split_node_left_head _ _) hvalue hchildren ?_
    exact ⟨hevery.1, fun pair hpair => hevery.2 pair (mem_append_left _ hpair)⟩

/-- A full parent is cut in two, and the children that move get their new
parent. -/
theorem full_some (h : Pending s s₁ σ σ₁ par key value separator t left right)
    (hbounded : Tree.Bounded (l := l + 1) range t) (hkey : key ∈ range)
    (hfill : t.rest.length ≤ BFS_INTERNAL_MAX_KEYS) {first child : Node l}
    {lower upper : List (UInt64 × Node l)} {promoted fresh : UInt64} {σ₂ : Space}
    (hrun : graft key (left, [(separator, right)]) t.first t.rest =
      (first, lower ++ (promoted, child) :: upper))
    (hmid : lower.length = (t.rest.length + 1) / 2) (halloc : σ₁.take = some (fresh, σ₂))
    {kept moved : Inner UInt64 UInt64 (Node l)}
    (hkept : { t with first := first, rest := lower } = kept)
    (hmoved : { addr := fresh, linked := false, first := child.link
                rest := upper.map fun pair => (pair.1, pair.2.link) } = moved)
    (hins : Inserted (l := l + 1) key value t σ (.split kept promoted moved) σ₂) :
    ∃ s', s₁.insert_split t.addr separator right.addr = (fresh, s') ∧
      split_node_promoted (s.node t.addr) separator = promoted ∧
      s'.Holds (l := l + 1) par kept ∧ s'.Holds (l := l + 1) par moved ∧
      Moves (touched (Tree.pages (l := l + 1) t) σ) s s' σ σ₂ ∧
      s'.root.root_page = s₁.root.root_page := by
  obtain ⟨hvalue, hchildren, htail⟩ := h.cut hbounded hkey hfill hrun hmid
  rw [map_cons, List.cons.injEq, Prod.mk.injEq] at htail
  obtain ⟨⟨hpromoted, hrightValue⟩, hrightChildren⟩ := htail
  have haddr := h.sits.inner_addr.2.1
  have hmem := Space.supply.mem_free halloc
  have hfreshAddr := Space.addressable_of_mem hmem
  -- All pages of the outcome are different.
  obtain ⟨hnodup, hpages⟩ := h.sits.outcome_pages hins
  have hgather : Outcome.pages (.split kept promoted moved : Outcome UInt64 UInt64 UInt64 (l + 1)) =
      (t.addr :: gather Tree.pages first lower) ++ (fresh :: gather Tree.pages child upper) := by
    rw [← hkept, ← hmoved]
    change (t.addr :: gather Tree.pages first lower) ++ (fresh :: gather Tree.pages child.link
      (upper.map fun pair => (pair.1, pair.2.link))) = _
    rw [gather_map_link Tree.link_pages]
  rw [hgather] at hnodup hpages
  obtain ⟨hnodupKept, hnodupMoved, hcross⟩ := List.nodup_append.mp hnodup
  obtain ⟨hfreshNot, hnodupUpper⟩ := List.nodup_cons.mp hnodupMoved
  have hupper : ∀ b ∈ gather Tree.pages child upper,
      b ∈ (t.addr :: gather Tree.pages first lower) ++ (fresh :: gather Tree.pages child upper) :=
    fun b hb => mem_append_right _ (mem_cons_of_mem _ hb)
  -- The parent page, the fresh page, and then the children that move.
  generalize hq : split_node_left (s.node t.addr) separator right.addr = q at hvalue hchildren
  generalize hr : split_node_right (s.node t.addr) separator right.addr = r at hrightValue hrightChildren
  have hwrite := raw_write_moves h.moves.has haddr q.encode
  obtain ⟨s₃, hallocRun, hallocMoves, hallocRoot⟩ := alloc_page_some hwrite.has halloc
  have hwriteFresh := raw_write_moves hallocMoves.has hfreshAddr r.encode
  have hbefore := (hwrite.trans hallocMoves).trans hwriteFresh
  have hevery := h.every_graft hbefore.touches (by
    rintro b ((hb | hb | hb) | hb)
    · exact .inr (.inl hb)
    · exact .inl hb
    · exact .inr (.inr (hb ▸ hmem))
    · exact .inr (.inr (hb ▸ hmem)))
  rw [hrun, Every.append_iff] at hevery
  obtain ⟨s', hset, hlinked, hsetMoves, hsetRoot⟩ := set_parents fresh hwriteFresh.has hevery.2
    hnodupUpper fun b hb => (hpages b (hupper b hb)).1.2.1
  have hmoves := (h.moves.trans hbefore).trans hsetMoves
  have hkeptApart : ∀ b ∈ t.addr :: gather Tree.pages first lower,
      Addressable b ∧ b ∉ { b | b ∈ gather Tree.pages child upper } :=
    fun b hb => ⟨(hpages b (mem_append_left _ hb)).1.2.1,
      fun hin => hcross b hb b (mem_cons_of_mem _ hin) rfl⟩
  have hfreshNe : t.addr ≠ fresh := hcross _ mem_cons_self _ mem_cons_self
  have hrootNe : t.addr ∉ ({0, fresh} : Set UInt64) := by
    rintro (heq | heq)
    · exact h.sits.inner_addr.1 heq
    · exact hfreshNe heq
  refine ⟨s', ?_, hpromoted, ?_, ?_, hmoves.mono ?_, ?_⟩
  · rw [insert_split, h.node_eq, hq]
    dsimp only
    rw [hallocRun]
    dsimp only
    rw [if_neg (Space.ne_zero_of_mem hmem), hr, Page.range_values, hrightValue, hrightChildren,
      map_map]
    exact congrArg (Prod.mk fresh) hset
  · rw [← hkept]
    refine h.holds_node (q := q) ?_ (hq ▸ split_node_left_head _ _) hvalue hchildren ?_
    · rw [hsetMoves.touches.node_eq haddr (hkeptApart _ mem_cons_self).2,
        hwriteFresh.touches.node_eq haddr hfreshNe, hallocMoves.touches.node_eq haddr hrootNe, node_write]
    · exact ⟨hevery.1.1.of_touches hsetMoves.touches fun b hb =>
          hkeptApart b (mem_cons_of_mem _ (mem_gather.mpr (.inl hb))),
        fun pair hpair => (hevery.1.2 pair hpair).of_touches hsetMoves.touches fun b hb =>
          hkeptApart b (mem_cons_of_mem _ (mem_gather.mpr (.inr ⟨pair, hpair, hb⟩)))⟩
  · have hnode : s'.node fresh = r := by
      rw [hsetMoves.touches.node_eq hfreshAddr hfreshNot, node_write]
    rw [← hmoved]
    refine ⟨?_, ?_, ?_, ?_, hlinked⟩
    · rw [hnode, ← hr]
      exact h.sits.holds.1
    · rw [hnode, ← hr]
      rfl
    · rw [hnode, hrightValue, Tree.link_addr]
    · rw [hnode, hrightChildren, map_map]
      simp only [Function.comp_def, Tree.link_addr]
  · rintro b ((hb | (hb | hb | hb) | hb) | hb)
    · exact touched_target key (.inl hb)
    · exact touched_target key (.inr hb)
    · exact .inl hb
    · exact .inr (.inr (h.moves.later.region_subset (hb ▸ hmem)))
    · exact .inr (.inr (h.moves.later.region_subset (hb ▸ hmem)))
    · exact (hpages b (hupper b hb)).2
  · rw [hsetRoot]
    exact hallocRoot

end Bfs.Pending

end Attach

end graceos.bfs
