import GraceOS.Bfs.Stores

namespace graceos.bfs

open bplus List

namespace Bfs

section SetParent

variable {s : Bfs} {σ : Space} {a par par' : UInt64}

theorem set_parent_moves (par : UInt64) (hhas : s.Has σ) (ha : Addressable a) :
    Moves {a} s (s.set_parent a par) σ σ :=
  raw_write_moves hhas ha _

theorem set_parent_root : (s.set_parent a par).root = s.root := rfl

theorem node_set_parent : (s.set_parent a par).node a = { s.node a with parent := par } :=
  s.node_write a _

theorem Holds.set_parent {l : Nat} {t : Node l} (h : s.Holds par t) (hnodup : t.pages.Nodup)
    (haddr : ∀ b ∈ t.pages, Addressable b) : (s.set_parent t.addr par').Holds par' t.link := by
  refine h.link node_set_parent (fun b hb hne => ?_) hnodup
  exact (s.raw_write_touches t.addr _ (haddr _ t.addr_mem_pages)).node_eq (haddr b hb) hne

/-- A piece of a run leaves alone every tree that lies outside of what it
touches. -/
theorem Holds.of_touches {touched : Set UInt64} {s' : Bfs} {l : Nat} {t : Node l}
    (h : s.Holds par t) (htouches : Touches touched s s')
    (hapart : ∀ b ∈ t.pages, Addressable b ∧ b ∉ touched) : s'.Holds par t :=
  h.congr fun b hb => htouches.node_eq (hapart b hb).1 (hapart b hb).2

/-- The loop that moves children below another parent. -/
theorem set_parents (par' : UInt64) {l : Nat} {first : Node l} {rest : List (UInt64 × Node l)}
    (hhas : s.Has σ) (hholds : Every (s.Holds par) first rest)
    (hnodup : (gather Tree.pages first rest).Nodup)
    (haddr : ∀ b ∈ gather Tree.pages first rest, Addressable b) :
    ∃ s', (first.addr :: rest.map fun pair => pair.2.addr).foldl (fun s c => s.set_parent c par') s = s' ∧
      Every (s'.Holds par') first.link (rest.map fun pair => (pair.1, pair.2.link)) ∧
      Moves { b | b ∈ gather Tree.pages first rest } s s' σ σ ∧ s'.root = s.root := by
  induction rest generalizing s first with
  | nil =>
    rw [gather_nil] at hnodup haddr
    refine ⟨s.set_parent first.addr par', rfl, ⟨hholds.1.set_parent hnodup haddr, by simp⟩, ?_, set_parent_root⟩
    refine (set_parent_moves par' hhas (haddr _ first.addr_mem_pages)).mono ?_
    rintro b rfl
    rw [gather_nil]
    exact first.addr_mem_pages
  | cons head rest ih =>
    obtain ⟨separator, child⟩ := head
    rw [gather_cons] at hnodup haddr
    obtain ⟨hfirst, hrest⟩ := Every.cons_iff.mp hholds
    obtain ⟨hnodupFirst, hnodupRest, hcross⟩ := List.nodup_append.mp hnodup
    have haddrFirst : ∀ b ∈ first.pages, Addressable b := fun b hb => haddr b (mem_append_left _ hb)
    have haddrRest : ∀ b ∈ gather Tree.pages child rest, Addressable b :=
      fun b hb => haddr b (mem_append_right _ hb)
    have hone := set_parent_moves par' hhas (haddrFirst _ first.addr_mem_pages)
    -- The trees that are still to move do not contain the page just written.
    have hkept : Every ((s.set_parent first.addr par').Holds par) child rest := by
      have hapart : ∀ b ∈ gather Tree.pages child rest, Addressable b ∧ b ∉ ({first.addr} : Set UInt64) :=
        fun b hb => ⟨haddrRest b hb, fun heq => hcross _ first.addr_mem_pages b hb heq.symm⟩
      exact ⟨hrest.1.of_touches hone.touches fun b hb => hapart b (mem_gather.mpr (.inl hb)),
        fun pair hpair => (hrest.2 pair hpair).of_touches hone.touches fun b hb =>
          hapart b (mem_gather.mpr (.inr ⟨pair, hpair, hb⟩))⟩
    obtain ⟨s', hrun, hlinked, hmoves, hroot⟩ := ih hone.has hkept hnodupRest haddrRest
    rw [map_cons, foldl_cons]
    refine ⟨s', hrun, ?_, (hone.trans hmoves).mono ?_, hroot.trans set_parent_root⟩
    · rw [map_cons, Every.cons_iff]
      refine ⟨(hfirst.set_parent hnodupFirst haddrFirst).of_touches hmoves.touches fun b hb => ?_, hlinked⟩
      rw [Tree.link_pages] at hb
      exact ⟨haddrFirst b hb, fun hin => hcross b hb b hin rfl⟩
    · rintro b (rfl | hb)
      · exact mem_gather.mpr (.inl first.addr_mem_pages)
      · rw [gather_cons]
        exact mem_append_right _ hb

end SetParent

section NewRoot

variable {s : Bfs} {σ : Space} {l : Nat} {par separator : UInt64} {left right : Node l}

theorem new_root_none (hhas : s.Has σ) (h : σ.take = none) (left_page separator right_page : UInt64) :
    s.insert_new_root left_page separator right_page = (-1, s) := by
  rw [insert_new_root, alloc_page_none hhas h]
  rfl

/-- A new root over two trees. -/
theorem new_root_some (separator : UInt64) {σ' : Space} {fresh : UInt64} (hhas : s.Has σ)
    (h : σ.take = some (fresh, σ'))
    (hleft : s.Holds par left) (hright : s.Holds par right) (hnodup : (left.pages ++ right.pages).Nodup)
    (hpages : ∀ b ∈ left.pages ++ right.pages, b ≠ 0 ∧ Addressable b ∧ b ∉ σ.region)
    (hlevel : l + 1 < 2 ^ 16) :
    ∃ s', s.insert_new_root left.addr separator right.addr = (0, s') ∧
      s'.Holds (l := l + 1) 0
        { addr := fresh, linked := false, first := left.link, rest := [(separator, right.link)] } ∧
      s'.root.root_page = fresh ∧
      Moves { b | b = 0 ∨ b ∈ left.pages ++ right.pages ∨ b ∈ σ.region } s s' σ σ' := by
  have hmem := Space.supply.mem_free h
  have hfresh := Space.addressable_of_mem hmem
  have hfreshNot : fresh ∉ left.pages ++ right.pages := fun hin => (hpages fresh hin).2.2 hmem
  obtain ⟨s₁, halloc, hmoves₁, _⟩ := alloc_page_some hhas h
  generalize hnr : new_root_node (s.node left.addr) left.addr separator right.addr = nr
  have hwrite := raw_write_moves hmoves₁.has hfresh nr.encode
  have hmoves₂ := hmoves₁.trans hwrite
  have hapart : ∀ b ∈ left.pages ++ right.pages, Addressable b ∧ b ∉ ({0, fresh} ∪ {fresh} : Set UInt64) := by
    intro b hb
    obtain ⟨hne, haddr, _⟩ := hpages b hb
    refine ⟨haddr, ?_⟩
    rintro ((heq | heq) | heq)
    · exact hne heq
    · exact hfreshNot (heq ▸ hb)
    · exact hfreshNot (heq ▸ hb)
  have hholds : Every ((s₁.bfs_raw_write fresh nr.encode).Holds par) left [(separator, right)] := by
    refine ⟨hleft.of_touches hmoves₂.touches fun b hb => hapart b (mem_append_left _ hb), ?_⟩
    rintro pair hpair
    obtain rfl := List.mem_singleton.mp hpair
    exact hright.of_touches hmoves₂.touches fun b hb => hapart b (mem_append_right _ hb)
  have hgather : gather Tree.pages left [(separator, right)] = left.pages ++ right.pages := by
    rw [gather_cons, gather_nil]
  obtain ⟨s₃, hrun, hlinked, hmoves₃, hroot₃⟩ := set_parents fresh hwrite.has hholds
    (by rw [hgather]; exact hnodup) (by rw [hgather]; exact fun b hb => (hpages b hb).2.1)
  rw [hgather] at hmoves₃
  have hmoves₄ : Moves {0} s₃ (s₃.set_root_page fresh) σ' σ' := by
    have hflush := flush_root_touches { s₃ with root := { s₃.root with root_page := fresh } }
    exact .of_touches ⟨hflush.frame, hflush.total_pages, hflush.disk_size, hflush.name_table_enabled⟩
      hmoves₃.has rfl rfl rfl
  have hmoves := (hmoves₂.trans hmoves₃).trans hmoves₄
  have hnode : (s₃.set_root_page fresh).node fresh = nr := by
    have hne : fresh ∉ ({0} : Set UInt64) := Space.ne_zero_of_mem hmem
    rw [hmoves₄.touches.node_eq hfresh hne, hmoves₃.touches.node_eq hfresh hfreshNot, node_write]
  refine ⟨s₃.set_root_page fresh, ?_, ⟨?_, ?_, ?_, ?_, ?_⟩, rfl, hmoves.mono ?_⟩
  · rw [map_cons, map_nil, foldl_cons, foldl_cons, foldl_nil] at hrun
    rw [insert_new_root, halloc]
    dsimp only
    rw [if_neg (Space.ne_zero_of_mem hmem), hnr, hrun]
  · rw [hnode, ← hnr]
    change ((s.node left.addr).level + 1).toNat = l + 1
    rw [UInt16.toNat_add, hleft.level_eq]
    exact Nat.mod_eq_of_lt hlevel
  · rw [hnode, ← hnr]
    rfl
  · rw [hnode, ← hnr, Tree.link_addr]
    rfl
  · rw [hnode, ← hnr]
    simp only [map_cons, map_nil, Tree.link_addr]
    rfl
  · have hall : Every ((s₃.set_root_page fresh).Holds fresh) left.link
        ([(separator, right)].map fun pair => (pair.1, pair.2.link)) := by
      have hnot : ∀ b ∈ left.pages ++ right.pages, Addressable b ∧ b ∉ ({0} : Set UInt64) :=
        fun b hb => ⟨(hpages b hb).2.1, (hpages b hb).1⟩
      refine ⟨hlinked.1.of_touches hmoves₄.touches fun b hb => ?_, fun pair hpair => ?_⟩
      · exact hnot b (mem_append_left _ (by simpa using hb))
      · refine (hlinked.2 pair hpair).of_touches hmoves₄.touches fun b hb => ?_
        obtain rfl := List.mem_singleton.mp hpair
        exact hnot b (mem_append_right _ (by simpa using hb))
    exact hall
  · rintro b ((((hb | hb) | hb) | hb) | hb)
    · exact .inl hb
    · exact .inr (.inr (hb ▸ hmem))
    · exact .inr (.inr (hb ▸ hmem))
    · exact .inr (.inl hb)
    · exact .inl hb

end NewRoot

end Bfs

end graceos.bfs
