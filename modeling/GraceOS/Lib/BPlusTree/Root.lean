import GraceOS.Lib.BPlusTree.Links
import GraceOS.Lib.BPlusTree.Pages

namespace bplus

variable {A K V σ : Type} [LinearOrder K]
variable {leafCap innerCap : Nat} {alloc : σ → Option (A × σ)} {key : K} {value : V}

section Budget

variable {free : σ → Set A} {budget : σ → Nat} {l : Nat} {t : Tree A K V l} {s s' : σ}

/-- What an outcome spent. One that ran dry had less than it needed. -/
def Outcome.Paid (budget : σ → Nat) (cost : Nat) (s s' : σ) : Outcome A K V l → Prop
  | .done _ => budget s = budget s' + cost
  | .split _ _ _ => budget s = budget s' + cost
  | .failed _ => budget s' = 0 ∧ budget s < cost
  | .rerooted _ => False

theorem Tree.cost_of_splits {t : Inner A K (Tree A K V l)}
    (h : Tree.Splits leafCap innerCap key (l := l + 1) t) :
    Tree.cost leafCap innerCap key (l := l + 1) t =
      (target key t.first t.rest).cost leafCap innerCap key + 1 := by
  rw [cost, if_pos h]

theorem Tree.cost_of_not_splits {t : Inner A K (Tree A K V l)}
    (h : ¬Tree.Splits leafCap innerCap key (l := l + 1) t) :
    Tree.cost leafCap innerCap key (l := l + 1) t =
      (target key t.first t.rest).cost leafCap innerCap key := by
  rw [cost, if_neg h, Nat.add_zero]

/-- With the back links on its way set, an insertion spends one address for each
node it cuts, and fails exactly when the supply has fewer. -/
theorem Inserts.paid (hsupply : Supply alloc free budget) {o : Outcome A K V l}
    (h : Inserts leafCap innerCap alloc key value t s o s') (hlinked : t.PathLinked key) :
    o.Paid budget (t.cost leafCap innerCap key) s s' := by
  induction h with
  | leafDone hroom =>
    rw [Tree.cost, if_neg (Leaf.not_splits innerCap hroom)]
    exact rfl
  | leafFailed habsent hfull halloc =>
    have hdry := hsupply.dry_iff.mp halloc
    rw [Tree.cost, if_pos ⟨habsent, hfull⟩]
    exact ⟨hdry, by omega⟩
  | leafSplit habsent hfull halloc =>
    rw [Tree.cost, if_pos ⟨habsent, hfull⟩]
    exact hsupply.spent halloc
  | childDone hchild ih =>
    rw [Tree.cost_of_not_splits fun hsplits => hchild.kept.2.2 hsplits.2]
    exact ih hlinked.2
  | childFailed hchild ih =>
    obtain ⟨hdry, hless⟩ := ih hlinked.2
    exact ⟨hdry, by rw [Tree.cost]; omega⟩
  | childRerooted hchild ih => exact ih hlinked.2
  | attachDone hchild _ hroom hrun ih =>
    rw [Tree.cost_of_not_splits fun hsplits => absurd hsplits.1 (by omega)]
    exact ih hlinked.2
  | attachFailed hchild _ hfull hrun hmid halloc ih =>
    have hdry := hsupply.dry_iff.mp halloc
    have hpaid := ih hlinked.2
    rw [Tree.cost_of_splits ⟨hfull, hchild.kept.2.2.2⟩]
    change budget _ = budget _ + _ at hpaid
    exact ⟨hdry, by omega⟩
  | attachSplit hchild _ hfull hrun hmid halloc ih =>
    have hspent := hsupply.spent halloc
    have hpaid := ih hlinked.2
    rw [Tree.cost_of_splits ⟨hfull, hchild.kept.2.2.2⟩]
    change budget _ = budget _ + _ at hpaid
    change budget _ = budget _ + _
    omega
  | rerootFailed hchild hleft | rerootDone hchild hleft =>
    rw [hchild.kept.2.1, hlinked.1] at hleft
    exact Bool.noConfusion hleft

/-- An insertion that finds the supply dry changes its leaf in place or fails
with nothing changed. -/
theorem Inserts.of_dry {o : Outcome A K V l} (h : Inserts leafCap innerCap alloc key value t s o s')
    (hdry : alloc s = none) : o = .failed t ∨ ∃ t', o = .done t' := by
  induction h with
  | leafDone _ => exact .inr ⟨_, rfl⟩
  | leafFailed _ _ _ => exact .inl rfl
  | leafSplit _ _ halloc => rw [hdry] at halloc; cases halloc
  | childDone _ _ => exact .inr ⟨_, rfl⟩
  | childFailed _ ih =>
    obtain hfailed | ⟨_, hdone⟩ := ih hdry
    · cases hfailed
      exact .inl (by rw [Inner.replace_target])
    · cases hdone
  | childRerooted _ ih => rcases ih hdry with h | ⟨_, h⟩ <;> cases h
  | attachDone _ _ _ _ ih | attachFailed _ _ _ _ _ _ ih | attachSplit _ _ _ _ _ _ ih | rerootFailed _ _ _ ih
  | rerootDone _ _ _ ih => rcases ih hdry with h | ⟨_, h⟩ <;> cases h

/-- A key that is there is overwritten in its leaf. -/
theorem Inserts.of_present {o : Outcome A K V l} (h : Inserts leafCap innerCap alloc key value t s o s')
    (hpresent : key ∈ (t.leafFor key).entries.map Prod.fst) : ∃ t', o = .done t' := by
  induction h with
  | leafDone _ => exact ⟨_, rfl⟩
  | leafFailed habsent _ _ => exact absurd hpresent habsent
  | leafSplit habsent _ _ => exact absurd hpresent habsent
  | childDone _ _ => exact ⟨_, rfl⟩
  | childFailed _ ih | childRerooted _ ih | attachDone _ _ _ _ ih | attachFailed _ _ _ _ _ _ ih
  | attachSplit _ _ _ _ _ _ ih | rerootFailed _ _ _ ih | rerootDone _ _ _ ih =>
    obtain ⟨_, hdone⟩ := ih hpresent
    cases hdone

end Budget

section Height

omit [LinearOrder K] in
/-- Every internal node has at least two children, so a tree is never higher
than the logarithm of its size. -/
theorem Tree.Fill.two_pow_le {l : Nat} {t : Tree A K V l} (h : t.Fill leafCap innerCap) :
    2 ^ l ≤ t.pages.length := by
  induction l with
  | zero => simp [pages]
  | succ l ih =>
    obtain ⟨hone, _, hfirst, hrest⟩ := h
    cases hpairs : Inner.rest t with
    | nil => simp [hpairs] at hone
    | cons pair rest =>
      obtain ⟨separator, child⟩ := pair
      have hleft := ih hfirst
      have hright : 2 ^ l ≤ child.pages.length :=
        ih (hrest (separator, child) (by rw [hpairs]; exact List.mem_cons_self))
      rw [pages_inner, hpairs, gather_cons, gather, List.length_cons, List.length_append,
        List.length_append, Nat.pow_succ]
      omega

end Height

section Root

variable (leafCap innerCap alloc key value)

/-- Everything an insertion at the root can do. -/
inductive SizedTree.Ends (t : SizedTree A K V) (s : σ) : Bool → SizedTree A K V → σ → Prop where
  | done {t' : Tree A K V t.1} {s' : σ}
      (h : Inserts leafCap innerCap alloc key value t.2 s (.done t') s') : Ends t s true ⟨t.1, t'⟩ s'
  | failed {t' : Tree A K V t.1} {s' : σ}
      (h : Inserts leafCap innerCap alloc key value t.2 s (.failed t') s') : Ends t s false ⟨t.1, t'⟩ s'
  | rerooted {root : SizedTree A K V} {s' : σ}
      (h : Inserts leafCap innerCap alloc key value t.2 s (.rerooted root) s') : Ends t s true root s'
  | rootFailed {left right : Tree A K V t.1} {separator : K} {s' : σ}
      (h : Inserts leafCap innerCap alloc key value t.2 s (.split left separator right) s')
      (halloc : alloc s' = none) : Ends t s false ⟨t.1, left⟩ s'
  | rootSplit {left right : Tree A K V t.1} {separator : K} {s' s'' : σ} {fresh : A}
      (h : Inserts leafCap innerCap alloc key value t.2 s (.split left separator right) s')
      (halloc : alloc s' = some (fresh, s'')) :
      Ends t s true ⟨t.1 + 1, ({ addr := fresh, linked := false, first := left.link
                                 rest := [(separator, right.link)] } :
        Inner A K (Tree A K V t.1))⟩ s''

/-- The addresses a whole insertion takes: one more when the root is cut. -/
def SizedTree.cost (t : SizedTree A K V) : Nat :=
  t.2.cost leafCap innerCap key + if t.2.Splits leafCap innerCap key then 1 else 0

end Root

namespace SizedTree.Ends

variable {t t' : SizedTree A K V} {s s' : σ} {flag : Bool}

theorem bounded (h : Ends leafCap innerCap alloc key value t s flag t' s') (hleaf : 1 ≤ leafCap)
    (hinner : 1 ≤ innerCap) (hbounded : t.2.Bounded Set.univ) : t'.2.Bounded Set.univ := by
  cases h with
  | done h | failed h | rerooted h => exact h.bounded hleaf hinner hbounded trivial
  | rootFailed h =>
    exact Tree.Bounded.mono (Set.subset_univ _) (h.bounded hleaf hinner hbounded trivial).2.2.1
  | rootSplit h =>
    obtain ⟨hsep, _, hleft, hright⟩ := h.bounded hleaf hinner hbounded trivial
    exact ⟨hsep, by simp, (Tree.link_bounded _).mpr hleft, (Tree.link_bounded _).mpr hright⟩

theorem fill (h : Ends leafCap innerCap alloc key value t s flag t' s') (hleaf : 1 ≤ leafCap)
    (hinner : 2 ≤ innerCap) (hbounded : t.2.Bounded Set.univ) (hfill : t.2.Fill leafCap innerCap) :
    t'.2.Fill leafCap innerCap := by
  cases h with
  | done h | failed h | rerooted h => exact h.fill hleaf hinner hbounded trivial hfill
  | rootFailed h => exact (h.fill hleaf hinner hbounded trivial hfill).1
  | rootSplit h =>
    obtain ⟨hleft, hright⟩ := h.fill hleaf hinner hbounded trivial hfill
    refine ⟨le_refl _, by simp; omega, (Tree.link_fill _).mpr hleft, ?_⟩
    simpa using hright

/-- The root never has a back link. -/
theorem not_linked (h : Ends leafCap innerCap alloc key value t s flag t' s')
    (hroot : t.2.linked = false) : t'.2.linked = false := by
  cases h with
  | done h => exact h.kept.2.1.trans hroot
  | failed h => exact h.kept.2.1.trans hroot
  | rerooted h => exact h.kept
  | rootFailed h => exact h.kept.2.1.trans hroot
  | rootSplit h => rfl

theorem pagesOk {free : σ → Set A} {budget : σ → Nat} (hsupply : Supply alloc free budget)
    (h : Ends leafCap innerCap alloc key value t s flag t' s') (hnodup : t.2.pages.Nodup)
    (hfree : ∀ a ∈ t.2.pages, a ∉ free s) : Outcome.PagesOk free t.2.pages s s' t'.2.pages := by
  cases h with
  | done h | failed h | rerooted h => exact h.pagesOk hsupply hnodup hfree
  | rootFailed h => exact (h.pagesOk hsupply hnodup hfree).sublist (List.sublist_append_left _ _)
  | rootSplit h halloc =>
    rename_i left right separator middle fresh
    have hnone : Outcome.PagesOk free _ s middle ([] ++ (left.pages ++ right.pages)) :=
      h.pagesOk hsupply hnodup hfree
    have htake := hnone.take hsupply hfree halloc
    simpa [Tree.pages_inner, gather_cons, Outcome.pages] using htake

/-- A successful insertion over set back links inserts into the contents and
keeps the leaf chain. -/
theorem splices (h : Ends leafCap innerCap alloc key value t s true t' s')
    (hbounded : t.2.Bounded Set.univ) (hlinked : t.2.PathLinked key) :
    Splices key value (t.2.leafFor key).toChunk t.2.chunks t'.2.chunks := by
  cases h with
  | done h =>
    rcases h.splices hbounded trivial with ⟨hfailed, _⟩ | hinto
    · cases hfailed
    · exact hinto.splices trivial
  | rerooted h => exact absurd h (Inserts.ne_rerooted hlinked)
  | rootSplit h =>
    rcases h.splices hbounded trivial with ⟨hfailed, _⟩ | hinto
    · cases hfailed
    · change Splices key value _ _ (gather Tree.chunks _ [(_, _)])
      rw [gather_cons, gather_nil, Tree.link_chunks, Tree.link_chunks]
      exact hinto.splices trivial

/-- Overwriting a key needs no back links. -/
theorem splices_of_present (h : Ends leafCap innerCap alloc key value t s flag t' s')
    (hbounded : t.2.Bounded Set.univ) (hpresent : key ∈ (t.2.leafFor key).entries.map Prod.fst) :
    Splices key value (t.2.leafFor key).toChunk t.2.chunks t'.2.chunks := by
  cases h with
  | done h =>
    rcases h.splices hbounded trivial with ⟨hfailed, _⟩ | hinto
    · cases hfailed
    · exact hinto.splices trivial
  | failed h | rerooted h | rootFailed h | rootSplit h =>
    obtain ⟨_, hdone⟩ := h.of_present hpresent
    cases hdone

/-- Everything an insertion does to the leaves, whether it succeeds or not. -/
theorem unchanged_or_sublist (h : Ends leafCap innerCap alloc key value t s flag t' s')
    (hbounded : t.2.Bounded Set.univ) :
    (flag = false ∧ t' = t ∧ alloc s = none) ∨
      ∃ full, Splices key value (t.2.leafFor key).toChunk t.2.chunks full ∧
        t'.2.chunks.Sublist full := by
  cases h with
  | done h | rerooted h =>
    rcases h.splices hbounded trivial with ⟨hfailed, _⟩ | ⟨full, hsplices, hsub, _⟩
    · cases hfailed
    · exact .inr ⟨full, hsplices, hsub⟩
  | failed h =>
    rcases h.splices hbounded trivial with ⟨hfailed, hdry⟩ | ⟨full, hsplices, hsub, _⟩
    · cases hfailed
      exact .inl ⟨rfl, rfl, hdry⟩
    · exact .inr ⟨full, hsplices, hsub⟩
  | rootFailed h =>
    rcases h.splices hbounded trivial with ⟨hfailed, _⟩ | ⟨full, hsplices, hsub, _⟩
    · cases hfailed
    · exact .inr ⟨full, hsplices, (List.sublist_append_left _ _).trans hsub⟩
  | rootSplit h =>
    rcases h.splices hbounded trivial with ⟨hfailed, _⟩ | ⟨full, hsplices, hsub, _⟩
    · cases hfailed
    · refine .inr ⟨full, hsplices, ?_⟩
      change (gather Tree.chunks _ [(_, _)]).Sublist _
      rw [gather_cons, gather_nil, Tree.link_chunks, Tree.link_chunks]
      exact hsub

/-- What is reachable afterwards is the new entry or was there before. -/
theorem mem_entries (h : Ends leafCap innerCap alloc key value t s flag t' s')
    (hbounded : t.2.Bounded Set.univ) :
    ∀ entry ∈ t'.2.entries, entry = (key, value) ∨ entry ∈ t.2.entries := by
  intro entry hentry
  rcases h.unchanged_or_sublist hbounded with ⟨_, rfl, _⟩ | ⟨full, hsplices, hsub⟩
  · exact .inr hentry
  · have hmem : entry ∈ upsert key value t.2.entries := by
      rw [Tree.entries, ← hsplices.entries_eq]
      obtain ⟨chunk, hchunk, hin⟩ := List.mem_flatMap.mp hentry
      exact List.mem_flatMap.mpr ⟨chunk, hsub.subset hchunk, hin⟩
    exact mem_upsert hmem

theorem attached_iff (h : Ends leafCap innerCap alloc key value t s true t' s')
    (hattached : t.2.Attached) : t'.2.Attached ↔ ¬t.2.Orphans leafCap innerCap key := by
  cases h with
  | done h => exact h.attached_iff hattached trivial
  | rerooted h => exact absurd h (Inserts.ne_rerooted (hattached.pathLinked key))
  | rootSplit h =>
    rw [← h.attached_iff hattached trivial]
    change Every (fun child : Tree A K V t.1 => child.linked = true ∧ child.Attached) _ [(_, _)] ↔ _
    simp [Every, Outcome.Forall]

/-- With the back links set, an insertion succeeds exactly when the supply has
an address for every node to be cut. -/
theorem paid {free : σ → Set A} {budget : σ → Nat} (hsupply : Supply alloc free budget)
    (h : Ends leafCap innerCap alloc key value t s flag t' s') (hlinked : t.2.PathLinked key) :
    flag = true ↔ t.cost leafCap innerCap key ≤ budget s := by
  unfold SizedTree.cost
  cases h with
  | done h =>
    have hpaid : budget s = budget s' + _ := h.paid hsupply hlinked
    rw [if_neg h.kept.2.2]
    simp only [true_iff]
    omega
  | failed h =>
    obtain ⟨_, hless⟩ := h.paid hsupply hlinked
    simp only [Bool.false_eq_true, false_iff]
    omega
  | rerooted h => exact absurd h (Inserts.ne_rerooted hlinked)
  | rootFailed h halloc =>
    have hpaid : budget s = budget s' + _ := h.paid hsupply hlinked
    have hdry := hsupply.dry_iff.mp halloc
    rw [if_pos h.kept.2.2.2]
    simp only [Bool.false_eq_true, false_iff]
    omega
  | @rootSplit left right separator middle _ fresh h halloc =>
    have hpaid : budget s = budget middle + _ := h.paid hsupply hlinked
    have hspent := hsupply.spent halloc
    rw [if_pos h.kept.2.2.2]
    simp only [true_iff]
    omega

/-- An insertion that cuts no node keeps the height and takes no address. -/
theorem uncut {free : σ → Set A} {budget : σ → Nat} (hsupply : Supply alloc free budget)
    (h : Ends leafCap innerCap alloc key value t s flag t' s') (hlinked : t.2.PathLinked key)
    (hcost : t.cost leafCap innerCap key = 0) : t'.1 = t.1 ∧ budget s' = budget s := by
  unfold SizedTree.cost at hcost
  cases h with
  | done h =>
    have hpaid : budget s = budget s' + _ := h.paid hsupply hlinked
    exact ⟨rfl, by omega⟩
  | failed h =>
    obtain ⟨_, hless⟩ := h.paid hsupply hlinked
    omega
  | rerooted h => exact absurd h (Inserts.ne_rerooted hlinked)
  | rootFailed h | rootSplit h =>
    rw [if_pos h.kept.2.2.2] at hcost
    omega

/-- Without a single free address a failed insertion changes nothing. -/
theorem unchanged_of_dry (h : Ends leafCap innerCap alloc key value t s false t' s') (hdry : alloc s = none) :
    t' = t := by
  cases h with
  | failed h =>
    obtain hfailed | ⟨_, hdone⟩ := h.of_dry hdry
    · cases hfailed
      rfl
    · cases hdone
  | rootFailed h _ => rcases h.of_dry hdry with h | ⟨_, h⟩ <;> cases h

/-- A failed insertion that got as far as cutting its leaf is visible. -/
theorem lookup_changes (h : Ends leafCap innerCap alloc key value t s false t' s')
    (hbounded : t.2.Bounded Set.univ) (hcap : 4 ≤ leafCap) (hsome : alloc s ≠ none) :
    ∃ query, t'.2.entries.lookup query ≠ t.2.entries.lookup query := by
  have hleaf : Tree.Splits leafCap innerCap key (l := 0) (t.2.leafFor key) := by
    cases h with
    | failed h => exact h.kept.2.2
    | rootFailed h => exact h.kept.2.2.2.leafFor
  rcases h.unchanged_or_sublist hbounded with ⟨_, _, hdry⟩ | ⟨full, hsplices, hsub⟩
  · exact absurd hdry hsome
  · refine hsplices.lookup_changes hbounded.entries_sorted ?_ (hcap.trans hleaf.2) hsub
    change t.2.entries.lookup key = none
    rw [← hbounded.lookup_leafFor trivial, lookup_eq_none_iff_forall]
    rintro entry hentry rfl
    exact hleaf.1 (List.mem_map_of_mem hentry)

end SizedTree.Ends

end bplus
