import GraceOS.Lib.BPlusTree.Order

namespace bplus

open List

variable {A K V C σ : Type} [LinearOrder K]
variable {leafCap innerCap : Nat} {alloc : σ → Option (A × σ)} {key : K} {value : V}

/-- The ranges an outcome leaves: the two halves of a split meet at a separator
that lies strictly above some key of the range. -/
def Outcome.Bounded {l : Nat} (range : Set K) : Outcome A K V l → Prop
  | .done t => t.Bounded range
  | .split left separator right =>
    separator ∈ range ∧ (∃ lower ∈ range, lower < separator) ∧
      left.Bounded (range ∩ Set.Iio separator) ∧ right.Bounded (range ∩ Set.Ici separator)
  | .failed t => t.Bounded range
  | .rerooted t => t.2.Bounded range

theorem Within.map_link {l : Nat} {range : Set K} {first : Tree A K V l}
    {rest : List (K × Tree A K V l)} (hwithin : Within Tree.Bounded range first rest) :
    Within Tree.Bounded range first.link (rest.map fun pair => (pair.1, pair.2.link)) := by
  induction rest generalizing range first with
  | nil => simpa [Within] using hwithin
  | cons head rest ih =>
    obtain ⟨hkey, hlater, hfirst, hrest⟩ := hwithin
    refine ⟨hkey, ?_, by simpa using hfirst, ih hrest⟩
    intro later hmem
    obtain ⟨pair, hpair, rfl⟩ := List.mem_map.mp hmem
    exact hlater pair hpair

omit [LinearOrder K] in
theorem gather_map_link {B : Type} {l : Nat} {f : Tree A K V l → List B}
    (hf : ∀ t, f t.link = f t) (first : Tree A K V l) (rest : List (K × Tree A K V l)) :
    gather f first.link (rest.map fun pair => (pair.1, pair.2.link)) = gather f first rest := by
  simp [gather, hf, flatMap_map]

omit [LinearOrder K] in
theorem Every.map_link {l : Nat} {P : Tree A K V l → Prop} (hP : ∀ t, P t → P t.link)
    {first : Tree A K V l} {rest : List (K × Tree A K V l)} (h : Every P first rest) :
    Every P first.link (rest.map fun pair => (pair.1, pair.2.link)) := by
  refine ⟨hP _ h.1, ?_⟩
  intro child hchild
  obtain ⟨pair, hpair, rfl⟩ := List.mem_map.mp hchild
  exact hP _ (h.2 pair hpair)

/-- A node cut behind some of its children keeps its range. -/
theorem Within.of_append {bounded : Set K → C → Prop} (hmono : Widens bounded) {range : Set K}
    {first : C} {front back : List (K × C)} (hwithin : Within bounded range first (front ++ back)) :
    Within bounded range first front := by
  cases back with
  | nil => simpa using hwithin
  | cons head back =>
    exact ((Within.append_iff hmono).mp hwithin).2.2.2.1.mono hmono Set.inter_subset_left

/-- Insertion keeps every node sorted and every key in its range, also when it
fails half-way or makes a new root over a part of the tree. -/
theorem Inserts.bounded (hleaf : 1 ≤ leafCap) (hinner : 1 ≤ innerCap) {l : Nat}
    {t : Tree A K V l} {s s' : σ} {o : Outcome A K V l}
    (h : Inserts leafCap innerCap alloc key value t s o s') {range : Set K}
    (hbounded : t.Bounded range) (hkey : key ∈ range) : o.Bounded range := by
  induction h generalizing range with
  | leafDone hroom =>
    refine ⟨upsert_sorted hbounded.1, ?_⟩
    intro entry hentry
    rcases mem_upsert hentry with rfl | hmem
    · exact hkey
    · exact hbounded.2 entry hmem
  | leafFailed => exact hbounded
  | @leafSplit t s s' fresh entry lower upper habsent hfull halloc hcut hmid =>
    have hsorted : Sorted (lower ++ entry :: upper) := hcut ▸ upsert_sorted hbounded.1
    obtain ⟨hlower, hupper, hcross⟩ := List.pairwise_append.mp hsorted
    have hmem : ∀ e ∈ lower ++ entry :: upper, e.1 ∈ range := by
      intro e he
      rcases mem_upsert (hcut ▸ he) with rfl | hold
      · exact hkey
      · exact hbounded.2 e hold
    have hentry := hmem entry (by simp)
    refine ⟨hentry, ?_, ⟨hlower, ?_⟩, hupper, ?_⟩
    · rw [upsert_length_of_absent habsent] at hmid
      obtain ⟨e, he⟩ := exists_mem_of_length_pos (l := lower) (by omega)
      exact ⟨e.1, hmem e (by simp [he]), hcross e he entry mem_cons_self⟩
    · exact fun e he => ⟨hmem e (by simp [he]), hcross e he entry mem_cons_self⟩
    · intro e he
      refine ⟨hmem e (mem_append_right _ he), ?_⟩
      rcases List.mem_cons.mp he with rfl | hlater
      · exact le_refl _
      · exact le_of_lt ((List.pairwise_cons.mp hupper).1 e hlater)
  | childDone hchild ih | childFailed hchild ih =>
    obtain ⟨sub, _, hkeySub, htarget, hone, _⟩ :=
      Within.focus (Tree.widens_bounded _) hbounded hkey
    exact hone _ (ih htarget hkeySub)
  | childRerooted hchild ih =>
    obtain ⟨sub, hsub, hkeySub, htarget, _, _⟩ :=
      Within.focus (Tree.widens_bounded _) hbounded hkey
    exact Tree.Bounded.mono hsub (ih htarget hkeySub)
  | attachDone hchild hlinked hroom hrun ih =>
    obtain ⟨sub, _, hkeySub, htarget, _, htwo⟩ :=
      Within.focus (Tree.widens_bounded _) hbounded hkey
    obtain ⟨hsep, hlower, hleft, hright⟩ := ih htarget hkeySub
    have hwithin := htwo _ _ _ hsep hlower hleft ((Tree.link_bounded _).mpr hright)
    rwa [hrun] at hwithin
  | attachFailed hchild hlinked hfull hrun hmid halloc ih =>
    obtain ⟨sub, _, hkeySub, htarget, _, htwo⟩ :=
      Within.focus (Tree.widens_bounded _) hbounded hkey
    obtain ⟨hsep, hlower, hleft, hright⟩ := ih htarget hkeySub
    have hwithin := htwo _ _ _ hsep hlower hleft hright
    rw [hrun] at hwithin
    exact Within.of_append (Tree.widens_bounded _) hwithin
  | @attachSplit _ t s s' s'' left right separator promoted first child lower upper fresh hchild
      hlinked hfull hrun hmid halloc ih =>
    obtain ⟨sub, _, hkeySub, htarget, _, htwo⟩ :=
      Within.focus (Tree.widens_bounded _) hbounded hkey
    obtain ⟨hsep, hlower, hleft, hright⟩ := ih htarget hkeySub
    have hwithin := htwo _ _ _ hsep hlower hleft hright
    rw [hrun] at hwithin
    obtain ⟨hpromoted, hbelow, _, hfront, hback⟩ :=
      (Within.append_iff (Tree.widens_bounded _)).mp hwithin
    refine ⟨hpromoted, ?_, hfront, hback.map_link⟩
    cases lower with
    | nil =>
      simp only [length_nil] at hmid
      omega
    | cons head lower => exact ⟨head.1, hfront.1.1, hbelow head mem_cons_self⟩
  | rerootFailed hchild hlinked halloc ih =>
    obtain ⟨sub, _, hkeySub, htarget, hone, _⟩ :=
      Within.focus (Tree.widens_bounded _) hbounded hkey
    obtain ⟨_, _, hleft, _⟩ := ih htarget hkeySub
    exact hone _ (hleft.mono Set.inter_subset_left)
  | rerootDone hchild hlinked halloc ih =>
    obtain ⟨sub, hsub, hkeySub, htarget, _, _⟩ :=
      Within.focus (Tree.widens_bounded _) hbounded hkey
    obtain ⟨hsep, _, hleft, hright⟩ := ih htarget hkeySub
    have hroot : Within Tree.Bounded sub _ [(_, _)] :=
      ⟨hsep, by simp, (Tree.link_bounded _).mpr hleft, (Tree.link_bounded _).mpr hright⟩
    exact Within.mono (Tree.widens_bounded _) hroot hsub

/-- Insertion keeps the fill of all nodes between their limits. -/
theorem Inserts.fill (hleaf : 1 ≤ leafCap) (hinner : 2 ≤ innerCap) {l : Nat}
    {t : Tree A K V l} {s s' : σ} {o : Outcome A K V l}
    (h : Inserts leafCap innerCap alloc key value t s o s') {range : Set K}
    (hbounded : t.Bounded range) (hkey : key ∈ range) (hfill : t.Fill leafCap innerCap) :
    o.Forall (Tree.Fill leafCap innerCap) := by
  induction h generalizing range with
  | @leafDone t s hroom =>
    change (upsert key value t.entries).length ≤ leafCap
    by_cases hpresent : key ∈ t.entries.map Prod.fst
    · rw [upsert_length_of_present hbounded.1 hpresent]
      exact hfill
    · rw [upsert_length_of_absent hpresent]
      exact hroom.resolve_left hpresent
  | leafFailed => exact hfill
  | @leafSplit t s s' fresh entry lower upper habsent hfull halloc hcut hmid =>
    have hlength := congrArg List.length hcut
    rw [upsert_length_of_absent habsent] at hlength hmid
    rw [length_append, length_cons] at hlength
    change t.entries.length ≤ leafCap at hfill
    constructor
    · change lower.length ≤ leafCap
      omega
    · change upper.length + 1 ≤ leafCap
      omega
  | @childDone _ t s s' child hchild ih | @childFailed _ t s s' child hchild ih =>
    obtain ⟨sub, _, hkeySub, htarget, _, _⟩ :=
      Within.focus (Tree.widens_bounded _) hbounded hkey
    obtain ⟨hlow, hhigh, hevery⟩ := hfill
    have hnew := ih htarget hkeySub (hevery.target key)
    refine ⟨?_, ?_, hevery.graft key _ ⟨hnew, by simp⟩⟩
    · change 1 ≤ (graft key (child, []) t.first t.rest).2.length
      rw [graft_length]
      omega
    · change (graft key (child, []) t.first t.rest).2.length ≤ innerCap
      rw [graft_length]
      simpa using hhigh
  | childRerooted hchild ih =>
    obtain ⟨sub, _, hkeySub, htarget, _, _⟩ :=
      Within.focus (Tree.widens_bounded _) hbounded hkey
    exact ih htarget hkeySub (hfill.2.2.target key)
  | @attachDone _ t s s' left right separator run hchild hlinked hroom hrun ih =>
    obtain ⟨sub, _, hkeySub, htarget, _, _⟩ :=
      Within.focus (Tree.widens_bounded _) hbounded hkey
    obtain ⟨hlow, hhigh, hevery⟩ := hfill
    obtain ⟨hleft, hright⟩ := ih htarget hkeySub (hevery.target key)
    have hlength := graft_length key (left, [(separator, right.link)]) t.first t.rest
    have hnew := hevery.graft key (left, [(separator, right.link)])
      ⟨hleft, by simpa using hright⟩
    rw [hrun] at hlength hnew
    rw [length_singleton] at hlength
    exact ⟨by dsimp only; omega, by dsimp only; omega, hnew⟩
  | @attachFailed _ t s s' left right separator first lower upper hchild hlinked hfull hrun hmid
      halloc ih =>
    obtain ⟨sub, _, hkeySub, htarget, _, _⟩ :=
      Within.focus (Tree.widens_bounded _) hbounded hkey
    obtain ⟨hlow, hhigh, hevery⟩ := hfill
    obtain ⟨hleft, hright⟩ := ih htarget hkeySub (hevery.target key)
    have hnew := hevery.graft key (left, [(separator, right)])
      ⟨hleft, by simpa using hright⟩
    rw [hrun] at hnew
    exact ⟨by dsimp only; omega, by dsimp only; omega, hnew.1, fun child h => hnew.2 child (mem_append_left _ h)⟩
  | @attachSplit _ t s s' s'' left right separator promoted first child lower upper fresh hchild
      hlinked hfull hrun hmid halloc ih =>
    obtain ⟨sub, _, hkeySub, htarget, _, _⟩ :=
      Within.focus (Tree.widens_bounded _) hbounded hkey
    obtain ⟨hlow, hhigh, hevery⟩ := hfill
    obtain ⟨hleft, hright⟩ := ih htarget hkeySub (hevery.target key)
    have hlength := graft_length key (left, [(separator, right)]) t.first t.rest
    have hnew := hevery.graft key (left, [(separator, right)])
      ⟨hleft, by simpa using hright⟩
    rw [hrun] at hlength hnew
    simp only [length_append, length_cons, length_nil] at hlength
    obtain ⟨hfront, hback⟩ := Every.append_iff.mp hnew
    constructor
    · exact ⟨by dsimp only; omega, by dsimp only; omega, hfront⟩
    · refine ⟨?_, ?_, hback.map_link fun t ht => (Tree.link_fill t).mpr ht⟩
      · rw [length_map]
        omega
      · rw [length_map]
        omega
  | @rerootFailed _ t s s' left right separator hchild hlinked halloc ih =>
    obtain ⟨sub, _, hkeySub, htarget, _, _⟩ :=
      Within.focus (Tree.widens_bounded _) hbounded hkey
    obtain ⟨hlow, hhigh, hevery⟩ := hfill
    obtain ⟨hleft, _⟩ := ih htarget hkeySub (hevery.target key)
    refine ⟨?_, ?_, hevery.graft key _ ⟨hleft, by simp⟩⟩
    · change 1 ≤ (graft key (left, []) t.first t.rest).2.length
      rw [graft_length]
      omega
    · change (graft key (left, []) t.first t.rest).2.length ≤ innerCap
      rw [graft_length]
      simpa using hhigh
  | rerootDone hchild hlinked halloc ih =>
    obtain ⟨sub, _, hkeySub, htarget, _, _⟩ :=
      Within.focus (Tree.widens_bounded _) hbounded hkey
    obtain ⟨hleft, hright⟩ := ih htarget hkeySub (hfill.2.2.target key)
    refine ⟨le_refl 1, by simpa using (by omega : 1 ≤ innerCap), ?_, ?_⟩
    · exact (Tree.link_fill _).mpr hleft
    · simpa using hright

end bplus
