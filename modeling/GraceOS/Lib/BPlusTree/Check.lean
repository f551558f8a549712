import GraceOS.Lib.BPlusTree.Links

namespace bplus

variable {A K V C : Type} [LinearOrder K]

/-- The keys between two optional bounds: from the lower on, and below the upper. -/
def span (lo hi : Option K) : Set K :=
  { x | (∀ bound ∈ lo, bound ≤ x) ∧ ∀ bound ∈ hi, x < bound }

/-- Whether a key lies between two optional bounds. -/
def inSpan (lo hi : Option K) (x : K) : Bool :=
  lo.all (fun bound => bound ≤ x) && hi.all fun bound => x < bound

/-- Whether every separator of a node lies between the bounds, and every child
passes `check` between its two separators. -/
def checkWithin (check : Option K → Option K → C → Bool) : Option K → Option K → C → List (K × C) → Bool
  | lo, hi, first, [] => check lo hi first
  | lo, hi, first, (key, child) :: rest =>
    inSpan lo hi key && check lo (some key) first && checkWithin check (some key) hi child rest

/-- Whether the keys of a list ascend. -/
def ascends {X : Type} (list : List (K × X)) : Bool :=
  decide ((list.map Prod.fst).IsChain (· < ·))

/-- The order of a tree, checked from the root down with the bounds its
ancestors leave. -/
def Tree.check : {l : Nat} → Option K → Option K → Tree A K V l → Bool
  | 0, lo, hi, (t : Leaf A K V) =>
    ascends t.entries && t.entries.all fun entry => inSpan lo hi entry.1
  | _ + 1, lo, hi, (t : Inner A K (Tree A K V _)) =>
    ascends t.rest && checkWithin Tree.check lo hi t.first t.rest

theorem sorted_of_ascends {X : Type} {list : List (K × X)} (h : ascends list = true) : Sorted list :=
  List.pairwise_map.mp (List.isChain_iff_pairwise.mp (of_decide_eq_true h))

theorem inSpan_iff {lo hi : Option K} {x : K} : inSpan lo hi x = true ↔ x ∈ span lo hi := by
  unfold inSpan
  rw [Bool.and_eq_true, Option.all_eq_true, Option.all_eq_true]
  simp only [decide_eq_true_eq]
  rfl

theorem span_below {lo hi : Option K} {key : K} (hkey : key ∈ span lo hi) :
    span lo (some key) ⊆ span lo hi ∩ Set.Iio key := by
  intro x hx
  have hlt : x < key := hx.2 key rfl
  exact ⟨⟨hx.1, fun bound hbound => lt_trans hlt (hkey.2 bound hbound)⟩, hlt⟩

theorem span_from {lo hi : Option K} {key : K} (hkey : key ∈ span lo hi) :
    span (some key) hi ⊆ span lo hi ∩ Set.Ici key := by
  intro x hx
  have hle : key ≤ x := hx.1 key rfl
  exact ⟨⟨fun bound hbound => le_trans (hkey.1 bound hbound) hle, hx.2⟩, hle⟩

theorem checkWithin_sound {check : Option K → Option K → C → Bool} {bounded : Set K → C → Prop}
    (hmono : Widens bounded) (hcheck : ∀ lo hi child, check lo hi child = true → bounded (span lo hi) child)
    {lo hi : Option K} {first : C} {rest : List (K × C)} (hsorted : Sorted rest)
    (h : checkWithin check lo hi first rest = true) : Within bounded (span lo hi) first rest := by
  induction rest generalizing lo first with
  | nil => exact hcheck lo hi first h
  | cons head rest ih =>
    obtain ⟨key, child⟩ := head
    obtain ⟨hlater, hsorted⟩ := List.pairwise_cons.mp hsorted
    simp only [checkWithin, Bool.and_eq_true] at h
    obtain ⟨⟨hkey, hfirst⟩, hrest⟩ := h
    have hmem := inSpan_iff.mp hkey
    exact ⟨hmem, hlater, hmono _ _ _ (span_below hmem) (hcheck _ _ _ hfirst),
      (ih hsorted hrest).mono hmono (span_from hmem)⟩

/-- A tree that passes the check is ordered. -/
theorem Tree.check_sound {l : Nat} {lo hi : Option K} {t : Tree A K V l}
    (h : t.check lo hi = true) : t.Bounded (span lo hi) := by
  induction l generalizing lo hi with
  | zero =>
    simp only [check, Bool.and_eq_true, List.all_eq_true] at h
    exact ⟨sorted_of_ascends h.1, fun entry hentry => inSpan_iff.mp (h.2 entry hentry)⟩
  | succ l ih =>
    obtain ⟨hascends, hwithin⟩ := Bool.and_eq_true_iff.mp h
    exact checkWithin_sound (widens_bounded l) (fun lo hi child => ih) (sorted_of_ascends hascends) hwithin

theorem Tree.bounded_of_check {l : Nat} {t : Tree A K V l} (h : t.check none none = true) :
    t.Bounded Set.univ :=
  (check_sound h).mono (Set.subset_univ _)

section Decide

variable {l : Nat}

omit [LinearOrder K] in
/-- A property of all children is decided child by child. -/
def decidableEvery {P : C → Prop} (decide : (child : C) → Decidable (P child)) (first : C)
    (rest : List (K × C)) : Decidable (Every P first rest) :=
  have := decide first
  have : DecidablePred fun child : K × C => P child.2 := fun child => decide child.2
  inferInstanceAs (Decidable (P first ∧ ∀ child ∈ rest, P child.2))

instance Tree.decidableFill (leafCap innerCap : Nat) :
    {l : Nat} → (t : Tree A K V l) → Decidable (t.Fill leafCap innerCap)
  | 0, (t : Leaf A K V) => inferInstanceAs (Decidable (t.entries.length ≤ leafCap))
  | _ + 1, (t : Inner A K (Tree A K V _)) =>
    have := decidableEvery (decidableFill leafCap innerCap) t.first t.rest
    inferInstanceAs (Decidable (1 ≤ t.rest.length ∧ t.rest.length ≤ innerCap ∧
      Every (Tree.Fill leafCap innerCap) t.first t.rest))

instance Tree.decidableAttached : {l : Nat} → (t : Tree A K V l) → Decidable t.Attached
  | 0, _ => .isTrue trivial
  | _ + 1, (t : Inner A K (Tree A K V _)) =>
    decidableEvery (fun child => have := decidableAttached child; inferInstanceAs (Decidable (_ ∧ _)))
      t.first t.rest

instance Tree.decidableOrphans (leafCap innerCap : Nat) (key : K) :
    {l : Nat} → (t : Tree A K V l) → Decidable (t.Orphans leafCap innerCap key)
  | 0, _ => .isFalse id
  | l + 1, (t : Inner A K (Tree A K V l)) =>
    have := decidableOrphans leafCap innerCap key (target key t.first t.rest)
    inferInstanceAs (Decidable ((target key t.first t.rest).Orphans leafCap innerCap key ∨
      (0 < l ∧ Tree.Splits leafCap innerCap key (l := l + 1) t ∧
        slot key t.first t.rest < (t.rest.length + 1) / 2)))

instance decidableChained [DecidableEq A] (stop : A) :
    (chunks : List (Chunk A K V)) → Decidable (Chained stop chunks)
  | [] => .isTrue trivial
  | chunk :: rest =>
    have := decidableChained stop rest
    inferInstanceAs (Decidable (chunk.next = headAddr stop rest ∧ Chained stop rest))

end Decide

end bplus
