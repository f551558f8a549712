import Mathlib.Algebra.Group.Int.Defs
import Mathlib.Algebra.Group.Nat.Defs
import Mathlib.Order.Interval.Set.Basic
import Mathlib.Data.List.Basic

namespace bplus

variable {A K V C : Type}

/-- The part of a leaf that the leaf chain sees: its address, the address it
links to, and its entries. -/
structure Chunk (A K V : Type) where
  addr : A
  next : A
  entries : List (K × V)

/-- A leaf, with a flag that says whether the back link to its parent is set. -/
structure Leaf (A K V : Type) extends Chunk A K V where
  linked : Bool

/-- An internal node. Every separator is paired with the child on its right, so
a node with `n` separators has `n + 1` children by construction. -/
structure Inner (A K C : Type) where
  addr : A
  linked : Bool
  first : C
  rest : List (K × C)

/-- Trees of a given height. All leaves lie at level zero by construction. -/
@[reducible]
def Tree (A K V : Type) : Nat → Type
  | 0 => Leaf A K V
  | l + 1 => Inner A K (Tree A K V l)

/-- A tree together with its height. -/
abbrev SizedTree (A K V : Type) := (l : Nat) × Tree A K V l

/-- What the children of one node contribute, from left to right. -/
def gather {B : Type} (f : C → List B) (first : C) (rest : List (K × C)) : List B :=
  f first ++ rest.flatMap fun child => f child.2

/-- A property of all the children of one node. -/
def Every (P : C → Prop) (first : C) (rest : List (K × C)) : Prop :=
  P first ∧ ∀ child ∈ rest, P child.2

@[simp] theorem gather_nil {B : Type} (f : C → List B) (first : C) :
    gather f first ([] : List (K × C)) = f first := by
  simp [gather]

theorem gather_cons {B : Type} (f : C → List B) (first : C) (key : K) (child : C)
    (rest : List (K × C)) :
    gather f first ((key, child) :: rest) = f first ++ gather f child rest := by
  simp [gather]

theorem gather_append {B : Type} (f : C → List B) (first : C) (front : List (K × C)) (key : K)
    (child : C) (back : List (K × C)) :
    gather f first (front ++ (key, child) :: back) = gather f first front ++ gather f child back := by
  simp [gather]

variable {first : C} {rest : List (K × C)}

theorem mem_gather {B : Type} {f : C → List B} {b : B} :
    b ∈ gather f first rest ↔ b ∈ f first ∨ ∃ child ∈ rest, b ∈ f child.2 := by
  simp [gather]

variable {key : K} {child : C}

theorem Every.cons_iff {P : C → Prop} :
    Every P first ((key, child) :: rest) ↔ P first ∧ Every P child rest := by
  simp [Every]

theorem Every.append_iff {P : C → Prop} {front : List (K × C)} {back : List (K × C)} :
    Every P first (front ++ (key, child) :: back) ↔ Every P first front ∧ Every P child back := by
  simp only [Every, List.mem_append, List.mem_cons, or_imp, forall_and, forall_eq]
  tauto

namespace Tree

def addr : {l : Nat} → Tree A K V l → A
  | 0, t => Leaf.toChunk t |>.addr
  | _ + 1, t => Inner.addr t

def linked : {l : Nat} → Tree A K V l → Bool
  | 0, t => Leaf.linked t
  | _ + 1, t => Inner.linked t

/-- The same tree with the back link of its root set. -/
def link : {l : Nat} → Tree A K V l → Tree A K V l
  | 0, (t : Leaf A K V) => { t with linked := true }
  | _ + 1, (t : Inner A K (Tree A K V _)) => { t with linked := true }

/-- The addresses of all nodes, parents before children. -/
def pages : {l : Nat} → Tree A K V l → List A
  | 0, t => [addr t]
  | _ + 1, (t : Inner A K (Tree A K V _)) => t.addr :: gather pages t.first t.rest

/-- The leaves from left to right. -/
def chunks : {l : Nat} → Tree A K V l → List (Chunk A K V)
  | 0, t => [Leaf.toChunk t]
  | _ + 1, (t : Inner A K (Tree A K V _)) => gather chunks t.first t.rest

/-- The stored entries from left to right. -/
def entries {l : Nat} (t : Tree A K V l) : List (K × V) :=
  t.chunks.flatMap Chunk.entries

/-- Every node below the root has its back link set. -/
def Attached : {l : Nat} → Tree A K V l → Prop
  | 0, _ => True
  | _ + 1, (t : Inner A K (Tree A K V _)) =>
    Every (fun child => child.linked = true ∧ Attached child) t.first t.rest

/-- Leaves hold at most `leafCap` entries and internal nodes between one and
`innerCap` separators. -/
def Fill (leafCap innerCap : Nat) : {l : Nat} → Tree A K V l → Prop
  | 0, (t : Leaf A K V) => t.entries.length ≤ leafCap
  | _ + 1, (t : Inner A K (Tree A K V _)) =>
    1 ≤ t.rest.length ∧ t.rest.length ≤ innerCap ∧ Every (Fill leafCap innerCap) t.first t.rest

end Tree

/-- The address of the first leaf of a run, or where an empty run leads. -/
def headAddr (stop : A) : List (Chunk A K V) → A
  | [] => stop
  | chunk :: _ => chunk.addr

/-- The leaf chain: every leaf links to the one on its right, the last to `stop`. -/
def Chained (stop : A) : List (Chunk A K V) → Prop
  | [] => True
  | chunk :: rest => chunk.next = headAddr stop rest ∧ Chained stop rest

theorem headAddr_append (stop : A) (front back : List (Chunk A K V)) :
    headAddr stop (front ++ back) = headAddr (headAddr stop back) front := by
  cases front <;> rfl

theorem Chained.append_iff {stop : A} {front back : List (Chunk A K V)} :
    Chained stop (front ++ back) ↔ Chained (headAddr stop back) front ∧ Chained stop back := by
  induction front with
  | nil => simp [Chained]
  | cons chunk front ih => simp only [List.cons_append, Chained, ih, headAddr_append, and_assoc]

section Order

variable [LinearOrder K]

/-- Strictly ascending keys. -/
def Sorted (entries : List (K × V)) : Prop :=
  entries.Pairwise fun first second => first.1 < second.1

/-- The separators of a node lie in `range`, ascend strictly, and cut it into
the ranges of the children: child `i` gets the keys from separator `i - 1` on
and below separator `i`. -/
def Within (bounded : Set K → C → Prop) : Set K → C → List (K × C) → Prop
  | range, first, [] => bounded range first
  | range, first, (key, child) :: rest =>
    key ∈ range ∧ (∀ later ∈ rest, key < later.1) ∧ bounded (range ∩ Set.Iio key) first ∧
      Within bounded (range ∩ Set.Ici key) child rest

/-- Every node is sorted and every key lies in the range its ancestors leave. -/
def Tree.Bounded : {l : Nat} → Set K → Tree A K V l → Prop
  | 0, range, (t : Leaf A K V) => Sorted t.entries ∧ ∀ entry ∈ t.entries, entry.1 ∈ range
  | _ + 1, range, (t : Inner A K (Tree A K V _)) =>
    Within Tree.Bounded range t.first t.rest

/-- The child whose range holds `key`: the one before the first larger separator. -/
def target (key : K) : C → List (K × C) → C
  | first, [] => first
  | first, (separator, child) :: rest => if key < separator then first else target key child rest

/-- The leaf whose range holds `key`. -/
def Tree.leafFor (key : K) : {l : Nat} → Tree A K V l → Leaf A K V
  | 0, t => t
  | _ + 1, (t : Inner A K (Tree A K V _)) => (target key t.first t.rest).leafFor key

/-- A property of subtrees that survives widening their range. -/
def Widens (bounded : Set K → C → Prop) : Prop :=
  ∀ small large child, small ⊆ large → bounded small child → bounded large child

variable {bounded : Set K → C → Prop}

theorem Within.mono (hmono : Widens bounded) {small large : Set K}
    (hwithin : Within bounded small first rest) (hsub : small ⊆ large) :
    Within bounded large first rest := by
  induction rest generalizing small large first with
  | nil => exact hmono _ _ _ hsub hwithin
  | cons head rest ih =>
    obtain ⟨hkey, hlater, hfirst, hrest⟩ := hwithin
    exact ⟨hsub hkey, hlater, hmono _ _ _ (Set.inter_subset_inter_left _ hsub) hfirst,
      ih hrest (Set.inter_subset_inter_left _ hsub)⟩

theorem Tree.widens_bounded (l : Nat) : Widens (Tree.Bounded (A := A) (K := K) (V := V) (l := l)) := by
  induction l with
  | zero =>
    intro small large t hsub hbounded
    exact ⟨hbounded.1, fun entry hentry => hsub (hbounded.2 entry hentry)⟩
  | succ l ih =>
    intro small large t hsub hbounded
    exact Within.mono ih hbounded hsub

theorem Tree.Bounded.mono {l : Nat} {t : Tree A K V l} {small large : Set K}
    (hsub : small ⊆ large) (hbounded : t.Bounded small) : t.Bounded large :=
  Tree.widens_bounded l small large t hsub hbounded

/-- Two runs of children on either side of a separator are within a range
exactly when each is within its side of it. -/
theorem Within.append_iff (hmono : Widens bounded) {range : Set K} {front : List (K × C)} {back : List (K × C)} :
    Within bounded range first (front ++ (key, child) :: back) ↔
      key ∈ range ∧ (∀ earlier ∈ front, earlier.1 < key) ∧ (∀ later ∈ back, key < later.1) ∧
        Within bounded (range ∩ Set.Iio key) first front ∧
        Within bounded (range ∩ Set.Ici key) child back := by
  induction front generalizing range first with
  | nil =>
    simp only [List.nil_append, Within, List.not_mem_nil, false_implies, implies_true, true_and]
  | cons head front ih =>
    obtain ⟨separator, middle⟩ := head
    simp only [List.cons_append, Within, List.mem_append, List.mem_cons, ih]
    constructor
    · rintro ⟨hsep, hlater, hfirst, ⟨hkey, _⟩, hfront, hback, hleft, hright⟩
      have hlt : separator < key := hlater (key, child) (.inr (.inl rfl))
      refine ⟨hkey, ?_, hback, ⟨⟨hsep, hlt⟩, fun later h => hlater later (.inl h), ?_, ?_⟩, ?_⟩
      · rintro earlier (rfl | h)
        · exact hlt
        · exact hfront earlier h
      · exact hmono _ _ _ (fun x hx => ⟨⟨hx.1, lt_trans hx.2 hlt⟩, hx.2⟩) hfirst
      · exact hleft.mono hmono fun x hx => ⟨⟨hx.1.1, hx.2⟩, hx.1.2⟩
      · exact hright.mono hmono fun x hx => ⟨hx.1.1, hx.2⟩
    · rintro ⟨hkey, hfront, hback, ⟨⟨hsep, hlt⟩, hlater, hfirst, hleft⟩, hright⟩
      refine ⟨hsep, ?_, hmono _ _ _ (fun x hx => ⟨hx.1.1, hx.2⟩) hfirst, ⟨hkey, le_of_lt hlt⟩,
        fun earlier h => hfront earlier (.inr h), hback, ?_, ?_⟩
      · rintro later (h | rfl | h)
        · exact hlater later h
        · exact hlt
        · exact lt_trans hlt (hback later h)
      · exact hleft.mono hmono fun x hx => ⟨⟨hx.1.1, hx.2⟩, hx.1.2⟩
      · exact hright.mono hmono fun x hx => ⟨⟨hx.1, le_trans (le_of_lt hlt) hx.2⟩, hx.2⟩

theorem Within.mem_gather {f : C → List (K × V)}
    (hmem : ∀ {range child}, bounded range child → ∀ entry ∈ f child, entry.1 ∈ range)
    {range : Set K} (hwithin : Within bounded range first rest) :
    ∀ entry ∈ gather f first rest, entry.1 ∈ range := by
  induction rest generalizing range first with
  | nil => simpa using hmem hwithin
  | cons head rest ih =>
    obtain ⟨key, child⟩ := head
    obtain ⟨_, _, hfirst, hrest⟩ := hwithin
    intro entry hentry
    rw [gather_cons, List.mem_append] at hentry
    rcases hentry with h | h
    · exact (hmem hfirst entry h).1
    · exact (ih hrest entry h).1

end Order

section Views

@[simp] theorem Tree.link_addr {l : Nat} (t : Tree A K V l) : t.link.addr = t.addr := by
  cases l <;> rfl

@[simp] theorem Tree.link_linked {l : Nat} (t : Tree A K V l) : t.link.linked = true := by
  cases l <;> rfl

@[simp] theorem Tree.link_pages {l : Nat} (t : Tree A K V l) : t.link.pages = t.pages := by
  cases l <;> rfl

@[simp] theorem Tree.link_chunks {l : Nat} (t : Tree A K V l) : t.link.chunks = t.chunks := by
  cases l <;> rfl

@[simp] theorem Tree.link_fill {leafCap innerCap l : Nat} (t : Tree A K V l) :
    t.link.Fill leafCap innerCap ↔ t.Fill leafCap innerCap := by
  cases l <;> rfl

@[simp] theorem Tree.link_attached {l : Nat} (t : Tree A K V l) :
    t.link.Attached ↔ t.Attached := by
  cases l <;> rfl

@[simp] theorem Tree.link_bounded [LinearOrder K] {l : Nat} {range : Set K}
    (t : Tree A K V l) : t.link.Bounded range ↔ t.Bounded range := by
  cases l <;> rfl

theorem Tree.entries_leaf (t : Leaf A K V) :
    Tree.entries (l := 0) t = t.entries := by
  simp [entries, chunks]

theorem Tree.entries_inner {l : Nat} (t : Inner A K (Tree A K V l)) :
    Tree.entries (l := l + 1) t = gather Tree.entries t.first t.rest := by
  simp only [entries, chunks, gather, List.flatMap_append, List.flatMap_assoc]

theorem Tree.pages_inner {l : Nat} (t : Inner A K (Tree A K V l)) :
    Tree.pages (l := l + 1) t = t.addr :: gather Tree.pages t.first t.rest := rfl

theorem Tree.addr_mem_pages {l : Nat} (t : Tree A K V l) : t.addr ∈ t.pages := by
  cases l with
  | zero => simp [pages]
  | succ l => simp [pages, addr]

end Views

end bplus
