import GraceOS.Lib.BPlusTree.Tree

namespace bplus

variable {A K V C σ : Type} [LinearOrder K]

/-- Insert an entry into an ascending list, or replace the one with its key. -/
def upsert (key : K) (value : V) : List (K × V) → List (K × V)
  | [] => [(key, value)]
  | entry :: entries =>
    if key < entry.1 then (key, value) :: entry :: entries
    else if key = entry.1 then (key, value) :: entries
    else entry :: upsert key value entries

/-- Replace the child whose range holds `key` by a run of children. -/
def graft (key : K) (run : C × List (K × C)) : C → List (K × C) → C × List (K × C)
  | _, [] => run
  | first, (separator, child) :: rest =>
    if key < separator then (run.1, run.2 ++ (separator, child) :: rest)
    else (first, (separator, (graft key run child rest).1) :: (graft key run child rest).2)

/-- How an insertion below a node ends: inside it, with the node split in two,
out of fresh addresses, or with a new root made over a node that lacked its
back link. A failed insertion keeps what is still reachable. -/
inductive Outcome (A K V : Type) (l : Nat) where
  | done (t : Tree A K V l)
  | split (left : Tree A K V l) (separator : K) (right : Tree A K V l)
  | failed (t : Tree A K V l)
  | rerooted (t : SizedTree A K V)

/-- Replace the child whose range holds `key` by another one. -/
def Inner.replace (t : Inner A K C) (key : K) (child : C) : Inner A K C :=
  { t with
    first := (graft key (child, []) t.first t.rest).1
    rest := (graft key (child, []) t.first t.rest).2 }

section Insert

variable (leafCap innerCap : Nat) (alloc : σ → Option (A × σ)) (key : K) (value : V)

/-- Insertion into a leaf. A full leaf that lacks the key is cut in the middle;
the upper half moves to a fresh address and takes over the back link as it is. -/
def Leaf.insert (t : Leaf A K V) (s : σ) : Outcome A K V 0 × σ :=
  let entries := upsert key value t.entries
  if key ∈ t.entries.map Prod.fst ∨ t.entries.length < leafCap then
    (.done { t with entries := entries }, s)
  else
    match alloc s with
    | none => (.failed t, s)
    | some (fresh, s) =>
      let left : Leaf A K V := { t with next := fresh, entries := entries.take (entries.length / 2) }
      match entries.drop (entries.length / 2) with
      | [] => (.failed t, s)
      | entry :: upper =>
        let right : Leaf A K V :=
          { addr := fresh, next := t.next, entries := entry :: upper, linked := t.linked }
        (.split left entry.1 right, s)

/-- Hang the two halves of a split child into their parent. A full parent is cut
at its median separator. The children that move get their back link set; a new
child that stays keeps the one it came with. -/
def Inner.attach {l : Nat} (t : Inner A K (Tree A K V l)) (left : Tree A K V l)
    (separator : K) (right : Tree A K V l) (s : σ) : Outcome A K V (l + 1) × σ :=
  if t.rest.length < innerCap then
    let run := graft key (left, [(separator, right.link)]) t.first t.rest
    (.done { t with first := run.1, rest := run.2 }, s)
  else
    let run := graft key (left, [(separator, right)]) t.first t.rest
    let lower : Inner A K (Tree A K V l) :=
      { t with first := run.1, rest := run.2.take (run.2.length / 2) }
    match alloc s with
    | none => (.failed lower, s)
    | some (fresh, s) =>
      match run.2.drop (run.2.length / 2) with
      | [] => (.failed lower, s)
      | (promoted, child) :: upper =>
        let moved : Inner A K (Tree A K V l) :=
          { addr := fresh, linked := false, first := child.link
            rest := upper.map fun pair => (pair.1, pair.2.link) }
        (.split lower promoted moved, s)

/-- A new root over the two halves of a split node. -/
def reroot {l : Nat} (left : Tree A K V l) (separator : K) (right : Tree A K V l)
    (s : σ) : Option (Tree A K V (l + 1)) × σ :=
  match alloc s with
  | none => (none, s)
  | some (fresh, s) =>
    let root : Inner A K (Tree A K V l) :=
      { addr := fresh, linked := false, first := left.link, rest := [(separator, right.link)] }
    (some root, s)

/-- Insertion below a node. The halves of a split child are handed to the
parent only through the child's back link: without it a new root is made. -/
def Tree.insert : {l : Nat} → Tree A K V l → σ → Outcome A K V l × σ
  | 0, t, s => Leaf.insert leafCap alloc key value t s
  | l + 1, (t : Inner A K (Tree A K V l)), s =>
    match (target key t.first t.rest).insert s with
    | (.done child, s) => (.done (t.replace key child), s)
    | (.failed child, s) => (.failed (t.replace key child), s)
    | (.rerooted root, s) => (.rerooted root, s)
    | (.split left separator right, s) =>
      if left.linked then t.attach innerCap alloc key left separator right s
      else
        match reroot alloc left separator right s with
        | (none, s) => (.failed (t.replace key left), s)
        | (some root, s) => (.rerooted ⟨l + 1, root⟩, s)

end Insert

namespace Outcome

variable {l : Nat}

/-- A property of every tree an outcome speaks about. -/
def Forall (P : {l : Nat} → Tree A K V l → Prop) : Outcome A K V l → Prop
  | .done t => P t
  | .split left _ right => P left ∧ P right
  | .failed t => P t
  | .rerooted t => P t.2

def pages : Outcome A K V l → List A
  | .done t => t.pages
  | .split left _ right => left.pages ++ right.pages
  | .failed t => t.pages
  | .rerooted t => t.2.pages

def chunks : Outcome A K V l → List (Chunk A K V)
  | .done t => t.chunks
  | .split left _ right => left.chunks ++ right.chunks
  | .failed t => t.chunks
  | .rerooted t => t.2.chunks

def entries (o : Outcome A K V l) : List (K × V) :=
  o.chunks.flatMap Chunk.entries

/-- The outcome still holds everything: nothing was cut off on the way. -/
def Whole : Outcome A K V l → Prop
  | .done _ => True
  | .split _ _ _ => True
  | .failed _ => False
  | .rerooted _ => False

end Outcome

section Graft

theorem graft_length (key : K) (run : C × List (K × C)) (first : C) (rest : List (K × C)) :
    (graft key run first rest).2.length = run.2.length + rest.length := by
  induction rest generalizing first with
  | nil => simp [graft]
  | cons head rest ih =>
    obtain ⟨separator, child⟩ := head
    unfold graft
    split
    · simp
    · simp only [List.length_cons, ih]
      omega

/-- A graft changes exactly the part of the node that the target child filled. -/
theorem gather_graft {B : Type} (f : C → List B) (key : K) (first : C) (rest : List (K × C)) :
    ∃ before after, gather f first rest = before ++ f (target key first rest) ++ after ∧
      ∀ run, gather f (graft key run first rest).1 (graft key run first rest).2 =
        before ++ gather f run.1 run.2 ++ after := by
  induction rest generalizing first with
  | nil => exact ⟨[], [], by simp [target], by simp [graft]⟩
  | cons head rest ih =>
    obtain ⟨separator, child⟩ := head
    by_cases hkey : key < separator
    · refine ⟨[], gather f child rest, ?_, ?_⟩
      · simp [target, hkey, gather_cons]
      · intro run
        simp [graft, hkey, gather_append]
    · obtain ⟨before, after, hbefore, hafter⟩ := ih child
      refine ⟨f first ++ before, after, ?_, ?_⟩
      · simp [target, hkey, gather_cons, hbefore]
      · intro run
        simp [graft, hkey, gather_cons, hafter]

theorem target_mem (key : K) (first : C) (rest : List (K × C)) :
    target key first rest = first ∨ ∃ child ∈ rest, child.2 = target key first rest := by
  induction rest generalizing first with
  | nil => exact .inl rfl
  | cons head rest ih =>
    obtain ⟨separator, child⟩ := head
    by_cases hkey : key < separator
    · exact .inl (by simp [target, hkey])
    · refine .inr ?_
      rcases ih child with h | ⟨pair, hmem, hpair⟩
      · exact ⟨(separator, child), List.mem_cons_self, by simp [target, hkey, h]⟩
      · exact ⟨pair, List.mem_cons_of_mem _ hmem, by simp [target, hkey, hpair]⟩

theorem Every.target {P : C → Prop} {first : C} {rest : List (K × C)} (h : Every P first rest)
    (key : K) : P (bplus.target key first rest) := by
  rcases target_mem key first rest with htarget | ⟨child, hmem, htarget⟩
  · rw [htarget]
    exact h.1
  · rw [← htarget]
    exact h.2 child hmem

theorem Every.graft {P : C → Prop} {first : C} {rest : List (K × C)} (h : Every P first rest)
    (key : K) (run : C × List (K × C)) (hrun : Every P run.1 run.2) :
    Every P (bplus.graft key run first rest).1 (bplus.graft key run first rest).2 := by
  induction rest generalizing first with
  | nil => exact hrun
  | cons head rest ih =>
    obtain ⟨separator, child⟩ := head
    obtain ⟨hfirst, hrest⟩ := Every.cons_iff.mp h
    unfold bplus.graft
    split
    · exact Every.append_iff.mpr ⟨hrun, hrest⟩
    · exact Every.cons_iff.mpr ⟨hfirst, ih hrest⟩

end Graft

section Inserts

variable (leafCap innerCap : Nat) (alloc : σ → Option (A × σ)) (key : K) (value : V)

/-- Everything an insertion below a node can do, one constructor for each way
the insertion functions return. -/
inductive Inserts : {l : Nat} → Tree A K V l → σ → Outcome A K V l → σ → Prop where
  | leafDone {t : Leaf A K V} {s : σ}
      (hroom : key ∈ t.entries.map Prod.fst ∨ t.entries.length < leafCap) :
      Inserts (l := 0) t s (.done ({ t with entries := upsert key value t.entries } : Leaf A K V)) s
  | leafFailed {t : Leaf A K V} {s : σ} (habsent : key ∉ t.entries.map Prod.fst)
      (hfull : leafCap ≤ t.entries.length) (halloc : alloc s = none) :
      Inserts (l := 0) t s (.failed t) s
  | leafSplit {t : Leaf A K V} {s s' : σ} {fresh : A} {entry : K × V} {lower upper : List (K × V)}
      (habsent : key ∉ t.entries.map Prod.fst) (hfull : leafCap ≤ t.entries.length)
      (halloc : alloc s = some (fresh, s'))
      (hcut : lower ++ entry :: upper = upsert key value t.entries)
      (hmid : lower.length = (upsert key value t.entries).length / 2) :
      Inserts (l := 0) t s
        (.split ({ t with next := fresh, entries := lower } : Leaf A K V) entry.1
          ({ addr := fresh, next := t.next, entries := entry :: upper, linked := t.linked } : Leaf A K V)) s'
  | childDone {l : Nat} {t : Inner A K (Tree A K V l)} {s s' : σ} {child : Tree A K V l}
      (hchild : Inserts (target key t.first t.rest) s (.done child) s') :
      Inserts (l := l + 1) t s (.done (t.replace key child)) s'
  | childFailed {l : Nat} {t : Inner A K (Tree A K V l)} {s s' : σ} {child : Tree A K V l}
      (hchild : Inserts (target key t.first t.rest) s (.failed child) s') :
      Inserts (l := l + 1) t s (.failed (t.replace key child)) s'
  | childRerooted {l : Nat} {t : Inner A K (Tree A K V l)} {s s' : σ} {root : SizedTree A K V}
      (hchild : Inserts (target key t.first t.rest) s (.rerooted root) s') :
      Inserts (l := l + 1) t s (.rerooted root) s'
  | attachDone {l : Nat} {t : Inner A K (Tree A K V l)} {s s' : σ}
      {left right : Tree A K V l} {separator : K} {run : Tree A K V l × List (K × Tree A K V l)}
      (hchild : Inserts (target key t.first t.rest) s (.split left separator right) s')
      (hlinked : left.linked = true) (hroom : t.rest.length < innerCap)
      (hrun : graft key (left, [(separator, right.link)]) t.first t.rest = run) :
      Inserts (l := l + 1) t s
        (.done ({ t with first := run.1, rest := run.2 } : Inner A K (Tree A K V l))) s'
  | attachFailed {l : Nat} {t : Inner A K (Tree A K V l)} {s s' : σ}
      {left right : Tree A K V l} {separator : K} {first : Tree A K V l}
      {lower upper : List (K × Tree A K V l)}
      (hchild : Inserts (target key t.first t.rest) s (.split left separator right) s')
      (hlinked : left.linked = true) (hfull : innerCap ≤ t.rest.length)
      (hrun : graft key (left, [(separator, right)]) t.first t.rest = (first, lower ++ upper))
      (hmid : lower.length = (t.rest.length + 1) / 2) (halloc : alloc s' = none) :
      Inserts (l := l + 1) t s
        (.failed ({ t with first := first, rest := lower } : Inner A K (Tree A K V l))) s'
  | attachSplit {l : Nat} {t : Inner A K (Tree A K V l)} {s s' s'' : σ}
      {left right : Tree A K V l} {separator promoted : K} {first child : Tree A K V l}
      {lower upper : List (K × Tree A K V l)} {fresh : A}
      (hchild : Inserts (target key t.first t.rest) s (.split left separator right) s')
      (hlinked : left.linked = true) (hfull : innerCap ≤ t.rest.length)
      (hrun : graft key (left, [(separator, right)]) t.first t.rest =
        (first, lower ++ (promoted, child) :: upper))
      (hmid : lower.length = (t.rest.length + 1) / 2) (halloc : alloc s' = some (fresh, s'')) :
      Inserts (l := l + 1) t s
        (.split ({ t with first := first, rest := lower } : Inner A K (Tree A K V l)) promoted
          ({ addr := fresh, linked := false, first := child.link
             rest := upper.map fun pair => (pair.1, pair.2.link) } : Inner A K (Tree A K V l))) s''
  | rerootFailed {l : Nat} {t : Inner A K (Tree A K V l)} {s s' : σ}
      {left right : Tree A K V l} {separator : K}
      (hchild : Inserts (target key t.first t.rest) s (.split left separator right) s')
      (hlinked : left.linked = false) (halloc : alloc s' = none) :
      Inserts (l := l + 1) t s (.failed (t.replace key left)) s'
  | rerootDone {l : Nat} {t : Inner A K (Tree A K V l)} {s s' s'' : σ}
      {left right : Tree A K V l} {separator : K} {fresh : A}
      (hchild : Inserts (target key t.first t.rest) s (.split left separator right) s')
      (hlinked : left.linked = false) (halloc : alloc s' = some (fresh, s'')) :
      Inserts (l := l + 1) t s
        (.rerooted ⟨l + 1, ({ addr := fresh, linked := false, first := left.link
                              rest := [(separator, right.link)] } :
          Inner A K (Tree A K V l))⟩) s''

theorem upsert_length_pos (entries : List (K × V)) : 0 < (upsert key value entries).length := by
  cases entries with
  | nil => simp [upsert]
  | cons entry entries =>
    unfold upsert
    split_ifs <;> simp

theorem Leaf.insert_inserts (t : Leaf A K V) (s : σ) :
    Inserts leafCap innerCap alloc key value (l := 0) t s
      (Leaf.insert leafCap alloc key value t s).1 (Leaf.insert leafCap alloc key value t s).2 := by
  unfold Leaf.insert
  dsimp only
  split
  · rename_i hroom
    exact .leafDone hroom
  · rename_i hfull
    rw [not_or, not_lt] at hfull
    cases halloc : alloc s with
    | none => exact .leafFailed hfull.1 hfull.2 halloc
    | some answer =>
      obtain ⟨fresh, s'⟩ := answer
      have hpos := upsert_length_pos key value t.entries
      cases hdrop : (upsert key value t.entries).drop ((upsert key value t.entries).length / 2) with
      | nil =>
        rw [List.drop_eq_nil_iff] at hdrop
        omega
      | cons entry upper =>
        have hcut := List.take_append_drop ((upsert key value t.entries).length / 2)
          (upsert key value t.entries)
        rw [hdrop] at hcut
        exact .leafSplit hfull.1 hfull.2 halloc hcut (by rw [List.length_take]; omega)

theorem Inner.attach_inserts {l : Nat} {t : Inner A K (Tree A K V l)} {s s' : σ}
    {left right : Tree A K V l} {separator : K}
    (hchild : Inserts leafCap innerCap alloc key value (target key t.first t.rest) s
      (.split left separator right) s') (hlinked : left.linked = true) :
    Inserts leafCap innerCap alloc key value (l := l + 1) t s
      (t.attach innerCap alloc key left separator right s').1
      (t.attach innerCap alloc key left separator right s').2 := by
  unfold Inner.attach
  dsimp only
  split
  · rename_i hroom
    exact .attachDone hchild hlinked hroom rfl
  · rename_i hfull
    rw [not_lt] at hfull
    have hlength : (graft key (left, [(separator, right)]) t.first t.rest).2.length =
        t.rest.length + 1 := by
      rw [graft_length, List.length_singleton, Nat.add_comm]
    generalize hrun : graft key (left, [(separator, right)]) t.first t.rest = run at hlength ⊢
    have hcut := List.take_append_drop ((t.rest.length + 1) / 2) run.2
    have hmid : (run.2.take ((t.rest.length + 1) / 2)).length = (t.rest.length + 1) / 2 := by
      rw [List.length_take]
      omega
    rw [hlength]
    cases halloc : alloc s' with
    | none =>
      have hwhole : graft key (left, [(separator, right)]) t.first t.rest =
          (run.1, run.2.take ((t.rest.length + 1) / 2) ++ run.2.drop ((t.rest.length + 1) / 2)) := by
        rw [hcut, hrun]
      exact .attachFailed hchild hlinked hfull hwhole hmid halloc
    | some answer =>
      obtain ⟨fresh, s''⟩ := answer
      cases hdrop : run.2.drop ((t.rest.length + 1) / 2) with
      | nil =>
        rw [List.drop_eq_nil_iff] at hdrop
        omega
      | cons pair upper =>
        obtain ⟨promoted, child⟩ := pair
        rw [hdrop] at hcut
        exact .attachSplit hchild hlinked hfull (by rw [hcut, hrun]) hmid halloc

/-- The insertion function only ever does what `Inserts` lists. -/
theorem Tree.insert_inserts {l : Nat} (t : Tree A K V l) (s : σ) :
    Inserts leafCap innerCap alloc key value t s (t.insert leafCap innerCap alloc key value s).1
      (t.insert leafCap innerCap alloc key value s).2 := by
  induction l generalizing s with
  | zero => exact Leaf.insert_inserts leafCap innerCap alloc key value t s
  | succ l ih =>
    have hchild := ih (target key (Inner.first t) (Inner.rest t)) s
    unfold Tree.insert
    generalize (target key (Inner.first t) (Inner.rest t)).insert leafCap innerCap alloc key value s =
      result at hchild ⊢
    obtain ⟨outcome, s'⟩ := result
    cases outcome with
    | done child => exact .childDone hchild
    | failed child => exact .childFailed hchild
    | rerooted root => exact .childRerooted hchild
    | split left separator right =>
      dsimp only
      cases hlinked : left.linked with
      | true =>
        rw [if_pos rfl]
        exact Inner.attach_inserts leafCap innerCap alloc key value hchild hlinked
      | false =>
        rw [if_neg (by simp)]
        unfold reroot
        cases halloc : alloc s' with
        | none => exact .rerootFailed hchild hlinked halloc
        | some answer => exact .rerootDone hchild hlinked halloc

end Inserts

end bplus
