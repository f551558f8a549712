import GraceOS.Lib.BPlusTree.Preserve

namespace bplus

variable {A K V C σ : Type} [LinearOrder K]

/-- The position of the child whose range holds `key` among its siblings. -/
def slot (key : K) : C → List (K × C) → Nat
  | _, [] => 0
  | _, (separator, child) :: rest => if key < separator then 0 else slot key child rest + 1

namespace Tree

/-- Every node below the root on the way to `key` has its back link set. -/
def PathLinked (key : K) : {l : Nat} → Tree A K V l → Prop
  | 0, _ => True
  | _ + 1, (t : Inner A K (Tree A K V _)) =>
    (target key t.first t.rest).linked = true ∧ (target key t.first t.rest).PathLinked key

/-- Inserting `key` cuts this node: its leaf lacks the key, and the leaf and all
nodes on the way down to it are full. -/
def Splits (leafCap innerCap : Nat) (key : K) : {l : Nat} → Tree A K V l → Prop
  | 0, (t : Leaf A K V) => key ∉ t.entries.map Prod.fst ∧ leafCap ≤ t.entries.length
  | _ + 1, (t : Inner A K (Tree A K V _)) =>
    innerCap ≤ t.rest.length ∧ (target key t.first t.rest).Splits leafCap innerCap key

/-- Somewhere on the way to `key` an internal node is cut whose parent is cut
too, and the new half stays in the lower half of the parent. -/
def Orphans (leafCap innerCap : Nat) (key : K) : {l : Nat} → Tree A K V l → Prop
  | 0, _ => False
  | l + 1, (t : Inner A K (Tree A K V l)) =>
    (target key t.first t.rest).Orphans leafCap innerCap key ∨
      (0 < l ∧ Splits leafCap innerCap key (l := l + 1) t ∧
        slot key t.first t.rest < (t.rest.length + 1) / 2)

/-- A node is cut only after its leaf was. -/
theorem Splits.leafFor {leafCap innerCap : Nat} {key : K} {l : Nat} {t : Tree A K V l}
    (h : t.Splits leafCap innerCap key) :
    Splits leafCap innerCap key (l := 0) (t.leafFor key) := by
  induction l with
  | zero => exact h
  | succ l ih => exact ih h.2

/-- Whether a node is cut can be computed. -/
instance decidableSplits (leafCap innerCap : Nat) (key : K) :
    {l : Nat} → (t : Tree A K V l) → Decidable (t.Splits leafCap innerCap key)
  | 0, (t : Leaf A K V) =>
    inferInstanceAs (Decidable (key ∉ t.entries.map Prod.fst ∧ leafCap ≤ t.entries.length))
  | _ + 1, (t : Inner A K (Tree A K V _)) =>
    have := decidableSplits leafCap innerCap key (target key t.first t.rest)
    inferInstanceAs (Decidable (innerCap ≤ t.rest.length ∧
      (target key t.first t.rest).Splits leafCap innerCap key))

/-- The number of fresh addresses an insertion takes below the root: one for
every node it cuts. -/
def cost (leafCap innerCap : Nat) (key : K) : {l : Nat} → Tree A K V l → Nat
  | 0, t => if Splits leafCap innerCap key (l := 0) t then 1 else 0
  | l + 1, (t : Inner A K (Tree A K V l)) =>
    (target key t.first t.rest).cost leafCap innerCap key +
      if Splits leafCap innerCap key (l := l + 1) t then 1 else 0

theorem Attached.pathLinked {l : Nat} {t : Tree A K V l} (h : t.Attached) (key : K) :
    t.PathLinked key := by
  induction l with
  | zero => trivial
  | succ l ih =>
    have htarget := Every.target h key
    exact ⟨htarget.1, ih htarget.2⟩

end Tree

section Slot

variable {key : K} {first : C} {rest : List (K × C)}

/-- Up to the slot of the target, a graft does not depend on how many children
it puts there. -/
theorem graft_take (child : C) (more : List (K × C)) {n : Nat} (hn : n ≤ slot key first rest) :
    (graft key (child, more) first rest).1 = (graft key (child, []) first rest).1 ∧
      (graft key (child, more) first rest).2.take n = (graft key (child, []) first rest).2.take n := by
  induction rest generalizing first n with
  | nil =>
    obtain rfl : n = 0 := Nat.le_zero.mp hn
    simp [graft]
  | cons head rest ih =>
    obtain ⟨separator, middle⟩ := head
    by_cases hkey : key < separator
    · obtain rfl : n = 0 := by simpa [slot, hkey] using hn
      simp [graft, hkey]
    · cases n with
      | zero => simp [graft, hkey]
      | succ n =>
        have hn' : n ≤ slot key middle rest := by simpa [slot, hkey] using hn
        obtain ⟨hfirst, hrest⟩ := ih hn'
        simp [graft, hkey, hfirst, hrest]

/-- A second child of a graft lands right behind the slot of the target. -/
theorem mem_take_graft {child : C} {extra : K × C} {n : Nat} (hn : slot key first rest < n) :
    extra ∈ (graft key (child, [extra]) first rest).2.take n := by
  induction rest generalizing first n with
  | nil =>
    obtain ⟨n, rfl⟩ : ∃ m, n = m + 1 := ⟨n - 1, by omega⟩
    simp [graft]
  | cons head rest ih =>
    obtain ⟨separator, middle⟩ := head
    obtain ⟨n, rfl⟩ : ∃ m, n = m + 1 := ⟨n - 1, by omega⟩
    by_cases hkey : key < separator
    · simp [graft, hkey]
    · have hn' : slot key middle rest < n := by simpa [slot, hkey] using hn
      simp only [graft, hkey, if_false, List.take_succ_cons]
      exact List.mem_cons_of_mem _ (ih hn')

/-- Grafting into a node whose children all have a property gives such a node
exactly when the grafted children have it. -/
theorem Every.graft_iff {P : C → Prop} (h : Every P first rest) (key : K) (run : C × List (K × C)) :
    Every P (bplus.graft key run first rest).1 (bplus.graft key run first rest).2 ↔
      Every P run.1 run.2 := by
  induction rest generalizing first with
  | nil => rfl
  | cons head rest ih =>
    obtain ⟨separator, child⟩ := head
    obtain ⟨hfirst, hrest⟩ := Every.cons_iff.mp h
    by_cases hkey : key < separator
    · simp only [bplus.graft, hkey, if_true, Every.append_iff]
      exact and_iff_left hrest
    · simp only [bplus.graft, hkey, if_false, Every.cons_iff, ih hrest]
      exact and_iff_right hfirst

end Slot

variable {leafCap innerCap : Nat} {alloc : σ → Option (A × σ)} {key : K} {value : V}
variable {l : Nat} {t : Tree A K V l} {s s' : σ}

/-- What an outcome keeps of the node it is about: the address, the back link,
and whether it had to be cut. -/
def Outcome.Kept (leafCap innerCap : Nat) (key : K) (t : Tree A K V l) :
    Outcome A K V l → Prop
  | .done t' => t'.addr = t.addr ∧ t'.linked = t.linked ∧ ¬t.Splits leafCap innerCap key
  | .split left _ right =>
    left.addr = t.addr ∧ left.linked = t.linked ∧
      right.linked = (decide (l = 0) && t.linked) ∧ t.Splits leafCap innerCap key
  | .failed t' =>
    t'.addr = t.addr ∧ t'.linked = t.linked ∧
      Tree.Splits leafCap innerCap key (l := 0) (t.leafFor key)
  | .rerooted root => root.2.linked = false

theorem Leaf.not_splits (innerCap : Nat) {t : Leaf A K V}
    (hroom : key ∈ t.entries.map Prod.fst ∨ t.entries.length < leafCap) :
    ¬Tree.Splits leafCap innerCap key (l := 0) t := by
  rintro ⟨habsent, hfull⟩
  rcases hroom with hin | hlt
  · exact habsent hin
  · omega

theorem Inserts.kept {o : Outcome A K V l} (h : Inserts leafCap innerCap alloc key value t s o s') :
    o.Kept leafCap innerCap key t := by
  induction h with
  | leafDone hroom => exact ⟨rfl, rfl, Leaf.not_splits innerCap hroom⟩
  | leafFailed habsent hfull => exact ⟨rfl, rfl, habsent, hfull⟩
  | leafSplit habsent hfull => exact ⟨rfl, rfl, rfl, habsent, hfull⟩
  | childDone hchild ih => exact ⟨rfl, rfl, fun hsplits => ih.2.2 hsplits.2⟩
  | childFailed hchild ih => exact ⟨rfl, rfl, ih.2.2⟩
  | childRerooted hchild ih => exact ih
  | attachDone hchild hlinked hroom => exact ⟨rfl, rfl, fun hsplits => absurd hsplits.1 (by omega)⟩
  | attachFailed hchild hlinked hfull hrun hmid halloc ih => exact ⟨rfl, rfl, ih.2.2.2.leafFor⟩
  | attachSplit hchild hlinked hfull hrun hmid halloc ih =>
    exact ⟨rfl, rfl, rfl, hfull, ih.2.2.2⟩
  | rerootFailed hchild hlinked halloc ih => exact ⟨rfl, rfl, ih.2.2.2.leafFor⟩
  | rerootDone => rfl

/-- As long as the back links on its way are set, an insertion never makes a new
root below the real one. -/
theorem Inserts.ne_rerooted {root : SizedTree A K V} (hlinked : t.PathLinked key) :
    ¬Inserts leafCap innerCap alloc key value t s (.rerooted root) s' := by
  intro h
  generalize ho : Outcome.rerooted root = o at h
  induction h with
  | childRerooted hchild ih =>
    cases ho
    exact ih hlinked.2 rfl
  | rerootDone hchild hleft =>
    have hkept : Outcome.Kept leafCap innerCap key _ (.split _ _ _) := hchild.kept
    rw [hkept.2.1, hlinked.1] at hleft
    exact Bool.noConfusion hleft
  | _ => cases ho

omit [LinearOrder K] in
theorem Every.and_iff {P Q : C → Prop} {first : C} {rest : List (K × C)} :
    Every (fun child => P child ∧ Q child) first rest ↔ Every P first rest ∧ Every Q first rest := by
  simp only [Every, imp_and, forall_and]
  tauto

/-- When a full node is cut, the children that stay are all linked unless the
new child is among them and came without its link. -/
theorem linked_lower_iff {first left right : Tree A K V l} {separator : K}
    {old rest : List (K × Tree A K V l)} {oldFirst : Tree A K V l} {n : Nat}
    (hold : Every (fun child => child.linked = true) oldFirst old) (hleft : left.linked = true)
    (hfirst : (graft key (left, [(separator, right)]) oldFirst old).1 = first)
    (hrest : (graft key (left, [(separator, right)]) oldFirst old).2.take n = rest) :
    Every (fun child => child.linked = true) first rest ↔
      ¬(right.linked = false ∧ slot key oldFirst old < n) := by
  subst hfirst hrest
  rcases Nat.lt_or_ge (slot key oldFirst old) n with hslot | hslot
  · have hmem : (separator, right) ∈ (graft key (left, [(separator, right)]) oldFirst old).2.take n :=
      mem_take_graft hslot
    cases hright : right.linked with
    | false =>
      refine iff_of_false (fun hevery => ?_) (fun hnot => hnot ⟨rfl, hslot⟩)
      have := hevery.2 _ hmem
      simp [hright] at this
    | true =>
      refine iff_of_true ?_ (fun hnot => Bool.noConfusion hnot.1)
      have hall := (Every.graft_iff hold key (left, [(separator, right)])).mpr
        ⟨hleft, by simpa using hright⟩
      exact ⟨hall.1, fun pair hpair => hall.2 pair (List.mem_of_mem_take hpair)⟩
  · refine iff_of_true ?_ (fun hnot => absurd hnot.2 (by omega))
    obtain ⟨hfirst, hrest⟩ := graft_take left [(separator, right)] hslot
    have hall := (Every.graft_iff hold key (left, [])).mpr ⟨hleft, by simp⟩
    rw [hfirst, hrest]
    exact ⟨hall.1, fun pair hpair => hall.2 pair (List.mem_of_mem_take hpair)⟩

/-- An insertion that cuts nothing off leaves all back links set exactly when no
new internal node stays in the lower half of a parent that is cut as well. -/
theorem Inserts.attached_iff {o : Outcome A K V l}
    (h : Inserts leafCap innerCap alloc key value t s o s') (hattached : t.Attached) (hwhole : o.Whole) :
    o.Forall Tree.Attached ↔ ¬t.Orphans leafCap innerCap key := by
  induction h with
  | leafDone => exact ⟨fun _ => id, fun _ => trivial⟩
  | leafSplit => exact ⟨fun _ => id, fun _ => ⟨trivial, trivial⟩⟩
  | leafFailed | childFailed | childRerooted | attachFailed | rerootFailed | rerootDone =>
    exact absurd hwhole id
  | @childDone l t s s' child hchild ih =>
    have htarget := Every.target hattached key
    have hkept : child.addr = _ ∧ child.linked = _ ∧ _ := hchild.kept
    have horphans : Tree.Orphans leafCap innerCap key (l := l + 1) t ↔
        (target key t.first t.rest).Orphans leafCap innerCap key :=
      or_iff_left fun hsplit => hkept.2.2 hsplit.2.1.2
    rw [horphans, ← ih htarget.2 trivial]
    change Every (fun child => child.linked = true ∧ child.Attached) (t.replace key child).first
      (t.replace key child).rest ↔ _
    rw [Inner.replace, Every.graft_iff hattached key]
    simp [Every, Outcome.Forall, hkept.2.1, htarget.1]
  | @attachDone l t s s' left right separator run hchild hlinked hroom hrun ih =>
    have htarget := Every.target hattached key
    have horphans : Tree.Orphans leafCap innerCap key (l := l + 1) t ↔
        (target key t.first t.rest).Orphans leafCap innerCap key :=
      or_iff_left fun hsplit => absurd hsplit.2.1.1 (by omega)
    rw [horphans, ← ih htarget.2 trivial]
    change Every (fun child => child.linked = true ∧ child.Attached) run.1 run.2 ↔ _
    rw [← hrun, Every.graft_iff hattached key]
    simp [Every, Outcome.Forall, hlinked]
  | @attachSplit l t s s' s'' left right separator promoted first child lower upper fresh hchild
      hlinked hfull hrun hmid halloc ih =>
    have htarget := Every.target hattached key
    have hkept : left.addr = _ ∧ left.linked = _ ∧ right.linked = _ ∧ _ := hchild.kept
    have hattachedAll : Every Tree.Attached first (lower ++ (promoted, child) :: upper) ↔
        left.Attached ∧ right.Attached := by
      have hbelow : Every Tree.Attached t.first t.rest := (Every.and_iff.mp hattached).2
      have hall := Every.graft_iff hbelow key (left, [(separator, right)])
      rw [hrun] at hall
      simpa [Every] using hall
    have hmoved : Every (fun child => child.linked = true ∧ child.Attached) child.link
        (upper.map fun pair => (pair.1, pair.2.link)) ↔ Every Tree.Attached child upper := by
      simp only [Every, List.forall_mem_map, Tree.link_linked, Tree.link_attached, true_and]
    have hstays : Every (fun child => child.linked = true) first lower ↔
        ¬(0 < l ∧ slot key t.first t.rest < (t.rest.length + 1) / 2) := by
      have hfirst : (graft key (left, [(separator, right)]) t.first t.rest).1 = first := by rw [hrun]
      have hlower : (graft key (left, [(separator, right)]) t.first t.rest).2.take lower.length = lower := by
        rw [hrun]
        exact List.take_left
      rw [linked_lower_iff (Every.and_iff.mp hattached).1 hlinked hfirst hlower, hkept.2.2.1, htarget.1, hmid]
      simp [Nat.pos_iff_ne_zero]
    have horphans : Tree.Orphans leafCap innerCap key (l := l + 1) t ↔
        (target key t.first t.rest).Orphans leafCap innerCap key ∨
          (0 < l ∧ slot key t.first t.rest < (t.rest.length + 1) / 2) :=
      or_congr_right (and_congr_right fun _ => and_iff_right ⟨hfull, hkept.2.2.2⟩)
    rw [horphans, not_or, ← hstays, ← ih htarget.2 trivial]
    change Every _ first lower ∧ Every _ _ _ ↔ _
    rw [hmoved, Every.and_iff, and_assoc, ← Every.append_iff, hattachedAll, and_comm]
    rfl

end bplus
