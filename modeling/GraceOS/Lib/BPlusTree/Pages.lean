import GraceOS.Lib.BPlusTree.Contents
import Mathlib.Data.List.Nodup

namespace bplus

open List

variable {A K V C σ : Type} [LinearOrder K]
variable {leafCap innerCap : Nat} {alloc : σ → Option (A × σ)} {key : K} {value : V}

section Others

variable {first : C} {rest : List (K × C)}

/-- A property of all the children of one node but the target. -/
def Others (key : K) (P : C → Prop) : C → List (K × C) → Prop
  | _, [] => True
  | first, (separator, child) :: rest =>
    if key < separator then Every P child rest else P first ∧ Others key P child rest

theorem Every.others {P : C → Prop} (h : Every P first rest) (key : K) : Others key P first rest := by
  induction rest generalizing first with
  | nil => trivial
  | cons head rest ih =>
    obtain ⟨hfirst, hrest⟩ := Every.cons_iff.mp h
    unfold Others
    split
    · exact hrest
    · exact ⟨hfirst, ih hrest⟩

theorem Others.imp {P Q R : C → Prop} (h : ∀ child, P child → Q child → R child)
    (hP : Others key P first rest) (hQ : Others key Q first rest) : Others key R first rest := by
  induction rest generalizing first with
  | nil => trivial
  | cons head rest ih =>
    unfold Others at hP hQ ⊢
    split
    · rename_i hlt
      rw [if_pos hlt] at hP hQ
      exact ⟨h _ hP.1 hQ.1, fun child hmem => h _ (hP.2 child hmem) (hQ.2 child hmem)⟩
    · rename_i hlt
      rw [if_neg hlt] at hP hQ
      exact ⟨h _ hP.1 hQ.1, ih hP.2 hQ.2⟩

/-- A graft has a property when the untouched children and the new ones do. -/
theorem Others.graft {P : C → Prop} (h : Others key P first rest) (run : C × List (K × C))
    (hrun : Every P run.1 run.2) :
    Every P (bplus.graft key run first rest).1 (bplus.graft key run first rest).2 := by
  induction rest generalizing first with
  | nil => exact hrun
  | cons head rest ih =>
    unfold Others at h
    unfold bplus.graft
    split
    · rename_i hlt
      rw [if_pos hlt] at h
      exact Every.append_iff.mpr ⟨hrun, h⟩
    · rename_i hlt
      rw [if_neg hlt] at h
      exact Every.cons_iff.mpr ⟨h.1, ih h.2⟩

theorem mem_gather_of_target {B : Type} {f : C → List B} {b : B} (hb : b ∈ f (target key first rest)) :
    b ∈ gather f first rest := by
  rcases target_mem key first rest with h | ⟨child, hchild, h⟩
  · exact mem_gather.mpr (.inl (h ▸ hb))
  · exact mem_gather.mpr (.inr ⟨child, hchild, h ▸ hb⟩)

/-- In a node without duplicates the other children share nothing with the
target. -/
theorem others_disjoint {f : C → List A} (hnodup : (gather f first rest).Nodup) (key : K) :
    Others key (fun child => ∀ a ∈ f child, a ∉ f (target key first rest)) first rest := by
  induction rest generalizing first with
  | nil => trivial
  | cons head rest ih =>
    obtain ⟨separator, child⟩ := head
    rw [gather_cons, nodup_append] at hnodup
    obtain ⟨_, hrest, hcross⟩ := hnodup
    unfold Others target
    split
    · have hapart : ∀ a ∈ gather f child rest, a ∉ f first :=
        fun a ha hfirst => hcross a hfirst a ha rfl
      exact ⟨fun a ha => hapart a (mem_gather.mpr (.inl ha)),
        fun other hother a ha => hapart a (mem_gather.mpr (.inr ⟨other, hother, ha⟩))⟩
    · exact ⟨fun a ha htarget => hcross a ha a (mem_gather_of_target htarget) rfl, ih hrest⟩

end Others

/-- What a source of fresh addresses promises: an address it hands out was free
and is free no longer, and it runs dry exactly when its budget is spent. -/
structure Supply (alloc : σ → Option (A × σ)) (free : σ → Set A) (budget : σ → Nat) : Prop where
  mem_free : ∀ {s s' fresh}, alloc s = some (fresh, s') → fresh ∈ free s
  free_rest : ∀ {s s' fresh}, alloc s = some (fresh, s') → free s' = free s \ {fresh}
  dry_iff : ∀ {s}, alloc s = none ↔ budget s = 0
  spent : ∀ {s s' fresh}, alloc s = some (fresh, s') → budget s = budget s' + 1

/-- Replacing a stretch of a duplicate-free list by other elements that do not
occur around it leaves it duplicate-free. -/
theorem nodup_splice {before middle after stretch : List A}
    (hnodup : (before ++ middle ++ after).Nodup) (hstretch : stretch.Nodup)
    (hmem : ∀ a ∈ stretch, a ∈ middle ∨ (a ∉ before ∧ a ∉ after)) :
    (before ++ stretch ++ after).Nodup := by
  obtain ⟨hleft, hafter, hcrossAfter⟩ := List.nodup_append.mp hnodup
  obtain ⟨hbefore, _, hcross⟩ := List.nodup_append.mp hleft
  refine List.nodup_append.mpr ⟨List.nodup_append.mpr ⟨hbefore, hstretch, ?_⟩, hafter, ?_⟩
  · intro a ha b hb heq
    rcases hmem b hb with h | h
    · exact hcross a ha b h heq
    · exact h.1 (heq ▸ ha)
  · intro a ha b hb heq
    rcases List.mem_append.mp ha with h | h
    · exact hcrossAfter a (mem_append_left _ h) b hb heq
    · rcases hmem a h with h | h
      · exact hcrossAfter a (mem_append_right _ h) b hb heq
      · exact h.2 (heq ▸ hb)

/-- The addresses an outcome uses: no duplicates, and nothing but old addresses
and addresses taken from the supply on the way. -/
structure Outcome.PagesOk (free : σ → Set A) (old : List A) (s s' : σ) (new : List A) : Prop where
  shrinks : free s' ⊆ free s
  nodup : new.Nodup
  mem : ∀ a ∈ new, a ∈ old ∨ (a ∈ free s ∧ a ∉ free s')

/-- A node around a stretch of addresses that changed. -/
theorem Outcome.PagesOk.around {free : σ → Set A} {s s' : σ} {root : A}
    {before middle after stretch : List A}
    (h : Outcome.PagesOk free middle s s' stretch)
    (hnodup : (root :: (before ++ middle ++ after)).Nodup)
    (hfree : ∀ a ∈ root :: (before ++ middle ++ after), a ∉ free s) :
    Outcome.PagesOk free (root :: (before ++ middle ++ after)) s s'
      (root :: (before ++ stretch ++ after)) := by
  obtain ⟨hroot, hrest⟩ := List.nodup_cons.mp hnodup
  have hmem : ∀ a ∈ stretch, a ∈ middle ∨ (a ∉ before ∧ a ∉ after) := by
    intro a ha
    rcases h.mem a ha with hold | hnew
    · exact .inl hold
    · exact .inr ⟨fun hb => hfree a (by simp [hb]) hnew.1, fun hb => hfree a (by simp [hb]) hnew.1⟩
  refine ⟨h.shrinks, List.nodup_cons.mpr ⟨?_, nodup_splice hrest h.nodup hmem⟩, ?_⟩
  · intro hin
    rw [mem_append, mem_append] at hin hroot
    rcases hin with (hin | hin) | hin
    · exact hroot (.inl (.inl hin))
    · rcases h.mem root hin with hold | hnew
      · exact hroot (.inl (.inr hold))
      · exact hfree root mem_cons_self hnew.1
    · exact hroot (.inr hin)
  · intro a ha
    simp only [mem_cons, mem_append] at ha ⊢
    rcases ha with ha | (ha | ha) | ha
    · exact .inl (.inl ha)
    · exact .inl (.inr (.inl (.inl ha)))
    · exact (h.mem a ha).imp_left fun hold => .inr (.inl (.inr hold))
    · exact .inl (.inr (.inr ha))

/-- Dropping addresses keeps the promise. -/
theorem Outcome.PagesOk.sublist {free : σ → Set A} {s s' : σ} {old new kept : List A}
    (h : Outcome.PagesOk free old s s' new) (hsub : kept.Sublist new) :
    Outcome.PagesOk free old s s' kept :=
  ⟨h.shrinks, h.nodup.sublist hsub, fun a ha => h.mem a (hsub.subset ha)⟩

/-- One more address taken from the supply, anywhere among the others. -/
theorem Outcome.PagesOk.take {free : σ → Set A} {budget : σ → Nat} (hsupply : Supply alloc free budget)
    {s s' s'' : σ} {fresh : A} {old front back : List A}
    (h : Outcome.PagesOk free old s s' (front ++ back)) (hold : ∀ a ∈ old, a ∉ free s)
    (halloc : alloc s' = some (fresh, s'')) :
    Outcome.PagesOk free old s s'' (front ++ fresh :: back) := by
  have hin := hsupply.mem_free halloc
  have hrest := hsupply.free_rest halloc
  have hfresh : fresh ∉ front ++ back := by
    intro hmem
    rcases h.mem fresh hmem with hmem | hmem
    · exact hold fresh hmem (h.shrinks hin)
    · exact hmem.2 hin
  refine ⟨?_, List.nodup_middle.mpr (List.nodup_cons.mpr ⟨hfresh, h.nodup⟩), ?_⟩
  · rw [hrest]
    exact Set.sdiff_subset.trans h.shrinks
  · intro a ha
    rcases List.mem_append.mp (List.perm_middle.mem_iff.mp ha |> fun h => by simpa using h :
        a ∈ [fresh] ++ (front ++ back)) with hmem | hmem
    · rw [List.mem_singleton.mp hmem]
      exact .inr ⟨h.shrinks hin, by rw [hrest]; simp⟩
    · refine (h.mem a hmem).imp_right fun hnew => ⟨hnew.1, ?_⟩
      rw [hrest]
      exact fun hdiff => hnew.2 hdiff.1

/-- Insertion never uses an address twice, and takes new ones from the supply. -/
theorem Inserts.pagesOk {free : σ → Set A} {budget : σ → Nat} (hsupply : Supply alloc free budget)
    {l : Nat} {t : Tree A K V l} {s s' : σ} {o : Outcome A K V l}
    (h : Inserts leafCap innerCap alloc key value t s o s') (hnodup : t.pages.Nodup)
    (hfree : ∀ a ∈ t.pages, a ∉ free s) : Outcome.PagesOk free t.pages s s' o.pages := by
  -- What a step at an internal node needs: the child's promise, around its siblings.
  have hstep : ∀ {l : Nat} {t : Inner A K (Tree A K V l)} {s s' : σ} {stretch : List A}
      (run : Tree A K V l × List (K × Tree A K V l)),
      ((target key t.first t.rest).pages.Nodup → (∀ a ∈ (target key t.first t.rest).pages, a ∉ free s) →
        Outcome.PagesOk free (target key t.first t.rest).pages s s' stretch) →
      (Tree.pages (l := l + 1) t).Nodup →
      (∀ a ∈ Tree.pages (l := l + 1) t, a ∉ free s) →
      gather Tree.pages run.1 run.2 = stretch →
      Outcome.PagesOk free (Tree.pages (l := l + 1) t) s s'
        (t.addr :: gather Tree.pages (graft key run t.first t.rest).1 (graft key run t.first t.rest).2) := by
    intro l t s s' stretch run ih hnodup hfree hrun
    obtain ⟨before, after, hold, hnew⟩ := gather_graft Tree.pages key t.first t.rest
    rw [Tree.pages_inner, hold] at hnodup hfree ⊢
    rw [hnew run, hrun]
    refine (ih ?_ ?_).around hnodup hfree
    · exact (List.nodup_append.mp (List.nodup_append.mp (List.nodup_cons.mp hnodup).2).1).2.1
    · exact fun a ha => hfree a (by simp [ha])
  induction h with
  | leafDone hroom => exact ⟨Set.Subset.rfl, hnodup, fun a ha => .inl ha⟩
  | leafFailed => exact ⟨Set.Subset.rfl, hnodup, fun a ha => .inl ha⟩
  | @leafSplit t s s' fresh entry lower upper habsent hfull halloc hcut hmid =>
    have hsame : Outcome.PagesOk free [t.addr] s s ([t.addr] ++ []) :=
      ⟨Set.Subset.rfl, by simp, fun a ha => .inl (by simpa using ha)⟩
    exact hsame.take hsupply hfree halloc
  | @childDone _ t s s' child hchild ih | @childFailed _ t s s' child hchild ih =>
    exact hstep (child, []) ih hnodup hfree (gather_nil _ _)
  | @childRerooted _ t s s' root hchild ih =>
    obtain ⟨before, after, hold, _⟩ := gather_graft Tree.pages key t.first t.rest
    rw [Tree.pages_inner, hold] at hnodup hfree
    have hok := ih
      (List.nodup_append.mp (List.nodup_append.mp (List.nodup_cons.mp hnodup).2).1).2.1
      (fun a ha => hfree a (by simp [ha]))
    refine ⟨hok.shrinks, hok.nodup, fun a ha => (hok.mem a ha).imp_left fun hmem => ?_⟩
    rw [Tree.pages_inner, hold]
    simp [hmem]
  | @attachDone _ t s s' left right separator run hchild hlinked hroom hrun ih =>
    have hok := hstep (left, [(separator, right.link)]) ih hnodup hfree
      (by rw [gather_cons, gather_nil, Tree.link_pages]; rfl)
    rwa [hrun] at hok
  | @attachFailed _ t s s' left right separator first lower upper hchild hlinked hfull hrun hmid
      halloc ih =>
    have hok := hstep (left, [(separator, right)]) ih hnodup hfree
      (by rw [gather_cons, gather_nil]; rfl)
    rw [hrun] at hok
    refine hok.sublist (List.Sublist.cons_cons _ ?_)
    simp only [gather, flatMap_append, ← append_assoc]
    exact sublist_append_left _ _
  | @attachSplit _ t s s' s'' left right separator promoted first child lower upper fresh hchild
      hlinked hfull hrun hmid halloc ih =>
    have hok := hstep (left, [(separator, right)]) ih hnodup hfree
      (by rw [gather_cons, gather_nil]; rfl)
    rw [hrun, gather_append, ← cons_append] at hok
    have htake := hok.take hsupply hfree halloc
    change Outcome.PagesOk free _ s s'' ((t.addr :: gather Tree.pages first lower) ++
      (fresh :: gather Tree.pages child.link (upper.map fun pair => (pair.1, pair.2.link))))
    rw [gather_map_link Tree.link_pages]
    exact htake
  | @rerootFailed _ t s s' left right separator hchild hlinked halloc ih =>
    refine hstep (left, []) ?_ hnodup hfree (gather_nil _ _)
    intro hchildNodup hchildFree
    exact (ih hchildNodup hchildFree).sublist (sublist_append_left _ _)
  | @rerootDone _ t s s' s'' left right separator fresh hchild hlinked halloc ih =>
    obtain ⟨before, after, hold, _⟩ := gather_graft Tree.pages key t.first t.rest
    rw [Tree.pages_inner, hold] at hnodup hfree
    have hchildFree : ∀ a ∈ (target key t.first t.rest).pages, a ∉ free s :=
      fun a ha => hfree a (by simp [ha])
    have hok := ih
      (List.nodup_append.mp (List.nodup_append.mp (List.nodup_cons.mp hnodup).2).1).2.1 hchildFree
    have hnone : Outcome.PagesOk free _ s s' ([] ++ (left.pages ++ right.pages)) := hok
    have htake := hnone.take hsupply hchildFree halloc
    change Outcome.PagesOk free _ s s'' (fresh :: gather Tree.pages left.link [(separator, right.link)])
    rw [gather_cons, gather_nil, Tree.link_pages, Tree.link_pages]
    refine ⟨htake.shrinks, htake.nodup, fun a ha => (htake.mem a ha).imp_left fun hmem => ?_⟩
    rw [Tree.pages_inner, hold]
    simp [hmem]

end bplus
