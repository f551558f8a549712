import GraceOS.Lib.BPlusTree.Preserve
import Mathlib.Data.List.Pairwise

namespace bplus

open List

variable {A K V C σ : Type} [LinearOrder K]
variable {leafCap innerCap : Nat} {alloc : σ → Option (A × σ)} {key : K} {value : V}

/-- A run of leaves that stands where one leaf stood: it starts at the same
address, leads to the same leaf, and holds the entries with `key` inserted. No
leaf of the run holds less than half of the old entries. -/
structure Refits (key : K) (value : V) (chunk : Chunk A K V) (run : List (Chunk A K V)) : Prop where
  start : ∀ stop, headAddr stop run = chunk.addr
  chained : Chained chunk.next run
  contents : run.flatMap Chunk.entries = upsert key value chunk.entries
  halves : ∀ half ∈ run, chunk.entries.length / 2 ≤ half.entries.length

/-- Two sequences of leaves that differ in the one leaf that holds `key`. -/
def Splices (key : K) (value : V) (chunk : Chunk A K V) (old new : List (Chunk A K V)) : Prop :=
  ∃ before after run, old = before ++ chunk :: after ∧ new = before ++ run ++ after ∧
    Refits key value chunk run ∧ (∀ entry ∈ before.flatMap Chunk.entries, entry.1 < key) ∧
    (∀ entry ∈ after.flatMap Chunk.entries, key < entry.1)

theorem Splices.extend {chunk : Chunk A K V} {old new before after : List (Chunk A K V)}
    (h : Splices key value chunk old new)
    (hbefore : ∀ entry ∈ before.flatMap Chunk.entries, entry.1 < key)
    (hafter : ∀ entry ∈ after.flatMap Chunk.entries, key < entry.1) :
    Splices key value chunk (before ++ old ++ after) (before ++ new ++ after) := by
  obtain ⟨front, back, run, rfl, rfl, hrefits, hfront, hback⟩ := h
  refine ⟨before ++ front, back ++ after, run, by simp, by simp, hrefits, ?_, ?_⟩
  · intro entry hentry
    rw [flatMap_append, mem_append] at hentry
    exact hentry.elim (hbefore entry) (hfront entry)
  · intro entry hentry
    rw [flatMap_append, mem_append] at hentry
    exact hentry.elim (hback entry) (hafter entry)

/-- Splicing is insertion into the sequence of all entries. -/
theorem Splices.entries_eq {chunk : Chunk A K V} {old new : List (Chunk A K V)}
    (h : Splices key value chunk old new) :
    new.flatMap Chunk.entries = upsert key value (old.flatMap Chunk.entries) := by
  obtain ⟨before, after, run, rfl, rfl, hrefits, hbefore, hafter⟩ := h
  simp only [flatMap_append, flatMap_cons, hrefits.contents]
  rw [← upsert_append hbefore hafter, append_assoc]

theorem Splices.chained {chunk : Chunk A K V} {old new : List (Chunk A K V)} {stop : A}
    (h : Splices key value chunk old new) (hchained : Chained stop old) : Chained stop new := by
  obtain ⟨before, after, run, rfl, rfl, hrefits, _, _⟩ := h
  obtain ⟨hfront, hnext, hback⟩ := Chained.append_iff.mp hchained
  rw [append_assoc, Chained.append_iff, Chained.append_iff, headAddr_append, hrefits.start]
  exact ⟨hfront, by rw [← hnext]; exact hrefits.chained, hback⟩

/-- The leaves of an outcome are leaves of a spliced sequence, and all of them
when nothing was cut off. -/
def Outcome.SplicedInto {l : Nat} (key : K) (value : V) (chunk : Chunk A K V)
    (old : List (Chunk A K V)) (o : Outcome A K V l) : Prop :=
  ∃ full, Splices key value chunk old full ∧ o.chunks.Sublist full ∧ (o.Whole → o.chunks = full)

theorem Inner.replace_target (t : Inner A K C) (key : K) :
    t.replace key (target key t.first t.rest) = t := by
  have hgraft : ∀ (first : C) (rest : List (K × C)),
      graft key (target key first rest, []) first rest = (first, rest) := by
    intro first rest
    induction rest generalizing first with
    | nil => rfl
    | cons head rest ih =>
      obtain ⟨separator, child⟩ := head
      by_cases hkey : key < separator
      · simp [graft, target, hkey]
      · simp [graft, target, hkey, ih child]
  rw [Inner.replace, hgraft]

theorem Outcome.SplicedInto.splices {l : Nat} {chunk : Chunk A K V} {old : List (Chunk A K V)}
    {o : Outcome A K V l} (h : o.SplicedInto key value chunk old) (hwhole : o.Whole) :
    Splices key value chunk old o.chunks := by
  obtain ⟨full, hsplices, _, hall⟩ := h
  rwa [hall hwhole]

/-- A step at an internal node: what happened to the leaves of the target happened
between leaves that are not touched. -/
theorem Splices.around {l : Nat} {t : Inner A K (Tree A K V l)} {range : Set K}
    (hbounded : Tree.Bounded (l := l + 1) range t) {full : List (Chunk A K V)}
    (h : Splices key value ((target key t.first t.rest).leafFor key).toChunk
      (target key t.first t.rest).chunks full) :
    ∃ before after, Splices key value (Tree.leafFor key (l := l + 1) t).toChunk
        (Tree.chunks (l := l + 1) t) (before ++ full ++ after) ∧
      ∀ run, gather Tree.chunks (graft key run t.first t.rest).1 (graft key run t.first t.rest).2 =
        before ++ gather Tree.chunks run.1 run.2 ++ after := by
  obtain ⟨before, after, hold, hnew, hbefore, hafter⟩ := Within.chunks_focus hbounded key
  have hsplices := h.extend hbefore hafter
  rw [← hold] at hsplices
  exact ⟨before, after, hsplices, hnew⟩

/-- Everything an insertion does to the leaves. Either the supply was dry at once
and nothing happened, or one leaf was replaced by a run of leaves and then some
leaves may have been cut off. -/
theorem Inserts.splices {l : Nat} {t : Tree A K V l} {s s' : σ} {o : Outcome A K V l}
    (h : Inserts leafCap innerCap alloc key value t s o s') {range : Set K}
    (hbounded : t.Bounded range) (hkey : key ∈ range) :
    (o = .failed t ∧ alloc s = none) ∨
      o.SplicedInto key value (t.leafFor key).toChunk t.chunks := by
  have hsplit : ∀ {l : Nat} {t left right : Tree A K V l} {separator : K} {s : σ},
      (Outcome.split left separator right = .failed t ∧ alloc s = none) ∨
        (Outcome.split left separator right).SplicedInto key value (t.leafFor key).toChunk t.chunks →
      Splices key value (t.leafFor key).toChunk t.chunks (left.chunks ++ right.chunks) := by
    rintro l t left right separator s (⟨hfailed, _⟩ | h)
    · cases hfailed
    · exact h.splices trivial
  induction h generalizing range with
  | @leafDone t s hroom =>
    refine .inr ⟨[{ t.toChunk with entries := upsert key value t.entries }],
      ⟨[], [], [_], rfl, rfl, ⟨fun _ => rfl, ⟨rfl, trivial⟩, ?_, ?_⟩, by simp, by simp⟩,
      List.Sublist.refl _, fun _ => rfl⟩
    · simp [Tree.leafFor]
    · rintro half hhalf
      obtain rfl := List.mem_singleton.mp hhalf
      have hlength := upsert_length_le key value t.entries
      change t.entries.length / 2 ≤ (upsert key value t.entries).length
      omega
  | leafFailed habsent hfull halloc => exact .inl ⟨rfl, halloc⟩
  | @leafSplit t s s' fresh entry lower upper habsent hfull halloc hcut hmid =>
    refine .inr ⟨[{ t.toChunk with next := fresh, entries := lower }, ⟨fresh, t.next, entry :: upper⟩],
      ⟨[], [], [_, _], rfl, rfl, ⟨fun _ => rfl, ⟨rfl, rfl, trivial⟩, ?_, ?_⟩, by simp, by simp⟩,
      List.Sublist.refl _, fun _ => rfl⟩
    · simpa [Tree.leafFor] using hcut
    · have hlength : (upsert key value t.entries).length = t.entries.length + 1 :=
        upsert_length_of_absent habsent
      have htotal := congrArg List.length hcut
      rw [length_append, length_cons] at htotal
      intro half hhalf
      change t.entries.length / 2 ≤ half.entries.length
      rcases List.mem_cons.mp hhalf with rfl | hhalf
      · change t.entries.length / 2 ≤ lower.length
        omega
      · obtain rfl := List.mem_singleton.mp hhalf
        change t.entries.length / 2 ≤ upper.length + 1
        omega
  | @childDone _ t s s' child hchild ih =>
    obtain ⟨sub, _, hkeySub, htarget, _, _⟩ := Within.focus (Tree.widens_bounded _) hbounded hkey
    have hsub : Splices key value ((target key t.first t.rest).leafFor key).toChunk
        (target key t.first t.rest).chunks child.chunks := by
      rcases ih htarget hkeySub with ⟨hfailed, _⟩ | h
      · cases hfailed
      · exact h.splices trivial
    obtain ⟨before, after, hsplices, hnew⟩ := hsub.around hbounded
    have hchunks := hnew (child, [])
    rw [gather_nil] at hchunks
    refine .inr ⟨_, hsplices, ?_, fun _ => hchunks⟩
    rw [← hchunks]
    exact List.Sublist.refl _
  | @childFailed _ t s s' child hchild ih =>
    obtain ⟨sub, _, hkeySub, htarget, _, _⟩ := Within.focus (Tree.widens_bounded _) hbounded hkey
    rcases ih htarget hkeySub with ⟨hfailed, hdry⟩ | ⟨full, hsub, hkept, _⟩
    · cases hfailed
      exact .inl ⟨by rw [Inner.replace_target], hdry⟩
    · obtain ⟨before, after, hsplices, hnew⟩ := hsub.around hbounded
      have hchunks := hnew (child, [])
      rw [gather_nil] at hchunks
      refine .inr ⟨_, hsplices, ?_, False.elim⟩
      change (gather Tree.chunks (t.replace key child).first (t.replace key child).rest).Sublist _
      rw [Inner.replace, hchunks]
      exact (hkept.append_left before).append_right after
  | @childRerooted _ t s s' root hchild ih =>
    obtain ⟨sub, _, hkeySub, htarget, _, _⟩ := Within.focus (Tree.widens_bounded _) hbounded hkey
    rcases ih htarget hkeySub with ⟨hfailed, _⟩ | ⟨full, hsub, hkept, _⟩
    · cases hfailed
    · obtain ⟨before, after, hsplices, _⟩ := hsub.around hbounded
      refine .inr ⟨_, hsplices, hkept.trans ?_, False.elim⟩
      exact (sublist_append_right before full).trans (sublist_append_left _ after)
  | @attachDone _ t s s' left right separator run hchild hlinked hroom hrun ih =>
    obtain ⟨sub, _, hkeySub, htarget, _, _⟩ := Within.focus (Tree.widens_bounded _) hbounded hkey
    obtain ⟨before, after, hsplices, hnew⟩ := (hsplit (ih htarget hkeySub)).around hbounded
    have hchunks := hnew (left, [(separator, right.link)])
    rw [hrun, gather_cons, gather_nil, Tree.link_chunks] at hchunks
    refine .inr ⟨_, hsplices, ?_, fun _ => hchunks⟩
    rw [← hchunks]
    exact List.Sublist.refl _
  | @attachFailed _ t s s' left right separator first lower upper hchild hlinked hfull hrun hmid
      halloc ih =>
    obtain ⟨sub, _, hkeySub, htarget, _, _⟩ := Within.focus (Tree.widens_bounded _) hbounded hkey
    obtain ⟨before, after, hsplices, hnew⟩ := (hsplit (ih htarget hkeySub)).around hbounded
    have hchunks := hnew (left, [(separator, right)])
    rw [hrun, gather_cons, gather_nil] at hchunks
    refine .inr ⟨_, hsplices, ?_, False.elim⟩
    rw [← hchunks]
    change (gather Tree.chunks first lower).Sublist _
    simp only [gather, flatMap_append, ← append_assoc]
    exact sublist_append_left _ _
  | @attachSplit _ t s s' s'' left right separator promoted first child lower upper fresh hchild
      hlinked hfull hrun hmid halloc ih =>
    obtain ⟨sub, _, hkeySub, htarget, _, _⟩ := Within.focus (Tree.widens_bounded _) hbounded hkey
    obtain ⟨before, after, hsplices, hnew⟩ := (hsplit (ih htarget hkeySub)).around hbounded
    have hchunks := hnew (left, [(separator, right)])
    rw [hrun, gather_cons, gather_nil, gather_append, ← gather_map_link Tree.link_chunks child] at hchunks
    refine .inr ⟨_, hsplices, ?_, fun _ => hchunks⟩
    rw [← hchunks]
    exact List.Sublist.refl _
  | @rerootFailed _ t s s' left right separator hchild hlinked halloc ih =>
    obtain ⟨sub, _, hkeySub, htarget, _, _⟩ := Within.focus (Tree.widens_bounded _) hbounded hkey
    obtain ⟨before, after, hsplices, hnew⟩ := (hsplit (ih htarget hkeySub)).around hbounded
    have hchunks := hnew (left, [])
    rw [gather_nil] at hchunks
    refine .inr ⟨_, hsplices, ?_, False.elim⟩
    change (gather Tree.chunks (t.replace key left).first (t.replace key left).rest).Sublist _
    rw [Inner.replace, hchunks]
    exact ((sublist_append_left left.chunks right.chunks).append_left before).append_right after
  | @rerootDone _ t s s' s'' left right separator fresh hchild hlinked halloc ih =>
    obtain ⟨sub, _, hkeySub, htarget, _, _⟩ := Within.focus (Tree.widens_bounded _) hbounded hkey
    obtain ⟨before, after, hsplices, _⟩ := (hsplit (ih htarget hkeySub)).around hbounded
    refine .inr ⟨_, hsplices, ?_, False.elim⟩
    change (gather Tree.chunks left.link [(separator, right.link)]).Sublist _
    rw [gather_cons, gather_nil, Tree.link_chunks, Tree.link_chunks]
    exact (sublist_append_right before _).trans (sublist_append_left _ after)

section Loss

variable {chunk : Chunk A K V} {old full kept : List (Chunk A K V)}

/-- In a sorted sequence of leaves a key has only one leaf to be in. -/
theorem chunk_eq_of_sorted (hsorted : Sorted (full.flatMap Chunk.entries)) {first second : Chunk A K V}
    (hfirst : first ∈ full) (hsecond : second ∈ full) {entry other : K × V}
    (hentry : entry ∈ first.entries) (hother : other ∈ second.entries) (hsame : entry.1 = other.1) :
    first = second := by
  have hpairs : full.Pairwise fun a b => ∀ x ∈ a.entries, ∀ y ∈ b.entries, x.1 ≠ y.1 :=
    (List.pairwise_flatMap.mp hsorted).2.imp fun h x hx y hy => ne_of_lt (h x hx y hy)
  have : Std.Symm fun a b : Chunk A K V => ∀ x ∈ a.entries, ∀ y ∈ b.entries, x.1 ≠ y.1 :=
    ⟨fun a b h x hx y hy => (h y hy x hx).symm⟩
  by_contra hne
  exact hpairs.forall hfirst hsecond hne entry hentry other hother hsame

theorem exists_ne_of_sorted {entries : List (K × V)} (hsorted : Sorted entries)
    (hlength : 2 ≤ entries.length) (key : K) : ∃ entry ∈ entries, entry.1 ≠ key := by
  match entries, hlength with
  | first :: second :: _, _ =>
    have hlt : first.1 < second.1 := (List.pairwise_cons.mp hsorted).1 second mem_cons_self
    by_cases hfirst : first.1 = key
    · exact ⟨second, by simp, by rw [← hfirst]; exact ne_of_gt hlt⟩
    · exact ⟨first, mem_cons_self, hfirst⟩

/-- If a new key went into a leaf with others and then some leaves were cut off,
looking keys up shows it: either the new key is there or an old one is gone. -/
theorem Splices.lookup_changes (h : Splices key value chunk old full)
    (hsorted : Sorted (old.flatMap Chunk.entries)) (habsent : (old.flatMap Chunk.entries).lookup key = none)
    (hcrowd : 4 ≤ chunk.entries.length) (hkept : kept.Sublist full) :
    ∃ query, (kept.flatMap Chunk.entries).lookup query ≠ (old.flatMap Chunk.entries).lookup query := by
  have hentries := h.entries_eq
  have hsortedFull : Sorted (full.flatMap Chunk.entries) := by
    rw [hentries]
    exact upsert_sorted hsorted
  obtain ⟨before, after, run, rfl, rfl, hrefits, _, _⟩ := h
  obtain ⟨half, hhalf, hkey⟩ : ∃ half ∈ run, (key, value) ∈ half.entries := by
    rw [← mem_flatMap, hrefits.contents]
    exact mem_upsert_self key value chunk.entries
  have hmem : half ∈ before ++ run ++ after := by simp [hhalf]
  have hhalves := hrefits.halves half hhalf
  obtain ⟨other, hother, hne⟩ := exists_ne_of_sorted ((List.pairwise_flatMap.mp hsortedFull).1 half hmem)
    (by omega) key
  have hold : other ∈ (before ++ chunk :: after).flatMap Chunk.entries := by
    have hin : other ∈ (before ++ run ++ after).flatMap Chunk.entries :=
      List.mem_flatMap.mpr ⟨half, hmem, hother⟩
    rw [hentries] at hin
    exact (mem_upsert hin).resolve_left fun heq => hne (congrArg Prod.fst heq)
  by_cases hstays : half ∈ kept
  · refine ⟨key, fun heq => ?_⟩
    rw [habsent, lookup_eq_none_iff_forall] at heq
    exact heq (key, value) (List.mem_flatMap.mpr ⟨half, hstays, hkey⟩) rfl
  · refine ⟨other.1, fun heq => ?_⟩
    have hgone : (kept.flatMap Chunk.entries).lookup other.1 = none := by
      rw [lookup_eq_none_iff_forall]
      intro entry hentry hsame
      obtain ⟨place, hplace, hin⟩ := List.mem_flatMap.mp hentry
      have hsameChunk := chunk_eq_of_sorted hsortedFull (hkept.subset hplace) hmem hin hother hsame
      exact hstays (hsameChunk ▸ hplace)
    rw [hgone, eq_comm, lookup_eq_none_iff_forall] at heq
    exact heq other hold rfl

end Loss

end bplus
