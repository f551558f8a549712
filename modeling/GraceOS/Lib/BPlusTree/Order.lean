import GraceOS.Lib.BPlusTree.Insert

namespace bplus

open List

variable {A K V C σ : Type} [LinearOrder K]

section Upsert

variable {key : K} {value : V}

variable {entries : List (K × V)}

theorem mem_upsert {entry : K × V}
    (hentry : entry ∈ upsert key value entries) : entry = (key, value) ∨ entry ∈ entries := by
  induction entries with
  | nil => exact .inl (by simpa [upsert] using hentry)
  | cons head entries ih =>
    unfold upsert at hentry
    split_ifs at hentry
    · simpa using hentry
    · rcases List.mem_cons.mp hentry with h | h
      · exact .inl h
      · exact .inr (mem_cons_of_mem _ h)
    · rcases List.mem_cons.mp hentry with h | h
      · exact .inr (h ▸ mem_cons_self)
      · rcases ih h with h | h
        · exact .inl h
        · exact .inr (mem_cons_of_mem _ h)

theorem mem_upsert_self (key : K) (value : V) (entries : List (K × V)) :
    (key, value) ∈ upsert key value entries := by
  induction entries with
  | nil => simp [upsert]
  | cons head entries ih =>
    unfold upsert
    split_ifs <;> simp [ih]

theorem upsert_sorted (hsorted : Sorted entries) :
    Sorted (upsert key value entries) := by
  induction entries with
  | nil => simp [upsert, Sorted]
  | cons head entries ih =>
    obtain ⟨hhead, htail⟩ := List.pairwise_cons.mp hsorted
    unfold upsert
    split_ifs with hlt heq
    · refine List.pairwise_cons.mpr ⟨?_, hsorted⟩
      intro entry hentry
      rcases List.mem_cons.mp hentry with rfl | h
      · exact hlt
      · exact lt_trans hlt (hhead entry h)
    · exact List.pairwise_cons.mpr ⟨fun entry h => heq ▸ hhead entry h, htail⟩
    · refine List.pairwise_cons.mpr ⟨?_, ih htail⟩
      intro entry hentry
      rcases mem_upsert hentry with rfl | h
      · exact lt_of_le_of_ne (not_lt.mp hlt) (Ne.symm heq)
      · exact hhead entry h

theorem upsert_length_of_absent (habsent : key ∉ entries.map Prod.fst) :
    (upsert key value entries).length = entries.length + 1 := by
  induction entries with
  | nil => simp [upsert]
  | cons head entries ih =>
    simp only [map_cons, mem_cons, not_or] at habsent
    unfold upsert
    split_ifs with hlt heq
    · simp
    · exact absurd heq habsent.1
    · simp [ih habsent.2]

theorem upsert_length_le (key : K) (value : V) (entries : List (K × V)) :
    entries.length ≤ (upsert key value entries).length := by
  induction entries with
  | nil => simp
  | cons head entries ih =>
    unfold upsert
    split_ifs <;> simp only [length_cons] <;> omega

theorem upsert_length_of_present (hsorted : Sorted entries) (hpresent : key ∈ entries.map Prod.fst) :
    (upsert key value entries).length = entries.length := by
  induction entries with
  | nil => simp at hpresent
  | cons head entries ih =>
    obtain ⟨hhead, htail⟩ := List.pairwise_cons.mp hsorted
    rw [map_cons, mem_cons] at hpresent
    unfold upsert
    split_ifs with hlt heq
    · rcases hpresent with h | h
      · exact absurd h (ne_of_lt hlt)
      · obtain ⟨entry, hmem, rfl⟩ := List.mem_map.mp h
        exact absurd hlt (not_lt.mpr (le_of_lt (hhead entry hmem)))
    · simp
    · simp [ih htail (hpresent.resolve_left heq)]

/-- Inserting between smaller and larger keys touches only the middle. -/
theorem upsert_append {before middle after : List (K × V)}
    (hbefore : ∀ entry ∈ before, entry.1 < key) (hafter : ∀ entry ∈ after, key < entry.1) :
    upsert key value (before ++ middle ++ after) = before ++ upsert key value middle ++ after := by
  induction before with
  | nil =>
    simp only [nil_append]
    induction middle with
    | nil =>
      cases after with
      | nil => rfl
      | cons entry after => simp [upsert, hafter entry mem_cons_self]
    | cons entry middle ih =>
      simp only [cons_append, upsert, ih]
      split_ifs <;> rfl
  | cons entry before ih =>
    have hlt := hbefore entry mem_cons_self
    simp only [cons_append, upsert, if_neg (lt_asymm hlt), if_neg (ne_of_gt hlt)]
    rw [ih fun e he => hbefore e (mem_cons_of_mem _ he)]

theorem lookup_cons_ite (entry : K × V) (entries : List (K × V)) (query : K) :
    (entry :: entries).lookup query =
      if query = entry.1 then some entry.2 else entries.lookup query := by
  obtain ⟨key, value⟩ := entry
  rw [lookup_cons]
  by_cases h : query = key
  · rw [if_pos h, h, beq_self_eq_true]
  · rw [if_neg h, beq_eq_false_iff_ne.mpr h]

theorem lookup_upsert {query : K} :
    (upsert key value entries).lookup query =
      if query = key then some value else entries.lookup query := by
  induction entries with
  | nil => simp [upsert, lookup_cons_ite]
  | cons head entries ih =>
    unfold upsert
    split_ifs with hlt heq hquery hquery hquery <;> simp_all [lookup_cons_ite]

theorem lookup_eq_none_iff_forall {query : K} :
    entries.lookup query = none ↔ ∀ entry ∈ entries, entry.1 ≠ query := by
  rw [lookup_eq_none_iff]
  refine forall₂_congr fun entry _ => ?_
  rw [bne_iff_ne, ne_comm]

end Upsert

section Focus

theorem forall_graft_keys {P : K → Prop} {key : K} {run : C × List (K × C)} {first : C}
    {rest : List (K × C)} (hrun : ∀ pair ∈ run.2, P pair.1) (hrest : ∀ pair ∈ rest, P pair.1) :
    ∀ pair ∈ (graft key run first rest).2, P pair.1 := by
  induction rest generalizing first with
  | nil => exact hrun
  | cons head rest ih =>
    obtain ⟨separator, child⟩ := head
    unfold graft
    split
    · intro pair hpair
      rcases List.mem_append.mp hpair with h | h
      · exact hrun pair h
      · exact hrest pair h
    · intro pair hpair
      rcases List.mem_cons.mp hpair with rfl | h
      · exact hrest (separator, child) mem_cons_self
      · exact ih (fun pair h => hrest pair (mem_cons_of_mem _ h)) pair h

variable {range : Set K}

/-- The child that holds `key` has a range of its own, and may be replaced by
any child, or any two children around a separator, within that range. -/
theorem Within.focus {bounded : Set K → C → Prop} (hmono : Widens bounded)
    {first : C} {rest : List (K × C)} (hwithin : Within bounded range first rest) {key : K}
    (hkey : key ∈ range) :
    ∃ sub ⊆ range, key ∈ sub ∧ bounded sub (target key first rest) ∧
      (∀ child, bounded sub child →
        Within bounded range (graft key (child, []) first rest).1 (graft key (child, []) first rest).2) ∧
      (∀ left separator right, separator ∈ sub → (∃ lower ∈ sub, lower < separator) →
        bounded (sub ∩ Set.Iio separator) left → bounded (sub ∩ Set.Ici separator) right →
        Within bounded range (graft key (left, [(separator, right)]) first rest).1
          (graft key (left, [(separator, right)]) first rest).2) := by
  induction rest generalizing range first with
  | nil =>
    refine ⟨range, Set.Subset.rfl, hkey, hwithin, fun child h => h, ?_⟩
    intro left separator right hsep _ hleft hright
    exact ⟨hsep, by simp, hleft, hright⟩
  | cons head rest ih =>
    obtain ⟨middle, child⟩ := head
    obtain ⟨hmiddle, hlater, hfirst, hrest⟩ := hwithin
    by_cases hlt : key < middle
    · refine ⟨range ∩ Set.Iio middle, Set.inter_subset_left, ⟨hkey, hlt⟩, by simpa [target, hlt], ?_, ?_⟩
      · intro replacement hreplacement
        simp only [graft, if_pos hlt]
        exact ⟨hmiddle, hlater, hreplacement, hrest⟩
      · intro left separator right hsep _ hleft hright
        simp only [graft, if_pos hlt]
        refine ⟨hsep.1, ?_, hmono _ _ _ (fun x hx => ⟨hx.1.1, hx.2⟩) hleft,
          ⟨hmiddle, le_of_lt hsep.2⟩, hlater, hmono _ _ _ (fun x hx => ⟨⟨hx.1.1, hx.2⟩, hx.1.2⟩) hright,
          hrest.mono hmono fun x hx => ⟨⟨hx.1, le_trans (le_of_lt hsep.2) hx.2⟩, hx.2⟩⟩
        intro later hmem
        rcases List.mem_cons.mp hmem with rfl | h
        · exact hsep.2
        · exact lt_trans hsep.2 (hlater later h)
    · obtain ⟨sub, hsub, hkeySub, htarget, hone, htwo⟩ := ih hrest ⟨hkey, not_lt.mp hlt⟩
      refine ⟨sub, hsub.trans Set.inter_subset_left, hkeySub, by simpa [target, hlt], ?_, ?_⟩
      · intro replacement hreplacement
        simp only [graft, if_neg hlt]
        exact ⟨hmiddle, forall_graft_keys (by simp) hlater, hfirst, hone replacement hreplacement⟩
      · intro left separator right hsep hlower hleft hright
        simp only [graft, if_neg hlt]
        obtain ⟨lower, hmem, hlowerLt⟩ := hlower
        have hbelow : middle < separator := lt_of_le_of_lt (hsub hmem).2 hlowerLt
        exact ⟨hmiddle, forall_graft_keys (by simpa using hbelow) hlater, hfirst,
          htwo left separator right hsep ⟨lower, hmem, hlowerLt⟩ hleft hright⟩

theorem Tree.Bounded.mem_range {l : Nat} {t : Tree A K V l}
    (hbounded : t.Bounded range) : ∀ chunk ∈ t.chunks, ∀ entry ∈ chunk.entries, entry.1 ∈ range := by
  induction l generalizing range with
  | zero => simpa [chunks] using hbounded.2
  | succ l ih =>
    suffices h : ∀ (range : Set K) (first : Tree A K V l) (rest : List (K × Tree A K V l)),
        Within Tree.Bounded range first rest →
        ∀ chunk ∈ gather Tree.chunks first rest, ∀ entry ∈ chunk.entries, entry.1 ∈ range from
      h range _ _ hbounded
    intro range first rest hwithin
    induction rest generalizing range first with
    | nil => simpa using ih hwithin
    | cons head rest ihrest =>
      obtain ⟨_, _, hfirst, hrest⟩ := hwithin
      intro chunk hchunk entry hentry
      rw [gather_cons, mem_append] at hchunk
      rcases hchunk with h | h
      · exact (ih hfirst chunk h entry hentry).1
      · exact (ihrest _ _ hrest chunk h entry hentry).1

/-- The leaves of a node around those of the child that holds `key`: what comes
before has smaller keys, what comes after larger ones. -/
theorem Within.chunks_focus {l : Nat} {first : Tree A K V l}
    {rest : List (K × Tree A K V l)} (hwithin : Within Tree.Bounded range first rest) (key : K) :
    ∃ before after, gather Tree.chunks first rest =
        before ++ (target key first rest).chunks ++ after ∧
      (∀ run, gather Tree.chunks (graft key run first rest).1 (graft key run first rest).2 =
        before ++ gather Tree.chunks run.1 run.2 ++ after) ∧
      (∀ entry ∈ before.flatMap Chunk.entries, entry.1 < key) ∧
      (∀ entry ∈ after.flatMap Chunk.entries, key < entry.1) := by
  induction rest generalizing range first with
  | nil => exact ⟨[], [], by simp [target], by simp [graft], by simp, by simp⟩
  | cons head rest ih =>
    obtain ⟨separator, child⟩ := head
    obtain ⟨_, _, hfirst, hrest⟩ := hwithin
    by_cases hlt : key < separator
    · refine ⟨[], gather Tree.chunks child rest, ?_, ?_, by simp, ?_⟩
      · simp [target, hlt, gather_cons]
      · intro run
        simp [graft, hlt, gather_append]
      · intro entry hentry
        obtain ⟨chunk, hchunk, hmem⟩ := List.mem_flatMap.mp hentry
        have hrange : Tree.Bounded (l := l + 1) (range ∩ Set.Ici separator)
            (⟨chunk.addr, true, child, rest⟩ : Inner A K (Tree A K V l)) := hrest
        exact lt_of_lt_of_le hlt (hrange.mem_range chunk hchunk entry hmem).2
    · obtain ⟨before, after, hchunks, hgraft, hbefore, hafter⟩ := ih hrest
      refine ⟨first.chunks ++ before, after, ?_, ?_, ?_, hafter⟩
      · simp [target, hlt, gather_cons, hchunks]
      · intro run
        simp [graft, hlt, gather_cons, hgraft]
      · intro entry hentry
        rw [flatMap_append, mem_append] at hentry
        rcases hentry with h | h
        · obtain ⟨chunk, hchunk, hmem⟩ := List.mem_flatMap.mp h
          exact lt_of_lt_of_le (hfirst.mem_range chunk hchunk entry hmem).2 (not_lt.mp hlt)
        · exact hbefore entry h

end Focus

section Search

/-- The leaf that holds `key` among all leaves. -/
theorem Tree.Bounded.chunks_leafFor {l : Nat} {range : Set K} {t : Tree A K V l}
    (hbounded : t.Bounded range) {key : K} (hkey : key ∈ range) :
    ∃ before after, t.chunks = before ++ (t.leafFor key).toChunk :: after ∧
      (∀ entry ∈ before.flatMap Chunk.entries, entry.1 < key) ∧
      (∀ entry ∈ after.flatMap Chunk.entries, key < entry.1) := by
  induction l generalizing range with
  | zero => exact ⟨[], [], by simp [chunks, leafFor], by simp, by simp⟩
  | succ l ih =>
    obtain ⟨sub, _, hkeySub, htarget, _, _⟩ := Within.focus (widens_bounded l) hbounded hkey
    obtain ⟨before, after, hchunks, hbefore, hafter⟩ := ih htarget hkeySub
    obtain ⟨outer, rest, hgather, _, houter, hrest⟩ := Within.chunks_focus hbounded key
    refine ⟨outer ++ before, after ++ rest, ?_, ?_, ?_⟩
    · change gather Tree.chunks _ _ = _
      rw [hgather, hchunks]
      simp [leafFor]
    · intro entry hentry
      rw [flatMap_append, mem_append] at hentry
      exact hentry.elim (houter entry) (hbefore entry)
    · intro entry hentry
      rw [flatMap_append, mem_append] at hentry
      exact hentry.elim (hafter entry) (hrest entry)

/-- Looking a key up in its leaf is looking it up in the whole tree. -/
theorem Tree.Bounded.lookup_leafFor {l : Nat} {range : Set K} {t : Tree A K V l}
    (hbounded : t.Bounded range) {key : K} (hkey : key ∈ range) :
    (t.leafFor key).entries.lookup key = t.entries.lookup key := by
  obtain ⟨before, after, hchunks, hbefore, hafter⟩ := hbounded.chunks_leafFor hkey
  rw [entries, hchunks, flatMap_append, flatMap_cons, lookup_append,
    lookup_append, lookup_eq_none_iff_forall.mpr fun entry h => ne_of_lt (hbefore entry h),
    lookup_eq_none_iff_forall.mpr fun entry h => ne_of_gt (hafter entry h)]
  simp

theorem Within.gather_sorted {bounded : Set K → C → Prop} {f : C → List (K × V)} {range : Set K}
    {first : C} {rest : List (K × C)} (hwithin : Within bounded range first rest)
    (hmem : ∀ {range child}, bounded range child → ∀ entry ∈ f child, entry.1 ∈ range)
    (hsorted : ∀ {range child}, bounded range child → Sorted (f child)) :
    Sorted (gather f first rest) := by
  induction rest generalizing range first with
  | nil =>
    rw [gather_nil]
    exact hsorted hwithin
  | cons head rest ih =>
    obtain ⟨key, child⟩ := head
    obtain ⟨_, _, hfirst, hrest⟩ := hwithin
    rw [gather_cons]
    refine List.pairwise_append.mpr ⟨hsorted hfirst, ih hrest, ?_⟩
    intro entry hentry other hother
    have hlater := Within.mem_gather (f := f) hmem hrest other hother
    exact lt_of_lt_of_le (hmem hfirst entry hentry).2 hlater.2

/-- From left to right the entries of a whole tree ascend. -/
theorem Tree.Bounded.entries_sorted {l : Nat} {range : Set K} {t : Tree A K V l}
    (hbounded : t.Bounded range) : Sorted t.entries := by
  induction l generalizing range with
  | zero =>
    rw [Tree.entries_leaf]
    exact hbounded.1
  | succ l ih =>
    rw [Tree.entries_inner]
    have hmem : ∀ {range : Set K} {child : Tree A K V l}, child.Bounded range →
        ∀ entry ∈ child.entries, entry.1 ∈ range := by
      intro range child h entry hentry
      obtain ⟨chunk, hchunk, hin⟩ := List.mem_flatMap.mp hentry
      exact h.mem_range chunk hchunk entry hin
    have hwithin : Within Tree.Bounded range (Inner.first t) (Inner.rest t) := hbounded
    exact hwithin.gather_sorted hmem ih

theorem Tree.Bounded.leafFor_sorted {l : Nat} {range : Set K} {t : Tree A K V l}
    (hbounded : t.Bounded range) {key : K} (hkey : key ∈ range) : Sorted (t.leafFor key).entries := by
  induction l generalizing range with
  | zero => exact hbounded.1
  | succ l ih =>
    obtain ⟨sub, _, hkeySub, htarget, _, _⟩ := Within.focus (widens_bounded l) hbounded hkey
    exact ih htarget hkeySub

end Search

end bplus
