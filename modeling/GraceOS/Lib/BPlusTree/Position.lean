import GraceOS.Lib.BPlusTree.Links

namespace bplus

variable {A B K V C : Type} [LinearOrder K]

/-- The list with one element put in at a position. -/
def insertAt (n : Nat) (x : B) (list : List B) : List B :=
  list.take n ++ x :: list.drop n

/-- The position of `key` in an ascending list: that of the first larger key. -/
def position (key : K) (list : List (K × B)) : Nat :=
  list.findIdx fun entry => decide (key < entry.1)

section Position

variable {key : K} {value : V}

theorem position_cons (key : K) (entry : K × B) (list : List (K × B)) :
    position key (entry :: list) = if key < entry.1 then 0 else position key list + 1 := by
  unfold position
  rw [List.findIdx_cons]
  by_cases h : key < entry.1 <;> simp [h]

theorem position_le (key : K) (list : List (K × B)) : position key list ≤ list.length :=
  List.findIdx_le_length

theorem position_map (key : K) (f : C → B) (list : List (K × C)) :
    position key (list.map fun pair => (pair.1, f pair.2)) = position key list := by
  unfold position
  rw [List.findIdx_map]
  rfl

theorem slot_eq_position (key : K) (first : C) (rest : List (K × C)) :
    slot key first rest = position key rest := by
  induction rest generalizing first with
  | nil => rfl
  | cons head rest ih =>
    rw [slot, position_cons, ih]

/-- A new key goes to its position. -/
theorem upsert_eq_insertAt {entries : List (K × V)} (habsent : key ∉ entries.map Prod.fst) :
    upsert key value entries = insertAt (position key entries) (key, value) entries := by
  induction entries with
  | nil => rfl
  | cons head entries ih =>
    simp only [List.map_cons, List.mem_cons, not_or] at habsent
    rw [position_cons, upsert]
    by_cases hlt : key < head.1
    · simp [hlt, insertAt]
    · simp [hlt, habsent.1, insertAt, ih habsent.2]

/-- A key that is there is overwritten in its place. -/
theorem upsert_eq_set {entries : List (K × V)} (hsorted : Sorted entries) {i : Nat}
    (hi : i < entries.length) (hkey : entries[i].1 = key) :
    upsert key value entries = entries.set i (key, value) := by
  induction entries generalizing i with
  | nil => exact absurd hi (by simp)
  | cons head entries ih =>
    obtain ⟨hhead, htail⟩ := List.pairwise_cons.mp hsorted
    cases i with
    | zero =>
      have hsame : head.1 = key := hkey
      simp [upsert, hsame]
    | succ i =>
      have hi' : i < entries.length := by simpa using hi
      have hkey' : entries[i].1 = key := by simpa using hkey
      have hlt : head.1 < key := by
        rw [← hkey']
        exact hhead _ (List.getElem_mem hi')
      rw [upsert, if_neg (lt_asymm hlt), if_neg (ne_of_gt hlt), ih htail hi' hkey', List.set_cons_succ]

/-- In an ascending list every key stands at its own position. -/
theorem position_of_sorted {list : List (K × B)} {n : Nat} {x : B} (hn : n ≤ list.length)
    (hsorted : Sorted (insertAt n (key, x) list)) : position key list = n := by
  induction list generalizing n with
  | nil =>
    obtain rfl : n = 0 := by simpa using hn
    rfl
  | cons head list ih =>
    cases n with
    | zero =>
      have hlt : key < head.1 := (List.pairwise_cons.mp hsorted).1 head (by simp)
      rw [position_cons, if_pos hlt]
    | succ n =>
      have hsplit : Sorted (head :: insertAt n (key, x) list) := hsorted
      obtain ⟨hhead, htail⟩ := List.pairwise_cons.mp hsplit
      have hlt : head.1 < key := hhead (key, x) (by simp [insertAt])
      rw [position_cons, if_neg (lt_asymm hlt), ih (by simpa using hn) htail]

theorem Within.sorted {bounded : Set K → C → Prop} {range : Set K} {first : C} {rest : List (K × C)}
    (hwithin : Within bounded range first rest) : Sorted rest := by
  induction rest generalizing range first with
  | nil => exact List.Pairwise.nil
  | cons head rest ih => exact List.pairwise_cons.mpr ⟨hwithin.2.1, ih hwithin.2.2.2⟩

end Position

section Graft

variable {key : K} {first left right child : C} {rest : List (K × C)} {separator : K} (f : C → A)

/-- The target is the child at its slot. -/
theorem target_at_slot :
    (f first :: rest.map fun pair => f pair.2)[slot key first rest]? = some (f (target key first rest)) := by
  induction rest generalizing first with
  | nil => rfl
  | cons head rest ih =>
    rw [slot, target]
    by_cases hlt : key < head.1
    · simp [hlt]
    · simp only [hlt, if_false, List.map_cons, List.getElem?_cons_succ]
      exact ih

/-- What parents see of their children does not change when the target is
replaced by a child that looks the same. -/
theorem graft_view (hchild : f child = f (target key first rest)) :
    f (graft key (child, []) first rest).1 = f first ∧
      (graft key (child, []) first rest).2.map (fun pair => (pair.1, f pair.2)) =
        rest.map fun pair => (pair.1, f pair.2) := by
  induction rest generalizing first with
  | nil => exact ⟨hchild, rfl⟩
  | cons head rest ih =>
    rw [target] at hchild
    by_cases hlt : key < head.1
    · rw [if_pos hlt] at hchild
      simp [graft, hlt, hchild]
    · rw [if_neg hlt] at hchild
      obtain ⟨hfirst, hrest⟩ := ih hchild
      simp [graft, hlt, hfirst, hrest]

/-- A second child goes in behind the target, at the target's slot. -/
theorem graft_view_insertAt (hleft : f left = f (target key first rest)) :
    f (graft key (left, [(separator, right)]) first rest).1 = f first ∧
      (graft key (left, [(separator, right)]) first rest).2.map (fun pair => (pair.1, f pair.2)) =
        insertAt (slot key first rest) (separator, f right) (rest.map fun pair => (pair.1, f pair.2)) := by
  induction rest generalizing first with
  | nil => exact ⟨hleft, rfl⟩
  | cons head rest ih =>
    rw [target] at hleft
    by_cases hlt : key < head.1
    · rw [if_pos hlt] at hleft
      simp [graft, slot, hlt, hleft, insertAt]
    · rw [if_neg hlt] at hleft
      obtain ⟨hfirst, hrest⟩ := ih hleft
      simp only [insertAt] at hrest
      simp [graft, slot, hlt, hfirst, hrest, insertAt]

/-- The separator that goes up from a split child finds the slot of the child
again. -/
theorem position_separator {bounded : Set K → C → Prop} {range : Set K}
    (hwithin : Within bounded range (graft key (left, [(separator, right)]) first rest).1
      (graft key (left, [(separator, right)]) first rest).2) :
    position separator rest = slot key first rest := by
  have hview : (graft key (left, [(separator, right)]) first rest).2.map (fun pair => (pair.1, ())) =
      insertAt (slot key first rest) (separator, ()) (rest.map fun pair => (pair.1, ())) :=
    (graft_view_insertAt (fun _ : C => ()) rfl).2
  have hsorted : Sorted ((graft key (left, [(separator, right)]) first rest).2.map
      fun pair => (pair.1, ())) :=
    List.pairwise_map.mpr hwithin.sorted
  rw [hview] at hsorted
  have hlength : slot key first rest ≤ (rest.map fun pair => (pair.1, ())).length := by
    rw [slot_eq_position, List.length_map]
    exact position_le key rest
  rw [← position_map separator (fun _ : C => ()) rest, position_of_sorted hlength hsorted]

end Graft

end bplus
