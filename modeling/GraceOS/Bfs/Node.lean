import GraceOS.Bfs.Insert
import Mathlib.Tactic.SplitIfs

namespace graceos.bfs

open List

/-- The first `n` slots of two parallel arrays, paired up. -/
def pairs (n : Nat) (k v : Nat → UInt64) : List (UInt64 × UInt64) :=
  (List.range n).map fun i => (k i, v i)

section Pairs

variable {n : Nat} {k v k' v' : Nat → UInt64}

@[simp] theorem length_pairs : (pairs n k v).length = n := by
  simp [pairs]

theorem pairs_congr (h : ∀ i < n, k i = k' i ∧ v i = v' i) : pairs n k v = pairs n k' v' := by
  refine map_congr_left fun i hi => ?_
  obtain ⟨hk, hv⟩ := h i (List.mem_range.mp hi)
  rw [hk, hv]

theorem pairs_take (m : Nat) : (pairs n k v).take m = pairs (min m n) k v := by
  rw [pairs, pairs, ← map_take, take_range]

theorem pairs_drop (m : Nat) :
    (pairs n k v).drop m = pairs (n - m) (fun i => k (m + i)) (fun i => v (m + i)) := by
  refine ext_getElem (by simp) fun i _ _ => ?_
  simp [pairs]

theorem pairs_succ : pairs (n + 1) k v = (k 0, v 0) :: pairs n (fun i => k (i + 1)) (fun i => v (i + 1)) := by
  simp [pairs, range_succ_eq_map, Function.comp_def]

theorem pairs_inserted {pos : Nat} (hpos : pos ≤ n) (x y : UInt64) :
    pairs (n + 1) (with_inserted k pos x) (with_inserted v pos y) =
      (pairs n k v).take pos ++ (x, y) :: (pairs n k v).drop pos := by
  have hlen : ((pairs n k v).take pos).length = pos := by simp [hpos]
  refine ext_getElem (by simp; omega) fun i hi _ => ?_
  rw [length_pairs] at hi
  rcases Nat.lt_trichotomy i pos with hlt | heq | hgt
  · rw [getElem_append_left (by omega)]
    simp [pairs, with_inserted, hlt]
  · subst heq
    rw [getElem_append_right (by omega)]
    simp [pairs, with_inserted, hpos]
  · rw [getElem_append_right (by omega)]
    obtain ⟨d, rfl⟩ : ∃ d, i = pos + 1 + d := ⟨i - pos - 1, by omega⟩
    have hindex : pos + 1 + d - pos = d + 1 := by omega
    simp [pairs, with_inserted, hindex, hpos, show ¬ pos + 1 + d < pos by omega,
      show pos + 1 + d ≠ pos by omega, show pos + 1 + d - 1 = pos + d by omega]

theorem with_inserted_succ (source : Nat → UInt64) (pos : Nat) (x : UInt64) (i : Nat) :
    with_inserted source (pos + 1) x (i + 1) = with_inserted (fun j => source (j + 1)) pos x i := by
  unfold with_inserted
  split_ifs <;> first | rfl | omega | (congr 1; omega)

end Pairs

section Scan

theorem scan_eq_findIdx {α : Type} (hit : α → Bool) (f : Nat → α) (start n : Nat) :
    scan (fun i => hit (f i)) start n =
      start + ((List.range n).map fun i => f (start + i)).findIdx hit := by
  induction n generalizing start with
  | zero => simp [scan]
  | succ n ih =>
    have hshift : (fun i => f (start + 1 + i)) = fun i => f (start + (i + 1)) := by
      funext i
      congr 1
      omega
    rw [scan, range_succ_eq_map, map_cons, map_map, findIdx_cons, ih, hshift]
    simp only [Nat.add_zero, Function.comp_def]
    cases hit (f start) with
    | true => rfl
    | false =>
      simp only [Bool.false_eq_true, if_false, cond_false, Nat.succ_eq_add_one]
      omega

theorem scan_le (hit : Nat → Bool) (start n : Nat) : scan hit start n ≤ start + n := by
  induction n generalizing start with
  | zero => simp [scan]
  | succ n ih =>
    unfold scan
    split
    · omega
    · have hle := ih (start + 1)
      omega

theorem bfs_key_pos_le (p : Page) (key : UInt64) : bfs_key_pos p key ≤ p.count.toNat := by
  have hle := scan_le (fun i => key < p.key i) 0 p.count.toNat
  unfold bfs_key_pos
  omega

theorem scan_pairs (hit : UInt64 → Bool) (k v : Nat → UInt64) (n : Nat) :
    scan (fun i => hit (k i)) 0 n = (pairs n k v).findIdx fun entry => hit entry.1 := by
  have h := scan_eq_findIdx (fun entry : UInt64 × UInt64 => hit entry.1) (fun i => (k i, v i)) 0 n
  simpa [pairs] using h

end Scan

namespace Page

/-- The entries of a leaf. -/
def entries (p : Page) : List (UInt64 × UInt64) :=
  pairs p.count.toNat p.key p.value

/-- The separators of an internal node, each with the child on its right. -/
def children (p : Page) : List (UInt64 × UInt64) :=
  pairs p.count.toNat p.key fun i => p.value (i + 1)

@[simp] theorem length_entries (p : Page) : p.entries.length = p.count.toNat := length_pairs

@[simp] theorem length_children (p : Page) : p.children.length = p.count.toNat := length_pairs

/-- The children of an internal node are the values up to the one behind the
last key. -/
theorem value_at (p : Page) {i : Nat} (hi : i ≤ p.count.toNat) :
    (p.value 0 :: p.children.map Prod.snd)[i]? = some (p.value i) := by
  cases i with
  | zero => rfl
  | succ i => simp [children, pairs, show i < p.count.toNat by omega]

theorem range_values (p : Page) :
    (List.range (p.count.toNat + 1)).map p.value = p.value 0 :: p.children.map Prod.snd := by
  simp [children, pairs, range_succ_eq_map, Function.comp_def]

section Slots

variable (p : Page) (i j n pos : Nat) (x : UInt64) (source : Nat → UInt64)

theorem key_set_key (hi : i < BFS_MAX_KEYS) : (p.set_key i x).key j = if j = i then x else p.key j := by
  unfold key set_key
  by_cases hj : j < BFS_MAX_KEYS
  · rw [dif_pos hj, dif_pos hj]
  · rw [dif_neg hj, dif_neg hj, if_neg (by omega)]

theorem value_set_value (hi : i < BFS_MAX_VALUES) :
    (p.set_value i x).value j = if j = i then x else p.value j := by
  unfold value set_value
  by_cases hj : j < BFS_MAX_VALUES
  · rw [dif_pos hj, dif_pos hj]
  · rw [dif_neg hj, dif_neg hj, if_neg (by omega)]

theorem key_copy_keys (hn : n ≤ BFS_MAX_KEYS) :
    (p.copy_keys n source).key j = if j < n then source j else p.key j := by
  unfold key copy_keys
  by_cases hj : j < BFS_MAX_KEYS
  · rw [dif_pos hj, dif_pos hj]
  · rw [dif_neg hj, dif_neg hj, if_neg (by omega)]

theorem value_copy_values (hn : n ≤ BFS_MAX_VALUES) :
    (p.copy_values n source).value j = if j < n then source j else p.value j := by
  unfold value copy_values
  by_cases hj : j < BFS_MAX_VALUES
  · rw [dif_pos hj, dif_pos hj]
  · rw [dif_neg hj, dif_neg hj, if_neg (by omega)]

@[simp] theorem set_key_value : (p.set_key i x).value = p.value := rfl
@[simp] theorem set_key_count : (p.set_key i x).count = p.count := rfl
@[simp] theorem set_key_level : (p.set_key i x).level = p.level := rfl
@[simp] theorem set_key_next : (p.set_key i x).next = p.next := rfl
@[simp] theorem set_key_parent : (p.set_key i x).parent = p.parent := rfl
@[simp] theorem set_value_key : (p.set_value i x).key = p.key := rfl
@[simp] theorem set_value_count : (p.set_value i x).count = p.count := rfl
@[simp] theorem set_value_level : (p.set_value i x).level = p.level := rfl
@[simp] theorem set_value_next : (p.set_value i x).next = p.next := rfl
@[simp] theorem set_value_parent : (p.set_value i x).parent = p.parent := rfl
@[simp] theorem copy_keys_value : (p.copy_keys n source).value = p.value := rfl
@[simp] theorem copy_keys_count : (p.copy_keys n source).count = p.count := rfl
@[simp] theorem copy_keys_level : (p.copy_keys n source).level = p.level := rfl
@[simp] theorem copy_keys_next : (p.copy_keys n source).next = p.next := rfl
@[simp] theorem copy_keys_parent : (p.copy_keys n source).parent = p.parent := rfl
@[simp] theorem copy_values_key : (p.copy_values n source).key = p.key := rfl
@[simp] theorem copy_values_count : (p.copy_values n source).count = p.count := rfl
@[simp] theorem copy_values_level : (p.copy_values n source).level = p.level := rfl
@[simp] theorem copy_values_next : (p.copy_values n source).next = p.next := rfl
@[simp] theorem copy_values_parent : (p.copy_values n source).parent = p.parent := rfl

theorem shift_keys_shape : ∃ keys, p.shift_keys pos n = { p with keys := keys } := by
  induction n generalizing p with
  | zero => exact ⟨p.keys, rfl⟩
  | succ i ih =>
    unfold shift_keys
    split
    · exact ih (p.set_key (i + 1) (p.key i))
    · exact ⟨p.keys, rfl⟩

theorem shift_values_shape : ∃ values, p.shift_values pos n = { p with values := values } := by
  induction n generalizing p with
  | zero => exact ⟨p.values, rfl⟩
  | succ i ih =>
    unfold shift_values
    split
    · exact ih (p.set_value (i + 1) (p.value i))
    · exact ⟨p.values, rfl⟩

@[simp] theorem shift_keys_value : (p.shift_keys pos n).value = p.value := by
  obtain ⟨_, h⟩ := p.shift_keys_shape n pos
  rw [h]
  rfl

@[simp] theorem shift_keys_count : (p.shift_keys pos n).count = p.count := by
  obtain ⟨_, h⟩ := p.shift_keys_shape n pos
  rw [h]

@[simp] theorem shift_values_key : (p.shift_values pos n).key = p.key := by
  obtain ⟨_, h⟩ := p.shift_values_shape n pos
  rw [h]
  rfl

@[simp] theorem shift_values_count : (p.shift_values pos n).count = p.count := by
  obtain ⟨_, h⟩ := p.shift_values_shape n pos
  rw [h]

theorem key_shift_keys (hn : n < BFS_MAX_KEYS) :
    (p.shift_keys pos n).key j = if pos < j ∧ j ≤ n then p.key (j - 1) else p.key j := by
  induction n generalizing p with
  | zero => rw [shift_keys, if_neg (by omega)]
  | succ i ih =>
    unfold shift_keys
    by_cases hpos : pos < i + 1
    · rw [if_pos hpos, ih _ (by omega), key_set_key _ _ _ _ hn, key_set_key _ _ _ _ hn]
      split_ifs <;> first | rfl | omega | (subst_vars; rfl)
    · rw [if_neg hpos, if_neg (by omega)]

theorem value_shift_values (hn : n < BFS_MAX_VALUES) :
    (p.shift_values pos n).value j = if pos < j ∧ j ≤ n then p.value (j - 1) else p.value j := by
  induction n generalizing p with
  | zero => rw [shift_values, if_neg (by omega)]
  | succ i ih =>
    unfold shift_values
    by_cases hpos : pos < i + 1
    · rw [if_pos hpos, ih _ (by omega), value_set_value _ _ _ _ hn, value_set_value _ _ _ _ hn]
      split_ifs <;> first | rfl | omega | (subst_vars; rfl)
    · rw [if_neg hpos, if_neg (by omega)]

end Slots

/-- The fields of a node outside its two arrays that an edit keeps. -/
structure SameHead (p q : Page) : Prop where
  level : q.level = p.level
  next : q.next = p.next
  parent : q.parent = p.parent

end Page

section Edits

variable {p : Page} {pos : Nat} {x y : UInt64}

theorem toNat_count_succ (hroom : p.count.toNat < BFS_MAX_KEYS) :
    (p.count + 1).toNat = p.count.toNat + 1 := by
  simp only [BFS_MAX_KEYS] at hroom
  rw [UInt16.toNat_add]
  exact Nat.mod_eq_of_lt (by change p.count.toNat + 1 < 65536; omega)

theorem toNat_ofNat_count {n : Nat} (hn : n ≤ BFS_MAX_KEYS) : (UInt16.ofNat n).toNat = n := by
  simp only [BFS_MAX_KEYS] at hn
  rw [UInt16.toNat_ofNat']
  exact Nat.mod_eq_of_lt (by omega)

theorem key_shift_set {n j : Nat} (hn : n < BFS_MAX_KEYS) (hpos : pos ≤ n) (hj : j ≤ n) :
    ((p.shift_keys pos n).set_key pos x).key j = with_inserted p.key pos x j := by
  rw [Page.key_set_key _ _ _ _ (by omega), Page.key_shift_keys _ _ _ _ hn, with_inserted]
  split_ifs <;> first | rfl | omega

theorem value_shift_set {n j : Nat} (hn : n < BFS_MAX_VALUES) (hpos : pos ≤ n) (hj : j ≤ n) :
    ((p.shift_values pos n).set_value pos x).value j = with_inserted p.value pos x j := by
  rw [Page.value_set_value _ _ _ _ (by omega), Page.value_shift_values _ _ _ _ hn, with_inserted]
  split_ifs <;> first | rfl | omega

theorem shift_head (p : Page) (pos n m pos' : Nat) : p.SameHead ((p.shift_keys pos n).shift_values pos' m) := by
  obtain ⟨keys, hkeys⟩ := p.shift_keys_shape n pos
  obtain ⟨values, hvalues⟩ := (p.shift_keys pos n).shift_values_shape m pos'
  rw [hvalues, hkeys]
  exact ⟨rfl, rfl, rfl⟩

theorem insert_in_leaf_head (p : Page) (pos : Nat) (x y : UInt64) : p.SameHead (insert_in_leaf p pos x y) :=
  have h := shift_head p pos p.count.toNat p.count.toNat pos
  ⟨h.level, h.next, h.parent⟩

theorem insert_in_leaf_entries (hroom : p.count.toNat < BFS_MAX_KEYS) (hpos : pos ≤ p.count.toNat) :
    (insert_in_leaf p pos x y).entries = p.entries.take pos ++ (x, y) :: p.entries.drop pos := by
  have hcount : (insert_in_leaf p pos x y).count = p.count + 1 := by simp [insert_in_leaf]
  rw [Page.entries, hcount, toNat_count_succ hroom, Page.entries, ← pairs_inserted hpos]
  refine pairs_congr fun j hj => ⟨?_, ?_⟩
  · rw [← key_shift_set hroom hpos (by omega)]
    change (((p.shift_keys pos p.count.toNat).shift_values pos p.count.toNat).set_key pos x).key j = _
    rw [Page.key_set_key _ _ _ _ (by omega), Page.key_set_key _ _ _ _ (by omega), Page.shift_values_key]
  · rw [← value_shift_set hroom hpos (by omega)]
    change (((p.shift_keys pos p.count.toNat).shift_values pos p.count.toNat).set_value pos y).value j = _
    have hbound : pos < BFS_MAX_VALUES := Nat.lt_of_le_of_lt hpos hroom
    rw [Page.value_set_value _ _ _ _ hbound, Page.value_set_value _ _ _ _ hbound,
      Page.value_shift_values _ _ _ _ hroom, Page.value_shift_values _ _ _ _ hroom, Page.shift_keys_value]

theorem set_value_entries {i : Nat} (hcount : p.count.toNat ≤ BFS_MAX_VALUES) (hi : i < p.count.toNat) :
    (p.set_value i y).entries = p.entries.set i (p.key i, y) := by
  refine ext_getElem (by simp) fun j hj _ => ?_
  rw [Page.length_entries] at hj
  have hvalue := p.value_set_value i j y (by omega)
  by_cases hij : i = j
  · subst hij
    simp [Page.entries, pairs, hvalue]
  · rw [if_neg (Ne.symm hij)] at hvalue
    simp [Page.entries, pairs, hvalue, hij]

theorem insert_in_node_head : p.SameHead (insert_in_node p x y) :=
  have h := shift_head p (bfs_key_pos p x) p.count.toNat (p.count.toNat + 1)
    (bfs_key_pos p x + 1)
  ⟨h.level, h.next, h.parent⟩

/-- A node with room gets the separator and the child behind it at the position
of the separator; its first child stays. -/
theorem insert_in_node_children (hroom : p.count.toNat < BFS_INTERNAL_MAX_KEYS) :
    (insert_in_node p x y).children = p.children.take (bfs_key_pos p x) ++
        (x, y) :: p.children.drop (bfs_key_pos p x) ∧
      (insert_in_node p x y).value 0 = p.value 0 := by
  simp only [BFS_INTERNAL_MAX_KEYS, BFS_MAX_KEYS] at hroom
  have hkeys : p.count.toNat < BFS_MAX_KEYS := by simp only [BFS_MAX_KEYS]; omega
  have hvalues : p.count.toNat + 1 < BFS_MAX_VALUES := by simp only [BFS_MAX_VALUES]; omega
  have hpos := bfs_key_pos_le p x
  generalize hq : insert_in_node p x y = q
  have hcount : q.count = p.count + 1 := by simp [← hq, insert_in_node]
  have hkey : ∀ j ≤ p.count.toNat, q.key j = with_inserted p.key (bfs_key_pos p x) x j := by
    intro j hj
    rw [← key_shift_set hkeys hpos hj, ← hq]
    change (((p.shift_keys _ p.count.toNat).shift_values _ _).set_key _ x).key j = _
    rw [Page.key_set_key _ _ _ _ (by omega), Page.key_set_key _ _ _ _ (by omega), Page.shift_values_key]
  have hvalue : ∀ j ≤ p.count.toNat + 1,
      q.value j = with_inserted p.value (bfs_key_pos p x + 1) y j := by
    intro j hj
    rw [← value_shift_set hvalues (by omega) hj, ← hq]
    change (((p.shift_keys _ p.count.toNat).shift_values _ _).set_value _ y).value j = _
    rw [Page.value_set_value _ _ _ _ (by omega), Page.value_set_value _ _ _ _ (by omega),
      Page.value_shift_values _ _ _ _ hvalues, Page.value_shift_values _ _ _ _ hvalues,
      Page.shift_keys_value]
  refine ⟨?_, ?_⟩
  · rw [Page.children, hcount, toNat_count_succ hkeys, Page.children, ← pairs_inserted hpos]
    refine pairs_congr fun j hj => ⟨hkey j (by omega), ?_⟩
    rw [hvalue (j + 1) (by omega), with_inserted_succ]
  · rw [hvalue 0 (by omega), with_inserted, if_pos (by omega)]

/-- The two halves of a split leaf: together they hold the entries with the new
one at its position, and the left one is cut at the middle. -/
theorem split_leaf_entries (right_page : UInt64) (hcount : p.count.toNat ≤ BFS_MAX_KEYS)
    (hpos : pos ≤ p.count.toNat) :
    (split_leaf_left p pos x y right_page).entries ++ (split_leaf_right p pos x y).entries =
        p.entries.take pos ++ (x, y) :: p.entries.drop pos ∧
      (split_leaf_left p pos x y right_page).entries.length = (p.count.toNat + 1) / 2 := by
  generalize hmid : (p.count.toNat + 1) / 2 = mid
  have hmidLe : mid ≤ BFS_MAX_KEYS := by omega
  have hrestLe : p.count.toNat + 1 - mid ≤ BFS_MAX_KEYS := by
    simp only [BFS_MAX_KEYS] at hcount ⊢
    omega
  have hleft : (split_leaf_left p pos x y right_page).entries =
      pairs mid (with_inserted p.key pos x) (with_inserted p.value pos y) := by
    have hn : (split_leaf_left p pos x y right_page).count.toNat = mid := by
      change (UInt16.ofNat ((p.count.toNat + 1) / 2)).toNat = mid
      rw [hmid, toNat_ofNat_count hmidLe]
    rw [Page.entries, hn]
    refine pairs_congr fun j hj => ⟨?_, ?_⟩
    · change (Page.copy_keys _ ((p.count.toNat + 1) / 2) _).key j = _
      rw [hmid, Page.key_copy_keys _ _ _ _ hmidLe, if_pos hj]
    · change (Page.copy_values _ ((p.count.toNat + 1) / 2) _).value j = _
      rw [hmid, Page.value_copy_values _ _ _ _ hmidLe, if_pos hj]
  have hright : (split_leaf_right p pos x y).entries =
      pairs (p.count.toNat + 1 - mid) (fun i => with_inserted p.key pos x (mid + i))
        (fun i => with_inserted p.value pos y (mid + i)) := by
    have hn : (UInt16.ofNat (p.count.toNat + 1 - (p.count.toNat + 1) / 2)).toNat =
        p.count.toNat + 1 - mid := by
      rw [hmid, toNat_ofNat_count hrestLe]
    have hn' : (split_leaf_right p pos x y).count.toNat = p.count.toNat + 1 - mid := hn
    rw [Page.entries, hn']
    refine pairs_congr fun j hj => ⟨?_, ?_⟩
    · simp only [split_leaf_right, Page.copy_values_key, Page.copy_keys_count, hn]
      rw [Page.key_copy_keys _ _ _ _ hrestLe, if_pos hj, hmid]
    · simp only [split_leaf_right, Page.copy_keys_count, hn]
      rw [Page.value_copy_values _ _ _ _ hrestLe, if_pos hj, hmid]
  refine ⟨?_, by rw [hleft, length_pairs]⟩
  rw [hleft, hright, Page.entries, ← pairs_inserted hpos, ← pairs_drop,
    ← take_append_drop mid (pairs (p.count.toNat + 1) _ _), pairs_take,
    Nat.min_eq_left (by omega)]
  simp [pairs_drop]

/-- The two halves of a split internal node around the key that moves up. -/
theorem split_node_children (hcount : p.count.toNat ≤ BFS_INTERNAL_MAX_KEYS) :
    (split_node_left p x y).children ++
        (split_node_promoted p x, (split_node_right p x y).value 0) :: (split_node_right p x y).children =
        p.children.take (bfs_key_pos p x) ++ (x, y) :: p.children.drop (bfs_key_pos p x) ∧
      (split_node_left p x y).children.length = (p.count.toNat + 1) / 2 ∧
      (split_node_left p x y).value 0 = p.value 0 := by
  generalize hmid : (p.count.toNat + 1) / 2 = mid
  have hpos := bfs_key_pos_le p x
  have hcap : p.count.toNat ≤ 126 := hcount
  have hmidLe : mid < BFS_MAX_KEYS := by simp only [BFS_MAX_KEYS]; omega
  have hrestLe : p.count.toNat + 1 - mid - 1 < BFS_MAX_KEYS := by simp only [BFS_MAX_KEYS]; omega
  have hn : (UInt16.ofNat (p.count.toNat + 1 - mid - 1)).toNat = p.count.toNat + 1 - mid - 1 :=
    toNat_ofNat_count (by omega)
  have hleftValue : ∀ j ≤ mid, (split_node_left p x y).value j =
      with_inserted p.value (bfs_key_pos p x + 1) y j := by
    intro j hj
    simp only [split_node_left, hmid]
    rw [Page.value_set_value _ _ _ _ hmidLe, Page.value_copy_values _ _ _ _ (Nat.le_of_lt hmidLe)]
    split_ifs with heq hlt
    · rw [heq]
    · rfl
    · omega
  have hleft : (split_node_left p x y).children =
      pairs mid (with_inserted p.key (bfs_key_pos p x) x)
        (with_inserted (fun i => p.value (i + 1)) (bfs_key_pos p x) y) := by
    have hnLeft : (split_node_left p x y).count.toNat = mid := by
      change (UInt16.ofNat ((p.count.toNat + 1) / 2)).toNat = mid
      rw [hmid, toNat_ofNat_count (Nat.le_of_lt hmidLe)]
    rw [Page.children, hnLeft]
    refine pairs_congr fun j hj => ⟨?_, ?_⟩
    · simp only [split_node_left, Page.set_value_key, Page.copy_values_key, hmid]
      rw [Page.key_copy_keys _ _ _ _ (Nat.le_of_lt hmidLe), if_pos hj]
    · rw [hleftValue (j + 1) (by omega), with_inserted_succ]
  have hrightValue : ∀ j ≤ p.count.toNat + 1 - mid - 1, (split_node_right p x y).value j =
      with_inserted p.value (bfs_key_pos p x + 1) y (mid + 1 + j) := by
    intro j hj
    simp only [split_node_right, Page.copy_values_count, Page.copy_keys_count, hmid, hn]
    rw [Page.value_set_value _ _ _ _ hrestLe, Page.value_copy_values _ _ _ _ (Nat.le_of_lt hrestLe)]
    split_ifs with heq hlt
    · congr 1
      omega
    · rfl
    · omega
  have hright : (split_node_right p x y).children = pairs (p.count.toNat + 1 - (mid + 1))
      (fun i => with_inserted p.key (bfs_key_pos p x) x (mid + 1 + i))
      (fun i => with_inserted (fun i => p.value (i + 1)) (bfs_key_pos p x) y (mid + 1 + i)) := by
    have hnRight : (split_node_right p x y).count.toNat = p.count.toNat + 1 - (mid + 1) := by
      change (UInt16.ofNat (p.count.toNat + 1 - (p.count.toNat + 1) / 2 - 1)).toNat = _
      rw [hmid, hn, Nat.sub_sub]
    rw [Page.children, hnRight]
    refine pairs_congr fun j hj => ⟨?_, ?_⟩
    · simp only [split_node_right, Page.set_value_key, Page.copy_values_key, hmid, hn]
      rw [Page.key_copy_keys _ _ _ _ (Nat.le_of_lt hrestLe), if_pos (by omega)]
    · rw [hrightValue (j + 1) (by omega), show mid + 1 + (j + 1) = mid + 1 + j + 1 by omega,
        with_inserted_succ]
  have hmoved : (split_node_promoted p x, (split_node_right p x y).value 0) =
      (with_inserted p.key (bfs_key_pos p x) x mid,
        with_inserted (fun i => p.value (i + 1)) (bfs_key_pos p x) y mid) := by
    rw [hrightValue 0 (by omega), Nat.add_zero, with_inserted_succ, ← hmid]
    rfl
  refine ⟨?_, by rw [hleft, length_pairs], ?_⟩
  · have hsplit := take_append_drop mid (pairs (p.count.toNat + 1)
      (with_inserted p.key (bfs_key_pos p x) x)
      (with_inserted (fun i => p.value (i + 1)) (bfs_key_pos p x) y))
    have hmiddle : p.count.toNat + 1 - mid = p.count.toNat + 1 - (mid + 1) + 1 := by omega
    rw [pairs_take, Nat.min_eq_left (by omega), pairs_drop, hmiddle, pairs_succ] at hsplit
    rw [hleft, hmoved, hright, Page.children, ← pairs_inserted hpos, ← hsplit]
    simp only [Nat.add_zero, Nat.add_assoc, Nat.add_comm 1]
  · rw [hleftValue 0 (by omega), with_inserted, if_pos (by omega)]

end Edits

end graceos.bfs
