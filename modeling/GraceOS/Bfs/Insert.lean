import GraceOS.Bfs.Device

namespace graceos.bfs

/-- `for (i = start; i < start + n; i++) if (hit(i)) break;` and then `i`. -/
def scan (hit : Nat → Bool) (start : Nat) : Nat → Nat
  | 0 => start
  | n + 1 => if hit start then start else scan hit (start + 1) n

/-- `struct bfs_search_result` as `bfs_search` initialises it. -/
structure SearchResult where
  found : Bool := false
  page_num : UInt64 := 0
  index : Int := -1
  value : UInt64 := 0
  deriving DecidableEq

/-- Find the insertion position in a sorted key array. -/
def bfs_key_pos (page : Page) (key : UInt64) : Nat :=
  scan (fun i => key < page.key i) 0 page.count.toNat

/-- The child of an internal node that `bfs_search` follows. -/
def search_child (current : Page) (key : UInt64) : UInt64 :=
  let i := scan (fun i => key < current.key i) 0 current.count.toNat
  if i = 0 ∧ 0 < current.count ∧ key < current.key 0 then current.value 0
  else if 0 < i then current.value i
  else current.value current.count.toNat

/-- The end of `bfs_search` in a leaf. -/
def search_leaf (current_page_num : UInt64) (current : Page) (key : UInt64) : SearchResult :=
  let i := scan (fun i => current.key i = key) 0 current.count.toNat
  if i < current.count.toNat then
    { found := true, page_num := current_page_num, index := i, value := current.value i }
  else
    { found := false, page_num := current_page_num
      index := scan (fun i => key < current.key i) 0 current.count.toNat, value := 0 }

namespace Page

/-- `for (i = from; i > pos; i--) keys[i] = keys[i - 1];` -/
def shift_keys (pos : Nat) : Nat → Page → Page
  | 0, p => p
  | i + 1, p => if pos < i + 1 then shift_keys pos i (p.set_key (i + 1) (p.key i)) else p

/-- `for (i = from; i > pos; i--) values[i] = values[i - 1];` -/
def shift_values (pos : Nat) : Nat → Page → Page
  | 0, p => p
  | i + 1, p => if pos < i + 1 then shift_values pos i (p.set_value (i + 1) (p.value i)) else p

/-- `for (i = 0; i < n; i++) keys[i] = from[i];` -/
def copy_keys (p : Page) (n : Nat) (source : Nat → UInt64) : Page :=
  { p with keys := fun i => if i.val < n then source i else p.keys i }

/-- `for (i = 0; i < n; i++) values[i] = from[i];` -/
def copy_values (p : Page) (n : Nat) (source : Nat → UInt64) : Page :=
  { p with values := fun i => if i.val < n then source i else p.values i }

end Page

/-- Insert a key at a position in a leaf node. -/
def insert_in_leaf (leaf : Page) (pos : Nat) (key value : UInt64) : Page :=
  let leaf := (leaf.shift_keys pos leaf.count.toNat).shift_values pos leaf.count.toNat
  let leaf := (leaf.set_key pos key).set_value pos value
  { leaf with count := leaf.count + 1 }

/-- The temporary array of a split: `source` with `x` put in at `pos`. -/
def with_inserted (source : Nat → UInt64) (pos : Nat) (x : UInt64) (i : Nat) : UInt64 :=
  if i < pos then source i else if i = pos then x else source (i - 1)

/-- The simple sorted insertion into a parent that has room. -/
def insert_in_node (par : Page) (separator right_page : UInt64) : Page :=
  let pos := bfs_key_pos par separator
  let par := (par.shift_keys pos par.count.toNat).shift_values (pos + 1) (par.count.toNat + 1)
  let par := (par.set_key pos separator).set_value (pos + 1) right_page
  { par with count := par.count + 1 }

/-- The left half of a full internal node that takes one more child. -/
def split_node_left (par : Page) (separator right_page : UInt64) : Page :=
  let total := par.count.toNat + 1
  let pos := bfs_key_pos par separator
  let tmp_keys := with_inserted par.key pos separator
  let tmp_vals := with_inserted par.value (pos + 1) right_page
  let mid := total / 2
  let par := { par with count := UInt16.ofNat mid }
  let par := (par.copy_keys mid tmp_keys).copy_values mid tmp_vals
  par.set_value mid (tmp_vals mid)

/-- The key that moves up when a full internal node is split. -/
def split_node_promoted (par : Page) (separator : UInt64) : UInt64 :=
  let total := par.count.toNat + 1
  let pos := bfs_key_pos par separator
  with_inserted par.key pos separator (total / 2)

/-- The right half of a full internal node that takes one more child. Its
parent is left at 0, "set when we recurse". -/
def split_node_right (par : Page) (separator right_page : UInt64) : Page :=
  let total := par.count.toNat + 1
  let pos := bfs_key_pos par separator
  let tmp_keys := with_inserted par.key pos separator
  let tmp_vals := with_inserted par.value (pos + 1) right_page
  let mid := total / 2
  let rp := { Page.zero with magic := BFS_MAGIC, level := par.level
                             count := UInt16.ofNat (total - mid - 1), parent := 0 }
  let rp := rp.copy_keys rp.count.toNat fun i => tmp_keys (mid + 1 + i)
  let rp := rp.copy_values rp.count.toNat fun i => tmp_vals (mid + 1 + i)
  rp.set_value rp.count.toNat (tmp_vals total)

/-- The node that becomes the root over two children. -/
def new_root_node (lc : Page) (left_page separator right_page : UInt64) : Page :=
  let nr := { Page.zero with magic := BFS_MAGIC, level := lc.level + 1, count := 1 }
  ((nr.set_key 0 separator).set_value 0 left_page).set_value 1 right_page

/-- The halves of a full leaf that takes one more entry. -/
def split_leaf_left (leaf : Page) (ins : Nat) (key value right_page : UInt64) : Page :=
  let total := leaf.count.toNat + 1
  let mid := total / 2
  let leaf' := { leaf with count := UInt16.ofNat mid }
  let leaf' := leaf'.copy_keys mid (with_inserted leaf.key ins key)
  let leaf' := leaf'.copy_values mid (with_inserted leaf.value ins value)
  { leaf' with next := right_page }

def split_leaf_right (leaf : Page) (ins : Nat) (key value : UInt64) : Page :=
  let total := leaf.count.toNat + 1
  let mid := total / 2
  let right_leaf := { Page.zero with magic := BFS_MAGIC, level := leaf.level
                                     count := UInt16.ofNat (total - mid)
                                     next := leaf.next, parent := leaf.parent }
  let right_leaf := right_leaf.copy_keys right_leaf.count.toNat
    fun i => with_inserted leaf.key ins key (mid + i)
  right_leaf.copy_values right_leaf.count.toNat fun i => with_inserted leaf.value ins value (mid + i)

namespace Bfs

/-- The loop of `bfs_search`. It returns nothing when `fuel` steps were not
enough; a walk of more steps than the disk has pages repeats a page and never
ends. -/
def search_from (s : Bfs) (key : UInt64) : Nat → UInt64 → Option SearchResult
  | 0, _ => none
  | fuel + 1, current_page_num =>
    match s.bfs_read_page current_page_num with
    | none => some {}
    | some buf =>
      let current := Page.decode buf
      if 0 < current.level then s.search_from key fuel (search_child current key)
      else some (search_leaf current_page_num current key)

/-- Search for a key in the tree. -/
def bfs_search (s : Bfs) (key : UInt64) : Option SearchResult :=
  s.search_from key (s.root.total_pages.toNat + 1) s.root.root_page

/-- Set the parent field of a page on the device. -/
def set_parent (s : Bfs) (page_num parent : UInt64) : Bfs :=
  let page := s.node page_num
  s.bfs_raw_write page_num { page with parent := parent }.encode

/-- `bfs->root->root_page = new_root`, flushed to the device. -/
def set_root_page (s : Bfs) (new_root : UInt64) : Bfs :=
  bfs_flush_root { s with root := { s.root with root_page := new_root } }

/-- The branch of `bfs_insert_in_parent` in which `left_page` was the root. -/
def insert_new_root (s : Bfs) (left_page separator right_page : UInt64) : Int × Bfs :=
  let lc := s.node left_page
  match s.bfs_alloc_page with
  | (new_root, s) =>
    if new_root = 0 then (-1, s)
    else
      let s := s.bfs_raw_write new_root (new_root_node lc left_page separator right_page).encode
      let s := s.set_parent left_page new_root
      let s := s.set_parent right_page new_root
      (0, s.set_root_page new_root)

/-- The branch in which the parent has room. -/
def insert_with_room (s : Bfs) (par_page separator right_page : UInt64) : Int × Bfs :=
  let par := s.node par_page
  let s := s.bfs_raw_write par_page (insert_in_node par separator right_page).encode
  (0, s.set_parent right_page par_page)

/-- The branch in which the parent is split: the new right node, or 0, and the
state before the recursive call. -/
def insert_split (s : Bfs) (par_page separator right_page : UInt64) : UInt64 × Bfs :=
  let par := s.node par_page
  let s := s.bfs_raw_write par_page (split_node_left par separator right_page).encode
  match s.bfs_alloc_page with
  | (new_right, s) =>
    if new_right = 0 then (0, s)
    else
      let rp := split_node_right par separator right_page
      let s := s.bfs_raw_write new_right rp.encode
      let children := (List.range (rp.count.toNat + 1)).map rp.value
      (new_right, children.foldl (fun s child_p => s.set_parent child_p new_right) s)

/-- Push a separator and a new right child up into the parent of `left_page`.
Each further call has taken a page from the disk, so `fuel` above the number of
free pages is never used up. -/
def bfs_insert_in_parent : Nat → Bfs → UInt64 → UInt64 → UInt64 → Option (Int × Bfs)
  | 0, _, _, _, _ => none
  | fuel + 1, s, left_page, separator, right_page =>
    let par_page := (s.node left_page).parent
    if par_page = 0 then some (s.insert_new_root left_page separator right_page)
    else
      let par := s.node par_page
      if par.count.toNat < BFS_INTERNAL_MAX_KEYS then
        some (s.insert_with_room par_page separator right_page)
      else
        match s.insert_split par_page separator right_page with
        | (new_right, s) =>
          if new_right = 0 then some (-1, s)
          else bfs_insert_in_parent fuel s par_page (split_node_promoted par separator) new_right

/-- `bfs_insert` after the search. -/
def insert_at (s : Bfs) (search : SearchResult) (key value : UInt64) : Option (Int × Bfs) :=
  let leaf := s.node search.page_num
  let ins := search.index.toNat
  if search.found then
    some (0, s.bfs_write_page search.page_num (leaf.set_value ins value).encode)
  else if leaf.count.toNat < BFS_MAX_KEYS then
    some (0, s.bfs_raw_write search.page_num (insert_in_leaf leaf ins key value).encode)
  else
    match s.bfs_alloc_page with
    | (right_page, s) =>
      if right_page = 0 then some (-1, s)
      else
        let right_leaf := split_leaf_right leaf ins key value
        let s := s.bfs_raw_write search.page_num (split_leaf_left leaf ins key value right_page).encode
        let s := s.bfs_raw_write right_page right_leaf.encode
        bfs_insert_in_parent (s.root.free_pages.toNat + 1) s search.page_num (right_leaf.key 0) right_page

/-- Insert a key-value pair with full B+ tree splitting support. -/
def bfs_insert (s : Bfs) (key value : UInt64) : Option (Int × Bfs) := do
  let search ← s.bfs_search key
  s.insert_at search key value

end Bfs

end graceos.bfs
