import GraceOS.Bfs.Image
import GraceOS.Lib.BPlusTree.Check

namespace graceos.bfs

open bplus

/-- The page of a leaf below `par`. -/
def leaf_page (par : UInt64) (t : Leaf UInt64 UInt64 UInt64) : Page where
  magic := BFS_MAGIC
  level := 0
  count := UInt16.ofNat t.entries.length
  next := t.next
  parent := back par t.linked
  keys := fun i => (t.entries[i.val]?.map Prod.fst).getD 0
  values := fun i => (t.entries[i.val]?.map Prod.snd).getD 0
  rest := fun _ => 0

/-- The page of an internal node below `par`. -/
def inner_page (par : UInt64) {l : Nat} (t : Inner UInt64 UInt64 (Node l)) : Page where
  magic := BFS_MAGIC
  level := UInt16.ofNat (l + 1)
  count := UInt16.ofNat t.rest.length
  next := 0
  parent := back par t.linked
  keys := fun i => (t.rest[i.val]?.map Prod.fst).getD 0
  values := fun i => ((t.first.addr :: t.rest.map fun pair => pair.2.addr)[i.val]?).getD 0
  rest := fun _ => 0

/-- All pages of a tree, with their numbers. -/
def layout : {l : Nat} → UInt64 → Node l → List (UInt64 × Page)
  | 0, par, (t : Leaf UInt64 UInt64 UInt64) => [(t.addr, leaf_page par t)]
  | _ + 1, par, (t : Inner UInt64 UInt64 (Node _)) =>
    (t.addr, inner_page par t) :: gather (layout t.addr) t.first t.rest

/-- A disk with a tree on it and `free` more pages behind page `next`. -/
def disk_of (t : BTree) (next free : UInt64) : Bfs where
  root :=
    { magic := BFS_MAGIC
      version := BFS_VERSION
      root_page := t.2.addr
      total_pages := next + free
      free_pages := free
      next_free := next
      file_count := UInt64.ofNat t.2.entries.length
      rest := fun _ => 0 }
  disk_size := (next + free) * UInt64.ofNat BFS_PAGE_SIZE
  ram_base := 4096
  ram := fun offset =>
    match (layout 0 t.2).find? fun page => page.1 * UInt64.ofNat BFS_PAGE_SIZE == offset with
    | some page => page.2.encode
    | none => fun _ => 0
  name_table_enabled := true
  handed_out := []

theorem layout_pages {l : Nat} (par : UInt64) (t : Node l) :
    (layout par t).map Prod.fst = t.pages := by
  induction l generalizing par with
  | zero => rfl
  | succ l ih => simp [layout, Tree.pages, gather, List.map_flatMap, ih]

section Pages

theorem leaf_page_entries (par : UInt64) {t : Leaf UInt64 UInt64 UInt64}
    (hcap : t.entries.length ≤ BFS_MAX_KEYS) : (leaf_page par t).entries = t.entries := by
  have hcount : (leaf_page par t).count.toNat = t.entries.length := toNat_ofNat_count hcap
  refine List.ext_getElem (by rw [Page.length_entries, hcount]) fun i hi hi' => ?_
  have hlt : i < BFS_MAX_KEYS := by omega
  simp [Page.entries, pairs, Page.key, Page.value, leaf_page, BFS_MAX_VALUES, BFS_MAX_KEYS] at hlt ⊢
  simp [hlt, hi']

theorem inner_page_children (par : UInt64) {l : Nat} {t : Inner UInt64 UInt64 (Node l)}
    (hcap : t.rest.length ≤ BFS_INTERNAL_MAX_KEYS) :
    (inner_page par t).value 0 = t.first.addr ∧
      (inner_page par t).children = t.rest.map fun pair => (pair.1, pair.2.addr) := by
  have hcap' : t.rest.length ≤ 126 := hcap
  have hcount : (inner_page par t).count.toNat = t.rest.length :=
    toNat_ofNat_count (hcap'.trans (by decide))
  refine ⟨by simp [Page.value, inner_page, BFS_MAX_VALUES], ?_⟩
  refine List.ext_getElem (by rw [Page.length_children, hcount, List.length_map]) fun i hi hi' => ?_
  rw [List.length_map] at hi'
  have hlt : i < 127 := by omega
  have hlt' : i + 1 < 127 := by omega
  simp [Page.children, pairs, Page.key, Page.value, inner_page, BFS_MAX_VALUES, BFS_MAX_KEYS, hlt, hlt', hi']

theorem holds_of_layout {s : Bfs} {l : Nat} {par : UInt64} {t : Node l}
    (h : ∀ page ∈ layout par t, s.node page.1 = page.2)
    (hfill : t.Fill BFS_MAX_KEYS BFS_INTERNAL_MAX_KEYS) (hlevel : l < 2 ^ 16) : s.Holds par t := by
  induction l generalizing par with
  | zero =>
    have hnode : s.node (Leaf.toChunk t).addr = leaf_page par t :=
      h ((Leaf.toChunk t).addr, leaf_page par t) (by simp [layout])
    unfold Bfs.Holds
    rw [hnode]
    exact ⟨rfl, rfl, rfl, leaf_page_entries par hfill⟩
  | succ l ih =>
    obtain ⟨_, hcap, hbelow⟩ := hfill
    have hnode : s.node (Inner.addr t) = inner_page par t :=
      h (Inner.addr t, inner_page par t) (by simp [layout])
    obtain ⟨hfirst, hchildren⟩ := inner_page_children par hcap
    refine ⟨?_, by rw [hnode]; rfl, by rw [hnode, hfirst], by rw [hnode, hchildren], ?_, ?_⟩
    · rw [hnode]
      change (UInt16.ofNat (l + 1)).toNat = l + 1
      rw [UInt16.toNat_ofNat']
      exact Nat.mod_eq_of_lt hlevel
    · exact ih (fun page hpage => h page (List.mem_cons_of_mem _ (mem_gather.mpr (.inl hpage))))
        hbelow.1 (by omega)
    · intro pair hpair
      exact ih (fun page hpage => h page (List.mem_cons_of_mem _ (mem_gather.mpr (.inr ⟨pair, hpair, hpage⟩))))
        (hbelow.2 pair hpair) (by omega)

theorem find_page {pages : List (UInt64 × Page)} (hnodup : (pages.map Prod.fst).Nodup)
    (haddr : ∀ page ∈ pages, Addressable page.1) {page : UInt64 × Page} (hpage : page ∈ pages) :
    pages.find? (fun other => other.1 * UInt64.ofNat BFS_PAGE_SIZE == page.1 * UInt64.ofNat BFS_PAGE_SIZE) =
      some page := by
  induction pages with
  | nil => exact absurd hpage List.not_mem_nil
  | cons head pages ih =>
    obtain ⟨hnot, hrest⟩ := List.nodup_cons.mp hnodup
    rcases List.mem_cons.mp hpage with rfl | htail
    · rw [List.find?_cons_of_pos (by simp)]
    · rw [List.find?_cons_of_neg, ih hrest (fun other hother => haddr other (List.mem_cons_of_mem _ hother)) htail]
      intro heq
      have hsame := offset_inj (haddr _ List.mem_cons_self) (haddr _ hpage) (by simpa using heq)
      exact hnot (hsame ▸ List.mem_map_of_mem htail)

end Pages

theorem forall_mem_of_all {α : Type*} {P : α → Prop} [DecidablePred P] {l : List α}
    (hall : l.all (fun x => decide (P x)) = true) : ∀ x ∈ l, P x :=
  fun x hx => of_decide_eq_true (List.all_eq_true.mp hall x hx)

theorem disk_of_image {t : BTree} {σ : Space} (hbounded : t.2.Bounded Set.univ)
    (hfill : t.2.Fill BFS_MAX_KEYS BFS_INTERNAL_MAX_KEYS) (hlevel : t.1 < 2 ^ 16)
    (hunlinked : t.2.linked = false) (hnodup : t.2.pages.Nodup)
    (hpages : ∀ b ∈ t.2.pages, b ≠ 0 ∧ b.toNat < σ.next.toNat) : Image (disk_of t σ.next σ.free) σ t := by
  have hbound := σ.bound
  have haddr : ∀ page ∈ layout 0 t.2, Addressable page.1 := by
    intro page hpage
    have hmem : page.1 ∈ t.2.pages := by
      rw [← layout_pages 0 t.2]
      exact List.mem_map_of_mem hpage
    have hlt := (hpages _ hmem).2
    unfold Addressable
    omega
  refine ⟨⟨rfl, rfl⟩, rfl, holds_of_layout (fun page hpage => ?_) hfill hlevel, hunlinked, hbounded, hfill,
    hnodup, hpages, ?_⟩
  · have hfind := find_page (by rw [layout_pages]; exact hnodup) haddr hpage
    rw [Bfs.node, Bfs.bfs_raw_read, Bfs.bfs_device_read, disk_of]
    dsimp only
    rw [hfind, Page.decode_encode]
  · change _ ≤ (σ.next + σ.free).toNat
    rw [UInt64.toNat_add, Nat.mod_eq_of_lt (by omega)]

end graceos.bfs
