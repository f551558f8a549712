import GraceOS.Bfs.ReadBack
import GraceOS.Bfs.WellFormed

/-!
# The listing

`bfs_list` goes down to the leftmost leaf and then along the leaf chain. On a well-formed image it meets the entries of
the tree from left to right, also where leaves are empty.
-/

namespace graceos.bfs

open bplus List

/-- What is printed of an entry. -/
structure Listed where
  hash : UInt64
  start : UInt64
  size : UInt64
  name : Option (Fin BFS_NAME_MAX → UInt8)

/-- The first name under a hash. -/
def NameTable.name_of (table : NameTable) (hash : UInt64) : Option (Fin BFS_NAME_MAX → UInt8) :=
  ((List.finRange BFS_NAME_ENTRIES).find? fun i => (table.entries i).hash == hash).map fun i => (table.entries i).name

/-- The entry of a leaf as it is printed. -/
def list_entry (names : Option NameTable) (entry : UInt64 × UInt64) : Listed where
  hash := entry.1
  start := start_block entry.2
  size := size_bytes entry.2
  name := names.bind (·.name_of entry.1)

namespace Bfs

/-- The way to the leftmost leaf. It returns nothing when `fuel` steps were not enough; a walk of more steps than the
disk has pages repeats a page and never ends. -/
def leftmost_leaf (s : Bfs) : Nat → UInt64 → Option (Option Page)
  | 0, _ => none
  | fuel + 1, current_page_num =>
    match s.bfs_read_page current_page_num with
    | none => some none
    | some buf =>
      let current := Page.decode buf
      if 0 < current.level then s.leftmost_leaf fuel (current.value 0) else some (some current)

/-- The loop along the leaf chain, from a leaf that is there. -/
def list_leaves (s : Bfs) (names : Option NameTable) : Nat → Page → Option (List Listed)
  | 0, _ => none
  | fuel + 1, current =>
    let listed := current.entries.map (list_entry names)
    if current.next = 0 then some listed
    else
      match s.bfs_read_page current.next with
      | none => some listed
      | some buf => (s.list_leaves names fuel (Page.decode buf)).map (listed ++ ·)

/-- List all files: the number that is returned, and what is printed. -/
def bfs_list (s : Bfs) : Option (Int32 × List Listed) :=
  if s.root.file_count = 0 then some (0, [])
  else do
    let names := s.bfs_name_table_read
    match ← s.leftmost_leaf (s.root.total_pages.toNat + 1) s.root.root_page with
    | none => some (0, [])
    | some current =>
      let listed ← s.list_leaves names (s.root.total_pages.toNat + 1) current
      some (Int32.ofNat listed.length, listed)

end Bfs

/-! ## Along the chain -/

/-- A leaf as it is on the disk. -/
structure OnDisk (s : Bfs) (chunk : Chunk UInt64 UInt64 UInt64) : Prop where
  next : (s.node chunk.addr).next = chunk.next
  entries : (s.node chunk.addr).entries = chunk.entries

theorem Bfs.Holds.chunks {s : Bfs} {l : Nat} {par : UInt64} {t : Node l} (h : s.Holds par t) :
    ∀ chunk ∈ t.chunks, OnDisk s chunk ∧ chunk.addr ∈ t.pages := by
  induction l generalizing par with
  | zero =>
    intro chunk hchunk
    obtain rfl := List.mem_singleton.mp hchunk
    exact ⟨⟨h.2.2.1, h.2.2.2⟩, t.addr_mem_pages⟩
  | succ l ih =>
    intro chunk hchunk
    obtain ⟨-, -, -, -, hchildren⟩ := h
    refine (mem_gather.mp hchunk).elim (fun hfirst => ?_) ?_
    · obtain ⟨hdisk, hpage⟩ := ih hchildren.1 chunk hfirst
      exact ⟨hdisk, mem_cons_of_mem _ (mem_gather.mpr (.inl hpage))⟩
    · rintro ⟨pair, hpair, hin⟩
      obtain ⟨hdisk, hpage⟩ := ih (hchildren.2 pair hpair) chunk hin
      exact ⟨hdisk, mem_cons_of_mem _ (mem_gather.mpr (.inr ⟨pair, hpair, hpage⟩))⟩

/-- The way down ends in the first leaf. -/
theorem Bfs.Holds.leftmost {s : Bfs} {l : Nat} {par : UInt64} {t : Node l} (h : s.Holds par t)
    (hpages : ∀ b ∈ t.pages, b < s.root.total_pages) {fuel : Nat} (hfuel : l < fuel) :
    ∃ chunk rest, t.chunks = chunk :: rest ∧ s.leftmost_leaf fuel t.addr = some (some (s.node chunk.addr)) := by
  induction l generalizing par fuel with
  | zero =>
    obtain ⟨fuel, rfl⟩ := Nat.exists_eq_add_of_lt hfuel
    have hread : s.bfs_read_page t.addr = some (s.bfs_raw_read t.addr) :=
      if_neg (UInt64.not_le.mpr (hpages _ t.addr_mem_pages))
    have hlevel : (s.node t.addr).level = 0 := h.1
    refine ⟨Leaf.toChunk t, [], rfl, ?_⟩
    rw [Nat.zero_add, leftmost_leaf, hread]
    dsimp only
    rw [if_neg]
    · rfl
    · change ¬ 0 < (s.node t.addr).level
      rw [hlevel]
      decide
  | succ l ih =>
    obtain ⟨fuel, rfl⟩ := Nat.exists_eq_add_of_lt hfuel
    have hread : s.bfs_read_page t.addr = some (s.bfs_raw_read t.addr) :=
      if_neg (UInt64.not_le.mpr (hpages _ t.addr_mem_pages))
    have hlevel := h.level_eq
    obtain ⟨-, -, hfirst, -, hchildren⟩ := h
    have hlt : l < l + 1 + fuel := by omega
    obtain ⟨chunk, rest, hchunks, hrun⟩ := ih hchildren.1
      (fun b hb => hpages b (mem_cons_of_mem _ (mem_gather.mpr (.inl hb)))) hlt
    refine ⟨chunk, rest ++ (Inner.rest t).flatMap fun pair => pair.2.chunks, ?_, ?_⟩
    · change gather Tree.chunks (Inner.first t) (Inner.rest t) = _
      rw [gather, hchunks, cons_append]
    · rw [leftmost_leaf, hread]
      dsimp only
      rw [if_pos]
      · exact (congrArg (s.leftmost_leaf _) hfirst).trans hrun
      · change 0 < (s.node t.addr).level
        rw [UInt16.lt_iff_toNat_lt, hlevel]
        exact Nat.succ_pos l

/-- The chain lists all its leaves. -/
theorem list_leaves_chained {s : Bfs} {names : Option NameTable} {chunk : Chunk UInt64 UInt64 UInt64}
    {rest : List (Chunk UInt64 UInt64 UInt64)} (h : Chained 0 (chunk :: rest))
    (hdisk : ∀ c ∈ chunk :: rest, OnDisk s c ∧ c.addr ≠ 0 ∧ c.addr < s.root.total_pages) {fuel : Nat}
    (hfuel : rest.length < fuel) :
    s.list_leaves names fuel (s.node chunk.addr) =
      some (((chunk :: rest).flatMap Chunk.entries).map (list_entry names)) := by
  induction rest generalizing chunk fuel with
  | nil =>
    obtain ⟨fuel, rfl⟩ := Nat.exists_eq_add_of_lt hfuel
    obtain ⟨hchunk, -, -⟩ := hdisk chunk (mem_cons_self ..)
    have hnext : (s.node chunk.addr).next = 0 := hchunk.next.trans h.1
    rw [length_nil, Nat.zero_add, Bfs.list_leaves, if_pos hnext, hchunk.entries, flatMap_singleton]
  | cons next rest ih =>
    obtain ⟨fuel, rfl⟩ := Nat.exists_eq_add_of_lt hfuel
    obtain ⟨hchunk, -, -⟩ := hdisk chunk (mem_cons_self ..)
    obtain ⟨-, hne, hlt⟩ := hdisk next (by simp)
    have hnext : (s.node chunk.addr).next = next.addr := hchunk.next.trans h.1
    have hread : s.bfs_read_page next.addr = some (s.bfs_raw_read next.addr) := if_neg (UInt64.not_le.mpr hlt)
    have hlength : rest.length < (next :: rest).length + fuel := by
      rw [length_cons]
      omega
    have hrest := ih h.2 (fun c hc => hdisk c (mem_cons_of_mem _ hc)) hlength
    rw [Bfs.list_leaves, hnext, if_neg hne, hread]
    dsimp only
    rw [show Page.decode (s.bfs_raw_read next.addr) = s.node next.addr from rfl, hrest, hchunk.entries]
    simp only [flatMap_cons, map_append, Option.map_some]

/-! ## The whole listing -/

theorem gather_length_le {C B B' : Type} {f : C → List B} {g : C → List B'} (h : ∀ c, (f c).length ≤ (g c).length)
    (first : C) (rest : List (UInt64 × C)) : (gather f first rest).length ≤ (gather g first rest).length := by
  induction rest generalizing first with
  | nil =>
    rw [gather_nil, gather_nil]
    exact h first
  | cons pair rest ih =>
    rw [gather_cons, gather_cons, length_append, length_append]
    exact Nat.add_le_add (h first) (ih pair.2)

theorem chunks_length_le {l : Nat} (t : Node l) : t.chunks.length ≤ t.pages.length := by
  induction l with
  | zero => exact le_rfl
  | succ l ih => exact (gather_length_le ih _ _).trans (Nat.le_succ _)

theorem lookup_of_mem {entries : List (UInt64 × UInt64)} (hsorted : Sorted entries) {entry : UInt64 × UInt64}
    (h : entry ∈ entries) : entries.lookup entry.1 = some entry.2 := by
  induction entries with
  | nil => exact absurd h not_mem_nil
  | cons head entries ih =>
    obtain ⟨hhead, htail⟩ := List.pairwise_cons.mp hsorted
    rw [lookup_cons_ite]
    cases List.mem_cons.mp h with
    | inl heq => rw [heq, if_pos rfl]
    | inr hrest => rw [if_neg (ne_of_gt (hhead entry hrest)), ih htail hrest]

namespace WellFormed

variable {s : Bfs} {t : BTree}

/-- The entries of the tree are listed from left to right. -/
theorem list_eq (h : WellFormed s t) (hcount : s.root.file_count.toNat = t.2.entries.length) :
    ∃ names, s.bfs_list = some (Int32.ofNat s.root.file_count.toNat, t.2.entries.map (list_entry names)) := by
  obtain ⟨σ, himage⟩ := h.image
  refine ⟨s.bfs_name_table_read, ?_⟩
  by_cases hzero : s.root.file_count = 0
  · have hnone : t.2.entries = [] := by
      rw [← length_eq_zero_iff, ← hcount, hzero]
      rfl
    rw [Bfs.bfs_list, if_pos hzero, hzero, hnone]
    rfl
  have hdisk := himage.on_disk
  have hbelow : ∀ b ∈ t.2.pages, b < s.root.total_pages := by
    intro b hb
    rw [UInt64.lt_iff_toNat_lt]
    have hlt := (himage.pages b hb).2
    omega
  have hlevel := himage.level_lt
  have hdeep : t.1 < s.root.total_pages.toNat + 1 := by omega
  obtain ⟨chunk, rest, hchunks, hleft⟩ := himage.holds.leftmost hbelow hdeep
  have hlength := (chunks_length_le t.2).trans himage.length_pages_le
  rw [hchunks, length_cons] at hlength
  have hlong : rest.length < s.root.total_pages.toNat + 1 := by omega
  have hleaves := @list_leaves_chained s s.bfs_name_table_read chunk rest (hchunks ▸ h.chained) (fun c hc => by
    obtain ⟨hon, hpage⟩ := himage.holds.chunks c (hchunks ▸ hc)
    exact ⟨hon, (himage.pages c.addr hpage).1, hbelow c.addr hpage⟩) _ hlong
  rw [← hchunks] at hleaves
  rw [Bfs.bfs_list, if_neg hzero, himage.root_page]
  simp only [hleft, hleaves, Option.bind_eq_bind, Option.bind_some]
  rw [length_map, hcount]
  rfl

theorem stored (h : WellFormed s t) {key : UInt64} {r : SearchResult} (hsearch : s.bfs_search key = some r)
    (hfound : r.found = true) : (key, r.value) ∈ t.2.entries := by
  obtain ⟨σ, himage⟩ := h.image
  obtain ⟨r', hsearch', hanswer⟩ := himage.search_some key
  obtain rfl := Option.some.inj (hsearch.symm.trans hsearch')
  rw [SearchResult.answer, if_pos hfound] at hanswer
  exact Volume.mem_of_lookup hanswer.symm

theorem found (h : WellFormed s t) {entry : UInt64 × UInt64} (hentry : entry ∈ t.2.entries) :
    ∃ r, s.bfs_search entry.1 = some r ∧ r.found = true ∧ r.value = entry.2 := by
  obtain ⟨σ, himage⟩ := h.image
  obtain ⟨r, hsearch, hanswer⟩ := himage.search_some entry.1
  rw [lookup_of_mem himage.bounded.entries_sorted hentry, SearchResult.answer] at hanswer
  split at hanswer
  · rename_i hfound
    exact ⟨r, hsearch, hfound, Option.some.inj hanswer⟩
  · cases hanswer

/-- Deletion of a stored key. -/
theorem delete (h : WellFormed s t) (hreserved : ∀ b ∈ t.2.pages, b ≠ BFS_NAME_TABLE_PAGE)
    (hcount : s.root.file_count.toNat = t.2.entries.length) {name : FileName} {r : SearchResult}
    (hsearch : s.bfs_search (bfs_hash name) = some r) (hfound : r.found = true) :
    ∃ s', s.bfs_delete name = some (0, s') ∧ WellFormed s' ⟨t.1, t.2.erase (bfs_hash name)⟩ ∧
      s'.root.file_count.toNat = (t.2.erase (bfs_hash name)).entries.length ∧
      (t.2.erase (bfs_hash name)).entries = without (bfs_hash name) t.2.entries := by
  obtain ⟨i, hi, hentry⟩ := List.mem_iff_getElem.mp (h.stored hsearch hfound)
  obtain ⟨σ, himage⟩ := h.image
  have hentries : (t.2.erase (bfs_hash name)).entries = without (bfs_hash name) t.2.entries :=
    himage.bounded.erase_entries trivial
  obtain ⟨page, s₁, hread, hwritten, himage₁, hmoves₁⟩ := himage.erase hsearch hfound
  have hcounted := Bfs.set_file_count_moves himage₁.has (s₁.root.file_count - 1)
  obtain ⟨hnames, hroot⟩ := Bfs.name_table_remove_moves hcounted.has (bfs_hash name)
  have hpages : (t.2.erase (bfs_hash name)).pages = t.2.pages := Tree.erase_pages t.2
  have himage' := himage₁.of_moves (hcounted.trans hnames) (fun b hb hin => by
    have hb' : b ∈ t.2.pages := hpages ▸ hb
    exact hin.elim (himage.pages b hb').1 (hreserved b hb')) ((congrArg Root.root_page hroot).trans rfl)
  refine ⟨_, ?_, ⟨⟨σ, himage'⟩, h.attached.erase, h.chained.congr (Tree.erase_links t.2)⟩, ?_,
    hentries⟩
  · rw [Bfs.bfs_delete]
    simp only [hsearch, hfound, hread, ← hwritten, Option.bind_eq_bind, Option.bind_some, if_true]
  · have hone : (1 : UInt64) ≤ s.root.file_count := by
      rw [UInt64.le_iff_toNat_le, hcount]
      exact Nat.lt_of_le_of_lt (Nat.zero_le i) hi
    have hkept : s₁.root.file_count = s.root.file_count := by rw [hwritten]; rfl
    rw [hroot, hentries, without_eq_eraseIdx himage.bounded.entries_sorted hi (congrArg Prod.fst hentry),
      length_eraseIdx_of_lt hi, ← hcount]
    change (s₁.root.file_count - 1).toNat = _
    rw [hkept, UInt64.toNat_sub_of_le _ _ hone]
    rfl

end WellFormed

/-- The listing of a well-formed image returns the number of files in its `int`, with each stored key once, in
ascending order, under the size and the first block that the search finds. Deletion of a stored key leaves a
well-formed image whose listing is the old one without that key. -/
theorem bfs_list_complete {s : Bfs} {t : BTree} (h : WellFormed s t)
    (hreserved : ∀ b ∈ t.2.pages, b ≠ BFS_NAME_TABLE_PAGE) (hcount : s.root.file_count.toNat = t.2.entries.length) :
    ∃ count listing, s.bfs_list = some (count, listing) ∧ count = Int32.ofNat s.root.file_count.toNat ∧
      (s.root.file_count.toNat < 2 ^ 31 → count.toInt = s.root.file_count.toNat) ∧
      listing.length = s.root.file_count.toNat ∧
      listing.Pairwise (fun first second => first.hash < second.hash) ∧
      (∀ key, (∃ listed ∈ listing, listed.hash = key) ↔ ∃ r, s.bfs_search key = some r ∧ r.found = true) ∧
      (∀ listed ∈ listing, ∃ r, s.bfs_search listed.hash = some r ∧ r.found = true ∧
        listed.start = start_block r.value ∧ listed.size = size_bytes r.value) ∧
      ∀ name r, s.bfs_search (bfs_hash name) = some r → r.found = true →
        ∃ s' t', s.bfs_delete name = some (0, s') ∧ WellFormed s' t' ∧ (∀ b ∈ t'.2.pages, b ≠ BFS_NAME_TABLE_PAGE) ∧
          s'.root.file_count.toNat = t'.2.entries.length ∧
          ∃ count' listing', s'.bfs_list = some (count', listing') ∧
            listing'.map (fun listed => (listed.hash, listed.start, listed.size)) =
              (listing.filter fun listed => listed.hash ≠ bfs_hash name).map fun listed =>
                (listed.hash, listed.start, listed.size) := by
  obtain ⟨names, hlist⟩ := h.list_eq hcount
  have hsorted : Sorted t.2.entries := by
    obtain ⟨σ, himage⟩ := h.image
    exact himage.bounded.entries_sorted
  refine ⟨_, _, hlist, rfl, fun hsmall => ?_, by rw [length_map, hcount], List.pairwise_map.mpr hsorted,
    fun key => ⟨?_, ?_⟩, fun listed hlisted => ?_, fun name r hsearch hfound => ?_⟩
  · rw [Int32.toInt_ofNat', Int.bmod_eq_of_le] <;> simp only [Int32.size] <;> omega
  · rintro ⟨listed, hlisted, rfl⟩
    obtain ⟨entry, hentry, rfl⟩ := List.mem_map.mp hlisted
    obtain ⟨r, hsearch, hfound, -⟩ := h.found hentry
    exact ⟨r, hsearch, hfound⟩
  · rintro ⟨r, hsearch, hfound⟩
    exact ⟨_, mem_map_of_mem (h.stored hsearch hfound), rfl⟩
  · obtain ⟨entry, hentry, rfl⟩ := List.mem_map.mp hlisted
    obtain ⟨r, hsearch, hfound, hvalue⟩ := h.found hentry
    exact ⟨r, hsearch, hfound, congrArg start_block hvalue.symm, congrArg size_bytes hvalue.symm⟩
  · obtain ⟨s', hrun, hwell, hcount', hentries⟩ := h.delete hreserved hcount hsearch hfound
    obtain ⟨names', hlist'⟩ := hwell.list_eq hcount'
    refine ⟨s', _, hrun, hwell, fun b hb => hreserved b ?_, hcount', _, _, hlist', ?_⟩
    · rwa [← @Tree.erase_pages _ _ _ _ _ (bfs_hash name) t.2]
    · rw [hentries, without, filter_map, map_map, map_map]
      rfl

section Examples

/-- Two leaves below a root, the second of them empty. -/
def sparse_tree : BTree :=
  let leaf (addr next : UInt64) (entries : List (UInt64 × UInt64)) : Leaf UInt64 UInt64 UInt64 :=
    { addr := addr, next := next, entries := entries, linked := true }
  let root : Inner UInt64 UInt64 (Node 0) :=
    { addr := 5, linked := false, first := leaf 3 4 [(7, pack 8 9), (bfs_hash name_a, pack 6 5000)]
      rest := [(1000000, leaf 4 0 [])] }
  ⟨1, root⟩

/-- The counters behind the pages of `sparse_tree` and of its files. -/
def sparse_space : Space := ⟨9, 10, by decide, by decide⟩

theorem sparse_wellFormed : WellFormed (disk_of sparse_tree 9 10) sparse_tree := by
  have hcheck : sparse_tree.2.check none none = true := by decide +kernel
  have hfill : sparse_tree.2.Fill BFS_MAX_KEYS BFS_INTERNAL_MAX_KEYS := by decide +kernel
  have hpages : ∀ b ∈ sparse_tree.2.pages, b ≠ 0 ∧ b.toNat < 9 := forall_mem_of_all (by decide)
  refine ⟨⟨sparse_space, ?_⟩, by decide +kernel, by decide +kernel⟩
  exact disk_of_image (σ := sparse_space) (Tree.bounded_of_check hcheck) hfill (by decide) rfl (by decide) hpages

/-- Two files are listed, and "a" is deleted from a well-formed image. -/
theorem sparse_list_complete : ∃ listing, (disk_of sparse_tree 9 10).bfs_list = some (2, listing) ∧
    listing.length = 2 ∧ ∃ s' t', (disk_of sparse_tree 9 10).bfs_delete name_a = some (0, s') ∧ WellFormed s' t' := by
  have hcount : (disk_of sparse_tree 9 10).root.file_count.toNat = sparse_tree.2.entries.length := by decide +kernel
  have hentry : (bfs_hash name_a, pack 6 5000) ∈ sparse_tree.2.entries := mem_of_getElem? (i := 1) rfl
  obtain ⟨r, hsearch, hfound, -⟩ := sparse_wellFormed.found hentry
  obtain ⟨count, listing, hlist, rfl, -, hlength, -, -, -, hdelete⟩ :=
    bfs_list_complete sparse_wellFormed (forall_mem_of_all (by decide)) hcount
  obtain ⟨s', t', hrun, hwell, -⟩ := hdelete name_a r hsearch hfound
  exact ⟨listing, hlist, hlength, s', t', hrun, hwell⟩

end Examples

end graceos.bfs
