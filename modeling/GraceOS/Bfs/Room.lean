import GraceOS.Bfs.History
import GraceOS.Bfs.SizeRecord

/-!
# Room on the disk

`bfs_create` and `bfs_write_file` succeed where the free pages hold the blocks of the file and the nodes that its new
entry cuts. On a volume with a single leaf the outcome of many operations can be computed from their names and sizes.
-/

namespace graceos.bfs

open bplus

section Room

variable {s s₁ : Bfs} {σ : Space} {t : BTree} {key size : UInt64} {name : FileName}

/-- The free pages suffice for writing `size` bytes under a key. An entry keeps its blocks where they suffice. -/
def Room (σ : Space) (t : BTree) (key size : UInt64) : Prop :=
  match t.2.entries.lookup key with
  | some value => size ≤ size_bytes value ∨ blocks size.toNat ≤ σ.free.toNat
  | none => blocks size.toNat + t.cost BFS_MAX_KEYS BFS_INTERNAL_MAX_KEYS key ≤ σ.free.toNat

theorem write_found_code (h : Image s σ t) {r : SearchResult} (hsearch : s.bfs_search key = some r)
    (htotal : s₁.root.total_pages = s.root.total_pages) (buffer : Nat → UInt8) (start : UInt64) :
    ∃ s', s₁.write_found r name buffer start size = (0, s') := by
  obtain ⟨r', hsearch', hpage, -⟩ := h.search_position key
  obtain rfl := Option.some.inj (hsearch.symm.trans hsearch')
  have hdisk := h.on_disk
  have hlt := (h.pages _ (t.2.leafFor_mem_pages key)).2
  have hread : s₁.bfs_read_page r.page_num = some (s₁.bfs_raw_read r.page_num) := by
    refine if_neg ?_
    rw [UInt64.le_iff_toNat_le, htotal, hpage]
    omega
  rw [Bfs.write_found, hread]
  exact ⟨_, rfl⟩

theorem Image.search_found (h : Image s σ t) (key : UInt64) :
    ∃ r, s.bfs_search key = some r ∧ (r.found = true ∧ t.2.entries.lookup key = some r.value ∨
      r.found = false ∧ t.2.entries.lookup key = none) := by
  obtain ⟨r, hsearch, hanswer⟩ := h.search_some key
  refine ⟨r, hsearch, ?_⟩
  unfold SearchResult.answer at hanswer
  cases hfound : r.found with
  | true =>
    rw [hfound, if_pos rfl] at hanswer
    exact .inl ⟨rfl, hanswer.symm⟩
  | false =>
    rw [hfound, if_neg Bool.false_ne_true] at hanswer
    exact .inr ⟨rfl, hanswer.symm⟩

/-- Writing a file succeeds exactly where there is room for it. -/
theorem bfs_write_file_succeeds_iff (h : Volume s σ t) (hsize : size.toNat + 4095 < 2 ^ 64)
    (hlinked : t.2.entries.lookup (bfs_hash name) = none → t.2.PathLinked (bfs_hash name)) (buffer : Nat → UInt8) :
    (∃ s', s.bfs_write_file name buffer size = some (0, s')) ↔ Room σ t (bfs_hash name) size := by
  obtain ⟨r, hsearch, ⟨hfound, hlookup⟩ | ⟨hfound, hlookup⟩⟩ := h.search_found (bfs_hash name)
  · rw [Room, hlookup, Bfs.bfs_write_file]
    simp only [hsearch, hfound, Option.bind_eq_bind, Option.bind_some, if_true]
    by_cases hgrows : size_bytes r.value < size
    · rw [if_pos hgrows]
      rcases Bfs.reserve_cases h.has hsize with ⟨hnone, hfew⟩ | ⟨start, s₁, σ₁, hreserve, hmoves, -, -, hfresh⟩
      · rw [hnone]
        refine iff_of_false ?_ ?_
        · rintro ⟨s', hrun⟩
          exact absurd (Prod.mk.inj (Option.some.inj hrun)).1 (by decide)
        · rintro (hle | hle)
          · exact absurd hgrows (UInt64.not_lt.mpr hle)
          · omega
      · rw [hreserve]
        have hwrites : ∃ s', s₁.write_found r name buffer start size = (0, s') :=
          write_found_code h.toImage hsearch hmoves.touches.total_pages buffer start
        obtain ⟨s', hwrite⟩ := hwrites
        refine iff_of_true ⟨s', congrArg some hwrite⟩ (.inr ?_)
        have htotal := hmoves.later.total
        rcases hfresh with hzero | ⟨-, hnext⟩ <;> omega
    · rw [if_neg hgrows]
      have hwrites : ∃ s', s.write_found r name buffer (start_block r.value) size = (0, s') :=
        write_found_code h.toImage hsearch rfl buffer (start_block r.value)
      obtain ⟨s', hwrite⟩ := hwrites
      exact iff_of_true ⟨s', congrArg some hwrite⟩ (.inl (UInt64.not_lt.mp hgrows))
  · rw [Room, hlookup, Bfs.bfs_write_file]
    simp only [hsearch, hfound, Option.bind_eq_bind, Option.bind_some, Bool.false_eq_true, if_false]
    rcases place_new h.toImage h.start h.unreserved hsize (bfs_hash name) with ⟨hnone, hfew⟩ | ⟨start, s₁, flag, s₂, σ₂,
      t', hreserve, hinsert, -, -, -, -, -, hflag, -, -, -⟩
    · rw [hnone]
      refine iff_of_false ?_ (by omega)
      rintro ⟨s', hrun⟩
      exact absurd (Prod.mk.inj (Option.some.inj hrun)).1 (by decide)
    · rw [hreserve, ← hflag (hlinked hlookup)]
      simp only [hinsert, Option.bind_some]
      cases flag with
      | true => exact iff_of_true ⟨_, rfl⟩ rfl
      | false =>
        refine iff_of_false ?_ Bool.false_ne_true
        rintro ⟨s', hrun⟩
        exact absurd (Prod.mk.inj (Option.some.inj hrun)).1 (by decide)

/-- Where the blocks of a new file are to be had, so are the pages for the nodes that its entry cuts. -/
def Whole (σ : Space) (t : BTree) (key size : UInt64) : Prop :=
  t.2.entries.lookup key = none → blocks size.toNat ≤ σ.free.toNat →
    blocks size.toNat + t.cost BFS_MAX_KEYS BFS_INTERNAL_MAX_KEYS key ≤ σ.free.toNat

/-- Without room, and where not only the nodes are missing, a write leaves the disk as it is. -/
theorem bfs_write_file_full (h : Volume s σ t) (hsize : size.toNat + 4095 < 2 ^ 64)
    (hwhole : Whole σ t (bfs_hash name) size) (hroom : ¬ Room σ t (bfs_hash name) size) (buffer : Nat → UInt8) :
    σ.free.toNat < blocks size.toNat ∧ (∀ value, t.2.entries.lookup (bfs_hash name) = some value →
      size_bytes value < size) ∧ ∃ code, s.bfs_write_file name buffer size = some (code, s) := by
  obtain ⟨r, hsearch, ⟨hfound, hlookup⟩ | ⟨hfound, hlookup⟩⟩ := h.search_found (bfs_hash name)
  · rw [Room, hlookup] at hroom
    obtain ⟨hgrows, hfew⟩ := not_or.mp hroom
    rw [UInt64.not_le] at hgrows
    rw [not_le] at hfew
    refine ⟨hfew, fun value hvalue => ?_, -2, ?_⟩
    · obtain rfl := Option.some.inj (hvalue.symm.trans hlookup)
      exact hgrows
    rw [Bfs.bfs_write_file]
    simp only [hsearch, hfound, Option.bind_eq_bind, Option.bind_some, if_true, if_pos hgrows]
    rcases Bfs.reserve_cases h.has hsize with ⟨hnone, -⟩ | ⟨start, s₁, σ₁, -, hmoves, -, -, hfresh⟩
    · rw [hnone]
    · have htotal := hmoves.later.total
      rcases hfresh with hzero | ⟨-, hnext⟩ <;> omega
  · rw [Room, hlookup] at hroom
    have hfew : σ.free.toNat < blocks size.toNat := by
      by_contra hblocks
      exact hroom (hwhole hlookup (not_lt.mp hblocks))
    refine ⟨hfew, fun value hvalue => (by rw [hlookup] at hvalue; cases hvalue), -3, ?_⟩
    rw [Bfs.bfs_write_file]
    simp only [hsearch, hfound, Option.bind_eq_bind, Option.bind_some, Bool.false_eq_true, if_false]
    rcases Bfs.reserve_cases h.has hsize with ⟨hnone, -⟩ | ⟨start, s₁, σ₁, -, hmoves, -, -, hfresh⟩
    · rw [hnone]
    · have htotal := hmoves.later.total
      rcases hfresh with hzero | ⟨-, hnext⟩ <;> omega

end Room

/-! ## Whole files -/

section Whole

variable {s s' : Bfs} {σ : Space} {t : BTree} {name : FileName}

theorem toNat_length {data : List UInt8} (hdata : data.length < 2 ^ 32) :
    (UInt64.ofNat data.length).toNat = data.length :=
  UInt64.toNat_ofNat_of_lt' (by
    change data.length < 2 ^ 64
    omega)

/-- Data written with success are read back, the empty ones too. -/
theorem write_read_back (h : Accounted s σ t) {data : List UInt8} (hdata : data.length < 2 ^ 32)
    (hlinked : t.2.entries.lookup (bfs_hash name) = none → t.2.PathLinked (bfs_hash name))
    (hrun : s.bfs_write_file name (fun i => data.getD i 0) (UInt64.ofNat data.length) = some (0, s'))
    (max_size : UInt64) (hmax : UInt64.ofNat data.length ≤ max_size) :
    s'.bfs_read_file name max_size = some { code := 0, out_size := some (UInt64.ofNat data.length), data } := by
  have hlength := toNat_length hdata
  have hnext : σ.next.toNat < 2 ^ 32 := by
    have htotal := h.total
    have hsmall := h.small
    omega
  obtain ⟨code, s'', σ', t', hrun', hstep, hread⟩ := h.toVolume.write_file hnext
    (by rw [hlength]; omega) name fun i => data.getD i 0
  obtain ⟨rfl, rfl⟩ := Prod.mk.inj (Option.some.inj (hrun'.symm.trans hrun))
  obtain ⟨start, hstart, hlookup, hcontents⟩ := hread rfl hlinked
  have hreport : s''.report (bfs_hash name) = some (true, pack start (UInt64.ofNat data.length)) := by
    rw [hstep.volume.report_eq, hlookup]
    rfl
  have hbytes : size_bytes (pack start (UInt64.ofNat data.length)) = UInt64.ofNat data.length := by
    rw [← UInt64.toNat_inj, size_bytes_pack hstart, hlength, Nat.mod_eq_of_lt hdata]
  rw [bfs_read_file_found hreport, hbytes, start_block_pack hstart, hcontents, if_neg (UInt64.not_lt.mpr hmax), hlength]
  rw [map_getD_range]
  split
  · next hzero =>
    have hempty : data.length = 0 := by
      rw [← hlength, hzero]
      rfl
    rw [List.eq_nil_of_length_eq_zero hempty]
  · rfl

/-- Pages of the disk are read to their end. -/
theorem read_pages_whole (s : Bfs) {start : UInt64} {n : Nat}
    (hend : n = 0 ∨ start.toNat + blocks n ≤ s.root.total_pages.toNat) :
    ∃ data, s.read_pages start n = (0, data) ∧ data.length = n := by
  induction n using Nat.strongRecOn generalizing start with
  | ind n ih =>
    rw [Bfs.read_pages]
    by_cases hzero : n = 0
    · rw [if_pos hzero]
      exact ⟨[], rfl, hzero.symm⟩
    have hlast : start.toNat + (n + 4095) / 4096 ≤ s.root.total_pages.toNat := hend.resolve_left hzero
    have htotal := s.root.total_pages.toNat_lt
    have hread : s.bfs_read_page start = some (s.bfs_raw_read start) := by
      refine if_neg ?_
      rw [UInt64.le_iff_toNat_le]
      omega
    rw [if_neg hzero, hread]
    dsimp only
    have hchunk : min n BFS_PAGE_SIZE = min n 4096 := rfl
    rw [hchunk]
    have hnext : n - min n 4096 = 0 ∨
        (start + 1).toNat + blocks (n - min n 4096) ≤ s.root.total_pages.toNat := by
      rw [or_iff_not_imp_left]
      intro hmore
      rw [word.toNat_succ (by omega)]
      change start.toNat + 1 + (n - min n 4096 + 4095) / 4096 ≤ _
      omega
    obtain ⟨data, hdata, hlength⟩ := ih (n - min n 4096) (by omega) hnext
    rw [hdata]
    refine ⟨_, rfl, ?_⟩
    rw [List.length_append, Block.take, List.length_map, List.length_range, hlength]
    omega

/-- A file that is there is read whole, or is too large. -/
theorem read_whole (h : Volume s σ t) {value : UInt64} (hlookup : t.2.entries.lookup (bfs_hash name) = some value) :
    ∃ data : List UInt8, data.length = (size_bytes value).toNat ∧ ∀ max_size, s.bfs_read_file name max_size =
      if max_size < size_bytes value then some { code := -2, out_size := some (size_bytes value), data := [] }
      else some { code := 0, out_size := some (size_bytes value), data } := by
  have hreport : s.report (bfs_hash name) = some (true, value) := by
    rw [h.report_eq, hlookup]
    rfl
  have hdisk := h.on_disk
  have hstart := start_block_lt value
  have hsize := size_bytes_lt value
  have hend : blocks (size_bytes value).toNat = 0 ∨
      (start_block value).toNat + blocks (size_bytes value).toNat ≤ σ.next.toNat :=
    stretch_end_le (fun b hb => (h.owned _ (Volume.mem_of_lookup hlookup) b hb).2.1) (by
      change (start_block value).toNat + ((size_bytes value).toNat + 4095) / 4096 < 2 ^ 64
      omega)
  have hpages : (size_bytes value).toNat = 0 ∨
      (start_block value).toNat + blocks (size_bytes value).toNat ≤ s.root.total_pages.toNat := by
    rcases hend with hzero | hle
    · change ((size_bytes value).toNat + 4095) / 4096 = 0 at hzero
      exact .inl (by omega)
    · exact .inr (hle.trans (by omega))
  obtain ⟨data, hread, hlength⟩ := read_pages_whole s hpages
  refine ⟨data, hlength, fun max_size => ?_⟩
  rw [bfs_read_file_found hreport, hread]
  split
  · next hzero =>
    rw [hzero, if_neg UInt64.not_lt_zero]
    rw [hzero] at hlength
    rw [List.eq_nil_of_length_eq_zero hlength]
  · rfl

theorem read_absent (h : Volume s σ t) (hlookup : t.2.entries.lookup (bfs_hash name) = none) (max_size : UInt64) :
    s.bfs_read_file name max_size = some { code := -1, out_size := none, data := [] } := by
  have hreport : s.report (bfs_hash name) = some (false, 0) := by
    rw [h.report_eq, hlookup]
    rfl
  exact bfs_read_file_missing hreport max_size

end Whole

/-! ## A single leaf -/

section Shallow

variable {s s' : Bfs} {σ σ' : Space} {t t' : BTree} {keys : List UInt64} {free : Nat} {name : FileName} {size : UInt64}

/-- A volume with its files in one leaf: the hashes that are found, and the number of free pages. -/
structure Shallow (s : Bfs) (keys : List UInt64) (free : Nat) : Prop where
  volume : ∃ (σ : Space) (t : BTree), Volume s σ t ∧ t.1 = 0 ∧ t.2.entries.length = keys.length ∧
    (∀ key, t.2.entries.lookup key = none ↔ key ∉ keys) ∧ σ.free.toNat = free
  small : s.root.total_pages.toNat < 2 ^ 32

theorem Image.leaf_unique (h : Image s σ t) (h' : Image s σ' t') (hleaf : t.1 = 0) :
    t'.1 = 0 ∧ t'.2.entries = t.2.entries ∧ σ' = σ := by
  have haddr : t'.2.addr = t.2.addr := h'.root_page.symm.trans h.root_page
  have hheight : t'.1 = t.1 := by
    rw [← h'.holds.level_eq, haddr, h.holds.level_eq]
  obtain ⟨l, t⟩ := t
  obtain ⟨l', t'⟩ := t'
  obtain rfl : l = 0 := hleaf
  obtain rfl : l' = 0 := hheight
  refine ⟨rfl, ?_, Space.ext (h'.has.1.symm.trans h.has.1) (h'.has.2.symm.trans h.has.2)⟩
  have hentries := h.leaf_entries 0
  have hentries' := h'.leaf_entries 0
  change (s.node (Tree.addr (l := 0) t')).entries = _ at hentries'
  rw [haddr] at hentries'
  have hsame : (Leaf.toChunk t').entries = (Leaf.toChunk t).entries := hentries'.symm.trans hentries
  change Tree.entries (l := 0) t' = Tree.entries (l := 0) t
  rw [Tree.entries_leaf, Tree.entries_leaf, hsame]

theorem Shallow.leaf (h : Shallow s keys free) (himage : Image s σ t) :
    t.1 = 0 ∧ t.2.entries.length = keys.length ∧ (∀ key, t.2.entries.lookup key = none ↔ key ∉ keys) ∧
      σ.free.toNat = free := by
  obtain ⟨⟨σ', t', hvolume, hleaf, hlength, hlookup, hfree⟩, -⟩ := h
  obtain ⟨hleaf', hentries, rfl⟩ := hvolume.toImage.leaf_unique himage hleaf
  rw [hentries]
  exact ⟨hleaf', hlength, hlookup, hfree⟩

theorem cost_of_leaf (hleaf : t.1 = 0) (hroom : t.2.entries.length < BFS_MAX_KEYS) (key : UInt64) :
    t.cost BFS_MAX_KEYS BFS_INTERNAL_MAX_KEYS key = 0 ∧ t.2.PathLinked key := by
  obtain ⟨l, t⟩ := t
  obtain rfl : l = 0 := hleaf
  have hwhole : ¬ Tree.Splits BFS_MAX_KEYS BFS_INTERNAL_MAX_KEYS key (l := 0) t := by
    intro hsplits
    change (Tree.entries (l := 0) t).length < _ at hroom
    rw [Tree.entries_leaf] at hroom
    exact absurd hsplits.2 (not_le.mpr hroom)
  refine ⟨?_, trivial⟩
  unfold SizedTree.cost
  rw [if_neg hwhole, Tree.cost, if_neg hwhole]

/-- The way of both functions to a new file. What follows the insertion leaves the tree alone. -/
theorem Shallow.placed (h : Shallow s keys free) (hnew : bfs_hash name ∉ keys) (hkeys : keys.length < BFS_MAX_KEYS)
    (hsize : size.toNat + 4095 < 2 ^ 64) (hfree : blocks size.toNat ≤ free) :
    ∃ r start s₁ s₂, s.bfs_search (bfs_hash name) = some r ∧ r.found = false ∧ s.reserve size = (some start, s₁) ∧
      s₁.bfs_insert (bfs_hash name) (pack start size) = some (0, s₂) ∧
      ∀ s', (∀ σ : Space, Finishes s₂ s' σ start size) → (∃ σ' t', Volume s' σ' t') →
        s'.root.total_pages = s.root.total_pages → Shallow s' (bfs_hash name :: keys) (free - blocks size.toNat) := by
  obtain ⟨⟨σ, t, hvolume, hleaf, hlength, hlookup, rfl⟩, hsmall⟩ := h
  obtain ⟨hcost, hlinked⟩ := cost_of_leaf hleaf (hlength ▸ hkeys) (bfs_hash name)
  have habsent := (hlookup _).mpr hnew
  obtain ⟨r, hsearch, ⟨-, hvalue⟩ | ⟨hfound, -⟩⟩ := hvolume.search_found (bfs_hash name)
  · rw [habsent] at hvalue
    cases hvalue
  rcases place_new hvolume.toImage hvolume.start hvolume.unreserved hsize (bfs_hash name) with ⟨-, hfew⟩ | ⟨start, s₁,
    flag, s₂, σ₂, t₂, hreserve, hinsert, himage, hpages, -, hstart, hend, hflag, -, huncut, hentries⟩
  · omega
  obtain rfl := (hflag hlinked).mpr (by omega)
  obtain ⟨hheight, hspent⟩ := huncut hcost hlinked
  refine ⟨r, start, s₁, s₂, hsearch, hfound, hreserve, hinsert, fun s' hafter hafterwards htotal => ?_⟩
  obtain ⟨σ', t', hvolume'⟩ := hafterwards
  obtain ⟨himage', -⟩ := (hafter σ).image himage hend hstart hpages
  obtain ⟨hleaf', hentries', rfl⟩ := himage'.leaf_unique hvolume'.toImage (hheight.trans hleaf)
  rw [hentries rfl hlinked] at hentries'
  have hmem : bfs_hash name ∉ t.2.entries.map Prod.fst := by
    intro hmem
    obtain ⟨entry, hentry, hkey⟩ := List.mem_map.mp hmem
    exact lookup_eq_none_iff_forall.mp habsent entry hentry hkey
  refine ⟨⟨σ', t', hvolume', hleaf', ?_, fun key => ?_, by omega⟩, htotal ▸ hsmall⟩
  · rw [hentries', upsert_length_of_absent hmem, hlength, List.length_cons]
  · rw [hentries', lookup_upsert, List.mem_cons, not_or]
    split
    · next heq => simp [heq]
    · next hne => rw [hlookup, and_iff_right hne]

theorem Shallow.next_lt (h : Shallow s keys free) : ∃ (σ : Space) (t : BTree), Volume s σ t ∧
    σ.next.toNat < 2 ^ 32 := by
  obtain ⟨⟨σ, t, hvolume, -⟩, hsmall⟩ := h
  have hdisk := hvolume.on_disk
  exact ⟨σ, t, hvolume, by omega⟩

theorem Shallow.create (h : Shallow s keys free) (hnew : bfs_hash name ∉ keys) (hkeys : keys.length < BFS_MAX_KEYS)
    (hsize : size.toNat + 4095 < 2 ^ 64) (hfree : blocks size.toNat ≤ free) :
    ∃ s', s.bfs_create name size = some (0, s') ∧
      Shallow s' (bfs_hash name :: keys) (free - blocks size.toNat) := by
  obtain ⟨r, start, s₁, s₂, hsearch, hfound, hreserve, hinsert, hshallow⟩ := h.placed hnew hkeys hsize hfree
  obtain ⟨σ, t, hvolume, hnext⟩ := h.next_lt
  obtain ⟨code, s', σ', t', hrun, hstep, -⟩ := hvolume.create hnext hsize name
  have hsuccess : s.bfs_create name size = some (0, (s₂.set_file_count (s₂.root.file_count + 1)).bfs_name_table_upsert
      (bfs_hash name) name start size) := by
    rw [Bfs.bfs_create]
    simp only [hsearch, hfound, hreserve, hinsert, Option.bind_eq_bind, Option.bind_some, Bool.false_eq_true, if_false,
      ne_eq, not_true_eq_false]
  obtain ⟨rfl, rfl⟩ := Prod.mk.inj (Option.some.inj (hrun.symm.trans hsuccess))
  exact ⟨_, hrun, hshallow _ (fun _ => create_finishes) ⟨σ', t', hstep.volume⟩ hstep.moves.touches.total_pages⟩

theorem Shallow.write_file (h : Shallow s keys free) (hnew : bfs_hash name ∉ keys) (hkeys : keys.length < BFS_MAX_KEYS)
    (hsize : size.toNat + 4095 < 2 ^ 64) (hfree : blocks size.toNat ≤ free) (buffer : Nat → UInt8) :
    ∃ s', s.bfs_write_file name buffer size = some (0, s') ∧
      Shallow s' (bfs_hash name :: keys) (free - blocks size.toNat) := by
  obtain ⟨r, start, s₁, s₂, hsearch, hfound, hreserve, hinsert, hshallow⟩ := h.placed hnew hkeys hsize hfree
  obtain ⟨σ, t, hvolume, hnext⟩ := h.next_lt
  obtain ⟨code, s', σ', t', hrun, hstep, -⟩ := hvolume.write_file hnext hsize name buffer
  have hsuccess : s.bfs_write_file name buffer size =
      some (0, (s₂.set_file_count (s₂.root.file_count + 1)).write_contents
      name buffer start size) := by
    rw [Bfs.bfs_write_file]
    simp only [hsearch, hfound, hreserve, hinsert, Option.bind_eq_bind, Option.bind_some, Bool.false_eq_true, if_false,
      ne_eq, not_true_eq_false]
  obtain ⟨rfl, rfl⟩ := Prod.mk.inj (Option.some.inj (hrun.symm.trans hsuccess))
  exact ⟨_, hrun, hshallow _ (fun _ => write_finishes buffer) ⟨σ', t', hstep.volume⟩ hstep.moves.touches.total_pages⟩

theorem Shallow.create_again (h : Shallow s keys free) (hold : bfs_hash name ∈ keys) (size : UInt64) :
    s.bfs_create name size = some (-1, s) := by
  obtain ⟨⟨σ, t, hvolume, -, -, hlookup, -⟩, -⟩ := h
  obtain ⟨r, hsearch, ⟨hfound, -⟩ | ⟨-, hnone⟩⟩ := hvolume.search_found (bfs_hash name)
  · rw [Bfs.bfs_create]
    simp only [hsearch, hfound, Option.bind_eq_bind, Option.bind_some, if_true]
  · exact absurd hold ((hlookup _).mp hnone)

theorem Shallow.find (h : Shallow s keys free) (hnew : bfs_hash name ∉ keys) :
    s.bfs_find name = some (.error (-1)) := by
  obtain ⟨⟨σ, t, hvolume, -, -, hlookup, -⟩, -⟩ := h
  rw [bfs_find_eq, hvolume.report_eq, (hlookup _).mpr hnew]
  rfl

theorem Shallow.on_path (h : Shallow s keys free) {key page : UInt64} (hpage : s.OnPath key page) :
    page = s.root.root_page := by
  obtain ⟨⟨σ, t, hvolume, hleaf, -⟩, -⟩ := h
  have hlevel := hvolume.holds.level_eq
  rw [← hvolume.root_page, hleaf] at hlevel
  induction hpage with
  | root => rfl
  | child _ hinner ih =>
    rw [ih, UInt16.lt_iff_toNat_lt, hlevel] at hinner
    exact absurd hinner (by decide)

/-- The code of an operation, and the hashes and free pages behind it, as far as names and sizes decide. -/
def Op.outcome (keys : List UInt64) (free : Nat) : Op → Option (Int × List UInt64 × Nat)
  | .create name size =>
    if bfs_hash name ∈ keys then some (-1, keys, free)
    else if keys.length < BFS_MAX_KEYS ∧ size.toNat + 4095 < 2 ^ 64 ∧ blocks size.toNat ≤ free then
      some (0, bfs_hash name :: keys, free - blocks size.toNat)
    else none
  | .write_file name _ size =>
    if bfs_hash name ∉ keys ∧ keys.length < BFS_MAX_KEYS ∧ size.toNat + 4095 < 2 ^ 64 ∧ blocks size.toNat ≤ free then
      some (0, bfs_hash name :: keys, free - blocks size.toNat)
    else none
  | .delete _ => none

theorem outcome_code {op : Op} {code : Int} {after : List UInt64 × Nat}
    (h : op.outcome keys free = some (code, after)) : code = 0 ∨ code = -1 ∧ ∃ name size, op = .create name size := by
  cases op with
  | create name size =>
    rw [Op.outcome] at h
    split at h
    · cases h
      exact .inr ⟨rfl, name, size, rfl⟩
    split at h
    · cases h
      exact .inl rfl
    · cases h
  | write_file name buffer size =>
    rw [Op.outcome] at h
    split at h
    · cases h
      exact .inl rfl
    · cases h
  | delete name => cases h

theorem Shallow.step {op : Op} {code : Int} {keys' : List UInt64} {free' : Nat} (h : Shallow s keys free)
    (houtcome : op.outcome keys free = some (code, keys', free')) :
    ∃ s', s.step op = some (code, s') ∧ Shallow s' keys' free' := by
  cases op with
  | create name size =>
    rw [Op.outcome] at houtcome
    split at houtcome
    · next hold =>
      cases houtcome
      exact ⟨s, h.create_again hold size, h⟩
    split at houtcome
    · next hnew hroom =>
      cases houtcome
      exact h.create hnew hroom.1 hroom.2.1 hroom.2.2
    · cases houtcome
  | write_file name buffer size =>
    rw [Op.outcome] at houtcome
    split at houtcome
    · next hroom =>
      cases houtcome
      exact h.write_file hroom.1 hroom.2.1 hroom.2.2.1 hroom.2.2.2 buffer
    · cases houtcome
  | delete name => cases houtcome

/-- The same over a list of operations. -/
def outcomes (keys : List UInt64) (free : Nat) : List Op → Option (List UInt64 × Nat)
  | [] => some (keys, free)
  | op :: ops => do
    let (_, keys, free) ← op.outcome keys free
    outcomes keys free ops

theorem Shallow.run {ops : List Op} {keys' : List UInt64} {free' : Nat} (h : Shallow s keys free)
    (houtcomes : outcomes keys free ops = some (keys', free')) :
    ∃ s', s.run ops = some s' ∧ Shallow s' keys' free' := by
  induction ops generalizing s keys free with
  | nil =>
    cases houtcomes
    exact ⟨s, rfl, h⟩
  | cons op ops ih =>
    obtain ⟨⟨code, keys₁, free₁⟩, hop, hrest⟩ := Option.bind_eq_some_iff.mp houtcomes
    obtain ⟨s₁, hstep, h₁⟩ := h.step hop
    obtain ⟨s', hrun, h'⟩ := ih h₁ hrest
    refine ⟨s', ?_, h'⟩
    rw [Bfs.run, hstep]
    exact hrun

theorem fresh_disk_shallow : Shallow fresh_disk [] 5 := by
  obtain ⟨σ, haccounted⟩ := fresh_disk_accounted
  refine ⟨⟨σ, empty_tree, haccounted.toVolume, rfl, rfl, fun key => iff_of_true rfl List.not_mem_nil, ?_⟩,
    haccounted.small⟩
  rw [← haccounted.has.2]
  rfl

theorem disk_with (name : FileName) {data : List UInt8} (hpos : 0 < data.length) (hpage : data.length ≤ 4096) :
    ∃ s, fresh_disk.run [.write_file name (fun i => data.getD i 0) (UInt64.ofNat data.length)] = some s ∧
      s.Reachable ∧ Shallow s [bfs_hash name] 4 ∧ ∀ max_size, UInt64.ofNat data.length ≤ max_size →
        s.bfs_read_file name max_size =
          some { code := 0, out_size := some (UInt64.ofNat data.length), data } := by
  have hlength := toNat_length (show data.length < 2 ^ 32 by omega)
  have hblocks : blocks (UInt64.ofNat data.length).toNat = 1 := by
    rw [hlength]
    change (data.length + 4095) / 4096 = 1
    omega
  have hwrites : ∃ s, fresh_disk.bfs_write_file name (fun i => data.getD i 0) (UInt64.ofNat data.length) =
      some (0, s) ∧ Shallow s [bfs_hash name] (5 - blocks (UInt64.ofNat data.length).toNat) :=
    fresh_disk_shallow.write_file List.not_mem_nil (by decide) (by omega) (by omega) _
  obtain ⟨s, hwrite, hshallow⟩ := hwrites
  rw [hblocks] at hshallow
  have hrun : fresh_disk.run [.write_file name (fun i => data.getD i 0) (UInt64.ofNat data.length)] = some s := by
    rw [Bfs.run, Bfs.step, hwrite]
    rfl
  obtain ⟨σ, haccounted⟩ := fresh_disk_accounted
  refine ⟨s, hrun, ⟨blank_disk, fresh_disk, fun _ => 0, _, rfl, by decide, by decide, fun op hop => ?_, hrun⟩, hshallow,
    write_read_back haccounted (by omega) (fun _ => trivial) hwrite⟩
  rw [List.mem_singleton.mp hop]
  change (UInt64.ofNat data.length).toNat + 4095 < 2 ^ 64
  omega

end Shallow

end graceos.bfs
