import GraceOS.Bfs.Files
import GraceOS.Bfs.Space

namespace graceos.bfs

/-- The pages of `count` blocks from page `first` on. -/
def stretch (first count : Nat) : Set UInt64 :=
  { b | first ≤ b.toNat ∧ b.toNat < first + count }

/-- The blocks that hold `size` bytes. -/
def blocks (size : Nat) : Nat := (size + (BFS_PAGE_SIZE - 1)) / BFS_PAGE_SIZE

/-- The pages of a file with the given value in the tree. -/
def extent (value : UInt64) : Set UInt64 :=
  stretch (start_block value).toNat (blocks (size_bytes value).toNat)

section Pack

theorem toNat_size_bytes (value : UInt64) : (size_bytes value).toNat = value.toNat % 2 ^ 32 := by
  rw [size_bytes, UInt64.toNat_and]
  exact Nat.and_two_pow_sub_one_eq_mod _ 32

theorem toNat_start_block (value : UInt64) : (start_block value).toNat = value.toNat / 2 ^ 32 := by
  have hlt := value.toNat_lt
  rw [start_block, UInt64.toNat_and, UInt64.toNat_shiftRight]
  refine (Nat.and_two_pow_sub_one_eq_mod _ 32).trans ?_
  rw [Nat.shiftRight_eq_div_pow]
  change value.toNat / 2 ^ 32 % 2 ^ 32 = _
  omega

theorem toNat_pack {start size : UInt64} (hstart : start.toNat < 2 ^ 32) :
    (pack start size).toNat = start.toNat * 2 ^ 32 + size.toNat % 2 ^ 32 := by
  have hlow : (size &&& 0xFFFFFFFF).toNat = size.toNat % 2 ^ 32 := by
    rw [UInt64.toNat_and]
    exact Nat.and_two_pow_sub_one_eq_mod _ 32
  have hhigh : (start <<< 32).toNat = start.toNat <<< 32 := by
    rw [UInt64.toNat_shiftLeft]
    change start.toNat <<< 32 % 2 ^ 64 = _
    rw [Nat.shiftLeft_eq, Nat.mod_eq_of_lt (by omega)]
  rw [pack, UInt64.toNat_or, hlow, hhigh, ← Nat.shiftLeft_add_eq_or_of_lt (Nat.mod_lt _ (by decide)),
    Nat.shiftLeft_eq]

theorem start_block_pack {start size : UInt64} (hstart : start.toNat < 2 ^ 32) :
    start_block (pack start size) = start := by
  rw [← UInt64.toNat_inj, toNat_start_block, toNat_pack hstart]
  omega

theorem size_bytes_pack {start size : UInt64} (hstart : start.toNat < 2 ^ 32) :
    (size_bytes (pack start size)).toNat = size.toNat % 2 ^ 32 := by
  rw [toNat_size_bytes, toNat_pack hstart]
  omega

theorem start_block_lt (value : UInt64) : (start_block value).toNat < 2 ^ 32 := by
  have hlt := value.toNat_lt
  rw [toNat_start_block]
  omega

theorem size_bytes_lt (value : UInt64) : (size_bytes value).toNat < 2 ^ 32 := by
  rw [toNat_size_bytes]
  exact Nat.mod_lt _ (by decide)

end Pack

section Blocks

theorem blocks_mono {small large : Nat} (h : small ≤ large) : blocks small ≤ blocks large :=
  Nat.div_le_div_right (by omega)

theorem toNat_blocks_needed {size : UInt64} (hsize : size.toNat + 4095 < 2 ^ 64) :
    (Bfs.blocks_needed size).toNat = blocks size.toNat := by
  have hround : (size + UInt64.ofNat BFS_PAGE_SIZE - 1).toNat = size.toNat + 4095 := by
    rw [UInt64.toNat_sub, UInt64.toNat_add]
    change (2 ^ 64 - 1 + (size.toNat + 4096) % 2 ^ 64) % 2 ^ 64 = _
    omega
  rw [Bfs.blocks_needed, UInt64.toNat_div, hround]
  rfl

theorem stretch_mono {first small large : Nat} (h : small ≤ large) : stretch first small ⊆ stretch first large :=
  fun _ hb => ⟨hb.1, by have := hb.2; omega⟩

theorem blocks_succ {size : Nat} (hsize : size ≠ 0) :
    blocks size = blocks (size - min size BFS_PAGE_SIZE) + 1 := by
  simp only [blocks, BFS_PAGE_SIZE]
  omega

end Blocks

namespace Bfs

variable {s : Bfs} {σ : Space}

section Reserve

theorem write_all_touches {pages : List UInt64} (haddr : ∀ a ∈ pages, Addressable a) (s : Bfs) (b : Block) :
    Touches { a | a ∈ pages } s (pages.foldl (fun s a => s.bfs_write_page a b) s) ∧
      (pages.foldl (fun s a => s.bfs_write_page a b) s).root = s.root ∧
      (pages.foldl (fun s a => s.bfs_write_page a b) s).handed_out = s.handed_out := by
  induction pages generalizing s with
  | nil => exact ⟨.refl _ _, rfl, rfl⟩
  | cons head pages ih =>
    have hwrite : Touches {head} s (s.bfs_write_page head b) :=
      s.raw_write_touches head b (haddr head List.mem_cons_self)
    obtain ⟨htouches, hroot, hlog⟩ :=
      ih (fun a ha => haddr a (List.mem_cons_of_mem _ ha)) (s.bfs_write_page head b)
    refine ⟨(hwrite.trans htouches).mono ?_, hroot, hlog⟩
    rintro a (rfl | ha)
    · exact List.mem_cons_self
    · exact List.mem_cons_of_mem _ ha

/-- The allocator of several pages takes the next pages of the space and writes
only those and the super-block. -/
theorem alloc_pages_some (hhas : s.Has σ) {pages : UInt64} (hpages : pages ≠ 0) (hfree : pages ≤ σ.free) :
    ∃ s' σ', s.bfs_alloc_pages pages = (σ.next, s') ∧ σ'.next.toNat = σ.next.toNat + pages.toNat ∧
      Moves ({0} ∪ stretch σ.next.toNat pages.toNat) s s' σ σ' ∧ s'.root.root_page = s.root.root_page := by
  have hbound := σ.bound
  have hle : pages.toNat ≤ σ.free.toNat := UInt64.le_iff_toNat_le.mp hfree
  have hnext : (σ.next + pages).toNat = σ.next.toNat + pages.toNat := by
    rw [UInt64.toNat_add, Nat.mod_eq_of_lt (by omega)]
  have hrest : (σ.free - pages).toNat = σ.free.toNat - pages.toNat := UInt64.toNat_sub_of_le _ _ hfree
  have hpositive := σ.positive
  let σ' : Space := ⟨σ.next + pages, σ.free - pages, by omega, by omega⟩
  have hnumber : ∀ i < pages.toNat, (σ.next + UInt64.ofNat i).toNat = σ.next.toNat + i := by
    intro i hi
    have hword : (UInt64.ofNat i).toNat = i := by
      rw [UInt64.toNat_ofNat', Nat.mod_eq_of_lt (by omega)]
    rw [UInt64.toNat_add, hword, Nat.mod_eq_of_lt (by omega)]
  let numbers := (List.range pages.toNat).map fun i => σ.next + UInt64.ofNat i
  have hmem : ∀ a ∈ numbers, a ∈ stretch σ.next.toNat pages.toNat := by
    intro a ha
    obtain ⟨i, hi, rfl⟩ := List.mem_map.mp ha
    have hlt := List.mem_range.mp hi
    have heq := hnumber i hlt
    exact ⟨by omega, by omega⟩
  have haddr : ∀ a ∈ numbers, Addressable a := by
    intro a ha
    have hlt := (hmem a ha).2
    unfold Addressable
    omega
  let counted : Bfs :=
    { s with root := { s.root with next_free := σ.next + pages, free_pages := σ.free - pages } }
  obtain ⟨htouches, hroot, hlog⟩ := write_all_touches haddr counted.bfs_flush_root fresh_page
  have hcounted : Touches {0} s counted.bfs_flush_root := by
    have hflush := counted.flush_root_touches
    exact ⟨hflush.frame, hflush.total_pages, hflush.disk_size, hflush.name_table_enabled⟩
  have hrun : s.bfs_alloc_pages pages = (σ.next,
      { numbers.foldl (fun s a => s.bfs_write_page a fresh_page) counted.bfs_flush_root with
        handed_out := (numbers.foldl (fun s a => s.bfs_write_page a fresh_page)
          counted.bfs_flush_root).handed_out ++ numbers }) := by
    rw [bfs_alloc_pages, hhas.1, hhas.2, if_neg]
    rintro (hzero | hless)
    · exact hpages hzero
    · exact absurd (UInt64.lt_iff_toNat_lt.mp hless) (by omega)
  refine ⟨_, σ', hrun, hnext, ⟨?_, ?_, ⟨?_, ?_⟩, ?_⟩, ?_⟩
  · have hall := (hcounted.trans htouches).mono (Set.union_subset_union_right _ hmem)
    exact ⟨hall.frame, hall.total_pages, hall.disk_size, hall.name_table_enabled⟩
  · exact ⟨congrArg Root.next_free hroot, congrArg Root.free_pages hroot⟩
  · change σ.next.toNat ≤ (σ.next + pages).toNat
    omega
  · change (σ.next + pages).toNat + (σ.free - pages).toNat = _
    omega
  · have htaken : σ.taken σ' = numbers := by
      have hcount : σ'.next.toNat - σ.next.toNat = pages.toNat := by
        change (σ.next + pages).toNat - _ = _
        omega
      rw [Space.taken, hcount, List.range'_eq_map_range, List.map_map]
      refine List.map_congr_left fun i hi => ?_
      rw [← UInt64.toNat_inj, hnumber i (List.mem_range.mp hi), Function.comp_apply, UInt64.toNat_ofNat',
        Nat.mod_eq_of_lt]
      have hlt := List.mem_range.mp hi
      omega
    rw [htaken]
    exact congrArg (· ++ numbers) hlog
  · have hpage := congrArg Root.root_page hroot
    exact hpage

/-- Getting the blocks of a file: without enough free pages nothing happens, else
the file owns a stretch of pages that were free. -/
theorem reserve_cases (hhas : s.Has σ) {size : UInt64} (hsize : size.toNat + 4095 < 2 ^ 64) :
    (s.reserve size = (none, s) ∧ σ.free.toNat < blocks size.toNat) ∨
      ∃ start s' σ', s.reserve size = (some start, s') ∧
        Moves ({0} ∪ stretch σ.next.toNat (blocks size.toNat)) s s' σ σ' ∧
        s'.root.root_page = s.root.root_page ∧ start.toNat ≤ σ.next.toNat ∧
        (blocks size.toNat = 0 ∨ start = σ.next ∧ σ'.next.toNat = σ.next.toNat + blocks size.toNat) := by
  have hneeded := toNat_blocks_needed hsize
  unfold reserve
  rw [hhas.2]
  by_cases hfull : σ.free < blocks_needed size
  · refine .inl ⟨if_pos hfull, ?_⟩
    rw [← hneeded]
    exact UInt64.lt_iff_toNat_lt.mp hfull
  · rw [if_neg hfull]
    refine .inr ?_
    by_cases hzero : blocks_needed size = 0
    · rw [if_pos hzero]
      refine ⟨0, s, σ, rfl, (Moves.refl hhas).mono (Set.empty_subset _), rfl, Nat.zero_le _, .inl ?_⟩
      rw [← hneeded, hzero]
      rfl
    · rw [if_neg hzero]
      obtain ⟨s', σ', hrun, hnext, hmoves, hroot⟩ := alloc_pages_some hhas hzero (UInt64.not_lt.mp hfull)
      have hne : σ.next ≠ 0 := by
        intro h
        have hpositive := σ.positive
        rw [h] at hpositive
        exact absurd hpositive (by decide)
      rw [hrun]
      refine ⟨σ.next, s', σ', if_neg hne, ?_, hroot, le_refl _, .inr ⟨rfl, ?_⟩⟩
      · rwa [hneeded] at hmoves
      · rw [hnext, hneeded]

end Reserve

section Records

theorem set_file_count_moves (hhas : s.Has σ) (file_count : UInt64) :
    Moves {0} s (s.set_file_count file_count) σ σ := by
  have hflush := flush_root_touches { s with root := { s.root with file_count := file_count } }
  exact .of_touches ⟨hflush.frame, hflush.total_pages, hflush.disk_size, hflush.name_table_enabled⟩ hhas rfl rfl rfl

theorem flush_root_moves (hhas : s.Has σ) : Moves {0} s s.bfs_flush_root σ σ :=
  .of_touches s.flush_root_touches hhas rfl rfl rfl

theorem name_table_write_moves (hhas : s.Has σ) (table : NameTable) :
    Moves {BFS_NAME_TABLE_PAGE} s (s.bfs_name_table_write table) σ σ ∧
      (s.bfs_name_table_write table).root = s.root := by
  unfold bfs_name_table_write
  split
  · exact ⟨raw_write_moves hhas (by decide : (2 : UInt64).toNat < 2 ^ 52) _, rfl⟩
  · exact ⟨(Moves.refl hhas).mono (Set.empty_subset _), rfl⟩

theorem name_table_upsert_moves (hhas : s.Has σ) (hash : UInt64) (name : FileName) (start_block size : UInt64) :
    Moves {BFS_NAME_TABLE_PAGE} s (s.bfs_name_table_upsert hash name start_block size) σ σ ∧
      (s.bfs_name_table_upsert hash name start_block size).root = s.root := by
  have hnone : Moves {BFS_NAME_TABLE_PAGE} s s σ σ := (Moves.refl hhas).mono (Set.empty_subset _)
  unfold bfs_name_table_upsert
  split
  · exact ⟨hnone, rfl⟩
  · split
    · exact ⟨hnone, rfl⟩
    · exact name_table_write_moves hhas _

theorem name_table_remove_moves (hhas : s.Has σ) (hash : UInt64) :
    Moves {BFS_NAME_TABLE_PAGE} s (s.bfs_name_table_remove hash) σ σ ∧
      (s.bfs_name_table_remove hash).root = s.root := by
  have hnone : Moves {BFS_NAME_TABLE_PAGE} s s σ σ := (Moves.refl hhas).mono (Set.empty_subset _)
  unfold bfs_name_table_remove
  split
  · exact ⟨hnone, rfl⟩
  · split <;> exact name_table_write_moves hhas _

end Records

section Contents

theorem write_pages_moves (hhas : s.Has σ) (buffer : Nat → UInt8) (page_num : UInt64) (size : Nat)
    (hend : page_num.toNat + blocks size ≤ 2 ^ 52) :
    Moves (stretch page_num.toNat (blocks size)) s (s.write_pages buffer page_num size) σ σ ∧
      (s.write_pages buffer page_num size).root = s.root := by
  induction size using Nat.strong_induction_on generalizing s buffer page_num with
  | _ size ih =>
    rw [write_pages]
    by_cases hzero : size = 0
    · rw [if_pos hzero]
      exact ⟨(Moves.refl hhas).mono (Set.empty_subset _), rfl⟩
    · rw [if_neg hzero]
      have hblocks := blocks_succ hzero
      have hnext : (page_num + 1).toNat = page_num.toNat + 1 := word.toNat_succ (by omega)
      have hwrite := raw_write_moves hhas (show page_num.toNat < 2 ^ 52 by omega)
        (Block.of_buffer buffer (min size BFS_PAGE_SIZE))
      obtain ⟨hmoves, hroot⟩ := ih (size - min size BFS_PAGE_SIZE) (by simp only [BFS_PAGE_SIZE]; omega) hwrite.has
        (fun i => buffer (min size BFS_PAGE_SIZE + i)) (page_num + 1) (by omega)
      refine ⟨(hwrite.trans hmoves).mono ?_, hroot⟩
      rintro b (rfl | hb)
      · exact ⟨le_refl _, by omega⟩
      · exact ⟨by have := hb.1; omega, by have := hb.2; omega⟩

theorem Block.take_of_buffer (buffer : Nat → UInt8) {n : Nat} (hn : n ≤ BFS_PAGE_SIZE) :
    (Block.of_buffer buffer n).take n = (List.range n).map buffer := by
  refine List.map_congr_left fun i hi => ?_
  have hlt := List.mem_range.mp hi
  rw [Block.byte, dif_pos (by omega)]
  exact if_pos hlt

/-- What the writing loop has stored is what the reading loop delivers. -/
theorem read_pages_write_pages (hhas : s.Has σ) (buffer : Nat → UInt8) (page_num : UInt64) (size : Nat)
    (hend : page_num.toNat + blocks size ≤ 2 ^ 52) (hdisk : page_num.toNat + blocks size ≤ s.root.total_pages.toNat) :
    (s.write_pages buffer page_num size).read_pages page_num size = (0, (List.range size).map buffer) := by
  induction size using Nat.strong_induction_on generalizing s buffer page_num with
  | _ size ih =>
    rw [write_pages, read_pages]
    by_cases hzero : size = 0
    · subst hzero
      rfl
    · rw [if_neg hzero, if_neg hzero]
      have hblocks := blocks_succ hzero
      have hnext : (page_num + 1).toNat = page_num.toNat + 1 := word.toNat_succ (by omega)
      have haddr : Addressable page_num := show page_num.toNat < 2 ^ 52 by omega
      let chunk := min size BFS_PAGE_SIZE
      let first := s.bfs_write_page page_num (Block.of_buffer buffer chunk)
      have hhas' : first.Has σ := (raw_write_moves hhas haddr _).has
      have hshift : (page_num + 1).toNat + blocks (size - chunk) = page_num.toNat + blocks size := by
        change (page_num + 1).toNat + blocks (size - min size BFS_PAGE_SIZE) = _
        omega
      have hrest := ih (size - chunk) (by simp only [chunk, BFS_PAGE_SIZE]; omega) hhas'
        (fun i => buffer (chunk + i)) (page_num + 1) (by rw [hshift]; exact hend) (by rw [hshift]; exact hdisk)
      obtain ⟨hmoves, hroot⟩ := write_pages_moves hhas' (fun i => buffer (chunk + i)) (page_num + 1) (size - chunk)
        (by rw [hshift]; exact hend)
      -- The later pages do not overwrite the first one.
      have hread : (first.write_pages (fun i => buffer (chunk + i)) (page_num + 1) (size - chunk)).bfs_read_page
          page_num = some (Block.of_buffer buffer chunk) := by
        rw [bfs_read_page, hroot, if_neg (by rw [UInt64.le_iff_toNat_le]; change ¬s.root.total_pages.toNat ≤ _; omega)]
        have hframe := hmoves.touches.frame page_num haddr fun hin => absurd hin.1 (by omega)
        exact congrArg some (hframe.trans (s.raw_read_write page_num _))
      dsimp only
      rw [hread]
      dsimp only
      rw [hrest, Block.take_of_buffer buffer (Nat.min_le_right _ _)]
      have hsplit : size = chunk + (size - chunk) := by simp only [chunk, BFS_PAGE_SIZE]; omega
      conv_rhs => rw [hsplit, List.range_add, List.map_append, List.map_map]
      rfl

theorem read_pages_congr {s' : Bfs} (page_num : UInt64) (size : Nat) (hend : page_num.toNat + blocks size ≤ 2 ^ 52)
    (htotal : s'.root.total_pages = s.root.total_pages)
    (hsame : ∀ b ∈ stretch page_num.toNat (blocks size), s'.bfs_raw_read b = s.bfs_raw_read b) :
    s'.read_pages page_num size = s.read_pages page_num size := by
  induction size using Nat.strong_induction_on generalizing page_num with
  | _ size ih =>
    rw [read_pages, read_pages]
    by_cases hzero : size = 0
    · rw [if_pos hzero, if_pos hzero]
    · have hblocks := blocks_succ hzero
      have hnext : (page_num + 1).toNat = page_num.toNat + 1 := word.toNat_succ (by omega)
      have hpage : s'.bfs_read_page page_num = s.bfs_read_page page_num := by
        have hraw : s'.bfs_raw_read page_num = s.bfs_raw_read page_num :=
          hsame page_num ⟨le_refl _, by omega⟩
        unfold bfs_raw_read at hraw
        rw [bfs_read_page, bfs_read_page, htotal, hraw]
      have hrest := ih (size - min size BFS_PAGE_SIZE) (by simp only [BFS_PAGE_SIZE]; omega)
        (page_num + 1) (by omega)
        fun b hb => hsame b ⟨by have := hb.1; omega, by have := hb.2; omega⟩
      rw [if_neg hzero, if_neg hzero, hpage]
      dsimp only
      rw [hrest]

end Contents

end Bfs

end graceos.bfs
