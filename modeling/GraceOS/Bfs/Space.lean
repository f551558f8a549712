import GraceOS.Bfs.Device
import GraceOS.Lib.BPlusTree.Pages

namespace graceos.bfs

open bplus

/-- A page number whose byte offset is a word: pages of disks of up to 2 ^ 64
bytes. -/
def Addressable (a : UInt64) : Prop := a.toNat < 2 ^ 52

theorem offset_inj {a b : UInt64} (ha : Addressable a) (hb : Addressable b)
    (h : a * UInt64.ofNat BFS_PAGE_SIZE = b * UInt64.ofNat BFS_PAGE_SIZE) : a = b := by
  have hsize : (UInt64.ofNat BFS_PAGE_SIZE).toNat = 4096 := rfl
  have htoNat := congrArg UInt64.toNat h
  unfold Addressable at ha hb
  rw [UInt64.toNat_mul, UInt64.toNat_mul, hsize, Nat.mod_eq_of_lt (by omega),
    Nat.mod_eq_of_lt (by omega)] at htoNat
  exact UInt64.toNat_inj.mp (by omega)

namespace Bfs

/-- What the code keeps of an instance when it changes a set of pages: all other
pages, and what the mount fixed. -/
structure Touches (touched : Set UInt64) (s s' : Bfs) : Prop where
  frame : ∀ a, Addressable a → a ∉ touched → s'.bfs_raw_read a = s.bfs_raw_read a
  total_pages : s'.root.total_pages = s.root.total_pages
  disk_size : s'.disk_size = s.disk_size
  name_table_enabled : s'.name_table_enabled = s.name_table_enabled

theorem Touches.refl (touched : Set UInt64) (s : Bfs) : Touches touched s s :=
  ⟨fun _ _ _ => rfl, rfl, rfl, rfl⟩

theorem Touches.trans {first second : Set UInt64} {s s' s'' : Bfs} (h : Touches first s s')
    (h' : Touches second s' s'') : Touches (first ∪ second) s s'' := by
  refine ⟨fun a ha hnot => ?_, h'.total_pages.trans h.total_pages, h'.disk_size.trans h.disk_size,
    h'.name_table_enabled.trans h.name_table_enabled⟩
  rw [Set.mem_union, not_or] at hnot
  exact (h'.frame a ha hnot.2).trans (h.frame a ha hnot.1)

theorem Touches.mono {small large : Set UInt64} {s s' : Bfs} (h : Touches small s s')
    (hsub : small ⊆ large) : Touches large s s' :=
  ⟨fun a ha hnot => h.frame a ha fun hin => hnot (hsub hin), h.total_pages, h.disk_size,
    h.name_table_enabled⟩

theorem Touches.node_eq {touched : Set UInt64} {s s' : Bfs} (h : Touches touched s s') {a : UInt64}
    (ha : Addressable a) (hnot : a ∉ touched) : s'.node a = s.node a := by
  rw [node, node, h.frame a ha hnot]

section Write

variable (s : Bfs) (a : UInt64) (b : Block)

theorem raw_write_touches (ha : Addressable a) : Touches {a} s (s.bfs_raw_write a b) := by
  refine ⟨fun c hc hnot => ?_, rfl, rfl, rfl⟩
  have hne : c * UInt64.ofNat BFS_PAGE_SIZE ≠ a * UInt64.ofNat BFS_PAGE_SIZE :=
    fun h => hnot (offset_inj hc ha h)
  simp only [bfs_raw_read, bfs_raw_write, bfs_device_read, bfs_device_write, Function.update_of_ne hne]

theorem raw_read_write : (s.bfs_raw_write a b).bfs_raw_read a = b := by
  simp only [bfs_raw_read, bfs_raw_write, bfs_device_read, bfs_device_write, Function.update_self]

theorem node_write (p : Page) : (s.bfs_raw_write a p.encode).node a = p := by
  rw [node, raw_read_write, Page.decode_encode]

theorem flush_root_touches : Touches {0} s s.bfs_flush_root := by
  have hzero : (0 : UInt64) * UInt64.ofNat BFS_PAGE_SIZE = 0 := UInt64.zero_mul
  have h := s.raw_write_touches 0 s.root.encode (by decide : (0 : UInt64).toNat < 2 ^ 52)
  rwa [bfs_raw_write, hzero] at h

end Write

end Bfs

/-- The two counters of the super-block that stand for the free pages. Their sum
never leaves the disk, so neither wraps around. -/
@[ext]
structure Space where
  next : UInt64
  free : UInt64
  positive : 0 < next.toNat
  bound : next.toNat + free.toNat ≤ 2 ^ 52

namespace Space

/-- Taking one page. -/
def take (σ : Space) : Option (UInt64 × Space) :=
  if h : σ.free = 0 then none
  else some (σ.next,
    { next := σ.next + 1
      free := σ.free - 1
      positive := by
        have hbound := σ.bound
        rw [word.toNat_succ (by omega)]
        omega
      bound := by
        have hbound := σ.bound
        have hfree : σ.free.toNat ≠ 0 := fun hzero => h (UInt64.toNat_inj.mp hzero)
        rw [word.toNat_succ (by omega), word.toNat_pred h]
        omega })

/-- The pages that have not been handed out yet. -/
def region (σ : Space) : Set UInt64 :=
  { a | σ.next.toNat ≤ a.toNat ∧ a.toNat < σ.next.toNat + σ.free.toNat }

def budget (σ : Space) : Nat := σ.free.toNat

theorem take_some {σ σ' : Space} {fresh : UInt64} (h : σ.take = some (fresh, σ')) :
    fresh = σ.next ∧ σ.free ≠ 0 ∧ σ'.next = σ.next + 1 ∧ σ'.free = σ.free - 1 ∧
      σ'.next.toNat = σ.next.toNat + 1 ∧ σ.free.toNat = σ'.free.toNat + 1 := by
  unfold take at h
  split at h
  · cases h
  · rename_i hfree
    cases h
    have hbound := σ.bound
    have hne : σ.free.toNat ≠ 0 := fun hzero => hfree (UInt64.toNat_inj.mp hzero)
    refine ⟨rfl, hfree, rfl, rfl, word.toNat_succ (by omega), ?_⟩
    change σ.free.toNat = (σ.free - 1).toNat + 1
    rw [word.toNat_pred hfree]
    omega

theorem supply : Supply take region budget where
  mem_free := by
    intro σ σ' fresh h
    obtain ⟨rfl, _, _, _, _, hfree⟩ := take_some h
    exact ⟨le_refl _, by omega⟩
  free_rest := by
    intro σ σ' fresh h
    obtain ⟨rfl, _, _, _, hnext, hfree⟩ := take_some h
    ext a
    simp only [region, Set.mem_ofPred_eq, Set.mem_sdiff, Set.mem_singleton_iff, ← UInt64.toNat_inj]
    omega
  dry_iff := by
    intro σ
    unfold take budget
    split
    · rename_i h
      simp [h]
    · rename_i h
      simp only [reduceCtorEq, false_iff]
      exact fun hzero => h (UInt64.toNat_inj.mp hzero)
  spent := by
    intro σ σ' fresh h
    exact (take_some h).2.2.2.2.2

theorem addressable_of_mem {σ : Space} {a : UInt64} (h : a ∈ σ.region) : Addressable a := by
  have hbound := σ.bound
  have hlt := h.2
  unfold Addressable
  omega

theorem ne_zero_of_mem {σ : Space} {a : UInt64} (h : a ∈ σ.region) : a ≠ 0 := by
  rintro rfl
  have hle : σ.next.toNat ≤ 0 := h.1
  have hpositive := σ.positive
  omega

/-- The page numbers handed out on the way from one space to a later one. -/
def taken (σ σ' : Space) : List UInt64 :=
  (List.range' σ.next.toNat (σ'.next.toNat - σ.next.toNat)).map UInt64.ofNat

/-- A later state of the same space. -/
structure Until (σ σ' : Space) : Prop where
  next_le : σ.next.toNat ≤ σ'.next.toNat
  total : σ'.next.toNat + σ'.free.toNat = σ.next.toNat + σ.free.toNat

theorem Until.refl (σ : Space) : Until σ σ := ⟨le_refl _, rfl⟩

theorem Until.trans {σ σ' σ'' : Space} (h : Until σ σ') (h' : Until σ' σ'') : Until σ σ'' :=
  ⟨h.next_le.trans h'.next_le, h'.total.trans h.total⟩

theorem Until.region_subset {σ σ' : Space} (h : Until σ σ') : σ'.region ⊆ σ.region := by
  intro a ha
  have hnext := h.next_le
  have htotal := h.total
  exact ⟨hnext.trans ha.1, by have := ha.2; omega⟩

@[simp] theorem taken_self (σ : Space) : taken σ σ = [] := by
  simp [taken]

theorem taken_trans {σ σ' σ'' : Space} (h : Until σ σ') (h' : Until σ' σ'') :
    taken σ σ' ++ taken σ' σ'' = taken σ σ'' := by
  have hfirst := h.next_le
  have hsecond := h'.next_le
  have hstart : σ.next.toNat + (σ'.next.toNat - σ.next.toNat) = σ'.next.toNat := by omega
  have hlength : σ''.next.toNat - σ.next.toNat =
      σ'.next.toNat - σ.next.toNat + (σ''.next.toNat - σ'.next.toNat) := by omega
  rw [taken, taken, taken, ← List.map_append, hlength, ← List.range'_append_1, hstart]

end Space

namespace Bfs

/-- The super-block counts the free pages of `σ`. -/
def Has (s : Bfs) (σ : Space) : Prop :=
  s.root.next_free = σ.next ∧ s.root.free_pages = σ.free

/-- A piece of a run: it touches some pages, and all page numbers handed out on
the way are recorded. -/
structure Moves (touched : Set UInt64) (s s' : Bfs) (σ σ' : Space) : Prop where
  touches : Touches touched s s'
  has : s'.Has σ'
  later : Space.Until σ σ'
  handed_out : s'.handed_out = s.handed_out ++ σ.taken σ'

theorem Moves.trans {first second : Set UInt64} {s s' s'' : Bfs} {σ σ' σ'' : Space}
    (h : Moves first s s' σ σ') (h' : Moves second s' s'' σ' σ'') :
    Moves (first ∪ second) s s'' σ σ'' := by
  refine ⟨h.touches.trans h'.touches, h'.has, h.later.trans h'.later, ?_⟩
  rw [h'.handed_out, h.handed_out, List.append_assoc, Space.taken_trans h.later h'.later]

theorem Moves.mono {small large : Set UInt64} {s s' : Bfs} {σ σ' : Space}
    (h : Moves small s s' σ σ') (hsub : small ⊆ large) : Moves large s s' σ σ' :=
  ⟨h.touches.mono hsub, h.has, h.later, h.handed_out⟩

theorem Moves.of_touches {touched : Set UInt64} {s s' : Bfs} {σ : Space} (h : Touches touched s s')
    (hhas : s.Has σ) (hnext : s'.root.next_free = s.root.next_free)
    (hfree : s'.root.free_pages = s.root.free_pages) (hlog : s'.handed_out = s.handed_out) :
    Moves touched s s' σ σ :=
  ⟨h, ⟨hnext.trans hhas.1, hfree.trans hhas.2⟩, Space.Until.refl σ, by simp [hlog]⟩

theorem Moves.refl {s : Bfs} {σ : Space} (hhas : s.Has σ) : Moves ∅ s s σ σ :=
  .of_touches (.refl _ _) hhas rfl rfl rfl

theorem raw_write_moves {s : Bfs} {σ : Space} {a : UInt64} (hhas : s.Has σ) (ha : Addressable a)
    (b : Block) : Moves {a} s (s.bfs_raw_write a b) σ σ :=
  .of_touches (s.raw_write_touches a b ha) hhas rfl rfl rfl

theorem alloc_page_none {s : Bfs} {σ : Space} (hhas : s.Has σ) (h : σ.take = none) :
    s.bfs_alloc_page = (0, s) := by
  have hdry := Space.supply.dry_iff.mp h
  have hzero : s.root.free_pages = 0 := by
    rw [hhas.2]
    exact UInt64.toNat_inj.mp hdry
  rw [bfs_alloc_page, if_pos hzero]

/-- The allocator takes the next page of the space and writes only that page and
the super-block. -/
theorem alloc_page_some {s : Bfs} {σ σ' : Space} {fresh : UInt64} (hhas : s.Has σ)
    (h : σ.take = some (fresh, σ')) :
    ∃ s', s.bfs_alloc_page = (fresh, s') ∧ Moves {0, fresh} s s' σ σ' ∧
      s'.root.root_page = s.root.root_page := by
  obtain ⟨rfl, hfree, hnext, hrest, hnextNat, hfreeNat⟩ := Space.take_some h
  have hmem := Space.supply.mem_free h
  rw [bfs_alloc_page, if_neg (by rw [hhas.2]; exact hfree), hhas.1]
  refine ⟨_, rfl, ⟨?_, ⟨hnext.symm, ?_⟩, ⟨by omega, by omega⟩, ?_⟩, rfl⟩
  · let counted : Bfs :=
      { s with root := { s.root with next_free := σ.next + 1, free_pages := s.root.free_pages - 1 } }
    have hcounted : Touches ∅ s counted := ⟨fun _ _ _ => rfl, rfl, rfl, rfl⟩
    have hflush := hcounted.trans counted.flush_root_touches
    have hwrite := hflush.trans (counted.bfs_flush_root.raw_write_touches σ.next fresh_page
      (Space.addressable_of_mem hmem))
    have hall : Touches {0, σ.next} s _ := hwrite.mono (by simp [Set.insert_subset_iff])
    exact ⟨hall.frame, hall.total_pages, hall.disk_size, hall.name_table_enabled⟩
  · change s.root.free_pages - 1 = σ'.free
    rw [hrest, hhas.2]
  · have htaken : σ.taken σ' = [σ.next] := by
      have hone : σ'.next.toNat - σ.next.toNat = 1 := by omega
      simp [Space.taken, hone]
    rw [htaken]
    rfl

end Bfs

end graceos.bfs
