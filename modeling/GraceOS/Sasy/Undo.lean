import GraceOS.Sasy.Watch

/-!
# Creation that fails

`sasy_create_ex` takes a slot, a range of addresses, memory and a handle, in this order. Where it gives up, the slot
is given back; the range of addresses is not, and with it goes the memory of a segment that was mapped already.
-/

namespace graceos.sasy

open mm machine

/-- Free frames, translations, live segments and the room for later ones are the same. -/
structure Untraced (s s' : Sasy) : Prop where
  frames : s'.backing.frames = s.backing.frames
  page : s'.backing.map.page = s.backing.map.page
  live : ∀ i, (s'.segment i).id = (s.segment i).id
  segments : ∀ i, (s.segment i).id ≠ 0 → s'.segment i = s.segment i
  base : s'.table.next_segment_base = s.table.next_segment_base

theorem Untraced.refl (s : Sasy) : Untraced s s := ⟨rfl, rfl, fun _ => rfl, fun _ _ => rfl, rfl⟩

variable {s : Sasy} {i size pid : Nat} {type : SegType} {flags : BitVec 32}

/-- The state in which a new segment is placed. -/
def Sasy.placed (s : Sasy) (i size : Nat) (type : SegType) (flags : BitVec 32) : Sasy :=
  ⟨s.table.new_segment i size type flags, (s.backing.set_present i false).set_swap_id i 0⟩

/-- Nothing is in the way of a new segment: its addresses, its memory if it is mapped at once, and its handle. -/
def Sasy.Placeable (s : Sasy) (i size : Nat) (type : SegType) (flags : BitVec 32) : Prop :=
  (s.table.next_segment_base + align_up size PAGE_SIZE) % 2 ^ 64 < SASY_BASE_ADDR + SASY_MAX_SIZE ∧
    (type = .fixed ∨ type = .physical →
      ((s.placed i size type flags).backing.sasy_map_now ((s.placed i size type flags).segment i) i).1 = true) ∧
    s.table.free_handle ≠ none

/-- The size is 0 or rounded up to 0, there is no slot, or nothing is in the way. -/
def Sasy.Clean (s : Sasy) (size : Nat) (type : SegType) (flags : BitVec 32) : Prop :=
  size = 0 ∨ align_up size PAGE_SIZE = 0 ∨ ∀ i, s.table.free_slot = some i → s.Placeable i size type flags

theorem create_eq (hsize : size ≠ 0) (hslot : s.table.free_slot = some i) :
    s.sasy_create_ex size type flags pid =
      match (s.placed i size type flags).sasy_place i with
      | (false, s₁) => (INVALID_HANDLE, s₁.free_segment i)
      | (true, s₁) =>
        let (h, t) := s₁.table.handle_alloc i pid
        if h = INVALID_HANDLE then (INVALID_HANDLE, s₁.free_segment i) else (h, { s₁ with table := t }) := by
  rw [Sasy.sasy_create_ex, if_neg hsize, hslot]
  rfl

theorem place_ok_iff : ((s.placed i size type flags).sasy_place i).1 = true ↔
    (s.table.next_segment_base + align_up size PAGE_SIZE) % 2 ^ 64 < SASY_BASE_ADDR + SASY_MAX_SIZE ∧
      (type = .fixed ∨ type = .physical →
        ((s.placed i size type flags).backing.sasy_map_now ((s.placed i size type flags).segment i) i).1 = true) := by
  have hbase : (s.placed i size type flags).table.next_segment_base =
      (s.table.next_segment_base + align_up size PAGE_SIZE) % 2 ^ 64 := rfl
  have htype : ((s.placed i size type flags).segment i).type = type := by
    simp [Sasy.placed, Sasy.segment, Table.new_segment, Table.set_segment]
  rw [Sasy.sasy_place]
  dsimp only
  rw [hbase, htype]
  split
  · next hfull => exact ⟨fun h => (by cases h), fun h => absurd h.1 (by omega)⟩
  next hroom =>
  split
  · next hnow => exact ⟨fun h => ⟨by omega, fun _ => h⟩, fun h => h.2 hnow⟩
  · next hlater => exact ⟨fun _ => ⟨by omega, fun h => absurd h hlater⟩, fun _ => rfl⟩

theorem create_fails (hsize : size ≠ 0) (hslot : s.table.free_slot = some i) (hno : ¬s.Placeable i size type flags) :
    s.sasy_create_ex size type flags pid =
      (INVALID_HANDLE, ((s.placed i size type flags).sasy_place i).2.free_segment i) := by
  rw [create_eq hsize hslot]
  have hok := @place_ok_iff s i size type flags
  have htable := (place_table (s.placed i size type flags) i).1
  generalize (s.placed i size type flags).sasy_place i = r at hok htable
  obtain ⟨ok, s₁⟩ := r
  cases ok with
  | false => rfl
  | true =>
    obtain ⟨hroom, hmap⟩ := hok.mp rfl
    have hnone : s₁.table.free_handle = none := by
      dsimp only at htable
      rw [htable]
      by_contra hsome
      exact hno ⟨hroom, hmap, hsome⟩
    dsimp only
    rw [Table.handle_alloc, hnone]
    dsimp only
    rw [if_pos rfl]

theorem create_succeeds (hsize : size ≠ 0) (hslot : s.table.free_slot = some i)
    (hyes : s.Placeable i size type flags) : (s.sasy_create_ex size type flags pid).1 ≠ INVALID_HANDLE := by
  rw [create_eq hsize hslot]
  have hok := (@place_ok_iff s i size type flags).mpr ⟨hyes.1, hyes.2.1⟩
  have htable := (place_table (s.placed i size type flags) i).1
  generalize (s.placed i size type flags).sasy_place i = r at hok htable
  obtain ⟨ok, s₁⟩ := r
  dsimp only at hok htable
  subst hok
  dsimp only
  have hfree : s₁.table.free_handle = s.table.free_handle := by rw [htable]; rfl
  obtain ⟨h, hh⟩ := Option.ne_none_iff_exists'.mp hyes.2.2
  have hlt := (Table.free_handle_some hh).1
  have hne : h ≠ INVALID_HANDLE := by
    have := Table.max_handles_lt
    omega
  rw [Table.handle_alloc, hfree, hh]
  dsimp only
  rw [if_neg hne]
  exact hne

theorem map_now_empty (b : Backing) {g : Segment} (hg : g.size = 0) :
    (b.sasy_map_now g i).2.frames = b.frames ∧ (b.sasy_map_now g i).2.map.page = b.map.page := by
  have hpages : g.pages = 0 := by
    rw [Segment.pages, hg]
    rfl
  rw [Backing.sasy_map_now_eq, hpages]
  simp only [Backing.alloc_pages, Backing.map_pages]
  split
  · rw [Backing.zero_fill, hpages]
    exact ⟨rfl, rfl⟩
  · exact ⟨rfl, rfl⟩

theorem place_empty (hempty : align_up size PAGE_SIZE = 0) :
    ((s.placed i size type flags).sasy_place i).2.backing.frames = s.backing.frames ∧
      ((s.placed i size type flags).sasy_place i).2.backing.map.page = s.backing.map.page := by
  rw [Sasy.sasy_place]
  dsimp only
  split
  · exact ⟨rfl, rfl⟩
  split
  · have hsize : ((s.placed i size type flags).segment i).size = 0 := by
      simpa [Sasy.placed, Sasy.segment, Table.new_segment, Table.set_segment] using hempty
    exact map_now_empty _ hsize
  · exact ⟨rfl, rfl⟩

theorem fails_table : (((s.placed i size type flags).sasy_place i).2.free_segment i).table =
    s.table.burn i size type flags := by
  rw [Sasy.free_segment, (place_table _ _).1]
  rfl

theorem create_fails_empty (hslot : s.table.free_slot = some i) (hbase : s.table.next_segment_base < 2 ^ 64)
    (hempty : align_up size PAGE_SIZE = 0) :
    Untraced s (((s.placed i size type flags).sasy_place i).2.free_segment i) := by
  obtain ⟨hframes, hpage⟩ := @place_empty s i size type flags hempty
  have hfree := (Table.free_slot_some hslot).2
  have hsegments : ∀ j, j ≠ i →
      (((s.placed i size type flags).sasy_place i).2.free_segment i).segment j = s.segment j := by
    intro j hj
    rw [Sasy.segment, fails_table]
    simp [Table.burn, Table.free_segment, Table.new_segment, Table.set_segment, hj, Sasy.segment]
  refine ⟨hframes, hpage, fun j => ?_, fun j hj => ?_, ?_⟩
  · by_cases hj : j = i
    · subst hj
      rw [Sasy.segment, fails_table, Sasy.segment, hfree]
      simp [Table.burn, Table.free_segment, Table.set_segment, Segment.clear]
    · rw [hsegments j hj]
  · refine hsegments j fun heq => hj ?_
    rw [heq]
    exact hfree
  · rw [fails_table]
    have hnext : (s.table.burn i size type flags).next_segment_base =
        (s.table.next_segment_base + align_up size PAGE_SIZE) % 2 ^ 64 := rfl
    rw [hnext, hempty, Nat.add_zero, Nat.mod_eq_of_lt hbase]

theorem align_up_lt (x : Nat) : align_up x PAGE_SIZE < 2 ^ 64 := by
  rw [align_up]
  have hmod : (x + PAGE_SIZE - 1) % 2 ^ 64 < 2 ^ 64 := Nat.mod_lt _ (by decide)
  exact Nat.lt_of_le_of_lt (Nat.div_mul_le_self _ _) hmod

/-- About one state whose next address is a word. -/
theorem create_untraced_iff_clean (hbase : s.table.next_segment_base < 2 ^ 64) :
    ((s.sasy_create_ex size type flags pid).1 = INVALID_HANDLE →
      Untraced s (s.sasy_create_ex size type flags pid).2) ↔ s.Clean size type flags := by
  by_cases hsize : size = 0
  · refine iff_of_true (fun _ => ?_) (.inl hsize)
    rw [Sasy.sasy_create_ex, if_pos hsize]
    exact .refl s
  cases hslot : s.table.free_slot with
  | none =>
    refine iff_of_true (fun _ => ?_) (.inr (.inr fun i hi => ?_))
    · rw [Sasy.sasy_create_ex, if_neg hsize, hslot]
      exact .refl s
    · rw [hslot] at hi
      cases hi
  | some i =>
    by_cases hyes : s.Placeable i size type flags
    · refine iff_of_true (fun hfail => absurd hfail (create_succeeds hsize hslot hyes)) (.inr (.inr fun j hj => ?_))
      rw [hslot] at hj
      cases hj
      exact hyes
    · rw [create_fails hsize hslot hyes]
      constructor
      · intro h
        have hsame := (h rfl).base
        rw [fails_table] at hsame
        have hnext : (s.table.burn i size type flags).next_segment_base =
            (s.table.next_segment_base + align_up size PAGE_SIZE) % 2 ^ 64 := rfl
        have hlt := align_up_lt size
        refine .inr (.inl ?_)
        rw [hnext] at hsame
        omega
      · rintro (hzero | hempty | hclean) -
        · exact absurd hzero hsize
        · exact create_fails_empty hslot hbase hempty
        · exact absurd (hclean i hslot) hyes

/-- In every state that calls reach, a creation that fails leaves no trace exactly where it fails for its size or for
want of a slot, and not behind that. -/
theorem create_untraced_iff (b : Backing) (calls : List Call) (size : Nat) (type : SegType) (flags : BitVec 32)
    (pid : Nat) :
    (((run Sasy.step (.init b) calls).sasy_create_ex size type flags pid).1 = INVALID_HANDLE →
      Untraced (run Sasy.step (.init b) calls) ((run Sasy.step (.init b) calls).sasy_create_ex size type flags pid).2) ↔
      (run Sasy.step (.init b) calls).Clean size type flags :=
  create_untraced_iff_clean (Table.Paged.run b calls).word

/-- A segment as large as the whole space is refused, and takes the space with it. -/
theorem create_traced : ¬∀ (b : Backing) (calls : List Call) (size : Nat) (type : SegType)
    (flags : BitVec 32) (pid : Nat),
    size < 2 ^ 64 → ((run Sasy.step (.init b) calls).sasy_create_ex size type flags pid).1 = INVALID_HANDLE →
      Untraced (run Sasy.step (.init b) calls)
        ((run Sasy.step (.init b) calls).sasy_create_ex size type flags pid).2 := by
  intro h
  have hword : (Sasy.init .blank).table.next_segment_base < 2 ^ 64 := (Table.Paged.run .blank []).word
  have hslot : (Sasy.init .blank).table.free_slot = some 0 := by decide +kernel
  have hfull : ¬(SASY_BASE_ADDR + align_up SASY_MAX_SIZE PAGE_SIZE) % 2 ^ 64 < SASY_BASE_ADDR + SASY_MAX_SIZE := by
    decide
  rcases (create_untraced_iff_clean hword).mp (h .blank [] SASY_MAX_SIZE .data_auto 0 0 (by decide)) with
    hzero | hempty | hclean
  · exact absurd hzero (by decide)
  · exact absurd hempty (by decide)
  · exact hfull (hclean 0 hslot).1

end graceos.sasy
