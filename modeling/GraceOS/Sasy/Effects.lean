import GraceOS.Sasy.Calls

/-!
# What a call does to the tables

Every call changes the tables in one of a few ways. Paging, eviction and page faults do not change
them at all.
-/

namespace graceos.sasy

open mm machine

/-! ## Searches -/

theorem first_from_some {p : Nat → Bool} {fuel i k : Nat} (h : first_from p fuel i = some k) :
    i ≤ k ∧ k < i + fuel ∧ p k = true ∧ ∀ j, i ≤ j → j < k → p j = false := by
  induction fuel generalizing i with
  | zero => simp [first_from] at h
  | succ fuel ih =>
    rw [first_from] at h
    split at h
    · next hp =>
      obtain rfl : i = k := by simpa using h
      exact ⟨le_refl _, by omega, hp, fun j _ _ => by omega⟩
    · next hp =>
      obtain ⟨hle, hlt, hk, hbefore⟩ := ih h
      refine ⟨by omega, by omega, hk, fun j hj hjk => ?_⟩
      by_cases hij : j = i
      · subst hij
        simpa using hp
      · exact hbefore j (by omega) hjk

theorem first_from_none {p : Nat → Bool} {fuel i : Nat} (h : first_from p fuel i = none) :
    ∀ j, i ≤ j → j < i + fuel → p j = false := by
  induction fuel generalizing i with
  | zero => omega
  | succ fuel ih =>
    rw [first_from] at h
    split at h
    · cases h
    · next hp =>
      intro j hj hlt
      by_cases hij : j = i
      · subst hij
        simpa using hp
      · exact ih h j (by omega) (by omega)

namespace Table

variable {t : Table} {h i : Nat}

theorem free_slot_some (hslot : t.free_slot = some i) : i < MAX_SEGMENTS ∧ (t.segments i).id = 0 := by
  obtain ⟨-, hlt, hp, -⟩ := first_from_some hslot
  exact ⟨by omega, by simpa using hp⟩

theorem free_handle_some (hfree : t.free_handle = some h) :
    h < MAX_HANDLES ∧ (t.handles h).valid = false := by
  obtain ⟨k, hk, rfl⟩ := Option.map_eq_some_iff.mp hfree
  obtain ⟨-, hlt, hp, -⟩ := first_from_some hk
  have hpos : 0 < MAX_HANDLES := by
    unfold MAX_HANDLES
    decide
  exact ⟨Nat.mod_lt _ hpos, by simpa using hp⟩

theorem max_handles_lt : MAX_HANDLES < INVALID_HANDLE := by
  unfold MAX_HANDLES
  decide

theorem handle_get_segment_some (hget : t.handle_get_segment h = some i) :
    h < MAX_HANDLES ∧ (t.handles h).valid = true ∧ (t.handles h).seg = i := by
  rw [handle_get_segment] at hget
  split at hget
  · next hvalid =>
    rw [handle_valid, Bool.and_eq_true, decide_eq_true_eq] at hvalid
    exact ⟨hvalid.1, hvalid.2, by simpa using hget⟩
  · cases hget

theorem handle_get_segment_of (hlt : h < MAX_HANDLES) (hvalid : (t.handles h).valid = true) :
    t.handle_get_segment h = some (t.handles h).seg := by
  simp [handle_get_segment, handle_valid, hlt, hvalid]

theorem handle_get_segment_congr {t' : Table} (hsame : t'.handles = t.handles) (h : Nat) :
    t'.handle_get_segment h = t.handle_get_segment h := by
  unfold handle_get_segment handle_valid
  rw [hsame]

theorem handle_alloc_cases (t : Table) (i pid : Nat) :
    t.handle_alloc i pid = (INVALID_HANDLE, t) ∨ ∃ h, t.free_handle = some h ∧ h ≠ INVALID_HANDLE ∧
      t.handle_alloc i pid = (h, { t with handles := Function.update t.handles h ⟨i, 1, pid, true⟩
                                          next_handle := (h + 1) % MAX_HANDLES }) := by
  rw [handle_alloc]
  cases hfree : t.free_handle with
  | none => exact .inl rfl
  | some h =>
    have hlt := (free_handle_some hfree).1
    exact .inr ⟨h, rfl, by have := max_handles_lt; omega, rfl⟩

theorem handle_dup_eq (hget : t.handle_get_segment h = some i) (pid : Nat) :
    (t.handle_dup h pid).2 = t ∨ (t.handle_dup h pid).2 = ((t.retain i).handle_alloc i pid).2 := by
  rw [handle_dup, hget]
  dsimp only
  rcases handle_alloc_cases t i pid with hnone | ⟨h', hfree, hne, hsome⟩
  · rw [hnone]
    dsimp only
    rw [if_neg (by simp)]
    exact .inl rfl
  · right
    rw [hsome]
    dsimp only
    rw [if_pos hne]
    have hfree' : (t.retain i).free_handle = some h' := hfree
    rw [handle_alloc, hfree']
    rfl

theorem handle_alloc_keeps (t : Table) (i pid : Nat) :
    (t.handle_alloc i pid).2.segments = t.segments ∧
    (t.handle_alloc i pid).2.next_segment_base = t.next_segment_base := by
  rcases handle_alloc_cases t i pid with hnone | ⟨h, -, -, hsome⟩
  · rw [hnone]
    exact ⟨rfl, rfl⟩
  · rw [hsome]
    exact ⟨rfl, rfl⟩

theorem handle_free_keeps (t : Table) (h : Nat) :
    (t.handle_free h).segments = t.segments ∧ (t.handle_free h).next_segment_base = t.next_segment_base := by
  rw [handle_free]
  split <;> exact ⟨rfl, rfl⟩

theorem register_keeps (t : Table) (i : Nat) :
    (t.loader_register_code i).segments = t.segments ∧
    (t.loader_register_code i).next_segment_base = t.next_segment_base := by
  rw [loader_register_code]
  split
  · exact ⟨rfl, rfl⟩
  · split
    · exact ⟨rfl, rfl⟩
    · split <;> exact ⟨rfl, rfl⟩

theorem register_handles (t : Table) (i : Nat) : (t.loader_register_code i).handles = t.handles := by
  rw [loader_register_code]
  split
  · rfl
  · split
    · rfl
    · split <;> rfl

theorem unregister_keeps (t : Table) (i : Nat) :
    (t.loader_unregister_code i).segments = t.segments ∧
    (t.loader_unregister_code i).next_segment_base = t.next_segment_base := by
  rw [loader_unregister_code]
  split
  · exact ⟨rfl, rfl⟩
  · split <;> exact ⟨rfl, rfl⟩

theorem reclaim_segments (t : Table) (i k : Nat) :
    (t.reclaim i).segments k = if k = i then .clear else t.segments k := by
  have hkeeps := (unregister_keeps t i).1
  by_cases hk : k = i
  · simp [Table.reclaim, Table.free_segment, Table.set_segment, hk]
  · simp only [Table.reclaim, Table.free_segment, Table.set_segment, Function.update_of_ne hk, if_neg hk]
    split
    · rw [hkeeps]
    · rfl

theorem reclaim_handles (t : Table) (i : Nat) : (t.reclaim i).handles = t.handles := by
  simp only [Table.reclaim, Table.free_segment, Table.set_segment]
  split
  · rw [loader_unregister_code]
    split
    · rfl
    · split <;> rfl
  · rfl

end Table

/-! ## Calls -/

section Calls

variable {s : Sasy}

theorem place_table (s : Sasy) (i : Nat) : (s.sasy_place i).2.table = s.table ∧
    ((s.sasy_place i).1 = true → s.table.next_segment_base < SASY_BASE_ADDR + SASY_MAX_SIZE) := by
  rw [Sasy.sasy_place]
  split
  · exact ⟨rfl, fun h => by cases h⟩
  · next hroom =>
    split
    · exact ⟨rfl, fun _ => by omega⟩
    · exact ⟨rfl, fun _ => by omega⟩

/-- A new segment that did not come about: its number and its addresses are lost. -/
def Table.burn (t : Table) (i size : Nat) (type : SegType) (flags : BitVec 32) : Table :=
  (t.new_segment i size type flags).free_segment i

/-- A new segment in slot `i` with the handle `h`. -/
def Table.create (t : Table) (i h size : Nat) (type : SegType) (flags : BitVec 32) (pid : Nat) : Table :=
  { t.new_segment i size type flags with
    handles := Function.update t.handles h ⟨i, 1, pid, true⟩
    next_handle := (h + 1) % MAX_HANDLES }

/-- What `sasy_create_ex` does to the tables: nothing, a burnt address range, or a new segment. -/
theorem create_table (s : Sasy) (size : Nat) (type : SegType) (flags : BitVec 32) (pid : Nat) :
    ((s.sasy_create_ex size type flags pid).1 = INVALID_HANDLE ∧
      ((s.sasy_create_ex size type flags pid).2.table = s.table ∨
        ∃ i, s.table.free_slot = some i ∧
          (s.sasy_create_ex size type flags pid).2.table = s.table.burn i size type flags)) ∨
    ∃ i h, s.table.free_slot = some i ∧ s.table.free_handle = some h ∧ h ≠ INVALID_HANDLE ∧ size ≠ 0 ∧
      (s.table.next_segment_base + align_up size PAGE_SIZE) % 2 ^ 64 < SASY_BASE_ADDR + SASY_MAX_SIZE ∧
      (s.sasy_create_ex size type flags pid).1 = h ∧
      (s.sasy_create_ex size type flags pid).2.table = s.table.create i h size type flags pid := by
  rw [Sasy.sasy_create_ex]
  split
  · exact .inl ⟨rfl, .inl rfl⟩
  · next hsize =>
    cases hslot : s.table.free_slot with
    | none => exact .inl ⟨rfl, .inl rfl⟩
    | some i =>
      dsimp only
      generalize hb : (s.backing.set_present i false).set_swap_id i 0 = b
      obtain ⟨htable, hroom⟩ := place_table ⟨s.table.new_segment i size type flags, b⟩ i
      generalize Sasy.sasy_place ⟨s.table.new_segment i size type flags, b⟩ i = r at htable hroom
      obtain ⟨ok, s₁⟩ := r
      dsimp only at htable hroom
      cases ok with
      | false =>
        refine .inl ⟨rfl, .inr ⟨i, rfl, ?_⟩⟩
        dsimp only [Sasy.free_segment]
        rw [htable]
        rfl
      | true =>
        dsimp only
        rw [htable]
        rcases Table.handle_alloc_cases (s.table.new_segment i size type flags) i pid with hnone | ⟨h,
          hfree, hne, hsome⟩
        · rw [hnone]
          dsimp only
          rw [if_pos rfl]
          refine .inl ⟨rfl, .inr ⟨i, rfl, ?_⟩⟩
          dsimp only [Sasy.free_segment]
          rw [htable]
          rfl
        · rw [hsome]
          dsimp only
          rw [if_neg hne]
          exact .inr ⟨i, h, rfl, hfree, hne, hsize, hroom rfl, rfl, rfl⟩

theorem lock_table (s : Sasy) (h : Nat) :
    ((s.sasy_lock h).1 = 0 ∧ (s.sasy_lock h).2.table = s.table) ∨
      ∃ i, s.table.handle_get_segment h = some i ∧ (s.sasy_lock h).1 = (s.table.segments i).base ∧
        (s.sasy_lock h).2.table = s.table.lock i := by
  rw [Sasy.sasy_lock]
  cases hget : s.table.handle_get_segment h with
  | none => exact .inl ⟨rfl, rfl⟩
  | some i =>
    dsimp only
    generalize s.backing.sasy_pagein (s.segment i) i = r
    obtain ⟨ok, b⟩ := r
    cases ok with
    | false => exact .inl ⟨rfl, rfl⟩
    | true => exact .inr ⟨i, rfl, rfl, rfl⟩

theorem unlock_table (s : Sasy) (h : Nat) :
    (s.sasy_unlock h).table = match s.table.handle_get_segment h with
      | none => s.table
      | some i => s.table.unlock i := by
  rw [Sasy.sasy_unlock]
  cases s.table.handle_get_segment h <;> rfl

theorem free_table (s : Sasy) (h : Nat) :
    (s.sasy_free h).table = match s.table.handle_get_segment h with
      | none => s.table
      | some i => if ((s.table.release h i).segments i).refcnt = 0 then (s.table.release h i).reclaim i
          else s.table.release h i := by
  rw [Sasy.sasy_free]
  cases s.table.handle_get_segment h with
  | none => rfl
  | some i =>
    dsimp only
    split <;> rfl

theorem resize_table (s : Sasy) (h new_size : Nat) :
    (s.sasy_resize h new_size).2.table = s.table ∨
      ∃ i, s.table.handle_get_segment h = some i ∧ (s.table.segments i).locked = 0 ∧
        (s.table.segments i).type ≠ .fixed ∧ (s.table.segments i).type ≠ .physical ∧
        (s.table.segments i).size ≠ align_up new_size PAGE_SIZE ∧
        (align_up new_size PAGE_SIZE > (s.table.segments i).size → s.backing.present i = false) ∧
        (s.sasy_resize h new_size).2.table =
          s.table.set_segment i { s.table.segments i with size := align_up new_size PAGE_SIZE } := by
  rw [Sasy.sasy_resize]
  cases hget : s.table.handle_get_segment h with
  | none => exact .inl rfl
  | some i =>
    dsimp only [Sasy.segment]
    split_ifs with hlocked htype hsame hgrow hpresent
    · exact .inl rfl
    · exact .inl rfl
    · exact .inl rfl
    · exact .inl rfl
    · exact .inr ⟨i, rfl, by omega, fun hf => htype (.inl hf), fun hp => htype (.inr hp), fun he => hsame he.symm,
        fun _ => by simpa using hpresent, rfl⟩
    · exact .inr ⟨i, rfl, by omega, fun hf => htype (.inl hf), fun hp => htype (.inr hp), fun he => hsame he.symm,
        fun hg => absurd hg hgrow, rfl⟩
    · exact .inr ⟨i, rfl, by omega, fun hf => htype (.inl hf), fun hp => htype (.inr hp), fun he => hsame he.symm,
        fun hg => absurd hg hgrow, rfl⟩

theorem create_get_segment {t : Table} {i h size pid : Nat} {type : SegType} {flags : BitVec 32}
    (hfree : t.free_handle = some h) : (t.create i h size type flags pid).handle_get_segment h = some i := by
  have hlt := (Table.free_handle_some hfree).1
  rw [Table.handle_get_segment_of hlt] <;> simp [Table.create]

theorem create_get_other {t : Table} {i h size pid h' j : Nat} {type : SegType} {flags : BitVec 32}
    (hfree : t.free_handle = some h) (hget : t.handle_get_segment h' = some j) :
    (t.create i h size type flags pid).handle_get_segment h' = some j := by
  obtain ⟨hlt, hvalid, hseg⟩ := Table.handle_get_segment_some hget
  have hne : h' ≠ h := by
    rintro rfl
    simp [(Table.free_handle_some hfree).2] at hvalid
  have hsame : (t.create i h size type flags pid).handles h' = t.handles h' := by
    simp [Table.create, hne]
  rw [Table.handle_get_segment_of hlt (by rw [hsame, hvalid]), hsame, hseg]

/-- The tables of a code segment that was just created, with its hash set. -/
def Table.create_code (t : Table) (i h hash pid : Nat) : Table :=
  let t₁ := t.create i h PAGE_SIZE .code SEG_FLAGS_CODE pid
  t₁.set_segment i { t₁.segments i with code_hash := hash }

theorem load_code_table (s : Sasy) (path : List UInt8) (found : Bool) (pid : Nat) :
    (∃ i, s.table.loader_find_code (loader_hash_file path) = some i ∧
      (s.sasy_load_code path found pid).2.table = ((s.table.retain i).handle_alloc i pid).2) ∨
    (s.table.loader_find_code (loader_hash_file path) = none ∧
      ((s.sasy_load_code path found pid).2.table = s.table ∨
      (∃ i, s.table.free_slot = some i ∧
        (s.sasy_load_code path found pid).2.table = s.table.burn i PAGE_SIZE .code SEG_FLAGS_CODE) ∨
      ∃ i h, s.table.free_slot = some i ∧ s.table.free_handle = some h ∧
        (s.table.next_segment_base + align_up PAGE_SIZE PAGE_SIZE) % 2 ^ 64 < SASY_BASE_ADDR + SASY_MAX_SIZE ∧
        ((s.sasy_load_code path found pid).2.table =
            (s.table.create_code i h (loader_hash_file path) pid).loader_register_code i ∨
          (s.sasy_load_code path found pid).2.table =
            ((s.table.create_code i h (loader_hash_file path) pid).release h i).reclaim i))) := by
  rw [Sasy.sasy_load_code]
  cases hfind : s.table.loader_find_code (loader_hash_file path) with
  | some i => exact .inl ⟨i, rfl, rfl⟩
  | none =>
    right
    refine ⟨rfl, ?_⟩
    dsimp only
    have hcreate := create_table s PAGE_SIZE .code SEG_FLAGS_CODE pid
    generalize s.sasy_create_ex PAGE_SIZE .code SEG_FLAGS_CODE pid = r at hcreate
    obtain ⟨h, s₁⟩ := r
    dsimp only at hcreate ⊢
    rcases hcreate with ⟨rfl, hsame | ⟨i, hslot, hburn⟩⟩ | ⟨i, h₁, hslot, hfree, hne, -, hroom, heq, hnew⟩
    · rw [if_pos rfl]
      exact .inl hsame
    · rw [if_pos rfl]
      exact .inr (.inl ⟨i, hslot, hburn⟩)
    · subst heq
      rw [if_neg hne]
      refine .inr (.inr ⟨i, h, hslot, hfree, hroom, ?_⟩)
      have hget : s₁.table.handle_get_segment h = some i := by
        rw [hnew]
        exact create_get_segment hfree
      rw [hget]
      dsimp only
      rw [Sasy.segment, hnew]
      cases found with
      | true => exact .inl rfl
      | false =>
        right
        rw [if_neg (by simp), free_table]
        have hget' : (s.table.create_code i h (loader_hash_file path) pid).handle_get_segment h = some i := by
          have hsame : (s.table.create_code i h (loader_hash_file path) pid).handles =
            (s.table.create i h PAGE_SIZE .code SEG_FLAGS_CODE pid).handles := rfl
          rw [Table.handle_get_segment_congr hsame]
          exact create_get_segment hfree
        change (match (s.table.create_code i h (loader_hash_file path) pid).handle_get_segment h with
          | none => _
          | some i => _) = _
        rw [hget']
        dsimp only
        rw [if_pos]
        · rfl
        · simp [Table.release, Table.create, Table.new_segment, Table.handle_free, Table.set_segment]
          split <;> simp

/-- The tables while a clone `j` of the segment `i` is made: each of the two may be locked, and both
are unlocked in the end. -/
def Table.cloning (t : Table) (i j : Nat) (src dst : Bool) : Table :=
  let t₁ := if src then t.lock i else t
  let t₂ := if dst then t₁.lock j else t₁
  (t₂.unlock j).unlock i

theorem clone_table (s : Sasy) (h pid : Nat) :
    (s.sasy_clone h pid).2.table = s.table ∨
    ∃ i, s.table.handle_get_segment h = some i ∧
      (((s.table.segments i).type = .code ∧ (s.sasy_clone h pid).2.table = (s.table.handle_dup h pid).2) ∨
      ((s.table.segments i).type ≠ .code ∧
        ((∃ j, s.table.free_slot = some j ∧ (s.sasy_clone h pid).2.table = s.table.burn j
          (s.table.segments i).size (s.table.segments i).type (s.table.segments i).flags) ∨
        ∃ j h' src dst, s.table.free_slot = some j ∧ s.table.free_handle = some h' ∧
          (s.table.segments i).size ≠ 0 ∧
          (s.table.next_segment_base + align_up (s.table.segments i).size PAGE_SIZE) % 2 ^ 64 <
            SASY_BASE_ADDR + SASY_MAX_SIZE ∧
          (s.sasy_clone h pid).2.table = (s.table.create j h' (s.table.segments i).size
            (s.table.segments i).type (s.table.segments i).flags pid).cloning i j src dst))) := by
  rw [Sasy.sasy_clone]
  cases hget : s.table.handle_get_segment h with
  | none => exact .inl rfl
  | some i =>
    dsimp only [Sasy.segment]
    by_cases htype : (s.table.segments i).type = .code
    · rw [if_pos htype]
      exact .inr ⟨i, rfl, .inl ⟨htype, rfl⟩⟩
    rw [if_neg htype]
    have hcreate := create_table s (s.table.segments i).size (s.table.segments i).type
      (s.table.segments i).flags pid
    generalize s.sasy_create_ex (s.table.segments i).size (s.table.segments i).type
      (s.table.segments i).flags pid = r at hcreate
    obtain ⟨h₁, s₁⟩ := r
    dsimp only at hcreate ⊢
    rcases hcreate with ⟨rfl, hsame | ⟨j, hslot, hburn⟩⟩ | ⟨j, h₂, hslot, hfree, hne, hsize, hroom, heq, hnew⟩
    · rw [if_pos rfl]
      exact .inl hsame
    · rw [if_pos rfl]
      exact .inr ⟨i, rfl, .inr ⟨htype, .inl ⟨j, hslot, hburn⟩⟩⟩
    · subst heq
      rw [if_neg hne]
      refine .inr ⟨i, rfl, .inr ⟨htype, .inr ?_⟩⟩
      have hi : s₁.table.handle_get_segment h = some i := by rw [hnew]; exact create_get_other hfree hget
      have hj : s₁.table.handle_get_segment h₁ = some j := by rw [hnew]; exact create_get_segment hfree
      obtain ⟨src, hsrc⟩ : ∃ src : Bool, (s₁.sasy_lock h).2.table = if src then s₁.table.lock i else s₁.table := by
        rcases lock_table s₁ h with ⟨-, hl⟩ | ⟨i', hi', -, hl⟩
        · exact ⟨false, hl⟩
        · obtain rfl : i = i' := by simpa [hi] using hi'
          exact ⟨true, hl⟩
      have hi₂ : (s₁.sasy_lock h).2.table.handles = s₁.table.handles := by rw [hsrc]; split <;> rfl
      generalize s₁.sasy_lock h = r₂ at hsrc hi₂ ⊢
      obtain ⟨a, s₂⟩ := r₂
      dsimp only at hsrc hi₂ ⊢
      have hj₂ : s₂.table.handle_get_segment h₁ = some j := by rw [Table.handle_get_segment_congr hi₂, hj]
      obtain ⟨dst, hdst⟩ : ∃ dst : Bool, (s₂.sasy_lock h₁).2.table = if dst then s₂.table.lock j else s₂.table := by
        rcases lock_table s₂ h₁ with ⟨-, hl⟩ | ⟨j', hj', -, hl⟩
        · exact ⟨false, hl⟩
        · obtain rfl : j = j' := by simpa [hj₂] using hj'
          exact ⟨true, hl⟩
      have hi₃ : (s₂.sasy_lock h₁).2.table.handles = s₂.table.handles := by rw [hdst]; split <;> rfl
      generalize s₂.sasy_lock h₁ = r₃ at hdst hi₃ ⊢
      obtain ⟨b, s₃⟩ := r₃
      dsimp only at hdst hi₃ ⊢
      have hcopy : (if a ≠ 0 ∧ b ≠ 0 then s₃.copy b a (s₃.table.segments i).pages else s₃).table = s₃.table := by
        split <;> rfl
      generalize (if a ≠ 0 ∧ b ≠ 0 then s₃.copy b a (s₃.table.segments i).pages else s₃) = s₄ at hcopy ⊢
      refine ⟨j, h₁, src, dst, hslot, hfree, hsize, hroom, ?_⟩
      have hhandles : s₄.table.handles = s₁.table.handles := by rw [hcopy, hi₃, hi₂]
      rw [unlock_table, unlock_table, Table.handle_get_segment_congr hhandles h₁, hj]
      dsimp only
      have hh : (s₄.table.unlock j).handles = s₁.table.handles := hhandles
      rw [Table.handle_get_segment_congr hh h, hi]
      dsimp only
      rw [hcopy, hdst, hsrc, hnew]
      rfl

/-- A clone that gets a handle is made by a `sasy_create_ex`, a lock on each of the two segments, a
copy when both locks succeeded, and an unlock of each. -/
theorem clone_steps (s : Sasy) (h pid : Nat) :
    (s.sasy_clone h pid).2 = s ∨
    ∃ i, s.table.handle_get_segment h = some i ∧
      (((s.segment i).type = .code ∧ (s.sasy_clone h pid).2 = { s with table := (s.table.handle_dup h pid).2 }) ∨
      ((s.segment i).type ≠ .code ∧
        let r := s.sasy_create_ex (s.segment i).size (s.segment i).type (s.segment i).flags pid
        (s.sasy_clone h pid).2 = r.2 ∨
        (r.1 ≠ INVALID_HANDLE ∧ ∃ s₄, (s₄ = ((r.2.sasy_lock h).2.sasy_lock r.1).2 ∨
          ∃ dst src n, s₄ = ((r.2.sasy_lock h).2.sasy_lock r.1).2.copy dst src n) ∧
          (s.sasy_clone h pid).2 = (s₄.sasy_unlock r.1).sasy_unlock h))) := by
  rw [Sasy.sasy_clone]
  cases hget : s.table.handle_get_segment h with
  | none => exact .inl rfl
  | some i =>
    refine .inr ⟨i, rfl, ?_⟩
    dsimp only
    by_cases htype : (s.segment i).type = .code
    · rw [if_pos htype]
      exact .inl ⟨htype, rfl⟩
    · rw [if_neg htype]
      refine .inr ⟨htype, ?_⟩
      generalize s.sasy_create_ex (s.segment i).size (s.segment i).type (s.segment i).flags pid = r
      by_cases hnone : r.1 = INVALID_HANDLE
      · rw [if_pos hnone]
        exact .inl rfl
      · rw [if_neg hnone]
        refine .inr ⟨hnone, _, ?_, rfl⟩
        split
        · exact .inr ⟨_, _, _, rfl⟩
        · exact .inl rfl

end Calls

end graceos.sasy
