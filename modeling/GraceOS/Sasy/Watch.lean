import GraceOS.Sasy.Locked

/-!
# Runs with locks

A segment with a lock is resident and stays where it is, as long as its 8-bit lock count does not
wrap around.
-/

namespace graceos.sasy

open mm machine

/-- The lock count that a call raises does not wrap around. -/
def Sasy.Shallow (s : Sasy) : Call → Prop
  | .lock h => ∀ i, s.table.handle_get_segment h = some i → (s.segment i).locked < 255
  | .clone h _ => ∀ i, s.table.handle_get_segment h = some i → (s.segment i).type ≠ .code →
      (s.segment i).locked < 255
  | _ => True

/-- The calls under which locks hold. -/
structure Sasy.Steady (s : Sasy) (call : Call) : Prop where
  fits : s.Fits call
  counts : s.Counts call
  shallow : s.Shallow call

structure Sasy.Good (s : Sasy) : Prop where
  apart : s.table.Apart
  linked : s.table.Linked
  kept : s.Kept

/-- How a call changes the number of locks that its clients hold on the segment `i`. -/
def Sasy.lock_change (s : Sasy) (i : Nat) : Call → Int
  | .lock h => if s.table.handle_get_segment h = some i ∧ (s.sasy_lock h).1 ≠ 0 then 1 else 0
  | .unlock h => if s.table.handle_get_segment h = some i then -1 else 0
  | _ => 0

/-- What a call does to the segment `i`, unless it is given up: its count of locks follows the calls,
and while it has one it stays. -/
def Sasy.Follows (i : Nat) (change : Int) (s s' : Sasy) : Prop :=
  (s'.segment i).id = (s.segment i).id →
    ((s.segment i).locked : Int) + change ≤ (s'.segment i).locked ∧
    (0 < (s.segment i).locked → 0 < (s'.segment i).locked → Sasy.Stays i s s')

namespace Sasy

variable {s : Sasy} {i j h : Nat}

theorem Good.dead_unlocked (hg : s.Good) (hdead : (s.segment i).id = 0) : (s.segment i).locked = 0 := by
  by_contra hne
  exact (hg.kept.locked i (by omega)).1 hdead

theorem Good.create (hg : s.Good) (size : Nat) (type : SegType) (flags : BitVec 32) (pid : Nat)
    (hfits : s.Fits (.create size type flags pid)) (hcounts : s.Counts (.create size type flags pid)) :
    (s.step (.create size type flags pid)).Good ∧ ∀ i, Follows i 0 s (s.step (.create size type flags pid)) := by
  refine ⟨⟨hg.apart.step hfits, hg.linked.step hcounts, (hg.kept.sasy_create_ex hg.apart hfits 0).1⟩,
    fun i hid => ⟨?_, fun hlocked _ => (hg.kept.sasy_create_ex hg.apart hfits i).2 hlocked⟩⟩
  rw [Int.add_zero, Int.ofNat_le]
  simp only [Sasy.step, segment] at hid ⊢
  rcases create_table s size type flags pid with ⟨-, hsame | ⟨j, hslot, hburn⟩⟩ |
    ⟨j, h, hslot, -, -, -, -, -, hnew⟩
  · rw [hsame]
  · rw [hburn]
    by_cases hij : i = j
    · subst hij
      have := hg.dead_unlocked (Table.free_slot_some hslot).2
      simp only [segment] at this
      omega
    · simp [Table.burn, Table.free_segment, Table.new_segment, Table.set_segment, hij]
  · rw [hnew] at hid ⊢
    by_cases hij : i = j
    · subst hij
      rw [(Table.free_slot_some hslot).2] at hid
      exact absurd (by simpa [Table.create, Table.new_segment, Table.set_segment] using hid) hcounts
    · simp [Table.create, Table.new_segment, Table.set_segment, hij]

theorem Good.lock (hg : s.Good) (hcounts : s.Counts (.lock h)) (hshallow : s.Shallow (.lock h)) :
    (s.step (.lock h)).Good ∧ ∀ i, Follows i (s.lock_change i (.lock h)) s (s.step (.lock h)) := by
  refine ⟨⟨hg.apart.step trivial, hg.linked.step hcounts, (hg.kept.sasy_lock hg.apart hg.linked h 0).1⟩,
    fun i hid => ⟨?_, fun hlocked _ => (hg.kept.sasy_lock hg.apart hg.linked h i).2 hlocked⟩⟩
  simp only [Sasy.step, segment, lock_change]
  rcases lock_table s h with ⟨hfail, hsame⟩ | ⟨j, hget, -, hlock⟩
  · rw [if_neg (fun hs => hs.2 hfail), hsame, Int.add_zero]
  · rw [hlock]
    by_cases hij : i = j
    · subst hij
      have hlt : (s.table.segments i).locked < 255 := hshallow i hget
      have hmod : ((s.table.segments i).locked + 1) % 2 ^ 8 = (s.table.segments i).locked + 1 :=
        Nat.mod_eq_of_lt (by omega)
      simp only [Table.lock, Table.set_segment, Function.update_self, hmod]
      split <;> omega
    · rw [if_neg (fun hs => hij (by simpa [hget] using hs.1.symm))]
      simp [Table.lock, Table.set_segment, hij]

theorem Good.unlock (hg : s.Good) (h : Nat) :
    (s.step (.unlock h)).Good ∧ ∀ i, Follows i (s.lock_change i (.unlock h)) s (s.step (.unlock h)) := by
  refine ⟨⟨hg.apart.step trivial, hg.linked.step trivial, (hg.kept.sasy_unlock hg.apart hg.linked h 0).1⟩,
    fun i hid => ⟨?_, fun _ hlocked => (hg.kept.sasy_unlock hg.apart hg.linked h i).2 hlocked⟩⟩
  simp only [Sasy.step, segment, lock_change]
  have htable := unlock_table s h
  cases hget : s.table.handle_get_segment h with
  | none =>
    rw [hget] at htable
    rw [htable]
    simp
  | some j =>
    rw [hget] at htable
    rw [htable]
    by_cases hij : i = j
    · subst hij
      simp only [Table.unlock, Table.set_segment, Function.update_self, if_true]
      omega
    · rw [if_neg (fun hs => hij (by simpa using hs.symm))]
      simp [Table.unlock, Table.set_segment, hij]

theorem Follows.of_same {s' : Sasy} (hlocked : (s'.segment i).id = (s.segment i).id →
      (s'.segment i).locked = (s.segment i).locked)
    (hstays : (s'.segment i).id = (s.segment i).id → 0 < (s.segment i).locked → Stays i s s') :
    Follows i 0 s s' := fun hid =>
  ⟨by rw [hlocked hid, Int.add_zero], fun h _ => hstays hid h⟩

theorem Good.free (hg : s.Good) (h : Nat) :
    (s.step (.free h)).Good ∧ ∀ i, Follows i 0 s (s.step (.free h)) := by
  refine ⟨⟨hg.apart.step trivial, hg.linked.step trivial, (hg.kept.sasy_free hg.apart hg.linked h 0).1⟩,
    fun i => .of_same (fun hid => ?_) fun hid hlocked => ?_⟩
  · simp only [Sasy.step, segment] at hid ⊢
    have htable := free_table s h
    cases hget : s.table.handle_get_segment h with
    | none =>
      rw [hget] at htable
      rw [htable]
    | some j =>
      rw [hget] at htable
      dsimp only at htable
      have hrelease : ∀ k, ((s.table.release h j).segments k).locked = (s.table.segments k).locked := by
        intro k
        rw [(Table.release_segments hget).1]
        by_cases hkj : k = j
        · simp [hkj]
        · simp [hkj]
      split at htable
      · rw [htable] at hid ⊢
        by_cases hij : i = j
        · subst hij
          refine absurd hid.symm ?_
          simpa [Table.reclaim, Table.free_segment, Table.set_segment, Segment.clear] using (hg.linked.live hget).1
        · rw [← hrelease i]
          have hkeeps := (Table.unregister_keeps (s.table.release h j) j).1
          simp only [Table.reclaim, Table.free_segment, Table.set_segment, Function.update_of_ne hij]
          split
          · rw [hkeeps]
          · rfl
      · rw [htable]
        exact hrelease i
  · refine (hg.kept.sasy_free hg.apart hg.linked h i).2 ?_
    exact fun h0 => (hg.kept.locked i hlocked).1 (hid ▸ h0)

theorem Good.resize (hg : s.Good) {new_size : Nat} (hfits : s.Fits (.resize h new_size)) :
    (s.step (.resize h new_size)).Good ∧ ∀ i, Follows i 0 s (s.step (.resize h new_size)) := by
  refine ⟨⟨hg.apart.step hfits, hg.linked.step trivial, (hg.kept.sasy_resize hg.apart hg.linked h new_size 0).1⟩,
    fun i => .of_same (fun _ => ?_) fun _ => (hg.kept.sasy_resize hg.apart hg.linked h new_size i).2⟩
  simp only [Sasy.step, segment]
  rcases resize_table s h new_size with hsame | ⟨j, -, -, -, -, -, -, hset⟩
  · rw [hsame]
  · rw [hset]
    by_cases hij : i = j
    · simp [Table.set_segment, hij]
    · simp [Table.set_segment, hij]

theorem Good.of_table (hg : s.Good) {t : Table} (ha : t.Apart) (hl : t.Linked)
    (hsame : ∀ i, (t.segments i).id = (s.segment i).id ∧ (t.segments i).base = (s.segment i).base ∧
      (t.segments i).size = (s.segment i).size ∧ (t.segments i).locked = (s.segment i).locked) :
    Good ⟨t, s.backing⟩ ∧ ∀ i, Follows i 0 s ⟨t, s.backing⟩ :=
  ⟨⟨ha, hl, hg.kept.of_table hsame⟩, fun i => .of_same (fun _ => (hsame i).2.2.2)
    fun _ _ => ⟨(hsame i).2.1, (hsame i).2.2.1, rfl, rfl⟩⟩

theorem Good.mark_dirty (hg : s.Good) (h : Nat) :
    (s.step (.mark_dirty h)).Good ∧ ∀ i, Follows i 0 s (s.step (.mark_dirty h)) := by
  have ha : (s.step (.mark_dirty h)).table.Apart := hg.apart.step trivial
  have hl : (s.step (.mark_dirty h)).table.Linked := hg.linked.step trivial
  simp only [Sasy.step, sasy_mark_dirty] at ha hl ⊢
  cases hget : s.table.handle_get_segment h with
  | none => exact ⟨hg, fun i => .of_same (fun _ => rfl) fun _ _ => .refl⟩
  | some j =>
    rw [hget] at ha hl
    refine hg.of_table ha hl fun k => ?_
    by_cases hkj : k = j
    · simp [Table.set_segment, segment, hkj]
    · simp [Table.set_segment, segment, hkj]

theorem pressure_table (s : Sasy) : s.sasy_pressure.table = s.table := by
  rw [sasy_pressure]

theorem Good.pressure (hg : s.Good) : s.sasy_pressure.Good ∧ ∀ i, Follows i 0 s s.sasy_pressure := by
  have htable := s.pressure_table
  obtain ⟨hkept, hstays⟩ := hg.kept.sasy_pressure hg.apart
  generalize s.sasy_pressure = s' at htable hkept hstays
  refine ⟨⟨htable ▸ hg.apart, htable ▸ hg.linked, hkept⟩, fun i => .of_same (fun _ => ?_) fun _ => hstays i⟩
  rw [segment, htable]
  rfl

theorem Good.fault (hg : s.Good) (addr : Nat) :
    (s.loader_handle_fault addr).Good ∧ ∀ i, Follows i 0 s (s.loader_handle_fault addr) := by
  rw [loader_handle_fault]
  cases hfind : s.table.sasy_find_segment addr with
  | none => exact ⟨hg, fun i => .of_same (fun _ => rfl) fun _ _ => .refl⟩
  | some j =>
    have hlive : (s.segment j).id ≠ 0 := ((hg.apart.find addr j).mp hfind).1
    exact ⟨⟨hg.apart, hg.linked, (hg.kept.sasy_pagein hg.apart hlive 0).1⟩, fun i => .of_same (fun _ => rfl)
      fun _ => (hg.kept.sasy_pagein hg.apart hlive i).2⟩

theorem Good.of_same (hg : s.Good) {b : Backing} (hs : Backing.Same s.backing b) :
    Good ⟨s.table, b⟩ ∧ ∀ i, Follows i 0 s ⟨s.table, b⟩ := by
  refine ⟨⟨hg.apart, hg.linked, ⟨fun i hi hp => ?_, fun i hi => ?_⟩⟩, fun i => .of_same (fun _ => rfl)
    fun _ _ => ⟨rfl, rfl, congrFun hs.present i, congrFun hs.phys i⟩⟩
  · dsimp only at hp
    rw [hs.present] at hp
    exact (hg.kept.held i hi hp).of_same hs
  · rw [hs.present]
    exact hg.kept.locked i hi

theorem Follows.trans {s' s'' : Sasy} {c c' : Int} (hf : Follows i c s s') (hf' : Follows i c' s' s'')
    (hid : (s'.segment i).id = (s.segment i).id)
    (hlocked : 0 < (s.segment i).locked → 0 < (s''.segment i).locked → 0 < (s'.segment i).locked) :
    Follows i (c + c') s s'' := by
  intro hid'
  obtain ⟨hle, hstays⟩ := hf hid
  obtain ⟨hle', hstays'⟩ := hf' (hid'.trans hid.symm)
  exact ⟨by omega, fun h h'' => (hstays h (hlocked h h'')).trans (hstays' (hlocked h h'') h'')⟩

theorem Follows.zero_trans {s' s'' : Sasy} {c : Int} (hf : Follows i 0 s s') (hf' : Follows i c s' s'')
    (hid : (s'.segment i).id = (s.segment i).id) : Follows i c s s'' := by
  have hle := (hf hid).1
  rw [← Int.zero_add c]
  exact hf.trans hf' hid fun h _ => by omega

theorem Follows.unlocked {s' : Sasy} (hlocked : (s.segment i).locked = 0) : Follows i 0 s s' :=
  fun _ => ⟨by omega, fun h => by omega⟩

theorem Good.load_code (hg : s.Good) {path : List UInt8} {found : Bool} {pid : Nat}
    (hfits : s.Fits (.load_code path found pid)) (hcounts : s.Counts (.load_code path found pid)) :
    (s.step (.load_code path found pid)).Good ∧ ∀ i, Follows i 0 s (s.step (.load_code path found pid)) := by
  have ha := hg.apart.step hfits
  have hl := hg.linked.step hcounts
  simp only [Sasy.step, sasy_load_code] at ha hl ⊢
  cases hfind : s.table.loader_find_code (loader_hash_file path) with
  | some j =>
    rw [hfind] at ha hl
    refine hg.of_table ha hl fun k => ?_
    rw [(Table.handle_alloc_keeps _ _ _).1]
    by_cases hkj : k = j
    · simp [Table.retain, Table.set_segment, segment, hkj]
    · simp [Table.retain, Table.set_segment, segment, hkj]
  | none =>
    rw [hfind] at ha hl
    have hone : align_up PAGE_SIZE PAGE_SIZE = PAGE_SIZE := by decide
    obtain ⟨hg₁, hf₁⟩ := hg.create PAGE_SIZE .code SEG_FLAGS_CODE pid
      (fun hslot => by rw [hone]; exact hfits hslot hfind) hcounts.1
    have htable := create_table s PAGE_SIZE .code SEG_FLAGS_CODE pid
    simp only [Sasy.step] at hg₁ hf₁
    dsimp only at ha hl ⊢
    generalize s.sasy_create_ex PAGE_SIZE .code SEG_FLAGS_CODE pid = r at ha hl hg₁ hf₁ htable ⊢
    obtain ⟨h, s₁⟩ := r
    dsimp only at ha hl hg₁ hf₁ htable ⊢
    split at ha
    · next hnone =>
      rw [if_pos hnone]
      exact ⟨hg₁, hf₁⟩
    · next hsome =>
      rw [if_neg hsome]
      rw [if_neg hsome] at hl
      obtain ⟨j, hslot, hfree, hnew⟩ : ∃ j, s.table.free_slot = some j ∧ s.table.free_handle = some h ∧
          s₁.table = s.table.create j h PAGE_SIZE .code SEG_FLAGS_CODE pid := by
        rcases htable with ⟨hn, -⟩ | ⟨j, h', hslot, hfree, -, -, -, heq, hnew⟩
        · exact absurd hn hsome
        · subst heq
          exact ⟨j, hslot, hfree, hnew⟩
      have hget : s₁.table.handle_get_segment h = some j := by
        rw [hnew]
        exact create_get_segment hfree
      have hj : (s.segment j).locked = 0 := hg.dead_unlocked (Table.free_slot_some hslot).2
      have hother : ∀ k, k ≠ j → s₁.segment k = s.segment k := fun k hkj => by
        simp [segment, hnew, Table.create, Table.new_segment, Table.set_segment, hkj]
      have hcode : (s₁.table.set_segment j { s₁.segment j with code_hash := loader_hash_file path }).Linked := by
        have := (hg.linked.create_code hslot hfree hcounts.1 (loader_hash_file path) pid).1
        rw [Table.create_code, ← hnew] at this
        exact this
      obtain ⟨hg₂, hf₂⟩ := hg₁.of_table (hg₁.apart.set (i := j)
        (g := { s₁.segment j with code_hash := loader_hash_file path }) rfl rfl rfl) hcode fun k => by
          by_cases hkj : k = j
          · simp [Table.set_segment, segment, hkj]
          · simp [Table.set_segment, segment, hkj]
      rw [hget] at ha hl ⊢
      dsimp only at ha hl ⊢
      generalize hset : s₁.table.set_segment j { s₁.segment j with code_hash := loader_hash_file path } = t
        at ha hl hg₂ hf₂ ⊢
      have hid : ∀ k, k ≠ j → (t.segments k).id = (s.segment k).id := fun k hkj => by
        rw [← hother k hkj, ← hset]
        simp [Table.set_segment, segment, hkj]
      have hf₂' : ∀ i, i ≠ j → Follows i 0 s ⟨t, s₁.backing⟩ := fun i hij =>
        (hf₁ i).zero_trans (hf₂ i) (by rw [hother i hij])
      cases found with
      | true =>
        obtain ⟨hg₃, hf₃⟩ := hg₂.of_table (t := t.loader_register_code j) ha hl fun k => by
          rw [(Table.register_keeps t j).1]
          exact ⟨rfl, rfl, rfl, rfl⟩
        refine ⟨hg₃, fun i => ?_⟩
        by_cases hij : i = j
        · exact .unlocked (hij ▸ hj)
        · exact (hf₂' i hij).zero_trans (hf₃ i) (hid i hij)
      | false =>
        obtain ⟨hg₃, hf₃⟩ := hg₂.free h
        refine ⟨hg₃, fun i => ?_⟩
        by_cases hij : i = j
        · exact .unlocked (hij ▸ hj)
        · exact (hf₂' i hij).zero_trans (hf₃ i) (hid i hij)

theorem lock_frame (s : Sasy) (h : Nat) : (s.sasy_lock h).2.table.handles = s.table.handles ∧
    ∀ i, ((s.sasy_lock h).2.segment i).id = (s.segment i).id := by
  rcases lock_table s h with ⟨-, hsame⟩ | ⟨j, -, -, hlock⟩
  · simp only [segment, hsame, implies_true, and_self]
  · simp only [segment, hlock]
    exact ⟨rfl, fun i => Table.lock_id s.table j i⟩

theorem unlock_frame (s : Sasy) (h : Nat) : (s.sasy_unlock h).table.handles = s.table.handles ∧
    ∀ i, ((s.sasy_unlock h).segment i).id = (s.segment i).id := by
  have htable := unlock_table s h
  split at htable
  · simp only [segment, htable, implies_true, and_self]
  · simp only [segment, htable]
    exact ⟨rfl, fun i => Table.unlock_id s.table _ i⟩

theorem lock_other (hget : s.table.handle_get_segment h = some j) (hij : i ≠ j) :
    (s.sasy_lock h).2.segment i = s.segment i := by
  rcases lock_table s h with ⟨-, hsame⟩ | ⟨j', hget', -, hlock⟩
  · rw [segment, hsame]
    rfl
  · obtain rfl : j = j' := by simpa [hget] using hget'
    simp [segment, hlock, Table.lock, Table.set_segment, hij]

theorem Good.lock_succeeds (hg : s.Good) (hget : s.table.handle_get_segment h = some j)
    (hlocked : 0 < (s.segment j).locked) : (s.sasy_lock h).1 ≠ 0 := by
  obtain ⟨hlive, hpresent⟩ := hg.kept.locked j hlocked
  rw [sasy_lock, hget]
  simp only [Backing.sasy_pagein, hpresent, if_true]
  have hlow := (hg.apart.within j hlive).1
  simp only [SASY_BASE_ADDR] at hlow
  intro h0
  simp only [segment] at h0
  omega

/-- The locks that a clone takes and gives back, after the new segment `k` was made. -/
theorem Good.copying {s₁ s₄ : Sasy} {h' k : Nat} (hg₁ : s₁.Good) (hget : s₁.table.handle_get_segment h = some j)
    (hget' : s₁.table.handle_get_segment h' = some k) (hjk : j ≠ k)
    (hcount : (s₁.segment j).refcnt + 1 < 2 ^ 32) (hcount' : (s₁.segment k).refcnt + 1 < 2 ^ 32)
    (hlocked : (s₁.segment j).locked < 255) (hlocked' : (s₁.segment k).locked < 255)
    (hs₄ : s₄ = ((s₁.sasy_lock h).2.sasy_lock h').2 ∨
      ∃ dst src n, s₄ = ((s₁.sasy_lock h).2.sasy_lock h').2.copy dst src n) :
    ((s₄.sasy_unlock h').sasy_unlock h).Good ∧
    (∀ i, ((((s₄.sasy_unlock h').sasy_unlock h)).segment i).id = (s₁.segment i).id) ∧
    ∀ i, i ≠ k → Follows i 0 s₁ ((s₄.sasy_unlock h').sasy_unlock h) := by
  obtain ⟨hg₂, hf₂⟩ := hg₁.lock (h := h) (fun i hi => by
    obtain rfl : j = i := by simpa [hget] using hi
    exact hcount) (fun i hi => by
    obtain rfl : j = i := by simpa [hget] using hi
    exact hlocked)
  have hsucceeds := hg₁.lock_succeeds hget
  obtain ⟨hh₂, hid₂⟩ := lock_frame s₁ h
  have hk₂ := lock_other (i := k) hget (Ne.symm hjk)
  have hget₂ : (s₁.sasy_lock h).2.table.handle_get_segment h' = some k := by
    rw [Table.handle_get_segment_congr hh₂, hget']
  simp only [Sasy.step, lock_change] at hg₂ hf₂
  generalize (s₁.sasy_lock h).1 = addr at hsucceeds hf₂
  generalize (s₁.sasy_lock h).2 = s₂ at hg₂ hf₂ hh₂ hid₂ hk₂ hget₂ hs₄
  obtain ⟨hg₃, hf₃⟩ := hg₂.lock (h := h') (fun i hi => by
    obtain rfl : k = i := by simpa [hget₂] using hi
    rw [hk₂]
    exact hcount') (fun i hi => by
    obtain rfl : k = i := by simpa [hget₂] using hi
    rw [hk₂]
    exact hlocked')
  obtain ⟨hh₃, hid₃⟩ := lock_frame s₂ h'
  simp only [Sasy.step, lock_change] at hg₃ hf₃
  generalize (s₂.sasy_lock h').1 = addr' at hf₃
  generalize (s₂.sasy_lock h').2 = s₃ at hg₃ hf₃ hh₃ hid₃ hs₄
  -- the copy writes bytes only
  obtain ⟨hg₄, hf₄, htable₄⟩ : s₄.Good ∧ (∀ i, Follows i 0 s₃ s₄) ∧ s₄.table = s₃.table := by
    rcases hs₄ with rfl | ⟨dst, src, n, rfl⟩
    · exact ⟨hg₃, fun i => .of_same (fun _ => rfl) fun _ _ => .refl, rfl⟩
    · obtain ⟨hg₄, hf₄⟩ := hg₃.of_same (s₃.backing.fill_same dst (fun o => s₃.backing.peek (src + o)) n)
      exact ⟨hg₄, hf₄, rfl⟩
  have hh₄ : s₄.table.handles = s₁.table.handles := by rw [htable₄, hh₃, hh₂]
  have hid₄ : ∀ i, (s₄.segment i).id = (s₃.segment i).id := fun i => by rw [segment, htable₄]; rfl
  obtain ⟨hg₅, hf₅⟩ := hg₄.unlock h'
  obtain ⟨hh₅, hid₅⟩ := unlock_frame s₄ h'
  simp only [Sasy.step, lock_change] at hg₅ hf₅
  generalize s₄.sasy_unlock h' = s₅ at hg₅ hf₅ hh₅ hid₅
  obtain ⟨hg₆, hf₆⟩ := hg₅.unlock h
  obtain ⟨-, hid₆⟩ := unlock_frame s₅ h
  simp only [Sasy.step, lock_change] at hg₆ hf₆
  refine ⟨hg₆, fun i => by rw [hid₆, hid₅, hid₄, hid₃, hid₂], fun i hik => ?_⟩
  rw [Table.handle_get_segment_congr hh₄, hget'] at hf₅
  rw [Table.handle_get_segment_congr (hh₅.trans hh₄), hget] at hf₆
  rw [hget] at hf₂
  rw [hget₂] at hf₃
  have hki : ¬ (some k = some i) := fun heq => hik (by simpa using heq.symm)
  -- only the first lock and the last unlock reach a segment other than the new one
  have hf₃₅ : Follows i 0 s₂ s₅ := by
    have h3 := hf₃ i
    have h5 := hf₅ i
    rw [if_neg (fun hc => hki hc.1)] at h3
    rw [if_neg hki] at h5
    exact h3.zero_trans ((hf₄ i).zero_trans h5 (hid₄ i)) (hid₃ i)
  have hid₂₅ : (s₅.segment i).id = (s₂.segment i).id := by rw [hid₅, hid₄, hid₃]
  have h2 := hf₂ i
  have h6 := hf₆ i
  by_cases hij : i = j
  · subst hij
    by_cases hzero : (s₁.segment i).locked = 0
    · exact .unlocked hzero
    · rw [if_pos ⟨rfl, hsucceeds (by omega)⟩] at h2
      rw [if_pos rfl] at h6
      have hle₂ := (h2 (hid₂ i)).1
      have h25 := h2.trans hf₃₅ (hid₂ i) fun _ _ => by omega
      have hle₅ := (h25 (hid₂₅.trans (hid₂ i))).1
      exact h25.trans h6 (hid₂₅.trans (hid₂ i)) fun _ _ => by omega
  · have hji : ¬ (some j = some i) := fun heq => hij (by simpa using heq.symm)
    rw [if_neg (fun hc => hji hc.1)] at h2
    rw [if_neg hji] at h6
    exact h2.zero_trans (hf₃₅.zero_trans h6 hid₂₅) (hid₂ i)

theorem Good.clone (hg : s.Good) {pid : Nat} (hst : s.Steady (.clone h pid)) :
    (s.step (.clone h pid)).Good ∧ ∀ i, Follows i 0 s (s.step (.clone h pid)) := by
  have ha := hg.apart.step hst.fits
  have hl := hg.linked.step hst.counts
  simp only [Sasy.step] at ha hl ⊢
  rcases clone_steps s h pid with hsame | ⟨j, hget, ⟨-, hdup⟩ | ⟨htype, hcreate⟩⟩
  · rw [hsame]
    exact ⟨hg, fun i => .of_same (fun _ => rfl) fun _ _ => .refl⟩
  · rw [hdup] at ha hl ⊢
    refine hg.of_table ha hl fun k => ?_
    rcases Table.handle_dup_eq hget pid with hd | hd
    · rw [hd]
      exact ⟨rfl, rfl, rfl, rfl⟩
    · rw [hd, (Table.handle_alloc_keeps _ _ _).1]
      by_cases hkj : k = j
      · simp [Table.retain, Table.set_segment, segment, hkj]
      · simp [Table.retain, Table.set_segment, segment, hkj]
  · have hlive : (s.segment j).id ≠ 0 := (hg.linked.live hget).1
    obtain ⟨hg₁, hf₁⟩ := hg.create (s.segment j).size (s.segment j).type (s.segment j).flags pid
      (fun hslot => hst.fits hslot j hget htype) hst.counts.1
    have htable := create_table s (s.segment j).size (s.segment j).type (s.segment j).flags pid
    simp only [Sasy.step] at hg₁ hf₁
    dsimp only at hcreate
    generalize s.sasy_create_ex (s.segment j).size (s.segment j).type (s.segment j).flags pid = r
      at hcreate hg₁ hf₁ htable
    obtain ⟨h', s₁⟩ := r
    dsimp only at hcreate hg₁ hf₁ htable
    rcases hcreate with hfail | ⟨hsome, s₄, hs₄, hclone⟩
    · rw [hfail]
      exact ⟨hg₁, hf₁⟩
    · obtain ⟨k, hslot, hfree, hnew⟩ : ∃ k, s.table.free_slot = some k ∧ s.table.free_handle = some h' ∧
          s₁.table = s.table.create k h' (s.segment j).size (s.segment j).type (s.segment j).flags pid := by
        rcases htable with ⟨hn, -⟩ | ⟨k, h'', hslot, hfree, -, -, -, heq, hnew⟩
        · exact absurd hn hsome
        · subst heq
          exact ⟨k, hslot, hfree, hnew⟩
      have hjk : j ≠ k := by
        rintro rfl
        exact hlive (Table.free_slot_some hslot).2
      have hother : ∀ i, i ≠ k → s₁.segment i = s.segment i := fun i hik => by
        simp [segment, hnew, Table.create, Table.new_segment, Table.set_segment, hik]
      obtain ⟨hg₆, hid₆, hf₆⟩ :=
          hg₁.copying (show s₁.table.handle_get_segment h = some j by rw [hnew]; exact create_get_other hfree hget)
        (show s₁.table.handle_get_segment h' = some k by rw [hnew]; exact create_get_segment hfree) hjk
        (by rw [hother j hjk]; exact hst.counts.2 j hget)
        (by simp [segment, hnew, Table.create, Table.new_segment, Table.set_segment])
        (by rw [hother j hjk]; exact hst.shallow j hget htype)
        (by simp [segment, hnew, Table.create, Table.new_segment, Table.set_segment]) hs₄
      rw [hclone]
      refine ⟨hg₆, fun i => ?_⟩
      by_cases hik : i = k
      · exact .unlocked (hg.dead_unlocked (hik ▸ (Table.free_slot_some hslot).2))
      · exact (hf₁ i).zero_trans (hf₆ i hik) (by rw [hother i hik])

theorem Good.step (hg : s.Good) {call : Call} (hst : s.Steady call) :
    (s.step call).Good ∧ ∀ i, Follows i (s.lock_change i call) s (s.step call) := by
  cases call with
  | create size type flags pid => exact hg.create size type flags pid hst.fits hst.counts
  | lock h => exact hg.lock hst.counts hst.shallow
  | unlock h => exact hg.unlock h
  | free h => exact hg.free h
  | resize h new_size => exact hg.resize hst.fits
  | mark_dirty h => exact hg.mark_dirty h
  | pressure => exact hg.pressure
  | load_code path found pid => exact hg.load_code hst.fits hst.counts
  | clone h pid => exact hg.clone hst
  | fault addr => exact hg.fault addr
  | poke addr value => exact hg.of_same ⟨rfl, rfl, rfl, rfl⟩

theorem init_good (b : Backing) : (Sasy.init b).Good :=
  ⟨init_apart b, init_linked b, fun _ hi => absurd rfl hi, fun _ hi => absurd hi (lt_irrefl 0)⟩

end Sasy

/-- The allocator with, for each segment, the number of successful `sasy_lock` calls on it less the
number of `sasy_unlock` calls. The number of a slot starts again with the segment in it. -/
structure Watched where
  now : Sasy
  depth : Nat → Int

namespace Watched

def init (b : Backing) : Watched := ⟨.init b, fun _ => 0⟩

def step (w : Watched) (call : Call) : Watched :=
  { now := w.now.step call
    depth := fun i => if ((w.now.step call).segment i).id = (w.now.segment i).id
      then w.depth i + w.now.lock_change i call else 0 }

/-- The locks that clients hold are counted. -/
structure Sound (w : Watched) : Prop where
  good : w.now.Good
  depth : ∀ i, w.depth i ≤ (w.now.segment i).locked

variable {w : Watched}

theorem Sound.step (hw : w.Sound) {call : Call} (hst : w.now.Steady call) : (w.step call).Sound ∧
    ∀ i, 0 < w.depth i → 0 < (w.step call).depth i → Sasy.Stays i w.now (w.step call).now := by
  obtain ⟨hgood, hfollows⟩ := hw.good.step hst
  have hdepth : ∀ i, (w.step call).depth i ≤ ((w.step call).now.segment i).locked := by
    intro i
    have hle := hw.depth i
    simp only [Watched.step]
    split
    · next hid =>
      have := (hfollows i hid).1
      omega
    · omega
  refine ⟨⟨hgood, hdepth⟩, fun i hpos hpos' => ?_⟩
  have hle := hw.depth i
  have hle' := hdepth i
  have hid : ((w.now.step call).segment i).id = (w.now.segment i).id := by
    by_contra hne
    simp only [Watched.step, if_neg hne] at hpos'
    omega
  exact (hfollows i hid).2 (by omega) (by simp only [Watched.step] at hle' hpos' ⊢; omega)

theorem init_sound (b : Backing) : (init b).Sound := ⟨Sasy.init_good b, fun _ => le_refl _⟩

theorem Sound.run (hw : w.Sound) {calls : List Call}
    (hsteady : Along Watched.step (fun w => w.now.Steady) w calls) : (run Watched.step w calls).Sound :=
  hsteady.invariant (I := Sound) (fun _ _ hs hcall => (hs.step hcall).1) hw

theorem Sound.stays (hw : w.Sound) {calls : List Call} {i : Nat}
    (hsteady : Along Watched.step (fun w => w.now.Steady) w calls)
    (hlocked : ∀ rest, rest <+: calls → 0 < (machine.run Watched.step w rest).depth i) :
    Sasy.Stays i w.now (machine.run Watched.step w calls).now := by
  induction calls generalizing w with
  | nil => exact .refl
  | cons call calls ih =>
    obtain ⟨hst, hrest⟩ := hsteady
    obtain ⟨hw₁, hstays⟩ := hw.step hst
    refine (hstays i (hlocked [] List.nil_prefix) (hlocked [call] (by simp))).trans
      (ih hw₁ hrest fun rest hpre => ?_)
    exact hlocked (call :: rest) (by simpa using hpre)

end Watched

/-- While clients have locked a segment more often than unlocked it, it is resident, in its place
and on its frames. -/
theorem locked_segment_stays (b : Backing) {first second : List Call} {i : Nat}
    (hsteady : Along Watched.step (fun w => w.now.Steady) (.init b) (first ++ second))
    (hlocked : ∀ rest, rest <+: second → 0 < (run Watched.step (.init b) (first ++ rest)).depth i) :
    let s := (run Watched.step (.init b) first).now
    let s' := (run Watched.step (.init b) (first ++ second)).now
    s'.backing.present i = true ∧ (s'.segment i).base = (s.segment i).base ∧
    (s'.segment i).size = (s.segment i).size ∧ s'.backing.phys i = s.backing.phys i ∧
    s'.backing.Held (s'.segment i) i := by
  intro s s'
  obtain ⟨hfirst, hsecond⟩ := along_append.mp hsteady
  have hsound := (Watched.init_sound b).run hfirst
  have hsound' := (Watched.init_sound b).run hsteady
  have hstays : Sasy.Stays i s s' := by
    have := hsound.stays hsecond fun rest hpre => by
      rw [← run_append]
      exact hlocked rest hpre
    rw [← run_append] at this
    exact this
  have hdepth := hsound'.depth i
  have hpos := hlocked second (List.prefix_refl second)
  obtain ⟨hlive, hpresent⟩ := hsound'.good.kept.locked i (by omega)
  exact ⟨hpresent, hstays.base, hstays.size, hstays.phys, hsound'.good.kept.held i hlive hpresent⟩

/-- A segment that is locked once, marked as dirty and told to shrink. -/
theorem locked_once_stays :
    let s := (run Watched.step (.init .blank) [.create 4096 .manual 0 1, .lock 0, .mark_dirty 0, .resize 0 0]).now
    s.backing.present 0 = true ∧ (s.segment 0).size = 4096 := by
  have hstays := @locked_segment_stays .blank [.create 4096 .manual 0 1, .lock 0] [.mark_dirty 0, .resize 0 0] 0 ?_ ?_
  · exact ⟨hstays.1, hstays.2.2.1.trans (by decide +kernel)⟩
  · refine ⟨⟨fun _ => by decide +kernel, Nat.one_ne_zero, trivial⟩, ⟨trivial, ?_, ?_⟩,
      ⟨trivial, trivial, trivial⟩, ⟨?_, trivial, trivial⟩, trivial⟩
    · intro i hget
      have hi : some 0 = some i := Eq.trans (by decide +kernel) hget
      cases hi
      decide +kernel
    · intro i hget
      have hi : some 0 = some i := Eq.trans (by decide +kernel) hget
      cases hi
      decide +kernel
    · intro i hget hgrows
      have hi : some 0 = some i := Eq.trans (by decide +kernel) hget
      cases hi
      exact absurd hgrows.1 (by decide +kernel)
  · intro rest hpre
    have hrest : rest ∈ List.inits [Call.mark_dirty 0, .resize 0 0] := (List.mem_inits _ _).mpr hpre
    simp only [List.inits, List.map_cons, List.map_nil, List.mem_cons, List.not_mem_nil, or_false] at hrest
    rcases hrest with rfl | rfl | rfl <;> decide +kernel

/-- A segment of one page is locked 256 times, and its resize to nothing is not refused. -/
theorem deep_lock_resized :
    let w := run Watched.step (.init .blank) (.create 4096 .manual 0 1 :: List.replicate 256 (.lock 0))
    let w' := w.step (.resize 0 0)
    0 < w.depth 0 ∧ 0 < w'.depth 0 ∧ (w.now.segment 0).size = 4096 ∧ (w'.now.segment 0).size = 0 := by
  decide +kernel

end graceos.sasy
