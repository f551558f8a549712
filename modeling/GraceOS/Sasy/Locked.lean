import GraceOS.Sasy.Resident

/-!
# Locked segments stay

What each function does to the segments: resident ones are mapped, locked ones are resident, and a
locked segment is neither evicted nor resized. Work on other segments does not reach it.
-/

namespace graceos.sasy

open mm machine

/-- Resident segments are mapped, and locked segments are resident. -/
structure Sasy.Kept (s : Sasy) : Prop where
  held : ∀ i, (s.segment i).id ≠ 0 → s.backing.present i = true → s.backing.Held (s.segment i) i
  locked : ∀ i, 0 < (s.segment i).locked → (s.segment i).id ≠ 0 ∧ s.backing.present i = true

/-- The segment `i` is where it was. -/
structure Sasy.Stays (i : Nat) (s s' : Sasy) : Prop where
  base : (s'.segment i).base = (s.segment i).base
  size : (s'.segment i).size = (s.segment i).size
  present : s'.backing.present i = s.backing.present i
  phys : s'.backing.phys i = s.backing.phys i

namespace Sasy

variable {s s' s'' : Sasy} {i j h : Nat} {g : Segment}

theorem Stays.refl : Stays i s s := ⟨rfl, rfl, rfl, rfl⟩

theorem Stays.trans (hs : Stays i s s') (hs' : Stays i s' s'') : Stays i s s'' :=
  ⟨hs'.base.trans hs.base, hs'.size.trans hs.size, hs'.present.trans hs.present, hs'.phys.trans hs.phys⟩

/-- Work on the segment `j`, with the descriptor `g` during it. -/
structure Works (j : Nat) (g : Segment) (s s' : Sasy) : Prop where
  others : ∀ i, i ≠ j → s'.segment i = s.segment i
  backing : Backing.Local g j s.backing s'.backing
  away : ∀ i, i ≠ j → (s.segment i).id ≠ 0 → ∀ v, (s.segment i).Covers v → ¬ g.Covers v

theorem Works.stays (hw : Works j g s s') (hij : i ≠ j) : Stays i s s' :=
  ⟨by rw [hw.others i hij], by rw [hw.others i hij], hw.backing.present i hij, hw.backing.phys i hij⟩

theorem Kept.work (hk : s.Kept) (hw : Works j g s s')
    (hheld : (s'.segment j).id ≠ 0 → s'.backing.present j = true → s'.backing.Held (s'.segment j) j)
    (hlocked : 0 < (s'.segment j).locked → (s'.segment j).id ≠ 0 ∧ s'.backing.present j = true) : s'.Kept := by
  refine ⟨fun i hi hpresent => ?_, fun i hi => ?_⟩
  · by_cases hij : i = j
    · subst hij
      exact hheld hi hpresent
    · rw [hw.others i hij] at hi ⊢
      rw [hw.backing.present i hij] at hpresent
      exact (hk.held i hi hpresent).of_local hw.backing hij (hw.away i hij hi)
  · by_cases hij : i = j
    · subst hij
      exact hlocked hi
    · rw [hw.others i hij] at hi ⊢
      rw [hw.backing.present i hij]
      exact hk.locked i hi

theorem Kept.of_table (hk : s.Kept) {t : Table}
    (hsame : ∀ i, (t.segments i).id = (s.segment i).id ∧ (t.segments i).base = (s.segment i).base ∧
      (t.segments i).size = (s.segment i).size ∧ (t.segments i).locked = (s.segment i).locked) :
    Kept ⟨t, s.backing⟩ := by
  refine ⟨fun i hi hpresent => ?_, fun i hi => ?_⟩
  · obtain ⟨hid, hbase, hsize, -⟩ := hsame i
    have hheld := hk.held i (hid ▸ hi) hpresent
    intro k hkp
    simp only [segment, Segment.pages, hbase, hsize] at hkp ⊢
    exact hheld k hkp
  · obtain ⟨hid, -, -, hlocked⟩ := hsame i
    have := hk.locked i (by rw [← hlocked]; exact hi)
    exact ⟨by rw [segment, hid]; exact this.1, this.2⟩

variable (hk : s.Kept) (ha : s.table.Apart)

theorem away_of (ha : s.table.Apart) (hj : (s.segment j).id ≠ 0) :
    ∀ i, i ≠ j → (s.segment i).id ≠ 0 → ∀ v, (s.segment i).Covers v → ¬ (s.segment j).Covers v :=
  fun _ hij hi _ hv => ha.covers hi hj hij hv

include hk ha

theorem Kept.sasy_pagein (hlive : (s.segment j).id ≠ 0) (i : Nat) :
    Kept ⟨s.table, (s.backing.sasy_pagein (s.segment j) j).2⟩ ∧
      (0 < (s.segment i).locked → Stays i s ⟨s.table, (s.backing.sasy_pagein (s.segment j) j).2⟩) := by
  obtain ⟨hpresent, hheld⟩ := Backing.sasy_pagein_spec (g := s.segment j) (ha.inSpace hlive) (hk.held j hlive)
  have hw : Works j (s.segment j) s ⟨s.table, (s.backing.sasy_pagein (s.segment j) j).2⟩ :=
    ⟨fun _ _ => rfl, s.backing.sasy_pagein_local, away_of ha hlive⟩
  -- a segment that is already there is not touched
  have hnoop : 0 < (s.segment j).locked → (s.backing.sasy_pagein (s.segment j) j) = (true, s.backing) := by
    intro hlocked
    rw [Backing.sasy_pagein, if_pos (hk.locked j hlocked).2]
  refine ⟨hk.work hw (fun _ hp => hheld (hpresent.symm.trans hp)) fun hlocked => ?_, fun hlocked => ?_⟩
  · rw [hnoop hlocked]
    exact hk.locked j hlocked
  · by_cases hij : i = j
    · subst hij
      rw [hnoop hlocked]
      exact .refl
    · exact hw.stays hij

theorem Kept.sasy_lock (hl : s.table.Linked) (h i : Nat) :
    (s.sasy_lock h).2.Kept ∧ (0 < (s.segment i).locked → Stays i s (s.sasy_lock h).2) := by
  rw [Sasy.sasy_lock]
  cases hget : s.table.handle_get_segment h with
  | none => exact ⟨hk, fun _ => .refl⟩
  | some j =>
    have hlive : (s.segment j).id ≠ 0 := (hl.live hget).1
    have hpresent := (Backing.sasy_pagein_spec (g := s.segment j) (ha.inSpace hlive) (hk.held j hlive)).1
    obtain ⟨hk₁, hstays⟩ := hk.sasy_pagein ha hlive i
    dsimp only
    generalize s.backing.sasy_pagein (s.segment j) j = r at hpresent hk₁ hstays
    obtain ⟨ok, b⟩ := r
    dsimp only at hpresent hk₁ hstays
    cases ok with
    | false => exact ⟨hk₁, hstays⟩
    | true =>
      have hself : (s.table.lock j).segments j = { s.segment j with
          locked := ((s.segment j).locked + 1) % 2 ^ 8, refcnt := ((s.segment j).refcnt + 1) % 2 ^ 32 } := by
        simp [segment, Table.lock, Table.set_segment]
      have hother : ∀ k, k ≠ j → (s.table.lock j).segments k = s.segment k := fun k hkj => by
        simp [segment, Table.lock, Table.set_segment, hkj]
      refine ⟨⟨fun k hki hp => ?_, fun k hki => ?_⟩, fun hlocked => (hstays hlocked).trans ?_⟩
      · by_cases hkj : k = j
        · subst hkj
          intro m hm
          simp only [segment, hself, Segment.pages] at hm ⊢
          exact hk₁.held k hlive hp m hm
        · simp only [segment, hother k hkj] at hki ⊢
          exact hk₁.held k hki hp
      · by_cases hkj : k = j
        · subst hkj
          simp only [segment, hself]
          exact ⟨hlive, hpresent⟩
        · simp only [segment, hother k hkj] at hki ⊢
          exact hk₁.locked k hki
      · by_cases hij : i = j
        · subst hij
          exact ⟨by rw [segment, hself]; rfl, by rw [segment, hself]; rfl, rfl, rfl⟩
        · exact ⟨by rw [segment, hother i hij]; rfl, by rw [segment, hother i hij]; rfl, rfl, rfl⟩

theorem Kept.swap_out (hlive : (s.segment j).id ≠ 0) (i : Nat) :
    Kept ⟨s.table, (s.backing.swap_out (s.segment j) j).2⟩ ∧
      (0 < (s.segment i).locked → Stays i s ⟨s.table, (s.backing.swap_out (s.segment j) j).2⟩) := by
  have hw : Works j (s.segment j) s ⟨s.table, (s.backing.swap_out (s.segment j) j).2⟩ :=
    ⟨fun _ _ => rfl, s.backing.swap_out_local, away_of ha hlive⟩
  have hnoop : 0 < (s.segment j).locked → (s.backing.swap_out (s.segment j) j).2 = s.backing := fun hlocked =>
    Backing.swap_out_same fun hmay => by
      have := hmay.2.2.1
      omega
  refine ⟨hk.work hw (fun _ hp => ?_) fun hlocked => ?_, fun hlocked => ?_⟩
  · exact Backing.swap_out_held (hk.held j hlive) hp
  · rw [hnoop hlocked]
    exact hk.locked j hlocked
  · by_cases hij : i = j
    · subst hij
      rw [hnoop hlocked]
      exact .refl
    · exact hw.stays hij

theorem Kept.sasy_unlock (hl : s.table.Linked) (h i : Nat) :
    (s.sasy_unlock h).Kept ∧
      (0 < ((s.sasy_unlock h).segment i).locked → Stays i s (s.sasy_unlock h)) := by
  rw [Sasy.sasy_unlock]
  cases hget : s.table.handle_get_segment h with
  | none => exact ⟨hk, fun _ => .refl⟩
  | some j =>
    have hlive : (s.segment j).id ≠ 0 := (hl.live hget).1
    have hself : (s.table.unlock j).segments j = { s.segment j with locked := (s.segment j).locked - 1 } := by
      simp [Table.unlock, Table.set_segment, segment]
    have hother : ∀ k, k ≠ j → (s.table.unlock j).segments k = s.segment k := fun k hkj => by
      simp [Table.unlock, Table.set_segment, segment, hkj]
    -- first the lock is dropped
    have hk₁ : Kept ⟨s.table.unlock j, s.backing⟩ := by
      refine ⟨fun k hki hp => ?_, fun k hki => ?_⟩
      · by_cases hkj : k = j
        · subst hkj
          intro m hm
          simp only [segment, hself, Segment.pages] at hm ⊢
          exact hk.held k hlive hp m hm
        · simp only [segment, hother k hkj] at hki ⊢
          exact hk.held k hki hp
      · by_cases hkj : k = j
        · subst hkj
          simp only [segment, hself] at hki
          refine ⟨?_, (hk.locked k (by simp only [segment]; omega)).2⟩
          simp only [segment, hself]
          exact hlive
        · simp only [segment, hother k hkj] at hki ⊢
          exact hk.locked k hki
    have hstays : Stays i s ⟨s.table.unlock j, s.backing⟩ := by
      by_cases hij : i = j
      · subst hij
        exact ⟨by rw [segment, hself], by rw [segment, hself], rfl, rfl⟩
      · exact ⟨by rw [segment, hother i hij], by rw [segment, hother i hij], rfl, rfl⟩
    have hlive₁ : ((s.table.unlock j).segments j).id ≠ 0 := by
      rw [hself]
      exact hlive
    -- then the segment may be swapped out
    have hsched := hk₁.swap_out (ha.unlock j) (j := j) hlive₁ i
    dsimp only
    split
    · rw [Backing.swap_schedule]
      split
      · exact ⟨hsched.1, fun hlocked => hstays.trans (hsched.2 hlocked)⟩
      · exact ⟨hk₁, fun _ => hstays⟩
    · exact ⟨hk₁, fun _ => hstays⟩

theorem Kept.evict (hlive : (s.segment j).id ≠ 0) (hunlocked : (s.segment j).locked = 0) (i : Nat) :
    Kept ⟨s.table, s.backing.evict (s.segment j) j⟩ ∧
      (0 < (s.segment i).locked → Stays i s ⟨s.table, s.backing.evict (s.segment j) j⟩) := by
  have hw : Works j (s.segment j) s ⟨s.table, s.backing.evict (s.segment j) j⟩ :=
    ⟨fun _ _ => rfl, s.backing.evict_local, away_of ha hlive⟩
  refine ⟨hk.work hw (fun _ hp => ?_) fun hlocked => ?_, fun hlocked => hw.stays fun hij => ?_⟩
  · dsimp only at hp
    rw [Backing.evict_present] at hp
    cases hp
  · simp only [segment] at hlocked hunlocked
    omega
  · rw [hij] at hlocked
    omega

theorem Kept.sasy_pageout (hlive : (s.segment j).id ≠ 0) (i : Nat) :
    Kept ⟨s.table, s.backing.sasy_pageout (s.segment j) j⟩ ∧
      (0 < (s.segment i).locked → Stays i s ⟨s.table, s.backing.sasy_pageout (s.segment j) j⟩) := by
  rw [Backing.sasy_pageout]
  split_ifs with habsent hlocked
  · exact ⟨hk, fun _ => .refl⟩
  · exact ⟨hk, fun _ => .refl⟩
  · exact hk.evict ha hlive (by omega) i
  · exact hk.swap_out ha hlive i

omit hk ha in
theorem each_segment_keeps {f : Segment → Nat → Backing → Backing} {t : Table}
    (hpass : ∀ j b, (t.segments j).id ≠ 0 → Kept ⟨t, b⟩ → Kept ⟨t, f (t.segments j) j b⟩ ∧
      ∀ i, 0 < (t.segments i).locked → Stays i ⟨t, b⟩ ⟨t, f (t.segments j) j b⟩)
    (fuel j : Nat) {b : Backing} (hk : Kept ⟨t, b⟩) :
    Kept ⟨t, each_segment f t fuel j b⟩ ∧
      ∀ i, 0 < (t.segments i).locked → Stays i ⟨t, b⟩ ⟨t, each_segment f t fuel j b⟩ := by
  induction fuel generalizing j b with
  | zero => exact ⟨hk, fun _ _ => .refl⟩
  | succ fuel ih =>
    rw [each_segment]
    split
    · exact ih (j + 1) hk
    · next hlive =>
      obtain ⟨hk₁, hstays₁⟩ := hpass j b hlive hk
      obtain ⟨hk₂, hstays₂⟩ := ih (j + 1) hk₁
      exact ⟨hk₂, fun i hi => (hstays₁ i hi).trans (hstays₂ i hi)⟩

theorem Kept.sasy_pressure :
    s.sasy_pressure.Kept ∧ ∀ i, 0 < (s.segment i).locked → Stays i s s.sasy_pressure := by
  rw [Sasy.sasy_pressure]
  have hfirst := each_segment_keeps (t := s.table) (f := fun (g : Segment) i (b : Backing) =>
    if g.has SEG_FLAG_DISCARD ∧ g.locked = 0 ∧ ¬ g.dirty ∧ g.refcnt = 0 then b.sasy_pageout g i else b)
    (fun j b hlive hk => by
      split
      · exact ⟨(hk.sasy_pageout ha hlive j).1, fun i => (hk.sasy_pageout ha hlive i).2⟩
      · exact ⟨hk, fun _ _ => .refl⟩) MAX_SEGMENTS 0 hk
  generalize each_segment (fun (g : Segment) i (b : Backing) =>
    if g.has SEG_FLAG_DISCARD ∧ g.locked = 0 ∧ ¬ g.dirty ∧ g.refcnt = 0 then b.sasy_pageout g i else b)
    s.table MAX_SEGMENTS 0 s.backing = b₁ at hfirst
  have hsecond := each_segment_keeps (t := s.table) (f := fun (g : Segment) i (b : Backing) =>
    if b.swap_can_swap g i then (b.swap_out g i).2 else b)
    (fun j b hlive hk => by
      split
      · exact ⟨(hk.swap_out ha hlive j).1, fun i => (hk.swap_out ha hlive i).2⟩
      · exact ⟨hk, fun _ _ => .refl⟩) MAX_SEGMENTS 0 hfirst.1
  exact ⟨hsecond.1, fun i hi => (hfirst.2 i hi).trans (hsecond.2 i hi)⟩

theorem Kept.sasy_free (hl : s.table.Linked) (h i : Nat) :
    (s.sasy_free h).Kept ∧ (((s.sasy_free h).segment i).id ≠ 0 → Stays i s (s.sasy_free h)) := by
  rw [Sasy.sasy_free]
  cases hget : s.table.handle_get_segment h with
  | none => exact ⟨hk, fun _ => .refl⟩
  | some j =>
    have hlive : (s.segment j).id ≠ 0 := (hl.live hget).1
    have hsegs := (Table.release_segments hget).1
    have hself : (s.table.release h j).segments j = { s.segment j with refcnt := (s.segment j).refcnt - 1 } := by
      rw [hsegs, Function.update_self]
      rfl
    have hother : ∀ k, k ≠ j → (s.table.release h j).segments k = s.segment k := fun k hkj => by
      rw [hsegs, Function.update_of_ne hkj]
      rfl
    dsimp only
    split
    · have hreclaim : ∀ k, ((s.table.release h j).reclaim j).segments k =
          if k = j then .clear else (s.table.release h j).segments k := by
        intro k
        have hkeeps := (Table.unregister_keeps (s.table.release h j) j).1
        by_cases hkj : k = j
        · simp [Table.reclaim, Table.free_segment, Table.set_segment, hkj]
        · simp only [Table.reclaim, Table.free_segment, Table.set_segment, Function.update_of_ne hkj, if_neg hkj]
          split
          · rw [hkeeps]
          · rfl
      have haway : ∀ i, i ≠ j → (s.segment i).id ≠ 0 → ∀ v, (s.segment i).Covers v →
          ¬ ((s.table.release h j).segments j).Covers v := by
        rw [hself]
        exact away_of ha hlive
      have hw : Works j ((s.table.release h j).segments j) s ⟨(s.table.release h j).reclaim j,
          s.backing.discard ((s.table.release h j).segments j) j⟩ := by
        refine ⟨fun i hi => ?_, s.backing.discard_local, haway⟩
        rw [segment, hreclaim i, if_neg hi, hother i hi]
      have hcleared : (Sasy.segment ⟨(s.table.release h j).reclaim j,
          s.backing.discard ((s.table.release h j).segments j) j⟩ j) = .clear := by
        rw [segment, hreclaim j, if_pos rfl]
      refine ⟨hk.work hw (fun hid => ?_) fun hlocked => ?_, fun hid => hw.stays fun hij => ?_⟩
      · rw [hcleared] at hid
        exact absurd rfl hid
      · rw [hcleared] at hlocked
        exact absurd hlocked (lt_irrefl 0)
      · subst hij
        rw [hcleared] at hid
        exact absurd rfl hid
    · refine ⟨hk.of_table fun k => ?_, fun _ => ?_⟩
      · by_cases hkj : k = j
        · subst hkj
          rw [hself]
          exact ⟨rfl, rfl, rfl, rfl⟩
        · rw [hother k hkj]
          exact ⟨rfl, rfl, rfl, rfl⟩
      · by_cases hij : i = j
        · subst hij
          exact ⟨by rw [segment, hself], by rw [segment, hself], rfl, rfl⟩
        · exact ⟨by rw [segment, hother i hij], by rw [segment, hother i hij], rfl, rfl⟩

theorem Kept.sasy_resize (hl : s.table.Linked) (h new_size i : Nat) :
    (s.sasy_resize h new_size).2.Kept ∧
      (0 < (s.segment i).locked → Stays i s (s.sasy_resize h new_size).2) := by
  rw [Sasy.sasy_resize]
  cases hget : s.table.handle_get_segment h with
  | none => exact ⟨hk, fun _ => .refl⟩
  | some j =>
    have hlive : (s.segment j).id ≠ 0 := (hl.live hget).1
    have hself : (s.table.set_segment j { s.segment j with size := align_up new_size PAGE_SIZE }).segments j =
        { s.segment j with size := align_up new_size PAGE_SIZE } := by simp [Table.set_segment]
    have hother : ∀ k, k ≠ j → (s.table.set_segment j
        { s.segment j with size := align_up new_size PAGE_SIZE }).segments k = s.segment k := fun k hkj => by
      simp [Table.set_segment, segment, hkj]
    dsimp only
    generalize s.table.set_segment j { s.segment j with size := align_up new_size PAGE_SIZE } = t at hself hother
    split_ifs with hlocked htype hsame hgrow hpresent hpresent
    · exact ⟨hk, fun _ => .refl⟩
    · exact ⟨hk, fun _ => .refl⟩
    · exact ⟨hk, fun _ => .refl⟩
    · exact ⟨hk, fun _ => .refl⟩
    · -- a segment that is not there grows
      have hw : Works j (s.segment j) s ⟨t, s.backing⟩ :=
        ⟨hother, .refl, away_of ha hlive⟩
      refine ⟨hk.work hw (fun _ hp => absurd hp hpresent) fun hi => ?_, fun hi => hw.stays fun hij => ?_⟩
      · simp only [segment, hself] at hi hlocked
        omega
      · rw [hij] at hi
        omega
    · -- a resident segment gives up its last pages
      have hw : Works j (s.segment j) s ⟨t,
          s.backing.trim (s.segment j) j (align_up new_size PAGE_SIZE / PAGE_SIZE)⟩ :=
        ⟨hother, s.backing.trim_local _, away_of ha hlive⟩
      refine ⟨hk.work hw (fun _ _ => ?_) fun hi => ?_, fun hi => hw.stays fun hij => ?_⟩
      · have hheld := Backing.trim_held (hk.held j hlive hpresent) (ha.inSpace hlive)
          (show align_up new_size PAGE_SIZE / PAGE_SIZE ≤ (s.segment j).pages from Nat.div_le_div_right (by omega))
        intro m hm
        simp only [segment, hself, Segment.pages] at hm ⊢
        exact hheld m hm
      · simp only [segment, hself] at hi hlocked
        omega
      · rw [hij] at hi
        omega
    · have hw : Works j (s.segment j) s ⟨t, s.backing⟩ :=
        ⟨hother, .refl, away_of ha hlive⟩
      refine ⟨hk.work hw (fun _ hp => absurd hp hpresent) fun hi => ?_, fun hi => hw.stays fun hij => ?_⟩
      · simp only [segment, hself] at hi hlocked
        omega
      · rw [hij] at hi
        omega

omit hk in
/-- The memory of a new segment lies above the others. -/
theorem place_works {size : Nat} (type : SegType) (flags : BitVec 32)
    (hfits : s.table.next_segment_base + align_up size PAGE_SIZE < 2 ^ 64) :
    let s₁ := (sasy_place ⟨s.table.new_segment j size type flags,
      (s.backing.set_present j false).set_swap_id j 0⟩ j).2
    s₁.table = s.table.new_segment j size type flags ∧
    (∃ g : Segment, Backing.Local g j s.backing s₁.backing ∧
      ∀ i, i ≠ j → (s.segment i).id ≠ 0 → ∀ v, (s.segment i).Covers v → ¬ g.Covers v) ∧
    (s₁.backing.present j = true → s₁.backing.Held (s₁.segment j) j) := by
  intro s₁
  have hnone : ∀ i, i ≠ j → (s.segment i).id ≠ 0 → ∀ v, (s.segment i).Covers v → ¬ Segment.clear.Covers v := by
    rintro _ _ _ _ _ ⟨k, hk, -⟩
    simp [Segment.clear, Segment.pages] at hk
  have hfields : ∀ g, Backing.Local g j s.backing ((s.backing.set_present j false).set_swap_id j 0) := fun g =>
    (Backing.set_present_local _ false).trans (Backing.set_swap_id_local _ 0)
  have habsent : ((s.backing.set_present j false).set_swap_id j 0).present j = false := by
    simp [Backing.set_present, Backing.set_swap_id]
  refine ⟨(place_table _ j).1, ?_⟩
  simp only [s₁, Sasy.sasy_place]
  split_ifs with hfull htype
  · exact ⟨⟨.clear, hfields _, hnone⟩, fun hp => absurd hp (by rw [habsent]; simp)⟩
  · -- the segment is mapped at once, between the old next address and the new one
    obtain ⟨hmod, -⟩ := ha.next_base hfits
    have hbase : ((s.table.new_segment j size type flags).segments j).base = s.table.next_segment_base := by
      simp [Table.new_segment, Table.set_segment]
    have hsize : ((s.table.new_segment j size type flags).segments j).size = align_up size PAGE_SIZE := by
      simp [Table.new_segment, Table.set_segment]
    have hspace : ((s.table.new_segment j size type flags).segments j).InSpace := by
      refine ⟨hbase ▸ ha.next.1, ?_, hbase ▸ ha.next.2.2, hsize ▸ Table.align_up_mod size⟩
      simp only [Table.new_segment] at hfull
      rw [hbase, hsize]
      omega
    refine ⟨⟨(s.table.new_segment j size type flags).segments j, (hfields _).trans
      (Backing.sasy_map_now_local _), fun i hij hi v hv => ?_⟩, fun hp => ?_⟩
    · refine (ha.inSpace hi).apart hspace (.inl ?_) hv
      rw [hbase]
      exact (ha.within i hi).2.1
    · have hspec := Backing.sasy_map_now_spec hspace habsent
      exact hspec.2 (hspec.1.symm.trans hp)
  · exact ⟨⟨.clear, hfields _, hnone⟩, fun hp => absurd hp (by rw [habsent]; simp)⟩

theorem Kept.sasy_create_ex {size : Nat} {type : SegType} {flags : BitVec 32} {pid : Nat}
    (hfits : s.table.free_slot.isSome → s.table.next_segment_base + align_up size PAGE_SIZE < 2 ^ 64) (i : Nat) :
    (s.sasy_create_ex size type flags pid).2.Kept ∧
      (0 < (s.segment i).locked → Stays i s (s.sasy_create_ex size type flags pid).2) := by
  rw [Sasy.sasy_create_ex]
  split
  · exact ⟨hk, fun _ => .refl⟩
  · cases hslot : s.table.free_slot with
    | none => exact ⟨hk, fun _ => .refl⟩
    | some j =>
      obtain ⟨htable, ⟨g, hlocal, haway⟩, hheld⟩ := place_works ha (j := j) type flags
        (hfits (by simp [hslot]))
      dsimp only at htable hlocal hheld ⊢
      generalize sasy_place ⟨s.table.new_segment j size type flags,
        (s.backing.set_present j false).set_swap_id j 0⟩ j = r at htable hlocal hheld
      obtain ⟨ok, s₁⟩ := r
      dsimp only at htable hlocal hheld
      have hdead : (s.segment j).id = 0 := (Table.free_slot_some hslot).2
      have hne : 0 < (s.segment i).locked → i ≠ j := by
        rintro hlocked rfl
        exact (hk.locked i hlocked).1 hdead
      have hother : ∀ k, k ≠ j → (s.table.new_segment j size type flags).segments k = s.segment k := fun k hkj => by
        simp [Table.new_segment, Table.set_segment, segment, hkj]
      -- the slot is given back
      have hback : (s₁.free_segment j).Kept ∧ (0 < (s.segment i).locked → Stays i s (s₁.free_segment j)) := by
        have hw : Works j g s (s₁.free_segment j) := by
          refine ⟨fun k hkj => ?_, hlocal.trans ((Backing.set_phys_local _ 0).trans
            ((Backing.set_present_local _ false).trans (Backing.set_swap_id_local _ 0))), haway⟩
          rw [← hother k hkj, ← htable]
          simp [segment, free_segment, Table.free_segment, Table.set_segment, hkj]
        have hcleared : (s₁.free_segment j).segment j = .clear := by
          simp [segment, free_segment, Table.free_segment, Table.set_segment]
        refine ⟨hk.work hw (fun hid => ?_) fun hlocked => ?_, fun hlocked => hw.stays (hne hlocked)⟩
        · rw [hcleared] at hid
          exact absurd rfl hid
        · rw [hcleared] at hlocked
          exact absurd hlocked (lt_irrefl 0)
      cases ok with
      | false => exact hback
      | true =>
        have hkeeps := (Table.handle_alloc_keeps s₁.table j pid).1
        dsimp only
        generalize s₁.table.handle_alloc j pid = r at hkeeps
        obtain ⟨h', t⟩ := r
        dsimp only at hkeeps ⊢
        split
        · exact hback
        · have hw : Works j g s ⟨t, s₁.backing⟩ := by
            refine ⟨fun k hkj => ?_, hlocal, haway⟩
            rw [segment, hkeeps, htable, hother k hkj]
          have hself : Sasy.segment ⟨t, s₁.backing⟩ j = s₁.segment j := by
            rw [segment, hkeeps]
            rfl
          refine ⟨hk.work hw (fun _ hp => ?_) fun hlocked => ?_, fun hlocked => hw.stays (hne hlocked)⟩
          · rw [hself]
            exact hheld hp
          · rw [hself, segment, htable] at hlocked
            simp [Table.new_segment, Table.set_segment] at hlocked

end Sasy

end graceos.sasy
