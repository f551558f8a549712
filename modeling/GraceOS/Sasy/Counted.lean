import GraceOS.Sasy.Watch
import GraceOS.Sasy.Unmapped

/-!
# References are dropped

A segment is given up with its last reference. Where no lock is ever taken back, its count is the
number of valid handles to it and of locks on it.
-/

namespace graceos.sasy

open mm machine Function

namespace Table

variable {t t' : Table} {locks locks' : Nat → Nat} {h i j k : Nat}

/-- The count of every segment is that of its handles and locks, and no live segment has none. -/
structure Exact (t : Table) (locks : Nat → Nat) : Prop where
  count : ∀ i, (t.segments i).refcnt = (t.holders i).card + locks i
  alive : ∀ i, (t.segments i).id ≠ 0 → 1 ≤ (t.segments i).refcnt

theorem Exact.dead (he : t.Exact locks) (hl : t.Linked) (hdead : (t.segments i).id = 0) :
    (t.segments i).refcnt = 0 ∧ t.holders i = ∅ ∧ locks i = 0 := by
  have hcount := he.count i
  rw [hl.dead i hdead] at hcount
  exact ⟨hl.dead i hdead, hl.no_holders hdead, by omega⟩

theorem Exact.congr (he : t.Exact locks) (hhandles : t'.handles = t.handles)
    (hsegs : ∀ i, (t'.segments i).refcnt = (t.segments i).refcnt ∧ ((t'.segments i).id ≠ 0 → (t.segments i).id ≠ 0))
    (hlocks : ∀ i, locks' i = locks i) : t'.Exact locks' := by
  refine ⟨fun i => ?_, fun i hi => ?_⟩
  · rw [(hsegs i).1, holders_congr hhandles, hlocks]
    exact he.count i
  · rw [(hsegs i).1]
    exact he.alive i ((hsegs i).2 hi)

theorem Exact.burn (he : t.Exact locks) (hl : t.Linked) (hslot : t.free_slot = some i) (size : Nat) (type : SegType)
    (flags : BitVec 32) (hlocks : ∀ i, locks' i = locks i) : (t.burn i size type flags).Exact locks' := by
  obtain ⟨hzero, -, -⟩ := he.dead hl (free_slot_some hslot).2
  refine he.congr rfl (fun k => ?_) hlocks
  by_cases hk : k = i
  · subst hk
    simp [Table.burn, Table.free_segment, Table.set_segment, Segment.clear, hzero]
  · simp [Table.burn, Table.free_segment, Table.new_segment, Table.set_segment, hk]

theorem Exact.add (he : t.Exact locks) (pid : Nat) (hfree : t.free_handle = some h)
    (hnew : t'.handles = update t.handles h ⟨i, 1, pid, true⟩)
    (hother : ∀ k, k ≠ i → t'.segments k = t.segments k) (hlocks : ∀ k, k ≠ i → locks' k = locks k)
    (hself : (t'.segments i).refcnt + locks i = (t.segments i).refcnt + 1 + locks' i) : t'.Exact locks' := by
  have hinvalid := (free_handle_some hfree).2
  have hnot : h ∉ t.holders i := fun hmem => by
    have hvalid := (handle_get_segment_some (mem_holders.mp hmem)).2.1
    rw [hinvalid] at hvalid
    cases hvalid
  refine ⟨fun k => ?_, fun k hk => ?_⟩
  · have hcount := he.count k
    rw [holders_alloc hfree hnew]
    by_cases hki : k = i
    · subst hki
      rw [if_pos rfl, Finset.card_insert_of_notMem hnot]
      omega
    · rw [if_neg hki, hother k hki, hlocks k hki, hcount]
  · by_cases hki : k = i
    · subst hki
      have hcount := he.count k
      omega
    · rw [hother k hki] at hk ⊢
      exact he.alive k hk

theorem Exact.create (he : t.Exact locks) (hl : t.Linked) (hslot : t.free_slot = some i)
    (hfree : t.free_handle = some h) (size : Nat) (type : SegType) (flags : BitVec 32) (pid : Nat)
    (hlocks : ∀ k, k ≠ i → locks' k = locks k) (hnone : locks' i = 0) :
    (t.create i h size type flags pid).Exact locks' := by
  obtain ⟨hzero, -, hlocks0⟩ := he.dead hl (free_slot_some hslot).2
  refine he.add pid hfree rfl (fun k hk => ?_) hlocks ?_
  · simp [Table.create, Table.new_segment, Table.set_segment, hk]
  · rw [create_refcnt, if_pos rfl]
    omega

theorem Exact.release (he : t.Exact locks) (hl : t.Linked) (hget : t.handle_get_segment h = some i) :
    ∀ k, ((t.release h i).segments k).refcnt = ((t.release h i).holders k).card + locks k := by
  intro k
  have hcount := he.count k
  rw [hl.release hget, (release_segments hget).1]
  by_cases hk : k = i
  · subst hk
    have hcard := Finset.card_erase_of_mem (mem_holders.mpr hget)
    have hpos : 1 ≤ (t.holders k).card := Finset.card_pos.mpr ⟨h, mem_holders.mpr hget⟩
    simp only [update_self]
    omega
  · have hnot : h ∉ t.holders k := fun hmem => hk (by
      have := mem_holders.mp hmem
      rw [hget] at this
      simpa using this.symm)
    simp only [update_of_ne hk, Finset.erase_eq_of_notMem hnot]
    exact hcount

theorem Exact.free_kept (he : t.Exact locks) (hl : t.Linked) (hget : t.handle_get_segment h = some i)
    (hkept : ((t.release h i).segments i).refcnt ≠ 0) (hlocks : ∀ k, locks' k = locks k) :
    (t.release h i).Exact locks' := by
  refine ⟨fun k => by rw [he.release hl hget, hlocks], fun k hk => ?_⟩
  by_cases hki : k = i
  · subst hki
    omega
  · rw [(release_segments hget).1, update_of_ne hki] at hk ⊢
    exact he.alive k hk

theorem Exact.free_reclaimed (he : t.Exact locks) (hl : t.Linked) (hget : t.handle_get_segment h = some i)
    (hzero : ((t.release h i).segments i).refcnt = 0) (hlocks : ∀ k, k ≠ i → locks' k = locks k)
    (hnone : locks' i = 0) : ((t.release h i).reclaim i).Exact locks' := by
  have hrelease := he.release hl hget
  refine ⟨fun k => ?_, fun k hk => ?_⟩
  · rw [reclaim_segments, holders_congr (reclaim_handles _ _)]
    by_cases hki : k = i
    · subst hki
      have := hrelease k
      rw [if_pos rfl, hnone]
      simp only [Segment.clear]
      omega
    · rw [if_neg hki, hlocks k hki, hrelease]
  · rw [reclaim_segments] at hk ⊢
    by_cases hki : k = i
    · rw [if_pos hki] at hk
      exact absurd rfl hk
    · rw [if_neg hki] at hk ⊢
      rw [(release_segments hget).1, update_of_ne hki] at hk ⊢
      exact he.alive k hk

end Table

/-- The allocator with, for each segment, the number of its outstanding locks: successful `sasy_lock`
calls that no `sasy_unlock` has taken back. -/
structure Counted where
  now : Sasy
  locks : Nat → Nat

namespace Counted

def init (b : Backing) : Counted := ⟨.init b, fun _ => 0⟩

/-- The outstanding locks on the segment `i` after a call that does not give it up. -/
def locks_after (w : Counted) (i : Nat) : Call → Nat
  | .lock h => if w.now.table.handle_get_segment h = some i ∧ (w.now.sasy_lock h).1 ≠ 0 then w.locks i + 1
      else w.locks i
  | .unlock h => if w.now.table.handle_get_segment h = some i then w.locks i - 1 else w.locks i
  | _ => w.locks i

def step (w : Counted) (call : Call) : Counted :=
  { now := w.now.step call
    locks := fun i => if ((w.now.step call).segment i).id = (w.now.segment i).id then w.locks_after i call else 0 }

/-- No lock is taken back, no segment is cloned, a shared code segment finds a handle, a segment that
is mapped at once too, and the contents of a segment that is paged in can be had. -/
def Tidy (w : Counted) : Call → Prop
  | .create _ type _ _ => type = .fixed ∨ type = .physical → w.now.table.free_handle.isSome
  | .lock h => ∀ i, w.now.table.handle_get_segment h = some i → w.now.backing.Readable (w.now.segment i) i
  | .fault addr => ∀ i, w.now.table.sasy_find_segment addr = some i → w.now.backing.Readable (w.now.segment i) i
  | .unlock h => ∀ i, w.now.table.handle_get_segment h = some i → w.locks i = 0
  | .load_code path _ _ => (w.now.table.loader_find_code (loader_hash_file path)).isSome →
      w.now.table.free_handle.isSome
  | .clone h _ => ∀ i, w.now.table.handle_get_segment h = some i → (w.now.segment i).type = .code ∨
      (w.now.segment i).size = 0 ∨ w.now.table.free_slot = none ∨
      (w.now.table.free_handle = none ∧ (w.now.segment i).type ≠ .fixed ∧ (w.now.segment i).type ≠ .physical)
  | _ => True

/-- The calls under which segments are reclaimed. -/
structure Reclaims (w : Counted) (call : Call) : Prop where
  fits : w.now.Fits call
  counts : w.now.Counts call
  tidy : w.Tidy call

structure Sound (initial : Nat → Option Nat) (w : Counted) : Prop where
  apart : w.now.table.Apart
  linked : w.now.table.Linked
  exact_count : w.now.table.Exact w.locks
  only : w.now.Only initial

variable {initial : Nat → Option Nat} {w : Counted} {call : Call}

theorem locks_same (hid : ∀ i, ((w.now.step call).segment i).id = (w.now.segment i).id)
    (hafter : ∀ i, w.locks_after i call = w.locks i) : ∀ i, (w.step call).locks i = w.locks i := by
  intro i
  simp only [step, if_pos (hid i), hafter i]

theorem Sound.exact_of_table (hw : w.Sound initial) (hhandles : (w.now.step call).table.handles = w.now.table.handles)
    (hsegs : ∀ i, ((w.now.step call).segment i).id = (w.now.segment i).id ∧
      ((w.now.step call).segment i).refcnt = (w.now.segment i).refcnt)
    (hafter : ∀ i, w.locks_after i call = w.locks i) : (w.step call).now.table.Exact (w.step call).locks :=
  hw.exact_count.congr hhandles (fun i => ⟨(hsegs i).2, fun h h0 => h ((hsegs i).1.trans h0)⟩)
    (locks_same (fun i => (hsegs i).1) hafter)

theorem Sound.exact_burn (hw : w.Sound initial) {i size : Nat} {type : SegType} {flags : BitVec 32}
    (hslot : w.now.table.free_slot = some i)
    (hburn : (w.now.step call).table = w.now.table.burn i size type flags)
    (hafter : ∀ i, w.locks_after i call = w.locks i) : (w.step call).now.table.Exact (w.step call).locks := by
  have hdead := (Table.free_slot_some hslot).2
  change (w.now.step call).table.Exact _
  rw [hburn]
  refine hw.exact_count.burn hw.linked hslot size type flags (locks_same (fun k => ?_) hafter)
  simp only [Sasy.segment, hburn]
  by_cases hk : k = i
  · subst hk
    simp [Table.burn, Table.free_segment, Table.set_segment, Segment.clear, hdead]
  · simp [Table.burn, Table.free_segment, Table.new_segment, Table.set_segment, hk]

theorem Sound.exact_share (hw : w.Sound initial) {i pid : Nat}
    (hshare : (w.now.step call).table = ((w.now.table.retain i).handle_alloc i pid).2)
    (hcount : (w.now.segment i).refcnt + 1 < 2 ^ 32) (hfree : w.now.table.free_handle.isSome)
    (hafter : ∀ i, w.locks_after i call = w.locks i) : (w.step call).now.table.Exact (w.step call).locks := by
  obtain ⟨h, hfree⟩ := Option.isSome_iff_exists.mp hfree
  have hself : ((w.now.table.retain i).segments i).refcnt = (w.now.table.segments i).refcnt + 1 := by
    simp only [Table.retain, Table.set_segment, update_self]
    exact Nat.mod_eq_of_lt hcount
  have hsegs := (Table.handle_alloc_keeps (w.now.table.retain i) i pid).1
  have hids : ∀ k, ((w.now.step call).segment k).id = (w.now.segment k).id := fun k => by
    simp only [Sasy.segment, hshare, hsegs]
    by_cases hk : k = i
    · simp [Table.retain, Table.set_segment, hk]
    · simp [Table.retain, Table.set_segment, hk]
  have hlocks := locks_same hids hafter
  change (w.now.step call).table.Exact _
  rw [hshare]
  refine hw.exact_count.add (i := i) pid hfree ?_ (fun k hk => ?_) (fun k _ => hlocks k) ?_
  · have hfree' : (w.now.table.retain i).free_handle = some h := hfree
    rw [Table.handle_alloc, hfree']
    rfl
  · rw [hsegs]
    simp [Table.retain, Table.set_segment, hk]
  · rw [hsegs, hself, hlocks]

theorem Sound.exact_step (hw : w.Sound initial) (hr : w.Reclaims call) :
    (w.step call).now.table.Exact (w.step call).locks := by
  have he := hw.exact_count
  have hl := hw.linked
  cases call with
  | create size type flags pid =>
    rcases create_table w.now size type flags pid with ⟨-, hsame | ⟨i, hslot, hburn⟩⟩ |
      ⟨i, h, hslot, hfree, -, -, -, -, hnew⟩
    · exact hw.exact_of_table (congrArg _ hsame) (fun i => by simp only [Sasy.step, Sasy.segment, hsame, and_self])
        fun _ => rfl
    · exact hw.exact_burn hslot hburn fun _ => rfl
    · have hdead := (Table.free_slot_some hslot).2
      change (w.now.sasy_create_ex size type flags pid).2.table.Exact _
      rw [hnew]
      refine he.create hl hslot hfree size type flags pid (fun k hk => ?_) ?_
      · simp only [step]
        rw [if_pos]
        · rfl
        · simp [Sasy.step, Sasy.segment, hnew, Table.create, Table.new_segment, Table.set_segment, hk]
      · simp only [step]
        rw [if_neg]
        simp only [Sasy.step, Sasy.segment, hnew, hdead]
        have hid : w.now.table.next_segment_id ≠ 0 := hr.counts
        simpa [Table.create, Table.new_segment, Table.set_segment] using hid
  | lock h =>
    rcases lock_table w.now h with ⟨hfail, hsame⟩ | ⟨j, hget, haddr, hlock⟩
    · refine hw.exact_of_table (congrArg _ hsame) (fun i => by simp only [Sasy.step, Sasy.segment, hsame, and_self])
        fun i => ?_
      simp [locks_after, hfail]
    · have hlive := (hl.live hget).1
      have hbase : (w.now.sasy_lock h).1 ≠ 0 := by
        have hlow := (hw.apart.within j hlive).1
        simp only [SASY_BASE_ADDR] at hlow
        omega
      have hcount : (w.now.table.segments j).refcnt + 1 < 2 ^ 32 := hr.counts j hget
      have hid : ∀ k, ((w.now.step (.lock h)).segment k).id = (w.now.segment k).id := fun k => by
        simp only [Sasy.step, Sasy.segment, hlock]
        exact Table.lock_id _ _ _
      change (w.now.sasy_lock h).2.table.Exact _
      rw [hlock]
      refine ⟨fun k => ?_, fun k hk => ?_⟩
      · have hcounted := he.count k
        rw [show (w.now.table.lock j).holders k = w.now.table.holders k from Table.holders_congr rfl k]
        simp only [step, if_pos (hid k), locks_after, hget]
        by_cases hkj : k = j
        · subst hkj
          rw [if_pos ⟨rfl, hbase⟩]
          simp only [Table.lock, Table.set_segment, update_self, Nat.mod_eq_of_lt hcount]
          omega
        · rw [if_neg (fun hc => hkj (by simpa using hc.1.symm))]
          simp [Table.lock, Table.set_segment, hkj, hcounted]
      · rw [Table.lock_id] at hk
        have := he.alive k hk
        by_cases hkj : k = j
        · subst hkj
          simp only [Table.lock, Table.set_segment, update_self, Nat.mod_eq_of_lt hcount]
          omega
        · simp [Table.lock, Table.set_segment, hkj, this]
  | unlock h =>
    have htable := unlock_table w.now h
    obtain ⟨hhandles, hid⟩ := Sasy.unlock_frame w.now h
    refine hw.exact_of_table hhandles (fun i => ⟨hid i, ?_⟩) fun i => ?_
    · simp only [Sasy.step, Sasy.segment, htable]
      split
      · rfl
      · exact Table.unlock_refcnt _ _ _
    · simp only [locks_after]
      split
      · next hget =>
        have := hr.tidy i hget
        omega
      · rfl
  | free h =>
    have htable := free_table w.now h
    cases hget : w.now.table.handle_get_segment h with
    | none =>
      rw [hget] at htable
      exact hw.exact_of_table (congrArg _ htable) (fun i => by simp only [Sasy.step, Sasy.segment, htable, and_self])
        fun _ => rfl
    | some j =>
      rw [hget] at htable
      dsimp only at htable
      have hlive := (hl.live hget).1
      have hrid : ∀ k, ((w.now.table.release h j).segments k).id = (w.now.table.segments k).id := fun k => by
        rw [(Table.release_segments hget).1]
        by_cases hk : k = j
        · simp [hk]
        · simp [hk]
      split at htable
      · next hzero =>
        change (w.now.sasy_free h).table.Exact _
        rw [htable]
        refine he.free_reclaimed hl hget hzero (fun k hk => ?_) ?_
        · simp only [step]
          rw [if_pos]
          · rfl
          · simp only [Sasy.step, Sasy.segment, htable]
            rw [Table.reclaim_segments, if_neg hk, hrid]
        · simp only [step]
          rw [if_neg]
          simp only [Sasy.step, Sasy.segment, htable]
          rw [Table.reclaim_segments, if_pos rfl]
          exact fun h0 => hlive h0.symm
      · next hkept =>
        change (w.now.sasy_free h).table.Exact _
        rw [htable]
        refine he.free_kept hl hget hkept (locks_same (fun k => ?_) fun _ => rfl)
        simp only [Sasy.step, Sasy.segment, htable]
        exact hrid k
  | resize h new_size =>
    rcases resize_table w.now h new_size with hsame | ⟨j, -, -, -, -, -, -, hset⟩
    · exact hw.exact_of_table (congrArg _ hsame) (fun i => by simp only [Sasy.step, Sasy.segment, hsame, and_self])
        fun _ => rfl
    · refine hw.exact_of_table (by simp only [Sasy.step, hset]; rfl) (fun i => ?_) fun _ => rfl
      simp only [Sasy.step, Sasy.segment, hset]
      by_cases hij : i = j
      · simp [Table.set_segment, hij]
      · simp [Table.set_segment, hij]
  | mark_dirty h =>
    refine hw.exact_of_table ?_ (fun i => ?_) fun _ => rfl
    · simp only [Sasy.step, Sasy.sasy_mark_dirty]
      split <;> rfl
    · simp only [Sasy.step, Sasy.sasy_mark_dirty]
      split
      · exact ⟨rfl, rfl⟩
      · next j _ =>
        by_cases hij : i = j
        · simp [Sasy.segment, Table.set_segment, hij]
        · simp [Sasy.segment, Table.set_segment, hij]
  | pressure =>
    refine hw.exact_of_table ?_ (fun i => ?_) fun _ => rfl
    · simp only [Sasy.step, Sasy.pressure_table]
    · simp only [Sasy.step, Sasy.segment, Sasy.pressure_table, and_self]
  | load_code path found pid =>
    rcases load_code_table w.now path found pid with ⟨i, hfind, hshare⟩ |
      ⟨-, hsame | ⟨i, hslot, hburn⟩ | ⟨i, h, hslot, hfree, -, hcode⟩⟩
    · exact hw.exact_share hshare (hr.counts.2 i hfind) (hr.tidy (by rw [hfind]; rfl)) fun _ => rfl
    · exact hw.exact_of_table (congrArg _ hsame) (fun i => by simp only [Sasy.step, Sasy.segment, hsame, and_self])
        fun _ => rfl
    · exact hw.exact_burn hslot hburn fun _ => rfl
    · have hdead := (Table.free_slot_some hslot).2
      have hnone := (he.dead hl hdead).2.2
      have hid : w.now.table.next_segment_id ≠ 0 := hr.counts.1
      have hcreate : (w.now.table.create i h PAGE_SIZE .code SEG_FLAGS_CODE pid).Exact w.locks :=
        he.create hl hslot hfree PAGE_SIZE .code SEG_FLAGS_CODE pid (fun _ _ => rfl) hnone
      have hexact : (w.now.table.create_code i h (loader_hash_file path) pid).Exact w.locks := by
        refine hcreate.congr rfl (fun k => ?_) fun _ => rfl
        by_cases hk : k = i
        · simp [Table.create_code, Table.set_segment, hk]
        · simp [Table.create_code, Table.set_segment, hk]
      obtain ⟨hlinked, -, -, -, hone, hget, -⟩ := hl.create_code hslot hfree hid (loader_hash_file path) pid
      have hother : ∀ k, k ≠ i → (w.now.table.create_code i h (loader_hash_file path) pid).segments k =
          w.now.table.segments k := fun k hk => by
        simp [Table.create_code, Table.create, Table.new_segment, Table.set_segment, hk]
      rcases hcode with hreg | hback
      · change (w.now.sasy_load_code path found pid).2.table.Exact _
        rw [hreg]
        refine hexact.congr (Table.register_handles _ _) (fun k => by simp [(Table.register_keeps _ _).1]) fun k => ?_
        simp only [step]
        split
        · rfl
        · next hne =>
          by_cases hk : k = i
          · rw [hk, hnone]
          · refine absurd ?_ hne
            simp only [Sasy.step, Sasy.segment, hreg]
            rw [(Table.register_keeps _ _).1, hother k hk]
      · change (w.now.sasy_load_code path found pid).2.table.Exact _
        rw [hback]
        have hids : ∀ k, ((w.now.step (.load_code path found pid)).segment k).id = (w.now.segment k).id := fun k => by
          simp only [Sasy.step, Sasy.segment, hback]
          rw [Table.reclaim_segments]
          by_cases hk : k = i
          · rw [if_pos hk, hk, hdead]
            rfl
          · rw [if_neg hk, (Table.release_segments hget).1, update_of_ne hk, hother k hk]
        refine hexact.free_reclaimed hlinked hget ?_ (fun k _ => locks_same hids (fun _ => rfl) k) ?_
        · rw [(Table.release_segments hget).1]
          simp [hone]
        · rw [locks_same hids (fun _ => rfl) i, hnone]
  | clone h pid =>
    rcases clone_table w.now h pid with hsame | ⟨i, hget, ⟨-, hdup⟩ | ⟨htype, ⟨j, hslot, hburn⟩ |
      ⟨j, h', src, dst, hslot, hfree, hsize, -, -⟩⟩⟩
    · exact hw.exact_of_table (congrArg _ hsame) (fun i => by simp only [Sasy.step, Sasy.segment, hsame, and_self])
        fun _ => rfl
    · cases hfree : w.now.table.free_handle with
      | none =>
        have hsame : (w.now.sasy_clone h pid).2.table = w.now.table := by
          rw [hdup, Table.handle_dup, hget]
          simp [Table.handle_alloc, hfree]
        exact hw.exact_of_table (congrArg _ hsame)
          (fun i => by simp only [Sasy.step, Sasy.segment, hsame, and_self]) fun _ => rfl
      | some h₂ =>
        rcases Table.handle_dup_eq hget pid with hd | hd
        · rw [hd] at hdup
          exact hw.exact_of_table (congrArg _ hdup)
            (fun i => by simp only [Sasy.step, Sasy.segment, hdup, and_self]) fun _ => rfl
        · exact hw.exact_share (hdup.trans hd) (hr.counts.2 i hget) (by rw [hfree]; rfl) fun _ => rfl
    · exact hw.exact_burn hslot hburn fun _ => rfl
    · exfalso
      rcases hr.tidy i hget with hcode | hzero | hnoslot | ⟨hnohandle, -⟩
      · exact htype hcode
      · exact hsize hzero
      · rw [hslot] at hnoslot
        cases hnoslot
      · rw [hfree] at hnohandle
        cases hnohandle
  | fault addr =>
    have htable : (w.now.loader_handle_fault addr).table = w.now.table := by
      rw [Sasy.loader_handle_fault]
      split <;> rfl
    exact hw.exact_of_table (congrArg _ htable) (fun i => by simp only [Sasy.step, Sasy.segment, htable, and_self])
      fun _ => rfl
  | poke addr value => exact hw.exact_of_table rfl (fun _ => ⟨rfl, rfl⟩) fun _ => rfl

theorem only_load_code {s : Sasy} (ho : s.Only initial) (ha : s.table.Apart) (hl : s.table.Linked) {path : List UInt8}
    {found : Bool} {pid : Nat} (hfits : s.Fits (.load_code path found pid))
    (hcounts : s.Counts (.load_code path found pid)) : (s.sasy_load_code path found pid).2.Only initial := by
  rw [Sasy.sasy_load_code]
  cases hfind : s.table.loader_find_code (loader_hash_file path) with
  | some j =>
    refine ho.of_table fun k hk _ => ?_
    rw [(Table.handle_alloc_keeps _ _ _).1]
    by_cases hkj : k = j
    · subst hkj
      simpa [Table.retain, Table.set_segment, Sasy.segment] using hk
    · simpa [Table.retain, Table.set_segment, Sasy.segment, hkj] using hk
  | none =>
    have hone : align_up PAGE_SIZE PAGE_SIZE = PAGE_SIZE := by decide
    have hfits' : s.Fits (.create PAGE_SIZE .code SEG_FLAGS_CODE pid) := fun hslot => by
      rw [hone]
      exact hfits hslot hfind
    have ho₁ := ho.sasy_create_ex ha PAGE_SIZE .code SEG_FLAGS_CODE pid hfits' hcounts.1 (by rintro (h | h) <;> cases h)
    have ha₁ := ha.step hfits'
    have htable := create_table s PAGE_SIZE .code SEG_FLAGS_CODE pid
    simp only [Sasy.step] at ha₁
    dsimp only
    generalize s.sasy_create_ex PAGE_SIZE .code SEG_FLAGS_CODE pid = r at ho₁ ha₁ htable ⊢
    obtain ⟨h, s₁⟩ := r
    dsimp only at ho₁ ha₁ htable ⊢
    split
    · exact ho₁
    · next hsome =>
      obtain ⟨j, hslot, hfree, hnew⟩ : ∃ j, s.table.free_slot = some j ∧ s.table.free_handle = some h ∧
          s₁.table = s.table.create j h PAGE_SIZE .code SEG_FLAGS_CODE pid := by
        rcases htable with ⟨hn, -⟩ | ⟨j, h', hslot, hfree, -, -, -, heq, hnew⟩
        · exact absurd hn hsome
        · subst heq
          exact ⟨j, hslot, hfree, hnew⟩
      have hget : s₁.table.handle_get_segment h = some j := by
        rw [hnew]
        exact create_get_segment hfree
      have hcode : (s₁.table.set_segment j { s₁.segment j with code_hash := loader_hash_file path }).Linked := by
        have := (hl.create_code hslot hfree hcounts.1 (loader_hash_file path) pid).1
        rw [Table.create_code, ← hnew] at this
        exact this
      have ha₂ := ha₁.set (i := j) (g := { s₁.segment j with code_hash := loader_hash_file path }) rfl rfl rfl
      rw [hget]
      dsimp only
      generalize hset : s₁.table.set_segment j { s₁.segment j with code_hash := loader_hash_file path } = t
        at hcode ha₂ ⊢
      have ho₂ : Sasy.Only initial ⟨t, s₁.backing⟩ := ho₁.of_table fun k hk _ => by
        rw [← hset]
        by_cases hkj : k = j
        · subst hkj
          simpa [Table.set_segment, Sasy.segment] using hk
        · simpa [Table.set_segment, Sasy.segment, hkj] using hk
      cases found with
      | true =>
        refine ho₂.of_table fun k hk _ => ?_
        rw [(Table.register_keeps t j).1]
        exact ⟨hk, rfl, rfl⟩
      | false => exact ho₂.sasy_free ha₂ hcode h

theorem Sound.only_step (hw : w.Sound initial) (hr : w.Reclaims call) : (w.step call).now.Only initial := by
  have ho := hw.only
  have ha := hw.apart
  have hl := hw.linked
  change (w.now.step call).Only initial
  cases call with
  | create size type flags pid => exact ho.sasy_create_ex ha size type flags pid hr.fits hr.counts hr.tidy
  | lock h => exact ho.sasy_lock ha hl hr.tidy
  | unlock h => exact ho.sasy_unlock ha hl h
  | free h => exact ho.sasy_free ha hl h
  | resize h new_size => exact ho.sasy_resize ha hl h new_size
  | mark_dirty h =>
    simp only [Sasy.step, Sasy.sasy_mark_dirty]
    split
    · exact ho
    · next j _ =>
      refine ho.of_table fun k hk _ => ?_
      by_cases hkj : k = j
      · subst hkj
        simpa [Table.set_segment, Sasy.segment] using hk
      · simpa [Table.set_segment, Sasy.segment, hkj] using hk
  | pressure => exact ho.sasy_pressure ha
  | load_code path found pid => exact only_load_code ho ha hl hr.fits hr.counts
  | clone h pid =>
    simp only [Sasy.step]
    rcases clone_steps w.now h pid with hsame | ⟨i, hget, ⟨-, hdup⟩ | ⟨htype, hcreate | ⟨hsome, -⟩⟩⟩
    · rw [hsame]
      exact ho
    · rw [hdup]
      refine ho.of_table fun k hk _ => ?_
      rcases Table.handle_dup_eq hget pid with hd | hd
      · rw [hd]
        exact ⟨hk, rfl, rfl⟩
      · rw [hd, (Table.handle_alloc_keeps _ _ _).1]
        by_cases hki : k = i
        · subst hki
          simpa [Table.retain, Table.set_segment, Sasy.segment] using hk
        · simpa [Table.retain, Table.set_segment, Sasy.segment, hki] using hk
    · rw [hcreate]
      rcases hr.tidy i hget with hcode | hzero | hnoslot | ⟨hnohandle, hfixed, hphysical⟩
      · exact absurd hcode htype
      · rw [Sasy.sasy_create_ex, if_pos hzero]
        exact ho
      · rw [Sasy.sasy_create_ex, hnoslot]
        split
        · exact ho
        · exact ho
      · exact ho.sasy_create_ex ha _ _ _ _ (fun hslot => hr.fits hslot i hget htype) hr.counts.1
          fun h => absurd h (not_or.mpr ⟨hfixed, hphysical⟩)
    · exfalso
      rcases create_table w.now (w.now.segment i).size (w.now.segment i).type (w.now.segment i).flags pid with
        ⟨hnone, -⟩ | ⟨j, h', hslot, hfree, -, hsize, -⟩
      · exact hsome hnone
      · rcases hr.tidy i hget with hcode | hzero | hnoslot | ⟨hnohandle, -⟩
        · exact htype hcode
        · exact hsize hzero
        · rw [hslot] at hnoslot
          cases hnoslot
        · rw [hfree] at hnohandle
          cases hnohandle
  | fault addr => exact ho.fault ha hr.tidy
  | poke addr value => exact ho

theorem Sound.step (hw : w.Sound initial) (hr : w.Reclaims call) : (w.step call).Sound initial :=
  ⟨hw.apart.step hr.fits, hw.linked.step hr.counts, hw.exact_step hr, hw.only_step hr⟩

theorem init_sound (b : Backing) : (init b).Sound b.map.page := by
  refine ⟨init_apart b, init_linked b, ⟨fun i => ?_, fun i hi => absurd rfl hi⟩, fun v hv hpage =>
    absurd hv hpage⟩
  have hnone := (init_linked b).no_holders (i := i) rfl
  change 0 = ((Sasy.init b).table.holders i).card + 0
  rw [hnone]
  rfl

theorem Sound.run (hw : w.Sound initial) {calls : List Call} (hr : Along Counted.step Counted.Reclaims w calls) :
    (run Counted.step w calls).Sound initial :=
  hr.invariant (I := Sound initial) (fun _ _ hs hcall => hs.step hcall) hw

end Counted

namespace Backing

variable {b : Backing} {frame : Nat}

theorem free_foldl_free (addrs : List Nat) (hfree : b.frames.pmm.bitmap_test frame = false) :
    (addrs.foldl pmm_free_page b).frames.pmm.bitmap_test frame = false := by
  induction addrs generalizing b with
  | nil => exact hfree
  | cons a addrs ih => exact ih (Pmm.pmm_free_page_free a hfree)

theorem free_foldl (addrs : List Nat) {a : Nat} (ha : a ∈ addrs) (hm : b.frames.pmm.Manages (a / PAGE_SIZE)) :
    (addrs.foldl pmm_free_page b).frames.pmm.bitmap_test (a / PAGE_SIZE) = false := by
  induction addrs generalizing b with
  | nil => cases ha
  | cons a' addrs ih =>
    rcases List.mem_cons.mp ha with rfl | hmem
    · exact free_foldl_free addrs (Pmm.pmm_free_page_frees hm)
    · exact ih hmem ((Pmm.same_pmm_free_page a').manages.mpr hm)

theorem unmap_segment_frames (b : Backing) (g : Segment) :
    (b.unmap_segment g).frames = b.frames ∧ (b.unmap_segment g).phys = b.phys := by
  rw [unmap_segment]
  split
  · refine ⟨?_, (unmap_pages_fields b g.base g.pages).2.1⟩
    rw [unmap_pages]
    generalize page_addrs g.base g.pages = addrs
    induction addrs generalizing b with
    | nil => rfl
    | cons a addrs ih => exact ih (b.vmm_unmap a)
  · exact ⟨rfl, rfl⟩

theorem swap_free_frames (b : Backing) (id : Nat) : (b.swap_free id).frames = b.frames := by
  rw [swap_free]
  split
  · rfl
  · split <;> rfl

theorem discard_frees (b : Backing) (g : Segment) {i k : Nat} (hphys : b.phys i ≠ 0) (hk : k < g.pages)
    (hm : b.frames.pmm.Manages ((b.phys i + k * PAGE_SIZE) % 2 ^ 64 / PAGE_SIZE)) :
    (b.discard g i).frames.pmm.bitmap_test ((b.phys i + k * PAGE_SIZE) % 2 ^ 64 / PAGE_SIZE) = false := by
  obtain ⟨b₁, hb₁, hframes, hphys₁⟩ : ∃ b₁, (if b.present i then b.unmap_segment g else b) = b₁ ∧
      b₁.frames = b.frames ∧ b₁.phys = b.phys := by
    refine ⟨_, rfl, ?_⟩
    split
    · exact b.unmap_segment_frames g
    · exact ⟨rfl, rfl⟩
  have hmem : (b₁.phys i + k * PAGE_SIZE) % 2 ^ 64 ∈ page_addrs (b₁.phys i) g.pages :=
    List.mem_map.mpr ⟨k, List.mem_range.mpr hk, rfl⟩
  have hfree := free_foldl (b := b₁) _ hmem (by rw [hframes, hphys₁]; exact hm)
  have hpages : b₁.free_frames g i = (page_addrs (b.phys i) g.pages).foldl pmm_free_page b₁ := by
    rw [free_frames, hphys₁, if_pos hphys, free_pages]
  rw [hphys₁] at hfree
  rw [discard, hb₁, hpages]
  generalize (page_addrs (b.phys i) g.pages).foldl pmm_free_page b₁ = b₂ at hfree ⊢
  split
  · change (b₂.swap_free _).frames.pmm.bitmap_test _ = false
    rw [swap_free_frames]
    exact hfree
  · exact hfree

end Backing

/-- The last handle of a segment without locks is freed: its slot is free, none of its pages is mapped,
and its frames are free in the bitmap. -/
theorem Counted.Sound.last_free {initial : Nat → Option Nat} {w : Counted} (hw : w.Sound initial) {h i : Nat}
    (hlast : w.now.table.holders i = {h}) (hlocks : w.locks i = 0) :
    ((w.now.sasy_free h).segment i).id = 0 ∧
    (∀ v, (w.now.segment i).Covers v → initial v = none → (w.now.sasy_free h).backing.map.page v = none) ∧
    ∀ k < (w.now.segment i).pages, w.now.backing.phys i ≠ 0 →
      w.now.backing.frames.pmm.Manages ((w.now.backing.phys i + k * PAGE_SIZE) % 2 ^ 64 / PAGE_SIZE) →
      (w.now.sasy_free h).backing.frames.pmm.bitmap_test
        ((w.now.backing.phys i + k * PAGE_SIZE) % 2 ^ 64 / PAGE_SIZE) = false := by
  have hget : w.now.table.handle_get_segment h = some i := Table.mem_holders.mp (by rw [hlast]; simp)
  have hlive : (w.now.segment i).id ≠ 0 := (hw.linked.live hget).1
  have hself : (w.now.table.release h i).segments i =
      { w.now.segment i with refcnt := (w.now.segment i).refcnt - 1 } := by
    rw [(Table.release_segments hget).1, update_self]
    rfl
  have hzero : ((w.now.table.release h i).segments i).refcnt = 0 := by
    have hcount := hw.exact_count.count i
    rw [hlast, hlocks, Finset.card_singleton] at hcount
    rw [hself]
    simp only [Sasy.segment]
    omega
  have hfree : w.now.sasy_free h = ⟨(w.now.table.release h i).reclaim i,
      w.now.backing.discard ((w.now.table.release h i).segments i) i⟩ := by
    rw [Sasy.sasy_free, hget]
    exact if_pos hzero
  have hsegs : ∀ k, (w.now.sasy_free h).segment k =
      if k = i then Segment.clear else w.now.segment k := fun k => by
    rw [hfree, Sasy.segment]
    dsimp only
    rw [Table.reclaim_segments]
    by_cases hk : k = i
    · rw [if_pos hk, if_pos hk]
    · rw [if_neg hk, if_neg hk, (Table.release_segments hget).1, update_of_ne hk]
      rfl
  have hdead : ((w.now.sasy_free h).segment i).id = 0 := by
    rw [hsegs, if_pos rfl]
    rfl
  refine ⟨hdead, fun v hv hinit => ?_, fun k hk hphys hm => ?_⟩
  · refine (hw.only.sasy_free hw.apart hw.linked h).none_of_away hinit fun k hk _ hcover => ?_
    have hki : k ≠ i := by
      rintro rfl
      exact hk hdead
    rw [hsegs, if_neg hki] at hk hcover
    exact Sasy.away_of hw.apart hlive k hki hk v hcover hv
  · rw [hfree]
    refine Backing.discard_frees _ _ hphys ?_ hm
    rw [hself]
    exact hk

/-- Where no lock is taken back, a segment's count is that of its handles and outstanding locks, a
segment without any has been given up, only resident segments have pages mapped, and the last
`sasy_free` returns slot, pages and frames. -/
theorem segments_reclaimed (b : Backing) {calls : List Call}
    (hr : Along Counted.step Counted.Reclaims (.init b) calls) :
    let w := run Counted.step (.init b) calls
    (∀ i, (w.now.segment i).refcnt = (w.now.table.holders i).card + w.locks i) ∧
    (∀ i, w.now.table.holders i = ∅ → w.locks i = 0 → (w.now.segment i).id = 0) ∧
    (∀ v, b.map.page v = none → w.now.backing.map.page v ≠ none →
      ∃ i, (w.now.segment i).id ≠ 0 ∧ w.now.backing.present i = true ∧ (w.now.segment i).Covers v) ∧
    ∀ h i, w.now.table.holders i = {h} → w.locks i = 0 →
      ((w.now.sasy_free h).segment i).id = 0 ∧
      (∀ v, (w.now.segment i).Covers v → b.map.page v = none → (w.now.sasy_free h).backing.map.page v = none) ∧
      ∀ k < (w.now.segment i).pages, w.now.backing.phys i ≠ 0 →
        w.now.backing.frames.pmm.Manages ((w.now.backing.phys i + k * PAGE_SIZE) % 2 ^ 64 / PAGE_SIZE) →
        (w.now.sasy_free h).backing.frames.pmm.bitmap_test
          ((w.now.backing.phys i + k * PAGE_SIZE) % 2 ^ 64 / PAGE_SIZE) = false := by
  intro w
  have hw : w.Sound b.map.page := (Counted.init_sound b).run hr
  refine ⟨hw.exact_count.count, fun i hnone hlocks => ?_, hw.only, fun h i => hw.last_free⟩
  have hcount := hw.exact_count.count i
  rw [hnone, hlocks] at hcount
  by_contra hlive
  have := hw.exact_count.alive i hlive
  rw [hcount] at this
  exact absurd this (by simp)

/-- A segment that was locked is freed; the lock was never taken back. -/
theorem locked_segment_counted :
    let w := run Counted.step (.init .blank) [.create 4096 .manual 0 1, .lock 0]
    (w.now.segment 0).refcnt = 2 ∧ (w.now.segment 0).refcnt = (w.now.table.holders 0).card + w.locks 0 := by
  have hcounted := @segments_reclaimed .blank [.create 4096 .manual 0 1, .lock 0] ?_
  · exact ⟨by decide +kernel, hcounted.1 0⟩
  · refine ⟨⟨fun _ => by decide +kernel, Nat.one_ne_zero, ?_⟩, ⟨trivial, ?_, ?_⟩, trivial⟩
    · rintro (h | h) <;> cases h
    · intro i hget
      have hi : some 0 = some i := Eq.trans (by decide +kernel) hget
      cases hi
      decide +kernel
    · intro i hget
      have hi : some 0 = some i := Eq.trans (by decide +kernel) hget
      cases hi
      exact fun _ => .inr (.inl (by decide +kernel))

/-- A segment is created, locked, unlocked and freed, and still there. -/
theorem unlocked_segment_leaks :
    let w := run Counted.step (.init .blank) [.create 4096 .manual 0 1, .lock 0, .unlock 0, .free 0]
    (w.now.table.holders 0).card = 0 ∧ w.locks 0 = 0 ∧
    (w.now.segment 0).id ≠ 0 ∧ (w.now.segment 0).refcnt = 1 ∧ w.now.backing.present 0 = true := by
  decide +kernel

end graceos.sasy
