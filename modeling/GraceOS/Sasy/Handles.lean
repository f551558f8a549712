import GraceOS.Sasy.Effects
import Mathlib.Data.Finset.Card

/-!
# No dangling handle

A descriptor counts at least the valid handles that refer to it, so it is not given up before the
last of them. A code segment leaves the registry when it is given up: an entry counts one reference,
and no two entries have the same hash.
-/

namespace graceos.sasy

open mm machine Function

namespace Table

variable {t : Table} {h i k : Nat}

/-- The valid handles that refer to the segment `i`. -/
def holders (t : Table) (i : Nat) : Finset Nat :=
  (Finset.range MAX_HANDLES).filter fun h => (t.handles h).valid = true ∧ (t.handles h).seg = i

theorem mem_holders : h ∈ t.holders i ↔ t.handle_get_segment h = some i := by
  simp only [holders, Finset.mem_filter, Finset.mem_range]
  constructor
  · rintro ⟨hlt, hvalid, hseg⟩
    rw [handle_get_segment_of hlt hvalid, hseg]
  · exact handle_get_segment_some

theorem holders_congr {t' : Table} (hsame : t'.handles = t.handles) (i : Nat) :
    t'.holders i = t.holders i := by
  simp only [holders, hsame]

theorem holders_alloc {t' : Table} {pid : Nat} (hfree : t.free_handle = some h)
    (hnew : t'.handles = update t.handles h ⟨i, 1, pid, true⟩) (k : Nat) :
    t'.holders k = if k = i then insert h (t.holders k) else t.holders k := by
  obtain ⟨hlt, hinvalid⟩ := free_handle_some hfree
  ext x
  simp only [holders, hnew, Finset.mem_filter, Finset.mem_range, update_apply]
  by_cases hx : x = h
  · subst hx
    by_cases hk : k = i
    · simp [hk, hlt]
    · simp [hk, hlt, hinvalid, Ne.symm hk]
  · by_cases hk : k = i
    · simp [hk, hx]
    · simp [hk, hx]

theorem holders_free {t' : Table} (hnew : t'.handles = update t.handles h .clear) (k : Nat) :
    t'.holders k = (t.holders k).erase h := by
  ext x
  simp only [holders, hnew, Finset.mem_filter, Finset.mem_range, update_apply, Finset.mem_erase]
  by_cases hx : x = h
  · simp [hx, Handle.clear]
  · simp [hx]

/-- An entry of the registry for a live code segment. -/
structure Registered (segments : Nat → Segment) (e : CodeEntry) : Prop where
  live : (segments e.seg).id ≠ 0
  type : (segments e.seg).type = .code
  hash : (segments e.seg).code_hash = e.hash
  ne_zero : e.hash ≠ 0
  refs : e.refs = 1

/-- References are counted. -/
structure Linked (t : Table) : Prop where
  dead : ∀ i, (t.segments i).id = 0 → (t.segments i).refcnt = 0
  counted : ∀ i, (t.holders i).card ≤ (t.segments i).refcnt
  entries : ∀ k < MAX_CODE_SEGMENTS, (t.registry k).valid = true → Registered t.segments (t.registry k)
  distinct : ∀ k < MAX_CODE_SEGMENTS, ∀ l < MAX_CODE_SEGMENTS, (t.registry k).valid = true →
    (t.registry l).valid = true → (t.registry k).hash = (t.registry l).hash → k = l

theorem Linked.live (hl : t.Linked) (hget : t.handle_get_segment h = some i) :
    (t.segments i).id ≠ 0 ∧ 1 ≤ (t.segments i).refcnt := by
  have hcard : 1 ≤ (t.holders i).card := Finset.card_pos.mpr ⟨h, mem_holders.mpr hget⟩
  have hle := hl.counted i
  refine ⟨fun hzero => ?_, by omega⟩
  have := hl.dead i hzero
  omega

/-- A descriptor is rewritten. -/
theorem Linked.set_segment (hl : t.Linked) {g : Segment}
    (hdead : g.id = 0 → g.refcnt = 0) (hcount : (t.holders i).card ≤ g.refcnt)
    (hentry : ∀ k < MAX_CODE_SEGMENTS, (t.registry k).valid = true → (t.registry k).seg = i →
      g.id ≠ 0 ∧ g.type = .code ∧ g.code_hash = (t.registry k).hash) :
    (t.set_segment i g).Linked := by
  have hself : (t.set_segment i g).segments i = g := by simp [Table.set_segment]
  have hother : ∀ j, j ≠ i → (t.set_segment i g).segments j = t.segments j := fun j hj => by
    simp [Table.set_segment, hj]
  refine ⟨fun j => ?_, fun j => ?_, fun k hk hvalid => ?_, hl.distinct⟩
  · by_cases hj : j = i
    · rw [hj, hself]
      exact hdead
    · rw [hother j hj]
      exact hl.dead j
  · by_cases hj : j = i
    · rw [hj, hself]
      exact hcount
    · rw [hother j hj]
      exact hl.counted j
  · have hreg := hl.entries k hk hvalid
    by_cases hj : (t.registry k).seg = i
    · obtain ⟨hid, htype, hhash⟩ := hentry k hk hvalid hj
      refine ⟨?_, ?_, ?_, hreg.ne_zero, hreg.refs⟩ <;>
        simp only [show (t.set_segment i g).registry = t.registry from rfl, hj, hself] <;> assumption
    · refine ⟨?_, ?_, ?_, hreg.ne_zero, hreg.refs⟩ <;>
        simp only [show (t.set_segment i g).registry = t.registry from rfl, hother _ hj]
      · exact hreg.live
      · exact hreg.type
      · exact hreg.hash

theorem Linked.touch (hl : t.Linked) {g : Segment}
    (hid : g.id = (t.segments i).id) (htype : g.type = (t.segments i).type)
    (hhash : g.code_hash = (t.segments i).code_hash) (hlive : (t.segments i).id ≠ 0)
    (hcount : (t.segments i).refcnt ≤ g.refcnt) :
    (t.set_segment i g).Linked := by
  refine hl.set_segment (fun h0 => absurd (hid ▸ h0) hlive) ((hl.counted i).trans hcount)
    fun k hk hvalid hseg => ?_
  obtain ⟨hid', htype', hhash', -, -⟩ := hl.entries k hk hvalid
  rw [hseg] at hid' htype' hhash'
  exact ⟨hid ▸ hid', htype.trans htype', hhash.trans hhash'⟩

theorem Linked.lock (hl : t.Linked) (hlive : (t.segments i).id ≠ 0) (hcount : (t.segments i).refcnt + 1 < 2 ^ 32) :
    (t.lock i).Linked := by
  refine hl.touch rfl rfl rfl hlive ?_
  simp only [Nat.mod_eq_of_lt hcount]
  omega

theorem Linked.retain (hl : t.Linked) (hlive : (t.segments i).id ≠ 0)
    (hcount : (t.segments i).refcnt + 1 < 2 ^ 32) : (t.retain i).Linked := by
  refine hl.touch rfl rfl rfl hlive ?_
  simp only [Nat.mod_eq_of_lt hcount]
  omega

theorem Linked.unlock (hl : t.Linked) (hlive : (t.segments i).id ≠ 0) : (t.unlock i).Linked :=
  hl.touch rfl rfl rfl hlive (le_refl _)

theorem Linked.no_holders (hl : t.Linked) (hfree : (t.segments i).id = 0) : t.holders i = ∅ := by
  have hcount := hl.counted i
  rw [hl.dead i hfree] at hcount
  exact Finset.card_eq_zero.mp (by omega)

theorem Linked.entry_ne (hl : t.Linked) (hfree : (t.segments i).id = 0) :
    ∀ k < MAX_CODE_SEGMENTS, (t.registry k).valid = true → (t.registry k).seg ≠ i :=
  fun k hk hvalid heq => (hl.entries k hk hvalid).live (heq ▸ hfree)

theorem Linked.advance (hl : t.Linked) (next_id next_base : Nat) :
    { t with next_segment_id := next_id, next_segment_base := next_base }.Linked :=
  ⟨hl.dead, hl.counted, hl.entries, hl.distinct⟩

theorem Linked.burn (hl : t.Linked) (hslot : t.free_slot = some i) (size : Nat)
    (type : SegType) (flags : BitVec 32) : (t.burn i size type flags).Linked := by
  have hfree := (free_slot_some hslot).2
  have hcleared := hl.set_segment (g := .clear) (fun _ => rfl)
    (by rw [hl.no_holders hfree]; rfl)
    fun k hk hvalid hseg => absurd hseg (hl.entry_ne hfree k hk hvalid)
  have hnext := hcleared.advance ((t.next_segment_id + 1) % 2 ^ 32)
      ((t.next_segment_base + align_up size PAGE_SIZE) % 2 ^ 64)
  have heq : t.burn i size type flags = { t.set_segment i .clear with
      next_segment_id := (t.next_segment_id + 1) % 2 ^ 32
      next_segment_base := (t.next_segment_base + align_up size PAGE_SIZE) % 2 ^ 64 } := by
    simp [Table.burn, Table.free_segment, Table.new_segment, Table.set_segment]
  rw [heq]
  exact hnext

theorem Linked.alloc (hl : t.Linked) {t' : Table} (pid : Nat) (hfree : t.free_handle = some h)
    (hnew : t'.handles = update t.handles h ⟨i, 1, pid, true⟩) (hsegs : t'.segments = t.segments)
    (hreg : t'.registry = t.registry)
    (hspare : (t.holders i).card + 1 ≤ (t.segments i).refcnt) : t'.Linked := by
  refine ⟨by rw [hsegs]; exact hl.dead, fun k => ?_, ?_,
    by rw [hreg]; exact hl.distinct⟩
  · rw [holders_alloc hfree hnew, hsegs]
    split
    · next hk =>
      subst hk
      exact (Finset.card_insert_le _ _).trans hspare
    · exact hl.counted k
  · rw [hreg]
    intro k hk hvalid
    obtain ⟨h1, h2, h3, h4, h5⟩ := hl.entries k hk hvalid
    exact ⟨hsegs ▸ h1, hsegs ▸ h2, hsegs ▸ h3, h4, h5⟩

theorem Linked.create (hl : t.Linked) (hslot : t.free_slot = some i) (hhandle : t.free_handle = some h)
    (hid : t.next_segment_id ≠ 0) (size : Nat) (type : SegType) (flags : BitVec 32) (pid : Nat) :
    (t.create i h size type flags pid).Linked := by
  have hfree := (free_slot_some hslot).2
  have hset := hl.set_segment (g := (t.new_segment i size type flags).segments i) (i := i)
    (fun h0 => absurd h0 (by simpa [Table.new_segment, Table.set_segment] using hid))
    (by rw [hl.no_holders hfree]; exact Nat.zero_le _)
    fun k hk hvalid hseg => absurd hseg (hl.entry_ne hfree k hk hvalid)
  have hnext := hset.advance ((t.next_segment_id + 1) % 2 ^ 32)
      ((t.next_segment_base + align_up size PAGE_SIZE) % 2 ^ 64)
  refine hnext.alloc (i := i) (h := h) pid hhandle rfl ?_ rfl ?_
  · simp [Table.create, Table.new_segment, Table.set_segment]
  · have hnone : (t.holders i).card = 0 := by rw [hl.no_holders hfree]; rfl
    have hcard : ∀ t' : Table, t'.handles = t.handles → (t'.holders i).card = 0 := fun t' ht' => by
      rw [holders_congr ht', hnone]
    refine (Nat.succ_le_succ (le_of_eq (hcard _ ?_))).trans ?_
    · rfl
    · simp [Table.new_segment, Table.set_segment]

theorem Linked.release (hl : t.Linked) (hget : t.handle_get_segment h = some i) :
    (t.release h i).holders = fun k => (t.holders k).erase h := by
  obtain ⟨hlt, hvalid, -⟩ := handle_get_segment_some hget
  funext k
  refine holders_free ?_ k
  simp [Table.release, Table.handle_free, Table.set_segment, hlt, hvalid]

theorem release_segments (hget : t.handle_get_segment h = some i) :
    (t.release h i).segments =
      update t.segments i { t.segments i with refcnt := (t.segments i).refcnt - 1 } ∧
    (t.release h i).registry = t.registry ∧ (t.release h i).next_segment_id = t.next_segment_id ∧
    (t.release h i).next_segment_base = t.next_segment_base := by
  obtain ⟨hlt, hvalid, -⟩ := handle_get_segment_some hget
  simp [Table.release, Table.handle_free, Table.set_segment, hlt, hvalid]

theorem Linked.release_counted (hl : t.Linked) (hget : t.handle_get_segment h = some i) (k : Nat) :
    ((t.release h i).holders k).card ≤ ((t.release h i).segments k).refcnt := by
  rw [hl.release hget, (release_segments hget).1]
  have hcount := hl.counted k
  by_cases hk : k = i
  · subst hk
    have hcard := Finset.card_erase_of_mem (mem_holders.mpr hget)
    simp only [update_self]
    omega
  · simp only [update_of_ne hk]
    exact (Finset.card_erase_le).trans hcount

theorem Linked.free_kept (hl : t.Linked) (hget : t.handle_get_segment h = some i)
    (hkept : ((t.release h i).segments i).refcnt ≠ 0) : (t.release h i).Linked := by
  obtain ⟨hsegs, hreg, -, -⟩ := release_segments hget
  have hlive := (hl.live hget).1
  refine ⟨fun k => ?_, hl.release_counted hget, ?_, by rw [hreg]; exact hl.distinct⟩
  · rw [hsegs]
    by_cases hk : k = i
    · subst hk
      simpa using fun h0 => absurd h0 hlive
    · simpa [hk] using hl.dead k
  · rw [hreg, hsegs]
    intro k hk hvalid
    have hent := hl.entries k hk hvalid
    by_cases hki : (t.registry k).seg = i
    · refine ⟨?_, ?_, ?_, hent.ne_zero, hent.refs⟩ <;> simp only [hki, update_self]
      · exact hki ▸ hent.live
      · exact hki ▸ hent.type
      · exact hki ▸ hent.hash
    · refine ⟨?_, ?_, ?_, hent.ne_zero, hent.refs⟩ <;> simp only [update_of_ne hki]
      · exact hent.live
      · exact hent.type
      · exact hent.hash

theorem find_entry_some {hash : Nat} (hfind : t.find_entry hash = some k) :
    k < MAX_CODE_SEGMENTS ∧ (t.registry k).valid = true ∧ (t.registry k).hash = hash := by
  obtain ⟨-, hlt, hp, -⟩ := first_from_some hfind
  rw [Bool.and_eq_true, beq_iff_eq] at hp
  exact ⟨by omega, hp⟩

theorem find_entry_none {hash : Nat} (hfind : t.find_entry hash = none) :
    ∀ k < MAX_CODE_SEGMENTS, (t.registry k).valid = true → (t.registry k).hash ≠ hash := by
  intro k hk hvalid heq
  have := first_from_none hfind k (Nat.zero_le k) (by omega)
  simp [hvalid, heq] at this

/-- The entries that are left when the segment `i` is given up are those of other segments. -/
theorem unregister (hentries : ∀ k < MAX_CODE_SEGMENTS, (t.registry k).valid = true →
      Registered t.segments (t.registry k))
    (hdistinct : ∀ k < MAX_CODE_SEGMENTS, ∀ l < MAX_CODE_SEGMENTS, (t.registry k).valid = true →
      (t.registry l).valid = true → (t.registry k).hash = (t.registry l).hash → k = l) (i : Nat) :
    let t' := if (t.segments i).type = .code ∧ (t.segments i).code_hash ≠ 0 then t.loader_unregister_code i else t
    t'.segments = t.segments ∧ t'.handles = t.handles ∧
    ∀ k < MAX_CODE_SEGMENTS, (t'.registry k).valid = true →
      t'.registry k = t.registry k ∧ (t.registry k).seg ≠ i := by
  intro t'
  by_cases hcode : (t.segments i).type = .code ∧ (t.segments i).code_hash ≠ 0
  · have ht' : t' = t.loader_unregister_code i := if_pos hcode
    rw [ht', Table.loader_unregister_code, if_neg hcode.2]
    cases hfind : t.find_entry (t.segments i).code_hash with
    | none =>
      refine ⟨rfl, rfl, fun k hk hvalid => ⟨rfl, fun hseg => ?_⟩⟩
      have hent := hentries k hk hvalid
      exact find_entry_none hfind k hk hvalid (hseg ▸ hent.hash.symm)
    | some l =>
      obtain ⟨hlt, hvalid', hhash⟩ := find_entry_some hfind
      have hrefs := (hentries l hlt hvalid').refs
      refine ⟨rfl, rfl, fun k hk hvalid => ?_⟩
      simp only [hrefs, Nat.sub_self, if_true] at hvalid ⊢
      by_cases hkl : k = l
      · subst hkl
        simp [CodeEntry.clear] at hvalid
      · rw [update_of_ne hkl] at hvalid ⊢
        refine ⟨rfl, fun hseg => hkl (hdistinct k hk l hlt hvalid hvalid' ?_)⟩
        rw [hhash, ← hseg]
        exact (hentries k hk hvalid).hash.symm
  · have ht' : t' = t := if_neg hcode
    rw [ht']
    refine ⟨rfl, rfl, fun k hk hvalid => ⟨rfl, fun hseg => hcode ?_⟩⟩
    have hent := hentries k hk hvalid
    exact ⟨hseg ▸ hent.type, fun h0 => hent.ne_zero (hent.hash ▸ hseg ▸ h0)⟩

/-- The last reference is dropped and the segment given up. -/
theorem Linked.free_reclaimed (hl : t.Linked) (hget : t.handle_get_segment h = some i)
    (hzero : ((t.release h i).segments i).refcnt = 0) : ((t.release h i).reclaim i).Linked := by
  obtain ⟨hsegs, hreg, -, -⟩ := release_segments hget
  have hcounted := hl.release_counted hget
  -- only the count of `i` differs from before, and the registry does not look at it
  have hent : ∀ k < MAX_CODE_SEGMENTS, ((t.release h i).registry k).valid = true →
      Registered (t.release h i).segments ((t.release h i).registry k) := by
    rw [hreg, hsegs]
    intro k hk hvalid
    obtain ⟨h1, h2, h3, h4, h5⟩ := hl.entries k hk hvalid
    by_cases hki : (t.registry k).seg = i
    · rw [hki] at h1 h2 h3
      refine ⟨?_, ?_, ?_, h4, h5⟩ <;> simp only [hki, update_self] <;> assumption
    · refine ⟨?_, ?_, ?_, h4, h5⟩ <;> simp only [update_of_ne hki] <;> assumption
  obtain ⟨hsegs', hhandles', hentries'⟩ :=
    unregister (t := t.release h i) hent (by rw [hreg]; exact hl.distinct) i
  have hrw : (t.release h i).reclaim i = (if ((t.release h i).segments i).type = .code ∧
    ((t.release h i).segments i).code_hash ≠ 0 then (t.release h i).loader_unregister_code i
    else t.release h i).free_segment i := rfl
  rw [hrw]
  generalize (if ((t.release h i).segments i).type = .code ∧
    ((t.release h i).segments i).code_hash ≠ 0 then (t.release h i).loader_unregister_code i
    else t.release h i) = t' at hsegs' hhandles' hentries'
  have hother : ∀ k, k ≠ i → (t'.free_segment i).segments k = t.segments k := fun k hk => by
    simp [Table.free_segment, Table.set_segment, hsegs', hsegs, hk]
  have hself : (t'.free_segment i).segments i = .clear := by simp [Table.free_segment, Table.set_segment]
  refine ⟨fun k => ?_, fun k => ?_, fun k hk hvalid => ?_, fun k hk l hlt hvalid hvalid' => ?_⟩
  · by_cases hk : k = i
    · rw [hk, hself]
      exact fun _ => rfl
    · rw [hother k hk]
      exact hl.dead k
  · have hcount := hcounted k
    rw [show (t'.free_segment i).holders k = (t.release h i).holders k from holders_congr hhandles' k]
    by_cases hk : k = i
    · rw [hk] at hcount ⊢
      omega
    · rw [hother k hk]
      rw [hsegs, update_of_ne hk] at hcount
      exact hcount
  · have hvalid : (t'.registry k).valid = true := hvalid
    obtain ⟨heq, hne⟩ := hentries' k hk hvalid
    have heq : (t'.free_segment i).registry k = t.registry k := by
      rw [← hreg]
      exact heq
    rw [hreg] at hne
    rw [heq]
    obtain ⟨h1, h2, h3, h4, h5⟩ := hl.entries k hk (by rw [← heq]; exact hvalid)
    refine ⟨?_, ?_, ?_, h4, h5⟩ <;> rw [hother _ hne] <;> assumption
  · obtain ⟨heq, -⟩ := hentries' k hk hvalid
    obtain ⟨heq', -⟩ := hentries' l hlt hvalid'
    have hvk : ((t.release h i).registry k).valid = true := by rw [← heq]; exact hvalid
    have hvl : ((t.release h i).registry l).valid = true := by rw [← heq']; exact hvalid'
    change (t'.registry k).hash = (t'.registry l).hash → k = l
    rw [heq, heq']
    rw [hreg] at hvk hvl ⊢
    exact hl.distinct k hk l hlt hvk hvl

/-- A segment of a live code file is entered in the registry. -/
theorem Linked.register (hl : t.Linked) (hlive : (t.segments i).id ≠ 0)
    (htype : (t.segments i).type = .code) (hnew : t.find_entry (t.segments i).code_hash = none) :
    (t.loader_register_code i).Linked := by
  rw [Table.loader_register_code]
  split
  · exact hl
  · next hhash =>
    rw [hnew]
    dsimp only
    split
    · next k hk =>
      refine ⟨hl.dead, hl.counted, fun l hlt hvalid => ?_, fun l hlt l' hlt' hvalid hvalid' heq => ?_⟩
      · by_cases hlk : l = k
        · subst hlk
          simp only [update_self]
          exact ⟨hlive, htype, rfl, hhash, rfl⟩
        · simp only [update_of_ne hlk] at hvalid ⊢
          exact hl.entries l hlt hvalid
      · have hfresh := find_entry_none hnew
        by_cases hlk : l = k <;> by_cases hlk' : l' = k
        · rw [hlk, hlk']
        · subst hlk
          simp only [update_self, update_of_ne hlk'] at hvalid' heq
          exact absurd heq.symm (hfresh l' hlt' hvalid')
        · subst hlk'
          simp only [update_self, update_of_ne hlk] at hvalid heq
          exact absurd heq (hfresh l hlt hvalid)
        · simp only [update_of_ne hlk, update_of_ne hlk'] at hvalid hvalid' heq
          exact hl.distinct l hlt l' hlt' hvalid hvalid' heq
    · exact hl

theorem Linked.retain_alloc (hl : t.Linked) (hlive : (t.segments i).id ≠ 0)
    (hcount : (t.segments i).refcnt + 1 < 2 ^ 32) (pid : Nat) : ((t.retain i).handle_alloc i pid).2.Linked := by
  have hretain := hl.retain hlive hcount
  rcases handle_alloc_cases (t.retain i) i pid with hnone | ⟨h, hfree, -, hsome⟩
  · rw [hnone]
    exact hretain
  · rw [hsome]
    refine hretain.alloc (i := i) _ hfree rfl rfl rfl ?_
    have hcounted := hl.counted i
    have hself : ((t.retain i).segments i).refcnt = (t.segments i).refcnt + 1 := by
      simp only [Table.retain, Table.set_segment, update_self]
      exact Nat.mod_eq_of_lt hcount
    have hholders : (t.retain i).holders i = t.holders i := holders_congr rfl i
    rw [hself, hholders]
    omega

theorem lock_id (t : Table) (i k : Nat) : ((t.lock i).segments k).id = (t.segments k).id := by
  by_cases hk : k = i
  · simp [Table.lock, Table.set_segment, hk]
  · simp [Table.lock, Table.set_segment, hk]

theorem unlock_id (t : Table) (i k : Nat) : ((t.unlock i).segments k).id = (t.segments k).id := by
  by_cases hk : k = i
  · simp [Table.unlock, Table.set_segment, hk]
  · simp [Table.unlock, Table.set_segment, hk]

theorem Linked.cloning (hl : t.Linked) {j : Nat} (hij : i ≠ j) (hi : (t.segments i).id ≠ 0)
    (hj : (t.segments j).id ≠ 0) (hcount : (t.segments i).refcnt + 1 < 2 ^ 32)
    (hcount' : (t.segments j).refcnt + 1 < 2 ^ 32) (src dst : Bool) : (t.cloning i j src dst).Linked := by
  have hsrc : (if src then t.lock i else t).Linked := by
    split
    · exact hl.lock hi hcount
    · exact hl
  have hj₁ : (if src then t.lock i else t).segments j = t.segments j := by
    split
    · simp [Table.lock, Table.set_segment, Ne.symm hij]
    · rfl
  have hi₁ : ((if src then t.lock i else t).segments i).id ≠ 0 := by
    split
    · rw [lock_id]
      exact hi
    · exact hi
  rw [Table.cloning]
  generalize (if src then t.lock i else t) = t₁ at hsrc hj₁ hi₁
  have hdst : (if dst then t₁.lock j else t₁).Linked ∧
      ((if dst then t₁.lock j else t₁).segments i).id ≠ 0 ∧ ((if dst then t₁.lock j else t₁).segments j).id ≠ 0 := by
    split
    · refine ⟨hsrc.lock (hj₁ ▸ hj) (hj₁ ▸ hcount'), ?_, ?_⟩
      · rw [lock_id]
        exact hi₁
      · rw [lock_id, hj₁]
        exact hj
    · exact ⟨hsrc, hi₁, hj₁ ▸ hj⟩
  generalize (if dst then t₁.lock j else t₁) = t₂ at hdst
  obtain ⟨hl₂, hi₂, hj₂⟩ := hdst
  refine (hl₂.unlock hj₂).unlock ?_
  rw [unlock_id]
  exact hi₂

theorem Linked.create_code (hl : t.Linked) (hslot : t.free_slot = some i) (hhandle : t.free_handle = some h)
    (hid : t.next_segment_id ≠ 0) (hash pid : Nat) :
    let t' := t.create_code i h hash pid
    t'.Linked ∧ (t'.segments i).id ≠ 0 ∧ (t'.segments i).type = .code ∧
      (t'.segments i).code_hash = hash ∧ (t'.segments i).refcnt = 1 ∧ t'.handle_get_segment h = some i ∧
      t'.registry = t.registry := by
  intro t'
  have hfree := (free_slot_some hslot).2
  have hcreate := hl.create hslot hhandle hid PAGE_SIZE .code SEG_FLAGS_CODE pid
  have hnone : ((t.create i h PAGE_SIZE .code SEG_FLAGS_CODE pid).holders i).card ≤ 1 := by
    rw [holders_alloc (t := t) hhandle rfl, if_pos rfl, hl.no_holders hfree]
    exact Finset.card_insert_le _ _
  refine ⟨hcreate.set_segment ?_ ?_ fun k hk hvalid hseg => ?_, ?_, ?_, ?_, ?_, ?_, rfl⟩
  · simpa [Table.create, Table.new_segment, Table.set_segment] using hid
  · simpa [Table.create, Table.new_segment, Table.set_segment] using hnone
  · exact absurd hseg (hl.entry_ne hfree k hk hvalid)
  · simpa [t', Table.create_code, Table.create, Table.new_segment, Table.set_segment] using hid
  · simp [t', Table.create_code, Table.create, Table.new_segment, Table.set_segment]
  · simp [t', Table.create_code, Table.create, Table.new_segment, Table.set_segment]
  · simp [t', Table.create_code, Table.create, Table.new_segment, Table.set_segment]
  · exact (handle_get_segment_congr (t := t.create i h PAGE_SIZE .code SEG_FLAGS_CODE pid) rfl h).trans
      (create_get_segment hhandle)

end Table

/-- The 32-bit counters that a call moves do not wrap around. -/
def Sasy.Counts (s : Sasy) : Call → Prop
  | .create .. => s.table.next_segment_id ≠ 0
  | .lock h => ∀ i, s.table.handle_get_segment h = some i → (s.segment i).refcnt + 1 < 2 ^ 32
  | .load_code path _ _ => s.table.next_segment_id ≠ 0 ∧
      ∀ i, s.table.loader_find_code (loader_hash_file path) = some i → (s.segment i).refcnt + 1 < 2 ^ 32
  | .clone h _ => s.table.next_segment_id ≠ 0 ∧
      ∀ i, s.table.handle_get_segment h = some i → (s.segment i).refcnt + 1 < 2 ^ 32
  | _ => True

theorem Table.Linked.found {t : Table} (hl : t.Linked) {hash i : Nat} (hfind : t.loader_find_code hash = some i) :
    (t.segments i).id ≠ 0 := by
  rw [Table.loader_find_code] at hfind
  split at hfind
  · cases hfind
  · obtain ⟨k, hk, rfl⟩ := Option.map_eq_some_iff.mp hfind
    obtain ⟨hlt, hvalid, -⟩ := Table.find_entry_some hk
    exact (hl.entries k hlt hvalid).live

theorem Table.Linked.step {s : Sasy} (hl : s.table.Linked) {call : Call} (hcounts : s.Counts call) :
    (s.step call).table.Linked := by
  cases call with
  | create size type flags pid =>
    rcases create_table s size type flags pid with ⟨-, hsame | ⟨i, hslot, hburn⟩⟩ |
      ⟨i, h, hslot, hfree, -, -, -, -, hnew⟩
    · exact hsame ▸ hl
    · exact hburn ▸ hl.burn hslot size type flags
    · exact hnew ▸ hl.create hslot hfree hcounts size type flags pid
  | lock h =>
    rcases lock_table s h with ⟨-, hsame⟩ | ⟨i, hget, -, hlock⟩
    · exact hsame ▸ hl
    · exact hlock ▸ hl.lock (hl.live hget).1 (hcounts i hget)
  | unlock h =>
    have htable := unlock_table s h
    cases hget : s.table.handle_get_segment h with
    | none =>
      rw [hget] at htable
      exact htable ▸ hl
    | some i =>
      rw [hget] at htable
      exact htable ▸ hl.unlock (hl.live hget).1
  | free h =>
    have htable := free_table s h
    cases hget : s.table.handle_get_segment h with
    | none =>
      rw [hget] at htable
      exact htable ▸ hl
    | some i =>
      rw [hget] at htable
      dsimp only at htable
      split at htable
      · next hzero => exact htable ▸ hl.free_reclaimed hget hzero
      · next hkept => exact htable ▸ hl.free_kept hget hkept
  | resize h new_size =>
    rcases resize_table s h new_size with hsame | ⟨i, hget, -, -, -, -, -, hset⟩
    · exact hsame ▸ hl
    · exact hset ▸ hl.touch rfl rfl rfl (hl.live hget).1 (le_refl _)
  | mark_dirty h =>
    change (s.sasy_mark_dirty h).table.Linked
    rw [Sasy.sasy_mark_dirty]
    cases hget : s.table.handle_get_segment h with
    | none => exact hl
    | some i => exact hl.touch rfl rfl rfl (hl.live hget).1 (le_refl _)
  | pressure => exact hl
  | load_code path found pid =>
    rcases load_code_table s path found pid with ⟨i, hfind, hshare⟩ |
      ⟨hfind, hsame | ⟨i, hslot, hburn⟩ | ⟨i, h, hslot, hfree, -, hreg | hback⟩⟩
    · exact hshare ▸ hl.retain_alloc (hl.found hfind) (hcounts.2 i hfind) pid
    · exact hsame ▸ hl
    · exact hburn ▸ hl.burn hslot _ _ _
    · obtain ⟨hcode, hlive, htype, hhash, -, -, hregistry⟩ :=
        hl.create_code hslot hfree hcounts.1 (loader_hash_file path) pid
      change (s.sasy_load_code path found pid).2.table.Linked
      rw [hreg]
      by_cases hzero : loader_hash_file path = 0
      · rw [Table.loader_register_code, if_pos (hhash.trans hzero)]
        exact hcode
      · refine hcode.register hlive htype ?_
        rw [hhash]
        rw [Table.loader_find_code, if_neg hzero, Option.map_eq_none_iff] at hfind
        exact hfind
    · obtain ⟨hcode, -, -, -, hone, hget, -⟩ :=
        hl.create_code hslot hfree hcounts.1 (loader_hash_file path) pid
      change (s.sasy_load_code path found pid).2.table.Linked
      rw [hback]
      refine hcode.free_reclaimed hget ?_
      rw [(Table.release_segments hget).1]
      simp [hone]
  | clone h pid =>
    rcases clone_table s h pid with hsame | ⟨i, hget, ⟨-, hdup⟩ | ⟨-, ⟨j, hslot, hburn⟩ |
      ⟨j, h', src, dst, hslot, hfree, -, -, hnew⟩⟩⟩
    · exact hsame ▸ hl
    · change (s.sasy_clone h pid).2.table.Linked
      rw [hdup]
      rcases Table.handle_dup_eq hget pid with hd | hd
      · rw [hd]
        exact hl
      · rw [hd]
        exact hl.retain_alloc (hl.live hget).1 (hcounts.2 i hget) pid
    · exact hburn ▸ hl.burn hslot _ _ _
    · have hlive := (hl.live hget).1
      have hij : i ≠ j := by
        rintro rfl
        exact hlive (Table.free_slot_some hslot).2
      have hcreate := hl.create hslot hfree hcounts.1 (s.table.segments i).size (s.table.segments i).type
        (s.table.segments i).flags pid
      have hcount := hcounts.2 i hget
      refine hnew ▸ hcreate.cloning hij ?_ ?_ ?_ ?_ src dst
      · simpa [Table.create, Table.new_segment, Table.set_segment, hij] using hlive
      · simpa [Table.create, Table.new_segment, Table.set_segment] using hcounts.1
      · simpa [Table.create, Table.new_segment, Table.set_segment, hij, Sasy.segment] using hcount
      · simp [Table.create, Table.new_segment, Table.set_segment]
  | fault addr =>
    change (s.loader_handle_fault addr).table.Linked
    rw [Sasy.loader_handle_fault]
    split <;> exact hl
  | poke addr value => exact hl

theorem init_linked (b : Backing) : (Sasy.init b).table.Linked := by
  refine ⟨fun _ _ => rfl, fun i => ?_, fun _ _ hvalid => (by cases hvalid), fun _ _ _ _ hvalid => by cases hvalid⟩
  have hnone : (Sasy.init b).table.holders i = ∅ := by
    simp [Table.holders, Sasy.init, Table.init, Handle.clear]
  rw [hnone]
  exact Nat.zero_le _

/-! ## Counters

A call adds at most one segment, and one reference to each. -/

/-- The counters after `n` calls. -/
structure Table.Bounded (n : Nat) (t : Table) : Prop where
  ids : n + 1 < 2 ^ 32 → 1 ≤ t.next_segment_id ∧ t.next_segment_id ≤ n + 1
  refs : ∀ i, (t.segments i).refcnt ≤ n

namespace Table

variable {t t' : Table} {n h i j : Nat}

theorem Bounded.next (hb : t.Bounded n) (hid : t'.next_segment_id = t.next_segment_id ∨
      t'.next_segment_id = (t.next_segment_id + 1) % 2 ^ 32)
    (hrefs : ∀ k, (t'.segments k).refcnt ≤ n + 1) : t'.Bounded (n + 1) := by
  refine ⟨fun hn => ?_, hrefs⟩
  have := hb.ids (by omega)
  rcases hid with hid | hid
  · omega
  · rw [hid, Nat.mod_eq_of_lt (by omega)]
    omega

theorem lock_refcnt (t : Table) (i k : Nat) :
    ((t.lock i).segments k).refcnt ≤ (t.segments k).refcnt + (if k = i then 1 else 0) := by
  by_cases hk : k = i
  · subst hk
    simp only [Table.lock, Table.set_segment, update_self, if_true]
    exact Nat.mod_le _ _
  · simp [Table.lock, Table.set_segment, hk]

theorem unlock_refcnt (t : Table) (i k : Nat) : ((t.unlock i).segments k).refcnt = (t.segments k).refcnt := by
  by_cases hk : k = i
  · subst hk
    simp [Table.unlock, Table.set_segment]
  · simp [Table.unlock, Table.set_segment, hk]

theorem retain_refcnt (t : Table) (i k : Nat) : ((t.retain i).segments k).refcnt ≤ (t.segments k).refcnt + 1 := by
  by_cases hk : k = i
  · subst hk
    simp only [Table.retain, Table.set_segment, update_self]
    exact Nat.mod_le _ _
  · simp [Table.retain, Table.set_segment, hk]

theorem release_refcnt (t : Table) (h i k : Nat) : ((t.release h i).segments k).refcnt ≤ (t.segments k).refcnt := by
  have hkeeps := (handle_free_keeps (t.set_segment i { t.segments i with refcnt := (t.segments i).refcnt - 1 }) h).1
  rw [Table.release, hkeeps]
  by_cases hk : k = i
  · subst hk
    simp [Table.set_segment]
  · simp [Table.set_segment, hk]

theorem reclaim_refcnt (t : Table) (i k : Nat) : ((t.reclaim i).segments k).refcnt ≤ (t.segments k).refcnt := by
  have hkeeps := (unregister_keeps t i).1
  rw [Table.reclaim]
  by_cases hk : k = i
  · subst hk
    simp [Table.free_segment, Table.set_segment, Segment.clear]
  · simp only [Table.free_segment, Table.set_segment, update_of_ne hk]
    split
    · rw [hkeeps]
    · exact le_refl _

theorem release_next_id (t : Table) (h i : Nat) : (t.release h i).next_segment_id = t.next_segment_id := by
  rw [Table.release, Table.handle_free]
  split <;> rfl

theorem reclaim_next_id (t : Table) (i : Nat) : (t.reclaim i).next_segment_id = t.next_segment_id := by
  rw [Table.reclaim, Table.free_segment, Table.set_segment]
  dsimp only
  split
  · rw [Table.loader_unregister_code]
    split
    · rfl
    · split <;> rfl
  · rfl

theorem register_next_id (t : Table) (i : Nat) : (t.loader_register_code i).next_segment_id = t.next_segment_id := by
  rw [loader_register_code]
  split
  · rfl
  · split
    · rfl
    · split <;> rfl

theorem handle_alloc_next_id (t : Table) (i pid : Nat) :
    (t.handle_alloc i pid).2.next_segment_id = t.next_segment_id := by
  rw [handle_alloc]
  split <;> rfl

theorem Bounded.burn (hb : t.Bounded n) (i size : Nat) (type : SegType) (flags : BitVec 32) :
    (t.burn i size type flags).Bounded (n + 1) := by
  refine hb.next (.inr rfl) fun k => ?_
  have := hb.refs k
  by_cases hk : k = i
  · simp [Table.burn, Table.free_segment, Table.set_segment, hk, Segment.clear]
  · simp only [Table.burn, Table.free_segment, Table.new_segment, Table.set_segment, update_of_ne hk]
    omega

theorem create_refcnt (t : Table) (i h size : Nat) (type : SegType) (flags : BitVec 32) (pid k : Nat) :
    ((t.create i h size type flags pid).segments k).refcnt = if k = i then 1 else (t.segments k).refcnt := by
  by_cases hk : k = i
  · simp [Table.create, Table.new_segment, Table.set_segment, hk]
  · simp [Table.create, Table.new_segment, Table.set_segment, hk]

theorem Bounded.retain_alloc (hb : t.Bounded n) (i pid : Nat) :
    ((t.retain i).handle_alloc i pid).2.Bounded (n + 1) := by
  refine hb.next (.inl (handle_alloc_next_id _ _ _)) fun k => ?_
  rw [(handle_alloc_keeps _ _ _).1]
  have := hb.refs k
  have := retain_refcnt t i k
  omega

/-- A clone starts with one reference and gets at most one more, which is no more than its source had. -/
theorem Bounded.cloning (hb : t.Bounded n) (hn : 1 ≤ n) (hij : i ≠ j) (size : Nat) (type : SegType)
    (flags : BitVec 32) (pid : Nat) (src dst : Bool) :
    ((t.create j h size type flags pid).cloning i j src dst).Bounded (n + 1) := by
  refine hb.next (.inr ?_) fun k => ?_
  · cases src <;> cases dst <;> rfl
  · rw [Table.cloning, unlock_refcnt, unlock_refcnt]
    have hrefs := hb.refs k
    have hnew := create_refcnt t j h size type flags pid k
    generalize t.create j h size type flags pid = t₁ at hnew
    have hsrc : ((if src then t₁.lock i else t₁).segments k).refcnt ≤
        (t₁.segments k).refcnt + if k = i then 1 else 0 := by
      split
      · exact lock_refcnt t₁ i k
      · exact Nat.le_add_right _ _
    generalize (if src then t₁.lock i else t₁) = t₂ at hsrc
    have hdst : ((if dst then t₂.lock j else t₂).segments k).refcnt ≤
        (t₂.segments k).refcnt + if k = j then 1 else 0 := by
      split
      · exact lock_refcnt t₂ j k
      · exact Nat.le_add_right _ _
    by_cases hkj : k = j
    · have hki : k ≠ i := fun hki => hij (hki.symm.trans hkj)
      rw [if_pos hkj] at hnew hdst
      rw [if_neg hki] at hsrc
      omega
    · rw [if_neg hkj] at hnew hdst
      split at hsrc <;> omega

end Table

theorem Table.Bounded.step {n : Nat} {s : Sasy} (hb : s.table.Bounded n) (hl : s.table.Linked) (call : Call) :
    (s.step call).table.Bounded (n + 1) := by
  have hmono : ∀ {t : Table}, t.segments = s.table.segments → t.next_segment_id = s.table.next_segment_id →
      t.Bounded (n + 1) := fun hsegs hid => hb.next (.inl hid) fun k => by
    have := hb.refs k
    rw [hsegs]
    omega
  cases call with
  | create size type flags pid =>
    rcases create_table s size type flags pid with ⟨-, hsame | ⟨i, hslot, hburn⟩⟩ |
      ⟨i, h, hslot, hfree, -, -, -, -, hnew⟩
    · exact hmono (congrArg _ hsame) (congrArg _ hsame)
    · exact hburn ▸ hb.burn i size type flags
    · refine hnew ▸ hb.next (.inr rfl) fun k => ?_
      have := hb.refs k
      rw [Table.create_refcnt]
      split <;> omega
  | lock h =>
    rcases lock_table s h with ⟨-, hsame⟩ | ⟨i, hget, -, hlock⟩
    · exact hmono (congrArg _ hsame) (congrArg _ hsame)
    · refine hlock ▸ hb.next (.inl rfl) fun k => ?_
      have := hb.refs k
      have := Table.lock_refcnt s.table i k
      split at this <;> omega
  | unlock h =>
    have htable := unlock_table s h
    split at htable
    · exact hmono (congrArg _ htable) (congrArg _ htable)
    · refine htable ▸ hb.next (.inl rfl) fun k => ?_
      have := hb.refs k
      rw [Table.unlock_refcnt]
      omega
  | free h =>
    have htable := free_table s h
    split at htable
    · exact hmono (congrArg _ htable) (congrArg _ htable)
    · next i _ =>
      have hrelease : ∀ k, ((s.table.release h i).segments k).refcnt ≤ n := fun k =>
        (Table.release_refcnt s.table h i k).trans (hb.refs k)
      split at htable
      · refine htable ▸ hb.next (.inl ?_) fun k => ?_
        · rw [Table.reclaim_next_id, Table.release_next_id]
        · have := hrelease k
          have := Table.reclaim_refcnt (s.table.release h i) i k
          omega
      · refine htable ▸ hb.next (.inl (Table.release_next_id _ _ _)) fun k => ?_
        have := hrelease k
        omega
  | resize h new_size =>
    rcases resize_table s h new_size with hsame | ⟨i, hget, -, -, -, -, -, hset⟩
    · exact hmono (congrArg _ hsame) (congrArg _ hsame)
    · refine hset ▸ hb.next (.inl rfl) fun k => ?_
      have := hb.refs k
      by_cases hk : k = i
      · subst hk
        simp [Table.set_segment]
        omega
      · simp [Table.set_segment, hk]
        omega
  | mark_dirty h =>
    change (s.sasy_mark_dirty h).table.Bounded (n + 1)
    rw [Sasy.sasy_mark_dirty]
    split
    · exact hmono rfl rfl
    · next i _ =>
      refine hb.next (.inl rfl) fun k => ?_
      have := hb.refs k
      by_cases hk : k = i
      · subst hk
        simp [Table.set_segment, Sasy.segment]
        omega
      · simp [Table.set_segment, hk]
        omega
  | pressure => exact hmono rfl rfl
  | load_code path found pid =>
    rcases load_code_table s path found pid with ⟨i, -, hshare⟩ |
      ⟨-, hsame | ⟨i, hslot, hburn⟩ | ⟨i, h, hslot, hfree, -, hcode⟩⟩
    · exact hshare ▸ hb.retain_alloc i pid
    · exact hmono (congrArg _ hsame) (congrArg _ hsame)
    · exact hburn ▸ hb.burn i _ _ _
    · have hrefs : ∀ k, ((s.table.create_code i h (loader_hash_file path) pid).segments k).refcnt ≤ n + 1 := by
        intro k
        have := hb.refs k
        by_cases hk : k = i
        · simp [Table.create_code, Table.create, Table.new_segment, Table.set_segment, hk]
        · simp [Table.create_code, Table.create, Table.new_segment, Table.set_segment, hk]
          omega
      rcases hcode with hreg | hback
      · refine hreg ▸ hb.next (.inr (Table.register_next_id _ _)) fun k => ?_
        rw [(Table.register_keeps _ _).1]
        exact hrefs k
      · refine hback ▸ hb.next (.inr ?_) fun k => ?_
        · rw [Table.reclaim_next_id, Table.release_next_id]
          rfl
        · exact ((Table.reclaim_refcnt _ _ _).trans (Table.release_refcnt _ _ _ _)).trans (hrefs k)
  | clone h pid =>
    rcases clone_table s h pid with hsame | ⟨i, hget, ⟨-, hdup⟩ | ⟨-, ⟨j, hslot, hburn⟩ |
      ⟨j, h', src, dst, hslot, hfree, -, -, hnew⟩⟩⟩
    · exact hmono (congrArg _ hsame) (congrArg _ hsame)
    · change (s.sasy_clone h pid).2.table.Bounded (n + 1)
      rw [hdup]
      rcases Table.handle_dup_eq hget pid with hd | hd
      · rw [hd]
        exact hmono rfl rfl
      · rw [hd]
        exact hb.retain_alloc i pid
    · exact hburn ▸ hb.burn j _ _ _
    · obtain ⟨hlive, hone⟩ := hl.live hget
      have hij : i ≠ j := by
        rintro rfl
        exact hlive (Table.free_slot_some hslot).2
      exact hnew ▸ hb.cloning (hone.trans (hb.refs i)) hij _ _ _ _ src dst
  | fault addr =>
    change (s.loader_handle_fault addr).table.Bounded (n + 1)
    rw [Sasy.loader_handle_fault]
    split <;> exact hmono rfl rfl
  | poke addr value => exact hmono rfl rfl

theorem Table.Bounded.counts {n : Nat} {s : Sasy} (hb : s.table.Bounded n) (hn : n + 1 < 2 ^ 32) (call : Call) :
    s.Counts call := by
  have hid : s.table.next_segment_id ≠ 0 := Nat.one_le_iff_ne_zero.mp (hb.ids hn).1
  have hrefs : ∀ i, (s.segment i).refcnt + 1 < 2 ^ 32 := fun i => by
    have hle : (s.segment i).refcnt ≤ n := hb.refs i
    omega
  cases call with
  | create => exact hid
  | lock => exact fun i _ => hrefs i
  | load_code => exact ⟨hid, fun i _ => hrefs i⟩
  | clone => exact ⟨hid, fun i _ => hrefs i⟩
  | _ => trivial

theorem Table.Linked.run {n : Nat} {s : Sasy} (hl : s.table.Linked) (hb : s.table.Bounded n) {calls : List Call}
    (hn : n + calls.length < 2 ^ 32) : (run Sasy.step s calls).table.Linked := by
  induction calls generalizing s n with
  | nil => exact hl
  | cons call calls ih =>
    rw [List.length_cons] at hn
    exact ih (hl.step (hb.counts (by omega) call)) (hb.step hl call) (by omega)

/-- Fewer than 2^32 calls leave no dangling handle and no dangling entry of the registry. -/
theorem sasy_no_dangling_handle (b : Backing) {calls : List Call} (hcalls : calls.length < 2 ^ 32) :
    let t := (run Sasy.step (Sasy.init b) calls).table
    (∀ h < MAX_HANDLES, (t.handles h).valid = true →
      (t.segments (t.handles h).seg).id ≠ 0 ∧
      ((Finset.range MAX_HANDLES).filter fun k => (t.handles k).valid = true ∧
        (t.handles k).seg = (t.handles h).seg).card ≤ (t.segments (t.handles h).seg).refcnt) ∧
    ∀ k < MAX_CODE_SEGMENTS, (t.registry k).valid = true →
      (t.segments (t.registry k).seg).id ≠ 0 ∧ (t.segments (t.registry k).seg).type = .code ∧
      (t.segments (t.registry k).seg).code_hash = (t.registry k).hash := by
  intro t
  have hbound : (Sasy.init b).table.Bounded 0 := ⟨fun _ => ⟨le_refl _, le_refl _⟩, fun _ => le_refl _⟩
  have hl : t.Linked := (init_linked b).run hbound (by omega)
  refine ⟨fun h hlt hvalid => ⟨?_, hl.counted _⟩, fun k hk hvalid => ?_⟩
  · exact (hl.live (Table.handle_get_segment_of hlt hvalid)).1
  · have hent := hl.entries k hk hvalid
    exact ⟨hent.live, hent.type, hent.hash⟩

/-- A code file is loaded by two processes, and the first of them gives it up. -/
theorem shared_code_not_dangling :
    let t := (run Sasy.step (Sasy.init .blank) [.load_code [0x61] true 1, .load_code [0x61] true 2, .free 0]).table
    (t.handles 1).valid = true ∧ (t.segments (t.handles 1).seg).id ≠ 0 := by
  have hvalid : ((run Sasy.step (Sasy.init .blank)
    [.load_code [0x61] true 1, .load_code [0x61] true 2, .free 0]).table.handles 1).valid = true := by decide +kernel
  refine ⟨hvalid, ?_⟩
  exact ((sasy_no_dangling_handle .blank (by decide)).1 1 (by unfold MAX_HANDLES; decide) hvalid).1

end graceos.sasy
