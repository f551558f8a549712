import GraceOS.Sasy.Effects

/-!
# The address space of the segments

Segments take their addresses from a pointer that only moves up. Their ranges stay apart as long as
the pointer does not wrap around and a segment that grows has room above it.
-/

namespace graceos.sasy

open mm machine Function

namespace Table

/-- The ranges of the live segments lie apart below the next free address. -/
structure Apart (t : Table) : Prop where
  next : SASY_BASE_ADDR ≤ t.next_segment_base ∧ t.next_segment_base < 2 ^ 64 ∧ t.next_segment_base % PAGE_SIZE = 0
  slot : ∀ i, (t.segments i).id ≠ 0 → i < MAX_SEGMENTS
  within : ∀ i, (t.segments i).id ≠ 0 → SASY_BASE_ADDR ≤ (t.segments i).base ∧
    (t.segments i).base + (t.segments i).size ≤ t.next_segment_base ∧
    (t.segments i).base + (t.segments i).size ≤ SASY_BASE_ADDR + SASY_MAX_SIZE
  aligned : ∀ i, (t.segments i).id ≠ 0 → (t.segments i).base % PAGE_SIZE = 0 ∧ (t.segments i).size % PAGE_SIZE = 0
  apart : ∀ i j, (t.segments i).id ≠ 0 → (t.segments j).id ≠ 0 → i ≠ j →
    (t.segments i).base + (t.segments i).size ≤ (t.segments j).base ∨
    (t.segments j).base + (t.segments j).size ≤ (t.segments i).base

variable {t t' : Table} {i : Nat}

theorem Apart.of_le (ha : t.Apart) (hnext : t'.next_segment_base = t.next_segment_base)
    (hle : ∀ i, (t'.segments i).id ≠ 0 → (t.segments i).id ≠ 0 ∧ (t'.segments i).base = (t.segments i).base ∧
      (t'.segments i).size ≤ (t.segments i).size ∧ (t'.segments i).size % PAGE_SIZE = 0) : t'.Apart := by
  refine ⟨hnext ▸ ha.next, fun i hi => ha.slot i (hle i hi).1, fun i hi => ?_, fun i hi => ?_, fun i j hi hj hij => ?_⟩
  · obtain ⟨hlive, hbase, hsize, -⟩ := hle i hi
    obtain ⟨hlow, hbelow, hhigh⟩ := ha.within i hlive
    rw [hbase, hnext]
    exact ⟨hlow, by omega, by omega⟩
  · obtain ⟨hlive, hbase, -, haligned⟩ := hle i hi
    exact ⟨hbase ▸ (ha.aligned i hlive).1, haligned⟩
  · obtain ⟨hlive, hbase, hsize, -⟩ := hle i hi
    obtain ⟨hlive', hbase', hsize', -⟩ := hle j hj
    have := ha.apart i j hlive hlive' hij
    omega

theorem Apart.touch (ha : t.Apart) {g : Segment} (hid : g.id = (t.segments i).id)
    (hbase : g.base = (t.segments i).base) (hsize : g.size ≤ (t.segments i).size)
    (haligned : g.size % PAGE_SIZE = 0) : (t.set_segment i g).Apart := by
  refine ha.of_le rfl fun k hk => ?_
  by_cases hki : k = i
  · subst hki
    simp only [Table.set_segment, update_self] at hk ⊢
    exact ⟨hid ▸ hk, hbase, hsize, haligned⟩
  · simp only [Table.set_segment, update_of_ne hki] at hk ⊢
    refine ⟨hk, ?_⟩
    simpa using (ha.aligned k hk).2

theorem Apart.set (ha : t.Apart) {g : Segment} (hid : g.id = (t.segments i).id)
    (hbase : g.base = (t.segments i).base) (hsize : g.size = (t.segments i).size) :
    (t.set_segment i g).Apart := by
  refine ha.of_le rfl fun k hk => ?_
  by_cases hki : k = i
  · subst hki
    simp only [Table.set_segment, update_self] at hk ⊢
    exact ⟨hid ▸ hk, hbase, hsize.le, hsize ▸ (ha.aligned k (hid ▸ hk)).2⟩
  · simp only [Table.set_segment, update_of_ne hki] at hk ⊢
    refine ⟨hk, ?_⟩
    simpa using (ha.aligned k hk).2

theorem Apart.congr (ha : t.Apart) (hsegs : t'.segments = t.segments)
    (hnext : t'.next_segment_base = t.next_segment_base) : t'.Apart :=
  ha.of_le hnext fun i hi => by
    rw [hsegs] at hi ⊢
    exact ⟨hi, rfl, le_refl _, (ha.aligned i hi).2⟩

theorem align_up_mod (x : Nat) : align_up x PAGE_SIZE % PAGE_SIZE = 0 := Nat.mul_mod_left _ _

theorem Apart.next_base (ha : t.Apart) {size : Nat}
    (hfits : t.next_segment_base + align_up size PAGE_SIZE < 2 ^ 64) :
    (t.next_segment_base + align_up size PAGE_SIZE) % 2 ^ 64 = t.next_segment_base + align_up size PAGE_SIZE ∧
    (t.next_segment_base + align_up size PAGE_SIZE) % PAGE_SIZE = 0 := by
  refine ⟨Nat.mod_eq_of_lt hfits, ?_⟩
  rw [Nat.add_mod, ha.next.2.2, align_up_mod, Nat.add_zero, Nat.zero_mod]

theorem Apart.advance (ha : t.Apart) (hsegs : t'.segments = t.segments)
    (hle : t.next_segment_base ≤ t'.next_segment_base) (hlt : t'.next_segment_base < 2 ^ 64)
    (hmod : t'.next_segment_base % PAGE_SIZE = 0) : t'.Apart := by
  refine ⟨⟨ha.next.1.trans hle, hlt, hmod⟩, hsegs ▸ ha.slot, fun i hi => ?_, hsegs ▸ ha.aligned, hsegs ▸ ha.apart⟩
  rw [hsegs] at hi ⊢
  obtain ⟨hlow, hbelow, hhigh⟩ := ha.within i hi
  exact ⟨hlow, hbelow.trans hle, hhigh⟩

theorem Apart.burn (ha : t.Apart) (hslot : t.free_slot = some i) {size : Nat} (type : SegType) (flags : BitVec 32)
    (hfits : t.next_segment_base + align_up size PAGE_SIZE < 2 ^ 64) : (t.burn i size type flags).Apart := by
  obtain ⟨hmod, haligned⟩ := ha.next_base hfits
  have hcleared : (t.set_segment i .clear).Apart := by
    refine ha.of_le rfl fun k hk => ?_
    by_cases hki : k = i
    · subst hki
      simp [Table.set_segment, Segment.clear] at hk
    · simp only [Table.set_segment, update_of_ne hki] at hk ⊢
      refine ⟨hk, ?_⟩
      simpa using (ha.aligned k hk).2
  refine hcleared.advance ?_ ?_ ?_ ?_
  · simp [Table.burn, Table.free_segment, Table.new_segment, Table.set_segment]
  · change t.next_segment_base ≤ (t.next_segment_base + align_up size PAGE_SIZE) % 2 ^ 64
    omega
  · exact Nat.mod_lt _ (by decide)
  · change (t.next_segment_base + align_up size PAGE_SIZE) % 2 ^ 64 % PAGE_SIZE = 0
    rw [hmod, haligned]

/-- A new segment lies between the old next address and the new one. -/
theorem Apart.create (ha : t.Apart) (hslot : t.free_slot = some i) {size : Nat} (h : Nat) (type : SegType)
    (flags : BitVec 32) (pid : Nat) (hfits : t.next_segment_base + align_up size PAGE_SIZE < 2 ^ 64)
    (hroom : (t.next_segment_base + align_up size PAGE_SIZE) % 2 ^ 64 < SASY_BASE_ADDR + SASY_MAX_SIZE) :
    (t.create i h size type flags pid).Apart := by
  obtain ⟨hmod, haligned⟩ := ha.next_base hfits
  have hburn := ha.burn hslot type flags hfits
  obtain ⟨hmax, hdead⟩ := free_slot_some hslot
  have hnext : (t.create i h size type flags pid).next_segment_base =
      t.next_segment_base + align_up size PAGE_SIZE := hmod
  have hself : ((t.create i h size type flags pid).segments i).base = t.next_segment_base ∧
      ((t.create i h size type flags pid).segments i).size = align_up size PAGE_SIZE := by
    simp [Table.create, Table.new_segment, Table.set_segment]
  have hother : ∀ k, k ≠ i → (t.create i h size type flags pid).segments k = t.segments k := fun k hk => by
    simp [Table.create, Table.new_segment, Table.set_segment, hk]
  rw [hmod] at hroom
  refine ⟨⟨?_, ?_, ?_⟩, fun k hk => ?_, fun k hk => ?_, fun k hk => ?_, fun k l hk hl hkl => ?_⟩
  · have := ha.next.1
    omega
  · omega
  · rw [hnext, haligned]
  · by_cases hki : k = i
    · omega
    · exact ha.slot k (hother k hki ▸ hk)
  · by_cases hki : k = i
    · subst hki
      have := ha.next.1
      omega
    · rw [hother k hki] at hk ⊢
      obtain ⟨hlow, hbelow, hhigh⟩ := ha.within k hk
      exact ⟨hlow, by omega, hhigh⟩
  · by_cases hki : k = i
    · subst hki
      rw [hself.1, hself.2]
      exact ⟨ha.next.2.2, align_up_mod size⟩
    · rw [hother k hki] at hk ⊢
      exact ha.aligned k hk
  · by_cases hki : k = i
    · subst hki
      rw [hother l (Ne.symm hkl)] at hl ⊢
      have := (ha.within l hl).2.1
      omega
    · rw [hother k hki] at hk ⊢
      by_cases hli : l = i
      · subst hli
        have := (ha.within k hk).2.1
        omega
      · rw [hother l hli] at hl ⊢
        exact ha.apart k l hk hl hkl

/-- Room for the segment `i` to have another size. -/
def Room (t : Table) (i size : Nat) : Prop :=
  (t.segments i).base + size ≤ t.next_segment_base ∧
  (t.segments i).base + size ≤ SASY_BASE_ADDR + SASY_MAX_SIZE ∧
  ∀ j < MAX_SEGMENTS, (t.segments j).id ≠ 0 → j ≠ i → (t.segments i).base + size ≤ (t.segments j).base ∨
    (t.segments j).base + (t.segments j).size ≤ (t.segments i).base

theorem Apart.grow (ha : t.Apart) {size : Nat} (hroom : t.Room i size) (haligned : size % PAGE_SIZE = 0) :
    (t.set_segment i { t.segments i with size := size }).Apart := by
  obtain ⟨hbelow, hhigh, hoff⟩ := hroom
  have hself : (t.set_segment i { t.segments i with size := size }).segments i =
      { t.segments i with size := size } := by simp [Table.set_segment]
  have hother : ∀ k, k ≠ i → (t.set_segment i { t.segments i with size := size }).segments k = t.segments k :=
    fun k hk => by simp [Table.set_segment, hk]
  refine ⟨ha.next, fun k hk => ?_, fun k hk => ?_, fun k hk => ?_, fun k l hk hl hkl => ?_⟩
  · by_cases hki : k = i
    · subst hki
      rw [hself] at hk
      exact ha.slot k hk
    · exact ha.slot k (hother k hki ▸ hk)
  · by_cases hki : k = i
    · subst hki
      rw [hself] at hk ⊢
      exact ⟨(ha.within k hk).1, hbelow, hhigh⟩
    · rw [hother k hki] at hk ⊢
      exact ha.within k hk
  · by_cases hki : k = i
    · subst hki
      rw [hself] at hk ⊢
      exact ⟨(ha.aligned k hk).1, haligned⟩
    · rw [hother k hki] at hk ⊢
      exact ha.aligned k hk
  · by_cases hki : k = i
    · subst hki
      rw [hself] at hk ⊢
      rw [hother l (Ne.symm hkl)] at hl ⊢
      exact hoff l (ha.slot l hl) hl (Ne.symm hkl)
    · rw [hother k hki] at hk ⊢
      by_cases hli : l = i
      · subst hli
        rw [hself] at hl ⊢
        exact (hoff k (ha.slot k hk) hk hkl).symm
      · rw [hother l hli] at hl ⊢
        exact ha.apart k l hk hl hkl

theorem Apart.retain (ha : t.Apart) (i : Nat) : (t.retain i).Apart := ha.set rfl rfl rfl
theorem Apart.lock (ha : t.Apart) (i : Nat) : (t.lock i).Apart := ha.set rfl rfl rfl
theorem Apart.unlock (ha : t.Apart) (i : Nat) : (t.unlock i).Apart := ha.set rfl rfl rfl

theorem Apart.release (ha : t.Apart) (h i : Nat) : (t.release h i).Apart := by
  have hset : (t.set_segment i { t.segments i with refcnt := (t.segments i).refcnt - 1 }).Apart :=
    ha.set rfl rfl rfl
  have hkeeps := handle_free_keeps (t.set_segment i { t.segments i with refcnt := (t.segments i).refcnt - 1 }) h
  exact hset.congr hkeeps.1 hkeeps.2

theorem Apart.reclaim (ha : t.Apart) (i : Nat) : (t.reclaim i).Apart := by
  have hkeeps := unregister_keeps t i
  have hua : (if (t.segments i).type = .code ∧ (t.segments i).code_hash ≠ 0 then t.loader_unregister_code i
      else t).Apart := by
    split
    · exact ha.congr hkeeps.1 hkeeps.2
    · exact ha
  unfold Table.reclaim
  refine hua.of_le rfl fun k hk => ?_
  by_cases hki : k = i
  · subst hki
    simp [Table.free_segment, Table.set_segment, Segment.clear] at hk
  · simp only [Table.free_segment, Table.set_segment, update_of_ne hki] at hk ⊢
    refine ⟨hk, ?_⟩
    simpa using (hua.aligned k hk).2

theorem Apart.cloning (ha : t.Apart) (i j : Nat) (src dst : Bool) : (t.cloning i j src dst).Apart := by
  have hsrc : (if src then t.lock i else t).Apart := by
    split
    · exact ha.lock i
    · exact ha
  have hdst : (if dst then (if src then t.lock i else t).lock j else (if src then t.lock i else t)).Apart := by
    split
    · exact hsrc.lock j
    · exact hsrc
  exact (hdst.unlock j).unlock i

end Table

/-- A `sasy_resize` that makes a segment longer. -/
def Sasy.Grows (s : Sasy) (i new_size : Nat) : Prop :=
  (s.segment i).locked = 0 ∧ (s.segment i).type ≠ .fixed ∧ (s.segment i).type ≠ .physical ∧
  s.backing.present i = false ∧ (s.segment i).size < align_up new_size PAGE_SIZE

/-- The next address does not wrap around, and a segment that grows has room. -/
def Sasy.Fits (s : Sasy) : Call → Prop
  | .create size _ _ _ => s.table.free_slot.isSome → s.table.next_segment_base + align_up size PAGE_SIZE < 2 ^ 64
  | .load_code path _ _ => s.table.free_slot.isSome → s.table.loader_find_code (loader_hash_file path) = none →
      s.table.next_segment_base + PAGE_SIZE < 2 ^ 64
  | .clone h _ => s.table.free_slot.isSome → ∀ i, s.table.handle_get_segment h = some i →
      (s.segment i).type ≠ .code → s.table.next_segment_base + align_up (s.segment i).size PAGE_SIZE < 2 ^ 64
  | .resize h new_size => ∀ i, s.table.handle_get_segment h = some i → s.Grows i new_size →
      s.table.Room i (align_up new_size PAGE_SIZE)
  | _ => True

theorem Table.Apart.step {s : Sasy} (ha : s.table.Apart) {call : Call} (hfits : s.Fits call) :
    (s.step call).table.Apart := by
  cases call with
  | create size type flags pid =>
    rcases create_table s size type flags pid with ⟨-, hsame | ⟨i, hslot, hburn⟩⟩ |
      ⟨i, h, hslot, -, -, -, hroom, -, hnew⟩
    · exact hsame ▸ ha
    · exact hburn ▸ ha.burn hslot type flags (hfits (by simp [hslot]))
    · exact hnew ▸ ha.create hslot h type flags pid (hfits (by simp [hslot])) hroom
  | lock h =>
    rcases lock_table s h with ⟨-, hsame⟩ | ⟨i, -, -, hlock⟩
    · exact hsame ▸ ha
    · exact hlock ▸ ha.lock i
  | unlock h =>
    have htable := unlock_table s h
    split at htable
    · exact htable ▸ ha
    · exact htable ▸ ha.unlock _
  | free h =>
    have htable := free_table s h
    split at htable
    · exact htable ▸ ha
    · next i _ =>
      split at htable
      · exact htable ▸ (ha.release h i).reclaim i
      · exact htable ▸ ha.release h i
  | resize h new_size =>
    rcases resize_table s h new_size with hsame | ⟨i, hget, hunlocked, hfixed, hphysical, hne, hpresent, hset⟩
    · exact hsame ▸ ha
    · change (s.sasy_resize h new_size).2.table.Apart
      rw [hset]
      by_cases hgrows : (s.table.segments i).size < align_up new_size PAGE_SIZE
      · exact ha.grow (hfits i hget ⟨hunlocked, hfixed, hphysical, hpresent hgrows, hgrows⟩)
          (Table.align_up_mod new_size)
      · exact ha.touch rfl rfl (by simpa using hgrows) (Table.align_up_mod new_size)
  | mark_dirty h =>
    change (s.sasy_mark_dirty h).table.Apart
    rw [Sasy.sasy_mark_dirty]
    split
    · exact ha
    · exact ha.set rfl rfl rfl
  | pressure => exact ha
  | load_code path found pid =>
    have hone : align_up PAGE_SIZE PAGE_SIZE = PAGE_SIZE := by decide
    rcases load_code_table s path found pid with ⟨i, -, hshare⟩ |
      ⟨hfind, hsame | ⟨i, hslot, hburn⟩ | ⟨i, h, hslot, -, hroom, hreg | hback⟩⟩
    · have hkeeps := Table.handle_alloc_keeps (s.table.retain i) i pid
      exact hshare ▸ (ha.retain i).congr hkeeps.1 hkeeps.2
    · exact hsame ▸ ha
    · exact hburn ▸ ha.burn hslot _ _ (hfits (by simp [hslot]) hfind)
    · have hcreate := ha.create hslot h .code SEG_FLAGS_CODE pid
        (by rw [hone]; exact hfits (by simp [hslot]) hfind) hroom
      have hkeeps := Table.register_keeps (s.table.create_code i h (loader_hash_file path) pid) i
      have hcode : (s.table.create_code i h (loader_hash_file path) pid).Apart := hcreate.set rfl rfl rfl
      exact hreg ▸ hcode.congr hkeeps.1 hkeeps.2
    · have hcreate := ha.create hslot h .code SEG_FLAGS_CODE pid
        (by rw [hone]; exact hfits (by simp [hslot]) hfind) hroom
      have hcode : (s.table.create_code i h (loader_hash_file path) pid).Apart := hcreate.set rfl rfl rfl
      exact hback ▸ (hcode.release h i).reclaim i
  | clone h pid =>
    rcases clone_table s h pid with hsame | ⟨i, hget, ⟨-, hdup⟩ | ⟨htype, ⟨j, hslot, hburn⟩ |
      ⟨j, h', src, dst, hslot, -, -, hroom, hnew⟩⟩⟩
    · exact hsame ▸ ha
    · change (s.sasy_clone h pid).2.table.Apart
      rw [hdup]
      rcases Table.handle_dup_eq hget pid with hd | hd
      · rw [hd]
        exact ha
      · rw [hd]
        have hkeeps := Table.handle_alloc_keeps (s.table.retain i) i pid
        exact (ha.retain i).congr hkeeps.1 hkeeps.2
    · exact hburn ▸ ha.burn hslot _ _ (hfits (by simp [hslot]) i hget htype)
    · exact hnew ▸ (ha.create hslot h' _ _ pid (hfits (by simp [hslot]) i hget htype) hroom).cloning i j src dst
  | fault addr =>
    change (s.loader_handle_fault addr).table.Apart
    rw [Sasy.loader_handle_fault]
    split <;> exact ha
  | poke addr value => exact ha

theorem init_apart (b : Backing) : (Sasy.init b).table.Apart :=
  ⟨by simp only [Sasy.init, Table.init]; decide, fun _ h => absurd rfl h, fun _ h => absurd rfl h,
    fun _ h => absurd rfl h,
    fun _ _ h => absurd rfl h⟩

/-- The search by address finds the only live segment there. -/
theorem Table.Apart.find {t : Table} (ha : t.Apart) (addr i : Nat) : t.sasy_find_segment addr = some i ↔
    (t.segments i).id ≠ 0 ∧ (t.segments i).base ≤ addr ∧ addr < (t.segments i).base + (t.segments i).size := by
  have hend : ∀ k, (t.segments k).id ≠ 0 →
      ((t.segments k).base + (t.segments k).size) % 2 ^ 64 = (t.segments k).base + (t.segments k).size := by
    intro k hk
    have hhigh := (ha.within k hk).2.2
    have hspace : SASY_BASE_ADDR + SASY_MAX_SIZE < 2 ^ 64 := by decide
    exact Nat.mod_eq_of_lt (by omega)
  rw [Table.sasy_find_segment]
  constructor
  · intro hfind
    split at hfind
    · obtain ⟨-, -, hp, -⟩ := first_from_some hfind
      simp only [Bool.and_eq_true, bne_iff_ne, decide_eq_true_eq] at hp
      obtain ⟨hlive, hlow, hlt⟩ := hp
      rw [hend i hlive] at hlt
      exact ⟨hlive, hlow, hlt⟩
    · cases hfind
  · rintro ⟨hlive, hlow, hlt⟩
    obtain ⟨hbase, -, hhigh⟩ := ha.within i hlive
    have hslot := ha.slot i hlive
    rw [if_pos (by rw [sasy_is_segment_addr, decide_eq_true_eq]; omega)]
    cases hfind : first_from (fun i => (t.segments i).id != 0 &&
        decide ((t.segments i).base ≤ addr ∧ addr < ((t.segments i).base + (t.segments i).size) % 2 ^ 64))
        MAX_SEGMENTS 0 with
    | none =>
      have hmiss := first_from_none hfind i (Nat.zero_le i) (by omega)
      simp only [hend i hlive, bne_iff_ne, Bool.and_eq_false_imp, decide_eq_false_iff_not] at hmiss
      exact absurd ⟨hlow, hlt⟩ (hmiss hlive)
    | some k =>
      obtain ⟨-, -, hp, -⟩ := first_from_some hfind
      simp only [Bool.and_eq_true, bne_iff_ne, decide_eq_true_eq] at hp
      obtain ⟨hlive', hlow', hlt'⟩ := hp
      rw [hend k hlive'] at hlt'
      -- two live segments at one address are the same
      by_cases hki : k = i
      · rw [hki]
      · have := ha.apart k i hlive' hlive hki
        omega

/-- Where no address wraps around and segments grow only into free room, the live segments lie apart
in the address space and the search by address finds them. -/
theorem sasy_segments_apart (b : Backing) {calls : List Call}
    (hfits : Along Sasy.step Sasy.Fits (Sasy.init b) calls) :
    let t := (run Sasy.step (Sasy.init b) calls).table
    (∀ i j, (t.segments i).id ≠ 0 → (t.segments j).id ≠ 0 → i ≠ j →
      (t.segments i).base + (t.segments i).size ≤ (t.segments j).base ∨
      (t.segments j).base + (t.segments j).size ≤ (t.segments i).base) ∧
    (∀ i, (t.segments i).id ≠ 0 → SASY_BASE_ADDR ≤ (t.segments i).base ∧
      (t.segments i).base + (t.segments i).size ≤ SASY_BASE_ADDR + SASY_MAX_SIZE ∧
      (t.segments i).base + (t.segments i).size < 2 ^ 64) ∧
    ∀ addr i, t.sasy_find_segment addr = some i ↔ (t.segments i).id ≠ 0 ∧ (t.segments i).base ≤ addr ∧
      addr < (t.segments i).base + (t.segments i).size := by
  intro t
  have ha : t.Apart := hfits.invariant (I := fun s => s.table.Apart)
    (fun _ _ hs hcall => hs.step hcall) (init_apart b)
  have hspace : SASY_BASE_ADDR + SASY_MAX_SIZE < 2 ^ 64 := by decide
  refine ⟨ha.apart, fun i hi => ?_, ha.find⟩
  obtain ⟨hlow, -, hhigh⟩ := ha.within i hi
  exact ⟨hlow, hhigh, by omega⟩

/-- The first of two segments shrinks; the second is found where it was. -/
theorem shrunk_segment_apart :
    let t := (run Sasy.step (Sasy.init .blank)
      [.create 5000 .manual 0 1, .create 4096 .manual 0 1, .resize 0 4096]).table
    (t.segments 0).size = 4096 ∧ t.sasy_find_segment (SASY_BASE_ADDR + 8192) = some 1 := by
  refine ⟨by decide +kernel, ((sasy_segments_apart .blank ?_).2.2 _ 1).mpr (by decide +kernel)⟩
  refine ⟨fun _ => by decide +kernel, fun _ => by decide +kernel, fun i hget hgrows => ?_, trivial⟩
  have hi : some 0 = some i := Eq.trans (by decide +kernel) hget
  cases hi
  exact absurd hgrows.2.2.2.2 (by decide +kernel)

/-- A segment that is not resident grows over its neighbour. -/
theorem grown_segment_overlaps :
    let t := (run Sasy.step (Sasy.init .blank)
      [.create 4096 .manual 0 1, .create 4096 .manual 0 1, .resize 0 8192]).table
    ¬ ((t.segments 0).id ≠ 0 → (t.segments 1).id ≠ 0 →
      (t.segments 0).base + (t.segments 0).size ≤ (t.segments 1).base ∨
      (t.segments 1).base + (t.segments 1).size ≤ (t.segments 0).base) := by
  decide +kernel

/-! ## Addresses of segments -/

/-- All segments, and the next one, begin at a page; the next address is a word. -/
structure Table.Paged (t : Table) : Prop where
  next : t.next_segment_base % PAGE_SIZE = 0
  word : t.next_segment_base < 2 ^ 64
  base : ∀ i, (t.segments i).base % PAGE_SIZE = 0

namespace Table

variable {t t' : Table} {i j : Nat}

theorem Paged.congr (hp : t.Paged) (hsegs : t'.segments = t.segments)
    (hnext : t'.next_segment_base = t.next_segment_base) :
    t'.Paged :=
  ⟨hnext ▸ hp.next, hnext ▸ hp.word, fun i => hsegs ▸ hp.base i⟩

theorem Paged.set (hp : t.Paged) (i : Nat) {g : Segment} (hbase : g.base % PAGE_SIZE = 0) :
    (t.set_segment i g).Paged := by
  refine ⟨hp.next, hp.word, fun j => ?_⟩
  change (update t.segments i g j).base % PAGE_SIZE = 0
  by_cases hj : j = i
  · rw [hj, update_self]
    exact hbase
  · rw [update_of_ne hj]
    exact hp.base j

theorem Paged.new_segment (hp : t.Paged) (i size : Nat) (type : SegType) (flags : BitVec 32) :
    (t.new_segment i size type flags).Paged := by
  refine ⟨?_, Nat.mod_lt _ (by decide), (hp.set i hp.next).base⟩
  have hnext := hp.next
  have hsize := align_up_mod size
  change (t.next_segment_base + align_up size PAGE_SIZE) % 2 ^ 64 % PAGE_SIZE = 0
  have hpage : PAGE_SIZE = 4096 := rfl
  rw [hpage] at hnext hsize ⊢
  omega

theorem Paged.burn (hp : t.Paged) (i size : Nat) (type : SegType) (flags : BitVec 32) :
    (t.burn i size type flags).Paged :=
  (hp.new_segment i size type flags).set i rfl

theorem Paged.create (hp : t.Paged) (i h size : Nat) (type : SegType) (flags : BitVec 32) (pid : Nat) :
    (t.create i h size type flags pid).Paged :=
  (hp.new_segment i size type flags).congr rfl rfl

theorem Paged.release (hp : t.Paged) (h i : Nat) : (t.release h i).Paged := by
  have hset : (t.set_segment i { t.segments i with refcnt := (t.segments i).refcnt - 1 }).Paged := hp.set i (hp.base i)
  have hkeeps := handle_free_keeps (t.set_segment i { t.segments i with refcnt := (t.segments i).refcnt - 1 }) h
  exact hset.congr hkeeps.1 hkeeps.2

theorem Paged.reclaim (hp : t.Paged) (i : Nat) : (t.reclaim i).Paged := by
  have hkeeps := unregister_keeps t i
  unfold Table.reclaim
  dsimp only
  split
  · exact (hp.congr hkeeps.1 hkeeps.2).set i rfl
  · exact hp.set i rfl

theorem Paged.lock (hp : t.Paged) (i : Nat) : (t.lock i).Paged := hp.set i (hp.base i)
theorem Paged.unlock (hp : t.Paged) (i : Nat) : (t.unlock i).Paged := hp.set i (hp.base i)
theorem Paged.retain (hp : t.Paged) (i : Nat) : (t.retain i).Paged := hp.set i (hp.base i)

theorem Paged.cloning (hp : t.Paged) (i j : Nat) (src dst : Bool) : (t.cloning i j src dst).Paged := by
  have hsrc : (if src then t.lock i else t).Paged := by
    split
    · exact hp.lock i
    · exact hp
  have hdst : (if dst then (if src then t.lock i else t).lock j else (if src then t.lock i else t)).Paged := by
    split
    · exact hsrc.lock j
    · exact hsrc
  exact (hdst.unlock j).unlock i

theorem Paged.step {s : Sasy} (hp : s.table.Paged) (call : Call) : (s.step call).table.Paged := by
  cases call with
  | create size type flags pid =>
    rcases create_table s size type flags pid with ⟨-, hsame | ⟨i, -, hburn⟩⟩ | ⟨i, h, -, -, -, -, -, -, hnew⟩
    · exact hsame ▸ hp
    · exact hburn ▸ hp.burn i size type flags
    · exact hnew ▸ hp.create i h size type flags pid
  | lock h =>
    rcases lock_table s h with ⟨-, hsame⟩ | ⟨i, -, -, hlock⟩
    · exact hsame ▸ hp
    · exact hlock ▸ hp.lock i
  | unlock h =>
    have htable := unlock_table s h
    split at htable
    · exact htable ▸ hp
    · exact htable ▸ hp.unlock _
  | free h =>
    have htable := free_table s h
    split at htable
    · exact htable ▸ hp
    · next i _ =>
      split at htable
      · exact htable ▸ (hp.release h i).reclaim i
      · exact htable ▸ hp.release h i
  | resize h new_size =>
    rcases resize_table s h new_size with hsame | ⟨i, -, -, -, -, -, -, hset⟩
    · exact hsame ▸ hp
    · change (s.sasy_resize h new_size).2.table.Paged
      rw [hset]
      exact hp.set i (hp.base i)
  | mark_dirty h =>
    change (s.sasy_mark_dirty h).table.Paged
    rw [Sasy.sasy_mark_dirty]
    split
    · exact hp
    · exact hp.set _ (hp.base _)
  | pressure => exact hp
  | load_code path found pid =>
    rcases load_code_table s path found pid with ⟨i, -, hshare⟩ | ⟨-, hsame | ⟨i, -, hburn⟩ | ⟨i, h, -, -,
      -, hreg | hback⟩⟩
    · have hkeeps := handle_alloc_keeps (s.table.retain i) i pid
      exact hshare ▸ (hp.retain i).congr hkeeps.1 hkeeps.2
    · exact hsame ▸ hp
    · exact hburn ▸ hp.burn i _ _ _
    · have hcreate := hp.create i h PAGE_SIZE .code SEG_FLAGS_CODE pid
      have hcode : (s.table.create_code i h (loader_hash_file path) pid).Paged := hcreate.set i (hcreate.base i)
      have hkeeps := register_keeps (s.table.create_code i h (loader_hash_file path) pid) i
      exact hreg ▸ hcode.congr hkeeps.1 hkeeps.2
    · have hcreate := hp.create i h PAGE_SIZE .code SEG_FLAGS_CODE pid
      have hcode : (s.table.create_code i h (loader_hash_file path) pid).Paged := hcreate.set i (hcreate.base i)
      exact hback ▸ (hcode.release h i).reclaim i
  | clone h pid =>
    rcases clone_table s h pid with hsame | ⟨i, hget,
      ⟨-, hdup⟩ | ⟨-, ⟨j, -, hburn⟩ | ⟨j, h', src, dst, -, -, -, -, hnew⟩⟩⟩
    · exact hsame ▸ hp
    · change (s.sasy_clone h pid).2.table.Paged
      rw [hdup]
      rcases handle_dup_eq hget pid with hd | hd
      · rw [hd]
        exact hp
      · rw [hd]
        have hkeeps := handle_alloc_keeps (s.table.retain i) i pid
        exact (hp.retain i).congr hkeeps.1 hkeeps.2
    · exact hburn ▸ hp.burn j _ _ _
    · exact hnew ▸ (hp.create j h' _ _ _ pid).cloning i j src dst
  | fault addr =>
    change (s.loader_handle_fault addr).table.Paged
    rw [Sasy.loader_handle_fault]
    split <;> exact hp
  | poke addr value => exact hp

theorem Paged.run (b : Backing) (calls : List Call) : (machine.run Sasy.step (.init b) calls).table.Paged := by
  have hinit : (Sasy.init b).table.Paged := by
    simp only [Sasy.init, Table.init]
    exact ⟨by decide, by decide, fun _ => rfl⟩
  have halong : Along Sasy.step (fun _ _ => True) (.init b) calls := .of_forall (fun _ _ => trivial) calls
  exact halong.invariant (I := fun s => s.table.Paged) (fun _ call hp _ => Paged.step hp call) hinit

end Table

end graceos.sasy
