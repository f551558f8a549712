import GraceOS.Cfdisk.Table

/-!
# Layouts and their free regions

A layout is what the validation accepts, and the free regions are what it leaves. Both are stated about the partitions
that are not deleted, in unbounded numbers.
-/

namespace graceos.cfdisk

open List

/-- The partitions that are not deleted. -/
def live (parts : List Partition) : List Partition := parts.filter fun p => !p.is_deleted

/-- Two partitions share no sector. -/
def Apart (p q : Partition) : Prop := p.end_lba.toNat < q.start_lba.toNat ∨ q.end_lba.toNat < p.start_lba.toNat

/-- A partition is not empty and lies between two sectors. -/
def Within (last : UInt64) (p : Partition) : Prop :=
  FIRST_USABLE.toNat ≤ p.start_lba.toNat ∧ p.start_lba.toNat ≤ p.end_lba.toNat ∧ p.end_lba.toNat ≤ last.toNat

structure Layout (last : UInt64) (parts : List Partition) : Prop where
  within : ∀ p ∈ live parts, Within last p
  apart : (live parts).Pairwise Apart

/-- No sector of a partition lies in a region. -/
def FreeRegion.Misses (r : FreeRegion) (p : Partition) : Prop :=
  r.start_lba.toNat + r.size_sectors.toNat ≤ p.start_lba.toNat ∨ p.end_lba.toNat < r.start_lba.toNat

/-- A region lies in the usable part of the disk and misses every partition that is not deleted. -/
def FreeRegion.Free (r : FreeRegion) (last : UInt64) (parts : List Partition) : Prop :=
  FIRST_USABLE.toNat ≤ r.start_lba.toNat ∧ r.start_lba.toNat + r.size_sectors.toNat ≤ last.toNat + 1 ∧
    ∀ p ∈ live parts, r.Misses p

variable {p : Partition}

theorem Apart.symm {q : Partition} (h : Apart p q) : Apart q p := Or.symm h

theorem live_cons_deleted (hdel : p.is_deleted = true) (parts : List Partition) :
    live (p :: parts) = live parts := by
  rw [live, filter_cons_of_neg (by simp [hdel]), live]

theorem live_cons_kept (hdel : p.is_deleted = false) (parts : List Partition) :
    live (p :: parts) = p :: live parts := by
  rw [live, filter_cons_of_pos (by simp [hdel]), live]

variable {parts : List Partition}

theorem mem_live : p ∈ live parts ↔ p ∈ parts ∧ p.is_deleted = false := by
  simp [live]

variable {last : UInt64}

theorem Layout.perm {parts' : List Partition} (h : Layout last parts)
    (hperm : parts'.Perm parts) : Layout last parts' where
  within p hp := h.within p ((hperm.filter _).mem_iff.mp hp)
  apart := ((hperm.filter _).pairwise_iff Apart.symm).mpr h.apart

/-! ## What the validation accepts -/

theorem overlap_eq_false {q : Partition} : overlap p q = false ↔ Apart p q := by
  rw [overlap, Bool.and_eq_false_iff, decide_eq_false_iff_not, decide_eq_false_iff_not, UInt64.not_le, UInt64.not_le,
    UInt64.lt_iff_toNat_lt, UInt64.lt_iff_toNat_lt]
  exact Or.comm

theorem overlaps_none :
    (parts.any fun q => !q.is_deleted && overlap p q) = false ↔ ∀ q ∈ live parts, Apart p q := by
  rw [any_eq_false]
  refine forall_congr' fun q => ?_
  rw [mem_live, ← overlap_eq_false]
  cases q.is_deleted <;> simp

/-- What `validate_gpt_parts` checks of one partition. -/
theorem validate_gpt_parts_kept {count : Nat}
    (hdel : p.is_deleted = false) (hcount : count + 1 ≤ MAX_PARTITIONS) :
    validate_gpt_parts last count (p :: parts) = 0 ↔
      Within last p ∧ (∀ q ∈ live parts, Apart p q) ∧ validate_gpt_parts last (count + 1) parts = 0 := by
  have hrange : (p.start_lba < FIRST_USABLE || p.end_lba > last) = true ↔
      ¬ (FIRST_USABLE.toNat ≤ p.start_lba.toNat ∧ p.end_lba.toNat ≤ last.toNat) := by
    rw [Bool.or_eq_true, decide_eq_true_iff, decide_eq_true_iff, UInt64.lt_iff_toNat_lt, gt_iff_lt,
      UInt64.lt_iff_toNat_lt]
    omega
  have horder : p.end_lba < p.start_lba ↔ ¬ p.start_lba.toNat ≤ p.end_lba.toNat := by
    rw [UInt64.lt_iff_toNat_lt]
    omega
  rw [validate_gpt_parts, hdel, if_neg Bool.false_ne_true, if_neg (by omega)]
  unfold Within
  by_cases hr : (p.start_lba < FIRST_USABLE || p.end_lba > last) = true
  · have hout := hrange.mp hr
    rw [if_pos hr]
    constructor
    · intro h
      cases h
    · rintro ⟨⟨hfirst, -, hlast⟩, -⟩
      exact absurd ⟨hfirst, hlast⟩ hout
  · have hin := not_not.mp (mt hrange.mpr hr)
    rw [if_neg hr]
    by_cases ho : p.end_lba < p.start_lba
    · rw [if_pos ho]
      constructor
      · intro h
        cases h
      · rintro ⟨⟨-, hle, -⟩, -⟩
        exact absurd hle (horder.mp ho)
    · rw [if_neg ho]
      have hle := not_not.mp (mt horder.mpr ho)
      by_cases ha : (parts.any fun q => !q.is_deleted && overlap p q) = true
      · rw [if_pos ha]
        constructor
        · intro h
          cases h
        · rintro ⟨-, hapart, -⟩
          rw [overlaps_none.mpr hapart] at ha
          cases ha
      · rw [if_neg ha]
        have hapart := overlaps_none.mp (Bool.not_eq_true _ ▸ ha)
        exact ⟨fun h => ⟨⟨hin.1, hle, hin.2⟩, hapart, h⟩, fun h => h.2.2⟩

theorem validate_gpt_parts_iff {count : Nat}
    (hcount : count + parts.length ≤ MAX_PARTITIONS) :
    validate_gpt_parts last count parts = 0 ↔ Layout last parts := by
  induction parts generalizing count with
  | nil =>
    refine ⟨fun _ => ⟨?_, .nil⟩, fun _ => rfl⟩
    intro p hp
    cases hp
  | cons p parts ih =>
    rw [length_cons] at hcount
    cases hdel : p.is_deleted with
    | true =>
      rw [validate_gpt_parts, hdel, if_pos rfl, ih (by omega)]
      constructor
      · intro h
        exact ⟨by rw [live_cons_deleted hdel]; exact h.within, by rw [live_cons_deleted hdel]; exact h.apart⟩
      · intro h
        exact ⟨live_cons_deleted hdel parts ▸ h.within, live_cons_deleted hdel parts ▸ h.apart⟩
    | false =>
      rw [validate_gpt_parts_kept hdel (by omega), ih (by omega)]
      constructor
      · rintro ⟨hwithin, hapart, h⟩
        refine ⟨?_, ?_⟩
        · rw [live_cons_kept hdel, forall_mem_cons]
          exact ⟨hwithin, h.within⟩
        · rw [live_cons_kept hdel, pairwise_cons]
          exact ⟨hapart, h.apart⟩
      · rintro ⟨hwithin, hapart⟩
        rw [live_cons_kept hdel, forall_mem_cons] at hwithin
        rw [live_cons_kept hdel, pairwise_cons] at hapart
        exact ⟨hwithin.1, hapart.1, hwithin.2, hapart.2⟩

theorem ops_validate_gpt_layout_iff (s : State) :
    ops_validate_gpt_layout s = 0 ↔ Layout (last_usable s.disk) s.parts :=
  validate_gpt_parts_iff (by rw [Nat.zero_add]; exact s.part_count_le)

theorem last_usable_toNat {disk : DiskInfo} (hsize : 34 ≤ disk.sector_count.toNat) :
    (last_usable disk).toNat = disk.sector_count.toNat - 34 := by
  rw [last_usable, UInt64.toNat_sub_of_le]
  · rfl
  · exact UInt64.le_iff_toNat_le.mpr hsize

/-! ## The free regions -/

/-- All regions between partitions in order, from `cursor` on. -/
def gaps (usable_end cursor : UInt64) : List Partition → List FreeRegion
  | [] => if cursor < usable_end then [⟨cursor, usable_end - cursor⟩] else []
  | p :: parts =>
    (if p.start_lba > cursor then [⟨cursor, p.start_lba - cursor⟩] else []) ++ gaps usable_end (p.end_lba + 1) parts

/-- The regions between the partitions of a table. -/
def free_gaps (s : State) : List FreeRegion :=
  gaps (last_usable s.disk) FIRST_USABLE (live (sort_parts s.parts))

theorem add_region_eq {free : List FreeRegion} (hlen : free.length ≤ CFDISK_MAX_FREE_REGIONS)
    (start_lba size_sectors : UInt64) :
    add_region free start_lba size_sectors = (free ++ [FreeRegion.mk start_lba size_sectors]).take
        CFDISK_MAX_FREE_REGIONS := by
  unfold add_region
  split
  next hroom => rw [take_of_length_le (by rw [length_append, length_singleton]; omega)]
  next hfull =>
    rw [take_append_of_le_length (by omega), take_of_length_le hlen]

theorem add_region_length {free : List FreeRegion} (hlen : free.length ≤ CFDISK_MAX_FREE_REGIONS)
    (start_lba size_sectors : UInt64) : (add_region free start_lba size_sectors).length ≤ CFDISK_MAX_FREE_REGIONS := by
  rw [add_region_eq hlen]
  exact length_take_le _ _

theorem add_region_take {free : List FreeRegion} (hlen : free.length ≤ CFDISK_MAX_FREE_REGIONS)
    (start_lba size_sectors : UInt64) (later : List FreeRegion) :
    (add_region free start_lba size_sectors ++ later).take CFDISK_MAX_FREE_REGIONS =
      (free ++ ([FreeRegion.mk start_lba size_sectors] ++ later)).take CFDISK_MAX_FREE_REGIONS := by
  unfold add_region
  split
  next hroom => rw [append_assoc]
  next hfull => rw [take_append_of_le_length (by omega), take_append_of_le_length (by omega)]

/-- The sweep collects the first regions between the partitions that are not deleted. -/
theorem sweep_gaps {usable_end : UInt64} {w : Sweep}
    (hlen : w.free.length ≤ CFDISK_MAX_FREE_REGIONS) :
    sweep_end usable_end (parts.foldl sweep_part w) =
      (w.free ++ gaps usable_end w.cursor (live parts)).take CFDISK_MAX_FREE_REGIONS := by
  induction parts generalizing w with
  | nil =>
    rw [foldl_nil, live, filter_nil, sweep_end, gaps]
    by_cases hend : w.cursor < usable_end
    · rw [if_pos hend, if_pos hend, add_region_eq hlen]
    · rw [if_neg hend, if_neg hend, append_nil, take_of_length_le hlen]
  | cons p parts ih =>
    rw [foldl_cons]
    cases hdel : p.is_deleted with
    | true =>
      have hstep : sweep_part w p = w := by rw [sweep_part, hdel, if_pos rfl]
      rw [hstep, ih hlen, live_cons_deleted hdel]
    | false =>
      rw [live_cons_kept hdel, gaps]
      by_cases hgap : p.start_lba > w.cursor
      · have hstep : sweep_part w p = ⟨add_region w.free w.cursor (p.start_lba - w.cursor), p.end_lba + 1⟩ := by
          rw [sweep_part, hdel, if_neg Bool.false_ne_true, if_pos hgap]
        rw [hstep, ih (add_region_length hlen _ _), add_region_take hlen, if_pos hgap]
      · have hstep : sweep_part w p = ⟨w.free, p.end_lba + 1⟩ := by
          rw [sweep_part, hdel, if_neg Bool.false_ne_true, if_neg hgap]
        have hnext : (Sweep.mk w.free (p.end_lba + 1)).free.length ≤ CFDISK_MAX_FREE_REGIONS := hlen
        rw [hstep, ih hnext, if_neg hgap, nil_append]

theorem ops_rebuild_free_free (s : State) : (ops_rebuild_free s).free = (free_gaps s).take CFDISK_MAX_FREE_REGIONS := by
  have hnone : (Sweep.mk [] FIRST_USABLE).free.length ≤ CFDISK_MAX_FREE_REGIONS := Nat.zero_le _
  exact sweep_gaps hnone

/-- Partitions follow each other from a sector on. -/
inductive Ordered (last : UInt64) : Nat → List Partition → Prop
  | nil (lo : Nat) : Ordered last lo []
  | cons {lo : Nat} {p : Partition} {parts : List Partition} (hlo : lo ≤ p.start_lba.toNat)
      (horder : p.start_lba.toNat ≤ p.end_lba.toNat) (hlast : p.end_lba.toNat ≤ last.toNat)
      (hrest : Ordered last (p.end_lba.toNat + 1) parts) : Ordered last lo (p :: parts)

theorem Ordered.start_ge {lo : Nat} (h : Ordered last lo parts) :
    ∀ p ∈ parts, lo ≤ p.start_lba.toNat := by
  induction h with
  | nil => intro p hp; cases hp
  | cons hlo horder hlast hrest ih =>
    intro q hq
    cases List.mem_cons.mp hq with
    | inl heq => exact heq ▸ hlo
    | inr hmem =>
      have := ih q hmem
      omega

theorem ordered_of_sorted {lo : Nat}
    (hwithin : ∀ p ∈ parts, p.start_lba.toNat ≤ p.end_lba.toNat ∧ p.end_lba.toNat ≤ last.toNat)
    (hlo : ∀ p ∈ parts, lo ≤ p.start_lba.toNat)
    (hsorted : parts.Pairwise fun p q => p.start_lba ≤ q.start_lba) (hapart : parts.Pairwise Apart) :
    Ordered last lo parts := by
  induction parts generalizing lo with
  | nil => exact .nil lo
  | cons p parts ih =>
    rw [forall_mem_cons] at hwithin hlo
    rw [pairwise_cons] at hsorted hapart
    refine .cons hlo.1 hwithin.1.1 hwithin.1.2 (ih hwithin.2 ?_ hsorted.2 hapart.2)
    intro q hq
    have hle := UInt64.le_iff_toNat_le.mp (hsorted.1 q hq)
    have hq' := hwithin.2 q hq
    cases hapart.1 q hq <;> omega

theorem Layout.ordered (h : Layout last parts) :
    Ordered last FIRST_USABLE.toNat (live (sort_parts parts)) := by
  have hsort := h.perm (sort_parts_perm parts)
  exact ordered_of_sorted (fun p hp => (hsort.within p hp).2) (fun p hp => (hsort.within p hp).1)
    ((sort_parts_sorted parts).filter _) hsort.apart

/-- A region is not empty, lies in front of the end, and misses the partitions. -/
structure Gap (lo last : Nat) (parts : List Partition) (r : FreeRegion) : Prop where
  nonempty : 0 < r.size_sectors.toNat
  start_ge : lo ≤ r.start_lba.toNat
  end_le : r.start_lba.toNat + r.size_sectors.toNat ≤ last
  misses : ∀ p ∈ parts, r.Misses p

theorem size_toNat {a b : UInt64} (hlt : a < b) :
    0 < (b - a).toNat ∧ a.toNat + (b - a).toNat = b.toNat := by
  have hlt' := UInt64.lt_iff_toNat_lt.mp hlt
  rw [UInt64.toNat_sub_of_le _ _ (UInt64.le_of_lt hlt)]
  omega

theorem gaps_spec {cursor : UInt64} (hbound : last.toNat < 2 ^ 64 - 1)
    (h : Ordered last cursor.toNat parts) : ∀ r ∈ gaps last cursor parts, Gap cursor.toNat last.toNat parts r := by
  induction parts generalizing cursor with
  | nil =>
    intro r hr
    rw [gaps] at hr
    split at hr
    next hlt =>
      obtain ⟨hpos, hsum⟩ := size_toNat hlt
      rw [List.mem_singleton.mp hr]
      exact ⟨hpos, le_refl _, le_of_eq hsum, fun p hp => by cases hp⟩
    next => cases hr
  | cons p parts ih =>
    cases h with
    | cons hlo horder hlast hrest =>
      have hnext : (p.end_lba + 1).toNat = p.end_lba.toNat + 1 := word.toNat_succ (by omega)
      rw [← hnext] at hrest
      intro r hr
      rw [gaps] at hr
      cases List.mem_append.mp hr with
      | inl hhere =>
        split at hhere
        next hlt =>
          obtain ⟨hpos, hsum⟩ := size_toNat hlt
          rw [List.mem_singleton.mp hhere]
          refine ⟨hpos, le_refl _, le_trans (le_of_eq hsum) (by omega), ?_⟩
          rw [forall_mem_cons]
          refine ⟨.inl (le_of_eq hsum), fun q hq => .inl ?_⟩
          have hge := hrest.start_ge q hq
          change cursor.toNat + (p.start_lba - cursor).toNat ≤ _
          omega
        next => cases hhere
      | inr hlater =>
        have hgap := ih hrest r hlater
        have hstart := hgap.start_ge
        refine ⟨hgap.nonempty, by omega, hgap.end_le, ?_⟩
        rw [forall_mem_cons]
        exact ⟨.inr (by omega), hgap.misses⟩

theorem last_usable_lt {disk : DiskInfo} (hsize : 34 ≤ disk.sector_count.toNat) :
    (last_usable disk).toNat < 2 ^ 55 := by
  have hlt := disk.sector_count_lt
  rw [last_usable_toNat hsize]
  omega

theorem free_gaps_spec {s : State} (hsize : 34 ≤ s.disk.sector_count.toNat)
    (h : Layout (last_usable s.disk) s.parts) :
    ∀ r ∈ free_gaps s, Gap FIRST_USABLE.toNat (last_usable s.disk).toNat (live (sort_parts s.parts)) r := by
  have hlt := last_usable_lt hsize
  exact gaps_spec (by omega) h.ordered

theorem Gap.free {r : FreeRegion}
    (h : Gap FIRST_USABLE.toNat last.toNat (live parts) r) : r.Free last parts :=
  ⟨h.start_ge, by have := h.end_le; omega, h.misses⟩

/-! ## Alignment -/

theorem and_not_low (y : UInt64) : (y &&& ~~~(2047 : UInt64)).toNat = y.toNat / 2048 * 2048 := by
  have hbits : ∀ i < 64, (~~~2047#64).getLsbD i = decide (11 ≤ i) := by decide
  have hmove : y.toBitVec &&& ~~~2047#64 = (y.toBitVec >>> 11) <<< 11 := by
    apply BitVec.eq_of_getLsbD_eq
    intro i hi
    rw [BitVec.getLsbD_and, hbits i hi, BitVec.getLsbD_shiftLeft, BitVec.getLsbD_ushiftRight]
    by_cases hlow : i < 11
    · simp [hlow, show ¬ 11 ≤ i by omega]
    · simp [hlow, show 11 ≤ i by omega, hi, show 11 + (i - 11) = i by omega]
  have hlt := y.toNat_lt
  calc (y &&& ~~~(2047 : UInt64)).toNat = (y.toBitVec &&& ~~~2047#64).toNat := rfl
    _ = ((y.toBitVec >>> 11) <<< 11).toNat := by rw [hmove]
    _ = y.toNat >>> 11 <<< 11 % 2 ^ 64 := by rw [BitVec.toNat_shiftLeft, BitVec.toNat_ushiftRight]; rfl
    _ = y.toNat / 2048 * 2048 % 2 ^ 64 := by rw [Nat.shiftLeft_eq, Nat.shiftRight_eq_div_pow]
    _ = y.toNat / 2048 * 2048 := Nat.mod_eq_of_lt (by omega)

theorem disk_align_lba_toNat {lba : UInt64} (hlt : lba.toNat + 2047 < 2 ^ 64) :
    (disk_align_lba lba).toNat = (lba.toNat + 2047) / 2048 * 2048 := by
  have hsum : (lba + ALIGNMENT_LBA - 1).toNat = lba.toNat + 2047 := by
    rw [UInt64.toNat_sub, UInt64.toNat_add]
    change (2 ^ 64 - 1 + (lba.toNat + 2048) % 2 ^ 64) % 2 ^ 64 = _
    omega
  rw [← hsum]
  exact and_not_low _

end graceos.cfdisk
