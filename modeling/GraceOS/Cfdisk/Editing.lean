import GraceOS.Cfdisk.Layout

/-!
# Editing a layout

Every operation keeps the layout. The list of free regions is right but for the partition that `ops_new_partition` made
last: the operation rebuilds the list before it adds the partition and not after.
-/

namespace graceos.cfdisk

/-! ## One new partition -/

variable {s : State} {size_sectors : UInt64} {type : UInt8} {r : FreeRegion}

/-- A partition that the code places in a region. -/
structure Placed (r : FreeRegion) (p : Partition) : Prop where
  kept : p.is_deleted = false
  start_ge : r.start_lba.toNat ≤ p.start_lba.toNat
  order : p.start_lba.toNat ≤ p.end_lba.toNat
  end_lt : p.end_lba.toNat < r.start_lba.toNat + r.size_sectors.toNat

/-- The first region that is large enough before alignment. -/
def chosen_region (s : State) (size_sectors : UInt64) : Option FreeRegion :=
  (ops_rebuild_free s).free.find? fun r => r.size_sectors ≥ size_sectors

/-- Where a new partition is placed. -/
def new_start (s : State) (size_sectors : UInt64) : Option UInt64 :=
  (chosen_region s size_sectors).map fun r => disk_align_lba r.start_lba

theorem ops_new_partition_full
    (hfull : s.parts.length ≥ MAX_PARTITIONS) : ops_new_partition s size_sectors type = (-1, s) := by
  rw [ops_new_partition, dif_pos hfull]

theorem ops_new_partition_none
    (hslots : s.parts.length < MAX_PARTITIONS) (hnone : chosen_region s size_sectors = none) :
    ops_new_partition s size_sectors type = (-1, ops_rebuild_free s) := by
  rw [ops_new_partition, dif_neg (by omega)]
  simp only
  split
  next => rfl
  next chosen hsome =>
    rw [chosen_region] at hnone
    rw [hnone] at hsome
    cases hsome

/-- The outcome for the region that was chosen. -/
theorem ops_new_partition_some {s : State} {size_sectors : UInt64} {type : UInt8} {r : FreeRegion}
    (hslots : s.parts.length < MAX_PARTITIONS) (hsome : chosen_region s size_sectors = some r) :
    (disk_align_lba r.start_lba + size_sectors - 1 > r.start_lba + r.size_sectors - 1 ∧
      ops_new_partition s size_sectors type = (-1, ops_rebuild_free s)) ∨
    (¬ disk_align_lba r.start_lba + size_sectors - 1 > r.start_lba + r.size_sectors - 1 ∧
      (ops_new_partition s size_sectors type).1 = 0 ∧
      (ops_new_partition s size_sectors type).2.disk = s.disk ∧
      (ops_new_partition s size_sectors type).2.free = (ops_rebuild_free s).free ∧
      (ops_new_partition s size_sectors type).2.parts = sort_parts ((ops_rebuild_free s).parts ++
        [new_partition (ops_rebuild_free s) (disk_align_lba r.start_lba) size_sectors type])) := by
  rw [ops_new_partition, dif_neg (by omega)]
  simp only
  split
  next hnone =>
    rw [chosen_region] at hsome
    rw [hsome] at hnone
    cases hnone
  next chosen hchosen =>
    have heq : chosen = r := by
      rw [chosen_region] at hsome
      exact Option.some.inj (hchosen.symm.trans hsome)
    subst heq
    by_cases hout : disk_align_lba chosen.start_lba + size_sectors - 1 > chosen.start_lba + chosen.size_sectors - 1
    · rw [if_pos hout]
      exact .inl ⟨hout, rfl⟩
    · rw [if_neg hout]
      exact .inr ⟨hout, rfl, rfl, rfl, rfl⟩

theorem chosen_region_spec
    (hsome : chosen_region s size_sectors = some r) :
    r ∈ (ops_rebuild_free s).free ∧ size_sectors.toNat ≤ r.size_sectors.toNat := by
  refine ⟨List.mem_of_find?_eq_some hsome, ?_⟩
  have hsize := List.find?_some hsome
  exact UInt64.le_iff_toNat_le.mp (of_decide_eq_true hsize)

theorem placed_iff {start : UInt64} (hpos : 1 ≤ size_sectors)
    (hsize : size_sectors.toNat ≤ r.size_sectors.toNat) (hsum : start.toNat + size_sectors.toNat ≤ 2 ^ 64)
    (hend : r.start_lba.toNat + r.size_sectors.toNat < 2 ^ 64) :
    (start + size_sectors - 1).toNat = start.toNat + size_sectors.toNat - 1 ∧
    (start + size_sectors - 1 > r.start_lba + r.size_sectors - 1 ↔
      r.start_lba.toNat + r.size_sectors.toNat < start.toNat + size_sectors.toNat) := by
  have hpos' : 1 ≤ size_sectors.toNat := UInt64.le_iff_toNat_le.mp hpos
  have hlast : (start + size_sectors - 1).toNat = start.toNat + size_sectors.toNat - 1 := by
    rw [UInt64.toNat_sub, UInt64.toNat_add]
    change (2 ^ 64 - 1 + (start.toNat + size_sectors.toNat) % 2 ^ 64) % 2 ^ 64 = _
    omega
  have hregion : (r.start_lba + r.size_sectors - 1).toNat = r.start_lba.toNat + r.size_sectors.toNat - 1 := by
    rw [UInt64.toNat_sub, UInt64.toNat_add]
    change (2 ^ 64 - 1 + (r.start_lba.toNat + r.size_sectors.toNat) % 2 ^ 64) % 2 ^ 64 = _
    omega
  refine ⟨hlast, ?_⟩
  rw [gt_iff_lt, UInt64.lt_iff_toNat_lt, hlast, hregion]
  omega

/-! ## Runs of the editor -/

variable {unlisted : Option UInt64}

/-- What the keys of the editor and its start do to the table. -/
inductive Op where
  | new (size_sectors : UInt64) (type : UInt8)
  | delete
  | prev
  | next
  | rebuild
  deriving DecidableEq

def Op.Sized : Op → Prop
  | .new size_sectors _ => 1 ≤ size_sectors
  | _ => True

def step (s : State) : Op → State
  | .new size_sectors type => (ops_new_partition s size_sectors type).2
  | .delete => (ops_delete_partition s).2
  | .prev => ops_select_prev s
  | .next => ops_select_next s
  | .rebuild => ops_rebuild_free s

def run (s : State) (ops : List Op) : State := ops.foldl step s

/-- The start of the partition that was made since the regions were collected, if there is one. -/
def step_unlisted (s : State) (unlisted : Option UInt64) : Op → Option UInt64
  | .new size_sectors type =>
    if s.parts.length ≥ MAX_PARTITIONS then unlisted
    else if (ops_new_partition s size_sectors type).1 = 0 then new_start s size_sectors
    else none
  | .rebuild => none
  | _ => unlisted

def run_unlisted (s : State) (unlisted : Option UInt64) : List Op → Option UInt64
  | [] => unlisted
  | op :: ops => run_unlisted (step s op) (step_unlisted s unlisted op) ops

/-- The layout is valid, the regions miss every partition but the unlisted one, and this one lies in a region. -/
structure Inv (s : State) (unlisted : Option UInt64) : Prop where
  layout : Layout (last_usable s.disk) s.parts
  inside : ∀ r ∈ s.free, FIRST_USABLE.toNat ≤ r.start_lba.toNat ∧
    r.start_lba.toNat + r.size_sectors.toNat ≤ (last_usable s.disk).toNat + 1
  misses : ∀ r ∈ s.free, ∀ p ∈ live s.parts, unlisted ≠ some p.start_lba → r.Misses p
  holds : ∀ a ∈ unlisted, ∃ r ∈ s.free, r.start_lba.toNat ≤ a.toNat ∧
    a.toNat < r.start_lba.toNat + r.size_sectors.toNat

theorem Inv.of_free (hlayout : Layout (last_usable s.disk) s.parts)
    (hfree : ∀ r ∈ s.free, r.Free (last_usable s.disk) s.parts) : Inv s none where
  layout := hlayout
  inside r hr := ⟨(hfree r hr).1, (hfree r hr).2.1⟩
  misses r hr p hp _ := (hfree r hr).2.2 p hp
  holds a ha := by cases ha

theorem rebuild_inv (hsize : 68 ≤ s.disk.sector_count.toNat) (h : Inv s unlisted) : Inv (ops_rebuild_free s) none := by
  apply Inv.of_free
  · exact h.layout.perm (sort_parts_perm s.parts)
  · intro r hr
    rw [ops_rebuild_free_free] at hr
    exact (free_gaps_spec (by omega) h.layout r (List.mem_of_mem_take hr)).free

theorem Layout.add {last : UInt64} {parts : List Partition} {p : Partition}
    (h : Layout last parts) (hr : Gap FIRST_USABLE.toNat last.toNat (live parts) r) (hp : Placed r p) :
    Layout last (parts ++ [p]) := by
  have hstart := hp.start_ge
  have hend := hp.end_lt
  have horder := hp.order
  have hfirst := hr.start_ge
  have hlast := hr.end_le
  have hlive : live (parts ++ [p]) = live parts ++ [p] := by
    rw [live, List.filter_append, ← live, ← live, live_cons_kept hp.kept]
    rfl
  refine ⟨?_, ?_⟩
  · rw [hlive, List.forall_mem_append]
    refine ⟨h.within, ?_⟩
    rw [List.forall_mem_singleton]
    exact ⟨by omega, by omega, by omega⟩
  · rw [hlive, List.pairwise_append]
    refine ⟨h.apart, List.pairwise_singleton _ _, ?_⟩
    intro q hq p' hp'
    rw [List.mem_singleton.mp hp']
    cases hr.misses q hq with
    | inl hbefore => exact .inr (by omega)
    | inr hafter => exact .inl (by omega)

theorem new_placed (hpos : 1 ≤ size_sectors)
    (hle : size_sectors.toNat ≤ r.size_sectors.toNat) (hend : r.start_lba.toNat + r.size_sectors.toNat < 2 ^ 55)
    (hfits : ¬ disk_align_lba r.start_lba + size_sectors - 1 > r.start_lba + r.size_sectors - 1) :
    Placed r (new_partition s (disk_align_lba r.start_lba) size_sectors type) := by
  have halign : (disk_align_lba r.start_lba).toNat = _ := disk_align_lba_toNat (by omega)
  have hplaced := placed_iff hpos hle (show (disk_align_lba r.start_lba).toNat + _ ≤ _ by omega) (by omega)
  have hlt := mt hplaced.2.mpr hfits
  have hpos' : 1 ≤ size_sectors.toNat := UInt64.le_iff_toNat_le.mp hpos
  refine ⟨rfl, ?_, ?_, ?_⟩
  · change r.start_lba.toNat ≤ (disk_align_lba r.start_lba).toNat
    omega
  · change (disk_align_lba r.start_lba).toNat ≤ (disk_align_lba r.start_lba + size_sectors - 1).toNat
    omega
  · change (disk_align_lba r.start_lba + size_sectors - 1).toNat < _
    omega

theorem add_inv {s' : State} {p : Partition} (h : Inv s none) (hmem : r ∈ s.free)
    (hgap : Gap FIRST_USABLE.toNat (last_usable s.disk).toNat (live s.parts) r) (hp : Placed r p)
    (hdisk : s'.disk = s.disk) (hfree : s'.free = s.free) (hparts : s'.parts = sort_parts (s.parts ++ [p])) :
    Inv s' (some p.start_lba) := by
  have hperm := sort_parts_perm (s.parts ++ [p])
  refine ⟨?_, ?_, ?_, ?_⟩
  · rw [hdisk, hparts]
    exact (h.layout.add hgap hp).perm hperm
  · rw [hdisk, hfree]
    exact h.inside
  · rw [hfree, hparts]
    intro r' hr' q hq hne
    have hq' := mem_live.mp hq
    cases List.mem_append.mp (hperm.mem_iff.mp hq'.1) with
    | inl hold => exact h.misses r' hr' q (mem_live.mpr ⟨hold, hq'.2⟩) (Option.some_ne_none _).symm
    | inr hnew =>
      rw [List.mem_singleton.mp hnew] at hne
      exact absurd rfl hne
  · intro a ha
    cases ha
    rw [hfree]
    exact ⟨r, hmem, hp.start_ge, lt_of_le_of_lt hp.order hp.end_lt⟩

theorem new_inv
    (hsize : 68 ≤ s.disk.sector_count.toNat) (hpos : 1 ≤ size_sectors) (h : Inv s unlisted) :
    Inv (ops_new_partition s size_sectors type).2 (step_unlisted s unlisted (.new size_sectors type)) ∧
      (ops_new_partition s size_sectors type).2.disk = s.disk := by
  dsimp only [step_unlisted]
  by_cases hfull : s.parts.length ≥ MAX_PARTITIONS
  · rw [if_pos hfull, ops_new_partition_full hfull]
    exact ⟨h, rfl⟩
  have hrebuilt := rebuild_inv hsize h
  rw [if_neg hfull]
  cases hchosen : chosen_region s size_sectors with
  | none =>
    rw [ops_new_partition_none (by omega) hchosen]
    exact ⟨hrebuilt, rfl⟩
  | some r =>
    obtain ⟨hmem, hle⟩ := chosen_region_spec hchosen
    have hgap : Gap FIRST_USABLE.toNat (last_usable s.disk).toNat (live (ops_rebuild_free s).parts) r := by
      have hmem' := hmem
      rw [ops_rebuild_free_free] at hmem'
      exact free_gaps_spec (by omega) h.layout r (List.mem_of_mem_take hmem')
    cases @ops_new_partition_some s size_sectors type r (by omega) hchosen with
    | inl hout =>
      rw [hout.2]
      exact ⟨hrebuilt, rfl⟩
    | inr hin =>
      obtain ⟨hfits, hrc, hdisk, hfree, hparts⟩ := hin
      have hlast := @last_usable_lt s.disk (by omega)
      have hend := hgap.end_le
      rw [if_pos hrc, new_start, hchosen]
      exact ⟨add_inv hrebuilt hmem hgap (new_placed hpos hle (by omega) hfits) hdisk hfree hparts, hdisk⟩

theorem live_modify_delete (parts : List Partition) (i : Nat) :
    (live (parts.modify i Partition.delete)).Sublist (live parts) := by
  induction parts generalizing i with
  | nil => simp [live]
  | cons p parts ih =>
    cases i with
    | zero =>
      rw [List.modify_zero_cons, live_cons_deleted rfl]
      cases hdel : p.is_deleted with
      | true => rw [live_cons_deleted hdel]
      | false =>
        rw [live_cons_kept hdel]
        exact List.sublist_cons_self _ _
    | succ i =>
      rw [List.modify_succ_cons]
      cases hdel : p.is_deleted with
      | true =>
        rw [live_cons_deleted hdel, live_cons_deleted hdel]
        exact ih i
      | false =>
        rw [live_cons_kept hdel, live_cons_kept hdel]
        exact (ih i).cons_cons p

theorem Inv.sublist {s' : State} (h : Inv s unlisted)
    (hparts : (live s'.parts).Sublist (live s.parts)) (hdisk : s'.disk = s.disk) (hfree : s'.free = s.free) :
    Inv s' unlisted where
  layout := by
    rw [hdisk]
    exact ⟨fun p hp => h.layout.within p (hparts.subset hp), h.layout.apart.sublist hparts⟩
  inside := by
    rw [hdisk, hfree]
    exact h.inside
  misses r hr p hp := h.misses r (hfree ▸ hr) p (hparts.subset hp)
  holds a ha := by
    rw [hfree]
    exact h.holds a ha

theorem delete_inv (h : Inv s unlisted) :
    Inv (ops_delete_partition s).2 unlisted ∧ (ops_delete_partition s).2.disk = s.disk := by
  unfold ops_delete_partition
  split
  · exact ⟨h, rfl⟩
  · exact ⟨h.sublist (live_modify_delete s.parts _) rfl rfl, rfl⟩

theorem select_prev_inv (h : Inv s unlisted) :
    Inv (ops_select_prev s) unlisted ∧ (ops_select_prev s).disk = s.disk := by
  unfold ops_select_prev
  split
  · exact ⟨h.sublist (.refl _) rfl rfl, rfl⟩
  · exact ⟨h, rfl⟩

theorem select_next_inv (h : Inv s unlisted) :
    Inv (ops_select_next s) unlisted ∧ (ops_select_next s).disk = s.disk := by
  unfold ops_select_next
  split
  · exact ⟨h.sublist (.refl _) rfl rfl, rfl⟩
  · exact ⟨h, rfl⟩

theorem step_inv {op : Op} (hsize : 68 ≤ s.disk.sector_count.toNat) (hop : op.Sized) (h : Inv s unlisted) :
    Inv (step s op) (step_unlisted s unlisted op) ∧ (step s op).disk = s.disk := by
  cases op with
  | new size_sectors type => exact new_inv hsize hop h
  | delete => exact delete_inv h
  | prev => exact select_prev_inv h
  | next => exact select_next_inv h
  | rebuild => exact ⟨rebuild_inv hsize h, rfl⟩

theorem run_inv {ops : List Op} (hsize : 68 ≤ s.disk.sector_count.toNat)
    (hops : ∀ op ∈ ops, op.Sized) (h : Inv s unlisted) :
    Inv (run s ops) (run_unlisted s unlisted ops) := by
  induction ops generalizing s unlisted with
  | nil => exact h
  | cons op ops ih =>
    rw [List.forall_mem_cons] at hops
    obtain ⟨hstep, hdisk⟩ := step_inv hsize hops.1 h
    exact ih (by rw [hdisk]; exact hsize) hops.2 hstep

theorem Inv.free_iff (h : Inv s unlisted) :
    (∀ r ∈ s.free, r.Free (last_usable s.disk) s.parts) ↔ ∀ p ∈ live s.parts, unlisted ≠ some p.start_lba := by
  constructor
  · intro hfree p hp hunlisted
    obtain ⟨r, hr, hstart, hend⟩ := h.holds p.start_lba hunlisted
    have horder := (h.layout.within p hp).2.1
    cases (hfree r hr).2.2 p hp <;> omega
  · intro hgone r hr
    exact ⟨(h.inside r hr).1, (h.inside r hr).2, fun p hp => h.misses r hr p hp (hgone p hp)⟩

/-- After every run of the editor the layout is valid, and the regions are right exactly where the partition that was
made since they were collected is gone. -/
theorem run_layout {s : State} {ops : List Op} (hsize : 68 ≤ s.disk.sector_count.toNat)
    (hvalid : ops_validate_gpt_layout s = 0) (hfree : ∀ r ∈ s.free, r.Free (last_usable s.disk) s.parts)
    (hops : ∀ op ∈ ops, op.Sized) :
    ops_validate_gpt_layout (run s ops) = 0 ∧
      ((∀ r ∈ (run s ops).free, r.Free (last_usable (run s ops).disk) (run s ops).parts) ↔
        ∀ p ∈ live (run s ops).parts, run_unlisted s none ops ≠ some p.start_lba) := by
  have hinv := run_inv hsize hops (Inv.of_free ((ops_validate_gpt_layout_iff s).mp hvalid) hfree)
  exact ⟨(ops_validate_gpt_layout_iff _).mpr hinv.layout, hinv.free_iff⟩

instance (r : FreeRegion) (p : Partition) : Decidable (r.Misses p) := inferInstanceAs (Decidable (_ ∨ _))

instance (r : FreeRegion) (last : UInt64) (parts : List Partition) : Decidable (r.Free last parts) :=
  inferInstanceAs (Decidable (_ ∧ _ ∧ _))

instance : DecidablePred Op.Sized
  | .new size_sectors _ => inferInstanceAs (Decidable (1 ≤ size_sectors))
  | .delete | .prev | .next | .rebuild => inferInstanceAs (Decidable True)

/-- A disk without partitions. -/
def empty_table (sector_count : UInt64) (hlt : sector_count.toNat < 2 ^ 55) : State where
  disk := ⟨sector_count, hlt⟩
  table_type := .TABLE_GPT
  parts := []
  part_count_le := Nat.zero_le _
  free := []
  selected := 0
  modified := false

theorem run_layout_deleted :
    let s := ops_rebuild_free (empty_table 10000 (by decide))
    let ops : List Op := [.new 2048 0x83, .rebuild, .new 1 0xAA, .next, .delete]
    ops_validate_gpt_layout (run s ops) = 0 ∧
      ((∀ r ∈ (run s ops).free, r.Free (last_usable (run s ops).disk) (run s ops).parts) ↔
        ∀ p ∈ live (run s ops).parts, run_unlisted s none ops ≠ some p.start_lba) :=
  run_layout (by decide +kernel) (by decide +kernel) (by decide +kernel) (by decide +kernel)

/-- Right after a partition was made, the region that it was placed in is still listed as free. -/
theorem new_partition_listed_free :
    let s := ops_rebuild_free (empty_table 10000 (by decide))
    68 ≤ s.disk.sector_count.toNat ∧ ops_validate_gpt_layout s = 0 ∧
      (∀ r ∈ s.free, r.Free (last_usable s.disk) s.parts) ∧ (Op.new 2048 0x83).Sized ∧
      ¬ ∀ r ∈ (run s [.new 2048 0x83]).free,
        r.Free (last_usable (run s [.new 2048 0x83]).disk) (run s [.new 2048 0x83]).parts := by
  decide +kernel

/-! ## Which sizes are found -/

/-- A region holds an aligned run of sectors. -/
def FreeRegion.Holds (r : FreeRegion) (size_sectors : UInt64) : Prop :=
  ∃ a, ALIGNMENT_LBA.toNat ∣ a ∧ r.start_lba.toNat ≤ a ∧
    a + size_sectors.toNat ≤ r.start_lba.toNat + r.size_sectors.toNat

/-- A new partition is made where some region holds one. -/
def Finds (s : State) (size_sectors : UInt64) (type : UInt8) : Prop :=
  (∃ r ∈ free_gaps s, r.Holds size_sectors) → (ops_new_partition s size_sectors type).1 = 0

/-- The first region that is large enough before alignment is large enough after it too, if any region is. -/
def FirstHolds (s : State) (size_sectors : UInt64) : Prop :=
  (∀ r ∈ free_gaps s, ¬ r.Holds size_sectors) ∨
    ∃ r, (free_gaps s).find? (fun r => r.size_sectors ≥ size_sectors) = some r ∧ r.Holds size_sectors

theorem gaps_end_lt {last cursor : UInt64} {parts : List Partition} :
    ∀ r ∈ gaps last cursor parts, r.start_lba.toNat + r.size_sectors.toNat < 2 ^ 64 := by
  have hregion : ∀ a b : UInt64, a < b → a.toNat + (b - a).toNat < 2 ^ 64 := by
    intro a b hlt
    rw [(size_toNat hlt).2]
    exact b.toNat_lt
  induction parts generalizing cursor with
  | nil =>
    intro r hr
    rw [gaps] at hr
    split at hr
    next hlt => exact List.mem_singleton.mp hr ▸ hregion _ _ hlt
    next => cases hr
  | cons p parts ih =>
    intro r hr
    rw [gaps] at hr
    cases List.mem_append.mp hr with
    | inl hhere =>
      split at hhere
      next hlt => exact List.mem_singleton.mp hhere ▸ hregion _ _ hlt
      next => cases hhere
    | inr hlater => exact ih r hlater

theorem FreeRegion.Holds.align (h : r.Holds size_sectors)
    (hpos : 1 ≤ size_sectors) (hend : r.start_lba.toNat + r.size_sectors.toNat < 2 ^ 64) :
    size_sectors.toNat ≤ r.size_sectors.toNat ∧
      (disk_align_lba r.start_lba).toNat + size_sectors.toNat ≤ r.start_lba.toNat + r.size_sectors.toNat := by
  obtain ⟨a, ⟨k, ha⟩, hstart, hsum⟩ := h
  have hpos' : 1 ≤ size_sectors.toNat := UInt64.le_iff_toNat_le.mp hpos
  change a = 2048 * k at ha
  have halign := @disk_align_lba_toNat r.start_lba (by omega)
  omega

theorem holds_of_align (hlt : r.start_lba.toNat + 2047 < 2 ^ 64)
    (hfits : (disk_align_lba r.start_lba).toNat + size_sectors.toNat ≤ r.start_lba.toNat + r.size_sectors.toNat) :
    r.Holds size_sectors := by
  have halign := disk_align_lba_toNat hlt
  refine ⟨(disk_align_lba r.start_lba).toNat, ⟨(r.start_lba.toNat + 2047) / 2048, ?_⟩, ?_, hfits⟩
  · change _ = 2048 * _
    omega
  · omega

theorem chosen_region_eq (hgaps : (free_gaps s).length ≤ CFDISK_MAX_FREE_REGIONS) :
    chosen_region s size_sectors = (free_gaps s).find? fun r => r.size_sectors ≥ size_sectors := by
  rw [chosen_region, ops_rebuild_free_free, List.take_of_length_le hgaps]

/-- Where a region holds the partition, the code makes it if and only if the first region that is large enough before
alignment holds it. -/
theorem ops_new_partition_finds {s : State} {size_sectors : UInt64} {type : UInt8}
    (hvalid : ops_validate_gpt_layout s = 0) (hgaps : (free_gaps s).length ≤ CFDISK_MAX_FREE_REGIONS)
    (hslots : s.parts.length < MAX_PARTITIONS) (hpos : 1 ≤ size_sectors) :
    (FirstHolds s size_sectors → Finds s size_sectors type) ∧
      (34 ≤ s.disk.sector_count.toNat → Finds s size_sectors type → FirstHolds s size_sectors) := by
  constructor
  · intro hfirst hsome
    cases hfirst with
    | inl hnone =>
      obtain ⟨r, hr, hholds⟩ := hsome
      exact absurd hholds (hnone r hr)
    | inr hchosen =>
      obtain ⟨r, hfind, hholds⟩ := hchosen
      have hend := gaps_end_lt r (List.mem_of_find?_eq_some hfind)
      obtain ⟨hle, hfits⟩ := hholds.align hpos hend
      have hplaced := placed_iff hpos hle (show (disk_align_lba r.start_lba).toNat + _ ≤ _ by omega) hend
      rw [← chosen_region_eq hgaps] at hfind
      cases @ops_new_partition_some s size_sectors type r hslots hfind with
      | inl hout =>
        have := hplaced.2.mp hout.1
        omega
      | inr hin => exact hin.2.1
  · intro hsize hfinds
    by_cases hnone : ∀ r ∈ free_gaps s, ¬ r.Holds size_sectors
    · exact .inl hnone
    simp only [not_forall, not_not] at hnone
    obtain ⟨r, hr, hholds⟩ := hnone
    have hrc := hfinds ⟨r, hr, hholds⟩
    have hlarge : r.size_sectors ≥ size_sectors :=
      UInt64.le_iff_toNat_le.mpr (hholds.align hpos (gaps_end_lt r hr)).1
    cases hfind : (free_gaps s).find? fun r => r.size_sectors ≥ size_sectors with
    | none => exact absurd (decide_eq_true hlarge) (List.find?_eq_none.mp hfind r hr)
    | some chosen =>
      refine .inr ⟨chosen, hfind, ?_⟩
      have hgap := free_gaps_spec hsize ((ops_validate_gpt_layout_iff s).mp hvalid) chosen
        (List.mem_of_find?_eq_some hfind)
      have hlast := last_usable_lt hsize
      have hend := hgap.end_le
      rw [← chosen_region_eq hgaps] at hfind
      have halign := @disk_align_lba_toNat chosen.start_lba (by omega)
      have hle := (chosen_region_spec hfind).2
      have hplaced := placed_iff hpos hle (show (disk_align_lba chosen.start_lba).toNat + _ ≤ _ by omega) (by omega)
      cases @ops_new_partition_some s size_sectors type chosen hslots hfind with
      | inl hout =>
        rw [hout.2] at hrc
        cases hrc
      | inr hin =>
        have := mt hplaced.2.mpr hin.1
        exact holds_of_align (by omega) (by omega)

/-- One partition that leaves 2014 sectors in front of it and 5000 behind it. -/
def unaligned_table : State :=
  { empty_table 10033 (by decide) with
    parts := [{
      start_lba := 2048, end_lba := 4998, size_sectors := 2951, type := 0x83, name := name_of (part_name 1),
      is_new := true, is_deleted := false, is_gpt := true }]
    part_count_le := by decide }

theorem ops_new_partition_finds_behind :
    (FirstHolds unaligned_table 3000 → Finds unaligned_table 3000 0x83) ∧
      (34 ≤ unaligned_table.disk.sector_count.toNat → Finds unaligned_table 3000 0x83 →
        FirstHolds unaligned_table 3000) :=
  ops_new_partition_finds (by decide +kernel) (by decide +kernel) (by decide +kernel) (by decide +kernel)

/-- The first region has 2014 sectors but none that is aligned; the second would hold the partition. -/
theorem ops_new_partition_misses :
    ops_validate_gpt_layout unaligned_table = 0 ∧ (free_gaps unaligned_table).length ≤ CFDISK_MAX_FREE_REGIONS ∧
      unaligned_table.parts.length < MAX_PARTITIONS ∧ (1 : UInt64) ≤ 1000 ∧
      (∃ r ∈ free_gaps unaligned_table, r.Holds 1000) ∧ (ops_new_partition unaligned_table 1000 0x83).1 = -1 := by
  refine ⟨by decide +kernel, by decide +kernel, by decide +kernel, by decide, ⟨⟨4999, 5000⟩, by decide +kernel, ?_⟩,
    by decide +kernel⟩
  exact ⟨6144, ⟨3, rfl⟩, by decide, by decide⟩

end graceos.cfdisk
