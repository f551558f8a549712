import GraceOS.Spm.Policy

/-!
# Revocation

`spm_revoke_cap` edits the first entry of the user that covers the target. What is left to the user, and what else it
loses, depends on the entries behind that one and on how wide it is.
-/

namespace graceos.spm

open List

namespace Spm

variable (s : Spm)

/-- The loop of `spm_revoke_cap`; there is no result where no entry is found. -/
def revoke (uid perm : UInt32) (target : List UInt8) : List SpmCapability → Option (List SpmCapability)
  | [] => none
  | c :: caps =>
    if c.active && c.uid == uid && target_matches c.target target then
      let left := c.perm &&& ~~~perm
      some ({ c with perm := left, active := left != 0 } :: caps)
    else (revoke uid perm target caps).map (c :: ·)

def spm_revoke_cap (uid perm : UInt32) (target : List UInt8) : Int × Spm :=
  match revoke uid perm target s.caps with
  | none => (-1, s)
  | some caps => (0, { s with caps := caps })

end Spm

open Spm

/-- An entry of a user that covers a target. -/
def Holds (uid : UInt32) (target : List UInt8) (c : SpmCapability) : Prop :=
  c.active = true ∧ c.uid = uid ∧ target_matches c.target target = true

/-- Nothing of what is revoked is left, and nothing is lost on a target that the revoked one, read as a pattern, does
not cover. -/
def Effective (s : Spm) (uid perm : UInt32) (target : List UInt8) : Prop :=
  (s.spm_revoke_cap uid perm target).1 = 0 →
    (∀ q : UInt32, q ≠ 0 → q &&& perm = q → (s.spm_revoke_cap uid perm target).2.spm_check uid q target = false) ∧
    ∀ other, target_matches target other = false → ∀ q : UInt32, q ≠ 0 → s.spm_check uid q other = true →
      (s.spm_revoke_cap uid perm target).2.spm_check uid q other = true

/-- About the first entry that covers the target: those behind it that cover the target have nothing of what is
revoked, and where it has, another entry has all its permissions on each other target that it covers. -/
def Separate (s : Spm) (uid perm : UInt32) (target : List UInt8) : Prop :=
  ∀ before c after, s.caps = before ++ c :: after → (∀ d ∈ before, ¬Holds uid target d) → Holds uid target c →
    (∀ d ∈ after, Holds uid target d → d.perm &&& perm = 0) ∧
    (c.perm &&& perm = 0 ∨ ∀ other, target_matches target other = false → target_matches c.target other = true →
      ∃ d ∈ before ++ after, Holds uid other d ∧ d.perm &&& c.perm = c.perm)

/-! ## Masks -/

section Masks

variable {a b p q : UInt32}

theorem mask_eq_iff : a = b ↔ ∀ i < 32, a.toBitVec.getLsbD i = b.toBitVec.getLsbD i := by
  constructor
  · rintro rfl i hi
    rfl
  · intro h
    exact UInt32.eq_of_toBitVec_eq (BitVec.eq_of_getLsbD_eq h)

theorem mask_left (hq : q &&& p = q) (hleft : (a &&& ~~~p) &&& q = q) : q = 0 := by
  rw [mask_eq_iff] at hq hleft ⊢
  intro i hi
  have hq := hq i hi
  have hleft := hleft i hi
  simp only [UInt32.toBitVec_and, UInt32.toBitVec_not, BitVec.getLsbD_and, BitVec.getLsbD_not, hi, decide_true,
    Bool.true_and] at hq hleft
  simp only [UInt32.toBitVec_ofNat, BitVec.getLsbD_zero]
  grind

theorem mask_kept (hq : a &&& q = q) (hapart : a &&& p = 0) : (a &&& ~~~p) &&& q = q := by
  rw [mask_eq_iff] at hq hapart ⊢
  intro i hi
  have hq := hq i hi
  have hapart := hapart i hi
  simp only [UInt32.toBitVec_and, UInt32.toBitVec_not, BitVec.getLsbD_and, BitVec.getLsbD_not, hi, decide_true,
    Bool.true_and, UInt32.toBitVec_ofNat, BitVec.getLsbD_zero] at hq hapart ⊢
  grind

theorem mask_trans (hq : a &&& q = q) (hb : b &&& a = a) : b &&& q = q := by
  calc b &&& q = b &&& (a &&& q) := by rw [hq]
    _ = (b &&& a) &&& q := (UInt32.and_assoc b a q).symm
    _ = q := by rw [hb, hq]

theorem mask_and_left : a &&& (a &&& p) = a &&& p := by rw [← UInt32.and_assoc, UInt32.and_self]

theorem mask_and_right : (a &&& p) &&& p = a &&& p := by rw [UInt32.and_assoc, UInt32.and_self]

end Masks

/-! ## The entry that is edited -/

variable {s : Spm} {uid perm : UInt32} {target : List UInt8}

theorem holds_iff {c : SpmCapability} :
    (c.active && c.uid == uid && target_matches c.target target) = true ↔ Holds uid target c := by
  simp [Holds, and_assoc]

/-- The entry with what is left of it. -/
def reduced (perm : UInt32) (c : SpmCapability) : SpmCapability :=
  { c with perm := c.perm &&& ~~~perm, active := (c.perm &&& ~~~perm) != 0 }

theorem revoke_cases (caps : List SpmCapability) :
    (revoke uid perm target caps = none ∧ ∀ d ∈ caps, ¬Holds uid target d) ∨
      ∃ before c after, caps = before ++ c :: after ∧ (∀ d ∈ before, ¬Holds uid target d) ∧ Holds uid target c ∧
        revoke uid perm target caps = some (before ++ reduced perm c :: after) := by
  induction caps with
  | nil => exact .inl ⟨rfl, fun d hd => absurd hd not_mem_nil⟩
  | cons c caps ih =>
    rw [revoke]
    split
    · next hc =>
      exact .inr ⟨[], c, caps, rfl, fun d hd => absurd hd not_mem_nil, holds_iff.mp hc, rfl⟩
    next hc =>
    have hc : ¬Holds uid target c := fun h => hc (holds_iff.mpr h)
    rcases ih with ⟨hnone, hall⟩ | ⟨before, d, after, rfl, hbefore, hd, hsome⟩
    · left
      rw [hnone]
      exact ⟨rfl, List.forall_mem_cons.mpr ⟨hc, hall⟩⟩
    · right
      rw [hsome]
      exact ⟨c :: before, d, after, rfl, List.forall_mem_cons.mpr ⟨hc, hbefore⟩, hd, rfl⟩

theorem first_unique {before before' after after' : List SpmCapability} {c c' : SpmCapability}
    (h : before ++ c :: after = before' ++ c' :: after') (hbefore : ∀ d ∈ before, ¬Holds uid target d)
    (hbefore' : ∀ d ∈ before', ¬Holds uid target d) (hc : Holds uid target c) (hc' : Holds uid target c') :
    before = before' ∧ c = c' ∧ after = after' := by
  induction before generalizing before' with
  | nil =>
    cases before' with
    | nil => simpa using h
    | cons d before' =>
      obtain ⟨rfl, -⟩ := List.cons.inj h
      exact absurd hc (hbefore' _ mem_cons_self)
  | cons d before ih =>
    cases before' with
    | nil =>
      obtain ⟨rfl, -⟩ := List.cons.inj h
      exact absurd hc' (hbefore _ mem_cons_self)
    | cons d' before' =>
      obtain ⟨rfl, htails⟩ := List.cons.inj h
      obtain ⟨rfl, hrest⟩ := ih htails (fun x hx => hbefore x (mem_cons_of_mem _ hx))
        fun x hx => hbefore' x (mem_cons_of_mem _ hx)
      exact ⟨rfl, hrest⟩

/-- What a user other than root is allowed by a table. -/
def Allows (caps : List SpmCapability) (uid q : UInt32) (target : List UInt8) : Prop :=
  ∃ c ∈ caps, Holds uid target c ∧ c.perm &&& q = q

theorem check_allows (huid : uid ≠ 0) {q : UInt32} : s.spm_check uid q target = true ↔ Allows s.caps uid q target := by
  rw [check_iff, or_iff_right huid]
  refine exists_congr fun c => and_congr_right fun _ => ?_
  unfold Holds
  tauto

theorem holds_reduced {c : SpmCapability} {other : List UInt8} :
    Holds uid other (reduced perm c) ↔ c.perm &&& ~~~perm ≠ 0 ∧ c.uid = uid ∧ target_matches c.target other = true := by
  simp [Holds, reduced]

section Edited

variable {before after : List SpmCapability} {c : SpmCapability}

theorem mem_edited {d : SpmCapability} : d ∈ before ++ reduced perm c :: after ↔ d ∈ before ++ after ∨
    d = reduced perm c := by
  simp only [mem_append, mem_cons]
  tauto

theorem denied_iff (hbefore : ∀ d ∈ before, ¬Holds uid target d) :
    (∀ q : UInt32, q ≠ 0 → q &&& perm = q → ¬Allows (before ++ reduced perm c :: after) uid q target) ↔
      ∀ d ∈ after, Holds uid target d → d.perm &&& perm = 0 := by
  constructor
  · intro h d hd hholds
    by_contra hne
    exact h (d.perm &&& perm) hne mask_and_right
      ⟨d, mem_edited.mpr (.inl (mem_append_right _ hd)), hholds, mask_and_left⟩
  · rintro h q hq hin ⟨d, hd, hholds, hmask⟩
    refine hq ?_
    rcases mem_edited.mp hd with hd | rfl
    · rcases List.mem_append.mp hd with hd | hd
      · exact absurd hholds (hbefore d hd)
      · calc q = (d.perm &&& q) &&& perm := by rw [hmask, hin]
          _ = (d.perm &&& perm) &&& q := by rw [UInt32.and_assoc, UInt32.and_comm q, ← UInt32.and_assoc]
          _ = 0 := by rw [h d hd hholds, UInt32.zero_and]
    · exact mask_left hin hmask

theorem kept_iff (hc : Holds uid target c) :
    (∀ other, target_matches target other = false → ∀ q : UInt32, q ≠ 0 → Allows (before ++ c :: after) uid q other →
        Allows (before ++ reduced perm c :: after) uid q other) ↔
      (c.perm &&& perm = 0 ∨ ∀ other, target_matches target other = false → target_matches c.target other = true →
        ∃ d ∈ before ++ after, Holds uid other d ∧ d.perm &&& c.perm = c.perm) := by
  constructor
  · intro h
    by_cases hapart : c.perm &&& perm = 0
    · exact .inl hapart
    · refine .inr fun other hother hmatch => ?_
      have hne : c.perm ≠ 0 := by
        intro hzero
        exact hapart (by rw [hzero, UInt32.zero_and])
      have hallowed : Allows (before ++ c :: after) uid c.perm other :=
        ⟨c, mem_append_right _ mem_cons_self, ⟨hc.1, hc.2.1, hmatch⟩, UInt32.and_self⟩
      obtain ⟨d, hd, hholds, hmask⟩ := h other hother c.perm hne hallowed
      rcases mem_edited.mp hd with hd | rfl
      · exact ⟨d, hd, hholds, hmask⟩
      · -- what is left of the entry does not have what was revoked
        exact absurd (mask_left mask_and_right (mask_trans mask_and_left hmask)) hapart
  · rintro h other hother q hq ⟨d, hd, hholds, hmask⟩
    have hd : d ∈ before ++ after ∨ d = c := by
      simp only [mem_append, mem_cons] at hd ⊢
      tauto
    rcases hd with hd | rfl
    · exact ⟨d, mem_edited.mpr (.inl hd), hholds, hmask⟩
    · rcases h with hapart | hothers
      · have hkept := mask_kept hmask hapart
        have hleft : d.perm &&& ~~~perm ≠ 0 := by
          intro hzero
          rw [hzero, UInt32.zero_and] at hkept
          exact hq hkept.symm
        exact ⟨_, mem_edited.mpr (.inr rfl), holds_reduced.mpr ⟨hleft, hholds.2⟩, hkept⟩
      · obtain ⟨e, he, heholds, hmore⟩ := hothers other hother hholds.2.2
        exact ⟨e, mem_edited.mpr (.inl he), heholds, mask_trans hmask hmore⟩

end Edited

/-- For a user other than root, revocation does what it says exactly where the first entry stands apart from the
others. -/
theorem revoke_effective_iff (s : Spm) (uid perm : UInt32) (target : List UInt8) (huid : uid ≠ 0) :
    Effective s uid perm target ↔ Separate s uid perm target := by
  rcases @revoke_cases uid perm target s.caps with ⟨hnone, hall⟩ | ⟨before, c, after, hcaps, hbefore, hc, hsome⟩
  · have hfails : s.spm_revoke_cap uid perm target = (-1, s) := by rw [spm_revoke_cap, hnone]
    refine iff_of_true (fun hok => ?_) fun before c after hcaps _ hc => ?_
    · rw [hfails] at hok
      cases hok
    · exact absurd hc (hall c (by rw [hcaps]; exact mem_append_right _ mem_cons_self))
  · have hdone : s.spm_revoke_cap uid perm target = (0, { s with caps := before ++ reduced perm c :: after }) := by
      rw [spm_revoke_cap, hsome]
    have hsplit : Separate s uid perm target ↔ (∀ d ∈ after, Holds uid target d → d.perm &&& perm = 0) ∧
        (c.perm &&& perm = 0 ∨ ∀ other, target_matches target other = false → target_matches c.target other = true →
          ∃ d ∈ before ++ after, Holds uid other d ∧ d.perm &&& c.perm = c.perm) := by
      refine ⟨fun h => h before c after hcaps hbefore hc, fun h before' c' after' hcaps' hbefore' hc' => ?_⟩
      obtain ⟨rfl, rfl, rfl⟩ := first_unique (hcaps.symm.trans hcaps') hbefore hbefore' hc hc'
      exact h
    have hallows : ∀ q other, (s.spm_revoke_cap uid perm target).2.spm_check uid q other = true ↔
        Allows (before ++ reduced perm c :: after) uid q other := by
      intro q other
      rw [hdone, check_allows huid]
    have hallowed : ∀ q other, s.spm_check uid q other = true ↔ Allows (before ++ c :: after) uid q other := by
      intro q other
      rw [check_allows huid, hcaps]
    have hok : (s.spm_revoke_cap uid perm target).1 = 0 := by rw [hdone]
    rw [hsplit, ← denied_iff hbefore, ← kept_iff hc]
    constructor
    · intro h
      obtain ⟨hdenied, hkept⟩ := h hok
      refine ⟨fun q hq hin hleft => ?_, fun other hother q hq hhad => ?_⟩
      · rw [← hallows, hdenied q hq hin] at hleft
        cases hleft
      · exact (hallows q other).mp (hkept other hother q hq ((hallowed q other).mpr hhad))
    · rintro ⟨hdenied, hkept⟩ -
      refine ⟨fun q hq hin => Bool.eq_false_iff.mpr fun hleft => ?_, fun other hother q hq hhad => ?_⟩
      · exact hdenied q hq hin ((hallows q target).mp hleft)
      · exact (hallows q other).mpr (hkept other hother q hq ((hallowed q other).mp hhad))

/-- A user with one entry. -/
def one_entry (target : List UInt8) : Spm where
  users := []
  caps := [⟨1, 3, target.take 3, true, by rw [length_take, SPM_TARGET_MAX]; omega⟩]
  procs _ := ⟨1, false⟩

theorem revoke_one_entry : (1 : UInt32) ≠ 0 ∧
    (Effective (one_entry ['/'.toUInt8, 'a'.toUInt8]) 1 2 ['/'.toUInt8, 'a'.toUInt8] ↔
      Separate (one_entry ['/'.toUInt8, 'a'.toUInt8]) 1 2 ['/'.toUInt8, 'a'.toUInt8]) :=
  ⟨by decide, revoke_effective_iff _ 1 2 _ (by decide)⟩

/-- Behind an entry that is granted twice the permission is still there. -/
theorem revoke_of_duplicate : ¬∀ (s : Spm) (uid perm : UInt32) (target : List UInt8), uid ≠ 0 → perm ≠ 0 →
    Effective ((s.spm_grant_cap uid perm target).2.spm_grant_cap uid perm target).2 uid perm target := by
  intro h
  have hdenied := (h ⟨[], [], fun _ => ⟨1, false⟩⟩ 1 2 ['/'.toUInt8] (by decide) (by decide) (by decide)).1
  exact absurd (hdenied 2 (by decide) (by decide)) (by decide)

end graceos.spm
