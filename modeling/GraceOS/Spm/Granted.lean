import GraceOS.Spm.Revoke
import Mathlib.Data.List.Forall2

/-!
# What grants allow

Runs of `spm_grant_cap` and `spm_revoke_cap`. A check asks one entry for all bits, so it is not the conjunction of the
checks for its bits; and an entry matches what the granted target matches, unless the target was cut.
-/

namespace graceos.spm

open List

namespace Spm

/-- A call on the capability table. -/
inductive CapCall where
  | grant (uid perm : UInt32) (target : List UInt8)
  | revoke (uid perm : UInt32) (target : List UInt8)

def cap_call (s : Spm) : CapCall → Int × Spm
  | .grant uid perm target => s.spm_grant_cap uid perm target
  | .revoke uid perm target => s.spm_revoke_cap uid perm target

def cap_calls (s : Spm) (calls : List CapCall) : Spm := calls.foldl (fun s call => (s.cap_call call).2) s

/-- The target that a call grants. -/
def grants (s : Spm) : CapCall → List (List UInt8)
  | .grant uid perm target => if (s.spm_grant_cap uid perm target).1 = 0 then [target] else []
  | .revoke _ _ _ => []

/-- The targets that were granted in a run, in full. -/
def granted (s : Spm) : List CapCall → List (List UInt8)
  | [] => []
  | call :: calls => s.grants call ++ (s.cap_call call).2.granted calls

end Spm

open Spm

theorem mask_or_iff {a p q : UInt32} : a &&& (p ||| q) = p ||| q ↔ a &&& p = p ∧ a &&& q = q := by
  rw [mask_eq_iff, mask_eq_iff, mask_eq_iff, ← forall_and]
  refine forall_congr' fun i => ?_
  rw [← imp_and]
  refine imp_congr_right fun _ => ?_
  rw [UInt32.toBitVec_and, UInt32.toBitVec_or, UInt32.toBitVec_and, UInt32.toBitVec_and, BitVec.getLsbD_and,
    BitVec.getLsbD_or, BitVec.getLsbD_and, BitVec.getLsbD_and]
  cases a.toBitVec.getLsbD i <;> cases p.toBitVec.getLsbD i <;> cases q.toBitVec.getLsbD i <;> decide

theorem spm_check_or_iff (s : Spm) (uid p1 p2 : UInt32) (target : List UInt8) :
    s.spm_check uid (p1 ||| p2) target = true ↔
      uid = 0 ∨ ∃ c ∈ s.caps, Holds uid target c ∧ c.perm &&& p1 = p1 ∧ c.perm &&& p2 = p2 := by
  by_cases huid : uid = 0
  · rw [spm_check, huid, beq_self_eq_true, Bool.true_or]
    exact ⟨fun _ => .inl rfl, fun _ => rfl⟩
  · rw [check_allows huid, or_iff_right huid, Allows]
    refine exists_congr fun c => and_congr_right fun _ => and_congr_right fun _ => ?_
    exact mask_or_iff

theorem spm_check_of_or {s : Spm} {uid p1 p2 : UInt32} {target : List UInt8}
    (h : s.spm_check uid (p1 ||| p2) target = true) :
    s.spm_check uid p1 target = true ∧ s.spm_check uid p2 target = true := by
  obtain rfl | ⟨c, hc, hholds, h1, h2⟩ := (spm_check_or_iff s uid p1 p2 target).mp h
  · exact ⟨rfl, rfl⟩
  · by_cases huid : uid = 0
    · rw [huid]
      exact ⟨rfl, rfl⟩
    · exact ⟨(check_allows huid).mpr ⟨c, hc, hholds, h1⟩, (check_allows huid).mpr ⟨c, hc, hholds, h2⟩⟩

/-! ## The targets of a table -/

theorem revoke_targets (uid perm : UInt32) (target : List UInt8) (s : Spm) :
    (s.spm_revoke_cap uid perm target).2.caps.map SpmCapability.target = s.caps.map SpmCapability.target := by
  obtain ⟨hnone, -⟩ | ⟨before, c, after, hcaps, -, -, hsome⟩ := @revoke_cases uid perm target s.caps
  · rw [spm_revoke_cap, hnone]
  · rw [spm_revoke_cap, hsome, hcaps]
    dsimp only
    rw [map_append, map_append, map_cons, map_cons]
    rfl

theorem cap_call_targets (s : Spm) (call : CapCall) : (s.cap_call call).2.caps.map SpmCapability.target =
    s.caps.map SpmCapability.target ++ (s.grants call).map (strncpy · SPM_TARGET_MAX) := by
  cases call with
  | grant uid perm target =>
    rw [cap_call, grants, spm_grant_cap]
    by_cases hfull : s.caps.length ≥ SPM_MAX_CAPS
    · rw [if_pos hfull, if_neg (show (-1 : Int) ≠ 0 by decide)]
      exact (append_nil _).symm
    · rw [if_neg hfull, if_pos rfl]
      exact map_append
  | revoke uid perm target => exact (revoke_targets uid perm target s).trans (append_nil _).symm

theorem cap_calls_targets (s : Spm) (calls : List CapCall) : (s.cap_calls calls).caps.map SpmCapability.target =
    s.caps.map SpmCapability.target ++ (s.granted calls).map (strncpy · SPM_TARGET_MAX) := by
  induction calls generalizing s with
  | nil => exact (append_nil _).symm
  | cons call calls ih =>
    have hrest := ih (s.cap_call call).2
    rw [cap_call_targets, append_assoc, ← map_append] at hrest
    exact hrest

/-- On every table of a run, a check for two masks asks one entry for both, and the entries match what the granted
targets match where these fit. -/
theorem checks_of_runs (s : Spm) (hs : s.caps = []) (calls : List CapCall) :
    (∀ (uid p1 p2 : UInt32) (target : List UInt8),
      ((s.cap_calls calls).spm_check uid (p1 ||| p2) target = true ↔ uid = 0 ∨
        ∃ c ∈ (s.cap_calls calls).caps, Holds uid target c ∧ c.perm &&& p1 = p1 ∧ c.perm &&& p2 = p2) ∧
      ((s.cap_calls calls).spm_check uid (p1 ||| p2) target = true →
        (s.cap_calls calls).spm_check uid p1 target = true ∧ (s.cap_calls calls).spm_check uid p2 target = true)) ∧
    List.Forall₂ (fun c full => full.length < SPM_TARGET_MAX →
      ∀ target, target_matches c.target target = target_matches full target)
      (s.cap_calls calls).caps (s.granted calls) := by
  refine ⟨fun uid p1 p2 target => ⟨spm_check_or_iff _ uid p1 p2 target, spm_check_of_or⟩, ?_⟩
  have htargets := cap_calls_targets s calls
  rw [hs, map_nil, nil_append] at htargets
  have hsame : List.Forall₂ (fun c full => c.target = strncpy full SPM_TARGET_MAX)
      (s.cap_calls calls).caps (s.granted calls) := by
    have hmaps : List.Forall₂ Eq ((s.cap_calls calls).caps.map SpmCapability.target)
        ((s.granted calls).map (strncpy · SPM_TARGET_MAX)) := by
      rw [htargets, forall₂_eq_eq_eq]
    rw [forall₂_map_left_iff, forall₂_map_right_iff] at hmaps
    exact hmaps
  refine hsame.imp fun c full htarget hfits target => ?_
  rw [htarget, strncpy, take_of_length_le (by omega)]

/-- Two grants to one user, and one of them for a directory within that of the other. -/
def nested_grants : List CapCall :=
  [.grant 5 1 (['/', '*'].map Char.toUInt8), .grant 5 2 (['/', 'h', '/', '*'].map Char.toUInt8)]

theorem checks_of_runs_nested : List.Forall₂ (fun c full => full.length < SPM_TARGET_MAX →
      ∀ target, target_matches c.target target = target_matches full target)
    ((⟨[], [], fun _ => ⟨0, false⟩⟩ : Spm).cap_calls nested_grants).caps
      [['/', '*'].map Char.toUInt8, ['/', 'h', '/', '*'].map Char.toUInt8] :=
  (checks_of_runs ⟨[], [], fun _ => ⟨0, false⟩⟩ rfl nested_grants).2

/-- A target of 256 bytes that ends in a slash and a star when it is cut, and not before. -/
def long_target : List UInt8 := List.replicate 253 0x61 ++ ['/', '*', 'b'].map Char.toUInt8

/-- Each of two bits is allowed by its own grant, and both together are not. The entry of a target that is cut allows
what the granted target does not match. -/
theorem spread_over_grants :
    (let s := (⟨[], [], fun _ => ⟨0, false⟩⟩ : Spm).cap_calls nested_grants
      let target := ['/', 'h', '/', 'a'].map Char.toUInt8
      s.spm_check 5 1 target = true ∧ s.spm_check 5 2 target = true ∧ s.spm_check 5 (1 ||| 2) target = false) ∧
    (let s := (⟨[], [], fun _ => ⟨0, false⟩⟩ : Spm).cap_calls [.grant 5 1 long_target]
      let target := List.replicate 253 0x61 ++ ['/', 'x'].map Char.toUInt8
      s.spm_check 5 1 target = true ∧ target_matches long_target target = false) := by
  decide +kernel

end graceos.spm
