import GraceOS.Lib.Machine
import Mathlib.Data.List.GetD

/-!
# The security policy manager

The capability table of `spm.c`, the system calls of `sys_spm.c` on it, and `sys_setuid`. A string is the list of
its characters in front of the terminator.
-/

namespace graceos.spm

def PERM_GRANT : UInt32 := 0x40
def PERM_ADMIN : UInt32 := 0x80

def SPM_TARGET_MAX : Nat := 256
def SPM_NAME_MAX : Nat := 64
def SPM_PASS_MAX : Nat := 64
def SPM_MAX_USERS : Nat := 64
def SPM_MAX_CAPS : Nat := 256

def all_targets : List UInt8 := ['*'.toUInt8]

/-- `spm_user_t`. -/
structure SpmUser where
  uid : UInt32
  name : List UInt8
  password : List UInt8
  active : Bool

/-- `spm_capability_t`, with a target that fits its field. -/
structure SpmCapability where
  uid : UInt32
  perm : UInt32
  target : List UInt8
  active : Bool
  fits : target.length < SPM_TARGET_MAX

/-- `strncpy` to a field of `max` bytes, with the terminator behind it. -/
def strncpy (src : List UInt8) (max : Nat) : List UInt8 := src.take (max - 1)

/-- The pattern ends in a slash and a star. -/
def Trailing (pattern : List UInt8) : Prop :=
  pattern.length ≥ 2 ∧ pattern.getD (pattern.length - 1) 0 = '*'.toUInt8 ∧
    pattern.getD (pattern.length - 2) 0 = '/'.toUInt8

instance (pattern : List UInt8) : Decidable (Trailing pattern) := by unfold Trailing; infer_instance

def target_matches (pattern target : List UInt8) : Bool :=
  if pattern = all_targets then true
  else if Trailing pattern then
    let prefix_len := pattern.length - 1
    target.length ≥ prefix_len ∧ pattern.take prefix_len = target.take prefix_len
  else pattern = target

/-- A process, as far as the calls look at it. -/
structure Credentials where
  uid : UInt16
  cap_setuid : Bool

/-- The tables of `spm.c`, and the processes. -/
structure Spm where
  users : List SpmUser
  caps : List SpmCapability
  procs : Nat → Credentials

namespace Spm

variable (s : Spm)

/-- `spm_check`; it allows what it answers 0 to. -/
def spm_check (uid perm : UInt32) (target : List UInt8) : Bool :=
  uid == 0 || s.caps.any fun c =>
    c.active && c.uid == uid && (c.perm &&& perm) == perm && target_matches c.target target

def spm_find_user (uid : UInt32) : Option SpmUser := s.users.find? fun u => u.active && u.uid == uid

def spm_add_user (uid : UInt32) (name : List UInt8) : Int × Spm :=
  if name = [] then (-1, s)
  else if s.users.length ≥ SPM_MAX_USERS then (-1, s)
  else if (s.spm_find_user uid).isSome then (-1, s)
  else if s.users.any fun u => u.active && u.name == name then (-1, s)
  else (0, { s with users := s.users ++ [⟨uid, strncpy name SPM_NAME_MAX, [], true⟩] })

/-- The password of the first active entry of the user is replaced. -/
def set_password (uid : UInt32) (password : List UInt8) : List SpmUser → List SpmUser
  | [] => []
  | u :: users =>
    if u.active && u.uid == uid then { u with password := strncpy password SPM_PASS_MAX } :: users
    else u :: set_password uid password users

def spm_set_password (uid : UInt32) (password : List UInt8) : Int × Spm :=
  if (s.spm_find_user uid).isNone then (-1, s) else (0, { s with users := set_password uid password s.users })

def spm_grant_cap (uid perm : UInt32) (target : List UInt8) : Int × Spm :=
  if s.caps.length ≥ SPM_MAX_CAPS then (-1, s)
  else (0, { s with caps := s.caps ++
    [⟨uid, perm, strncpy target SPM_TARGET_MAX, true, by simp only [strncpy, SPM_TARGET_MAX, List.length_take]; omega⟩]
      })

/-! ## System calls -/

/-- `(uint32_t)current->uid`. -/
def caller_uid (pid : Nat) : UInt32 := (s.procs pid).uid.toUInt32

def sys_spm_user_add (pid : Nat) (uid : UInt32) (name : Option (List UInt8)) : Int × Spm :=
  match name with
  | none => (-1, s)
  | some name => if !s.spm_check (s.caller_uid pid) PERM_ADMIN all_targets then (-1, s) else s.spm_add_user uid name

def sys_spm_cap_grant (pid : Nat) (uid perm : UInt32) (target : Option (List UInt8)) : Int × Spm :=
  match target with
  | none => (-1, s)
  | some target =>
    if !s.spm_check (s.caller_uid pid) PERM_GRANT target then (-1, s) else s.spm_grant_cap uid perm target

def sys_spm_check (pid : Nat) (uid perm : UInt32) (target : Option (List UInt8)) : Int × Spm :=
  match target with
  | none => (-1, s)
  | some target =>
    if s.caller_uid pid ≠ uid ∧ !s.spm_check (s.caller_uid pid) PERM_ADMIN all_targets then (-1, s)
    else (if s.spm_check uid perm target then 0 else -1, s)

def sys_spm_user_passwd (pid : Nat) (uid : UInt32) (password : Option (List UInt8)) : Int × Spm :=
  match password with
  | none => (-1, s)
  | some password =>
    if s.caller_uid pid ≠ uid ∧ !s.spm_check (s.caller_uid pid) PERM_ADMIN all_targets then (-1, s)
    else s.spm_set_password uid password

/-- The decimal digits that `sys_setuid` writes. -/
def digits (v : Nat) : List UInt8 :=
  if v < 10 then ['0'.toUInt8 + UInt8.ofNat v] else digits (v / 10) ++ ['0'.toUInt8 + UInt8.ofNat (v % 10)]

def uid_target (uid : UInt32) : List UInt8 :=
  ['u'.toUInt8, 'i'.toUInt8, 'd'.toUInt8, ':'.toUInt8] ++ digits uid.toNat

/-- `proc_setuid`, which cuts the uid to 16 bits. -/
def proc_setuid (pid : Nat) (uid : UInt16) : Int × Spm :=
  if !(s.procs pid).cap_setuid then (-1, s)
  else (0, { s with procs := Function.update s.procs pid { s.procs pid with uid := uid } })

def sys_setuid (pid : Nat) (uid : UInt32) : Int × Spm :=
  if !s.spm_check (s.caller_uid pid) PERM_GRANT (uid_target uid) then (-1, s) else s.proc_setuid pid uid.toUInt16

/-- A system call of a process. -/
inductive Call where
  | user_add (uid : UInt32) (name : Option (List UInt8))
  | cap_grant (uid perm : UInt32) (target : Option (List UInt8))
  | check (uid perm : UInt32) (target : Option (List UInt8))
  | user_passwd (uid : UInt32) (password : Option (List UInt8))
  | setuid (uid : UInt32)

def step (s : Spm) : Nat × Call → Spm
  | (pid, .user_add uid name) => (s.sys_spm_user_add pid uid name).2
  | (pid, .cap_grant uid perm target) => (s.sys_spm_cap_grant pid uid perm target).2
  | (pid, .check uid perm target) => (s.sys_spm_check pid uid perm target).2
  | (pid, .user_passwd uid password) => (s.sys_spm_user_passwd pid uid password).2
  | (pid, .setuid uid) => (s.sys_setuid pid uid).2

/-- The users that the calls of a run are issued by. -/
def callers : Spm → List (Nat × Call) → List UInt32
  | _, [] => []
  | s, call :: calls => s.caller_uid call.1 :: callers (s.step call) calls

end Spm

/-! ## Patterns -/

/-- Every target of the second pattern is one of the first. -/
def Covers (p q : List UInt8) : Prop := ∀ target, target_matches q target = true → target_matches p target = true

theorem Covers.refl (p : List UInt8) : Covers p p := fun _ h => h

theorem Covers.trans {p q r : List UInt8} (hpq : Covers p q) (hqr : Covers q r) : Covers p r :=
  fun target h => hpq target (hqr target h)

theorem target_matches_trailing {pattern : List UInt8} (hne : pattern ≠ all_targets) (h : Trailing pattern)
    (target : List UInt8) : target_matches pattern target = true ↔
      pattern.length - 1 ≤ target.length ∧ pattern.take (pattern.length - 1) = target.take (pattern.length - 1) := by
  rw [target_matches, if_neg hne, if_pos h, decide_eq_true_eq]

theorem target_matches_exact {pattern : List UInt8} (hne : pattern ≠ all_targets) (h : ¬ Trailing pattern)
    (target : List UInt8) : target_matches pattern target = true ↔ pattern = target := by
  rw [target_matches, if_neg hne, if_neg h, decide_eq_true_eq]

theorem getD_of_take_eq {a b : List UInt8} {n i : Nat} (h : a.take n = b.take n) (hi : i < n) : a.getD i 0 =
    b.getD i 0 := by
  have hget := congrArg (fun l : List UInt8 => l[i]?) h
  simp only [List.getElem?_take, if_pos hi] at hget
  rw [List.getD_eq_getElem?_getD, List.getD_eq_getElem?_getD, hget]

/-- A pattern that begins like the part of another one in front of its star is no wider than that one. -/
theorem covers_of_prefix {p q : List UInt8} (hne : p ≠ all_targets) (h : Trailing p) (hlen : p.length - 1 ≤ q.length)
    (hhead : p.take (p.length - 1) = q.take (p.length - 1)) : Covers p q := by
  obtain ⟨htwo, -, hslash⟩ := id h
  -- what stands in front of the star ends in a slash, so `q` has something behind it if it ends in a star itself
  have hbefore : q.getD (p.length - 2) 0 = '/'.toUInt8 :=
    (getD_of_take_eq hhead (by omega)).symm.trans hslash
  intro target hmatch
  rw [target_matches_trailing hne h]
  by_cases hall : q = all_targets
  · have hone : q.length = 1 := by rw [hall]; rfl
    have hzero : p.length - 2 = 0 := by omega
    rw [hzero, hall] at hbefore
    exact absurd hbefore (by decide)
  by_cases hq : Trailing q
  · obtain ⟨hlong, hsame⟩ := (target_matches_trailing hall hq target).mp hmatch
    have hshort : p.length - 1 ≤ q.length - 1 := by
      by_contra hnot
      have hend : p.length - 2 = q.length - 1 := by omega
      rw [hend, hq.2.1] at hbefore
      exact absurd hbefore (by decide)
    refine ⟨by omega, ?_⟩
    have hcut := congrArg (List.take (p.length - 1)) hsame
    rw [List.take_take, List.take_take, Nat.min_eq_left hshort] at hcut
    exact hhead.trans hcut
  · rw [target_matches_exact hall hq] at hmatch
    subst hmatch
    exact ⟨hlen, hhead⟩

theorem covers_of_matches {p target : List UInt8} (hfits : p.length < SPM_TARGET_MAX)
    (h : target_matches p target = true) : Covers p (strncpy target SPM_TARGET_MAX) := by
  rw [strncpy]
  rw [SPM_TARGET_MAX] at hfits ⊢
  by_cases hall : p = all_targets
  · intro _ _
    rw [target_matches, if_pos hall]
  by_cases hp : Trailing p
  · obtain ⟨hlong, hsame⟩ := (target_matches_trailing hall hp target).mp h
    refine covers_of_prefix hall hp (by rw [List.length_take]; omega) ?_
    rw [List.take_take, Nat.min_eq_left (by omega)]
    exact hsame
  · rw [target_matches_exact hall hp] at h
    subst h
    rw [List.take_of_length_le (by omega)]
    exact .refl p

namespace Spm

variable {s : Spm}

/-! ## Where authority comes from -/

/-- A capability that allows its user to grant. -/
def Grants (c : SpmCapability) : Prop := c.active = true ∧ c.perm &&& PERM_GRANT = PERM_GRANT

/-- Each active capability was there at the start, or lies within one that a participant could grant from. -/
def FromGrants (start : List SpmCapability) (participants : List UInt32) (caps : List SpmCapability) : Prop :=
  ∀ c ∈ caps, c ∈ start ∨ ∃ f ∈ start, f.uid ∈ participants ∧ Grants f ∧ Covers f.target c.target

theorem check_iff {uid perm : UInt32} {target : List UInt8} : s.spm_check uid perm target = true ↔
    uid = 0 ∨ ∃ c ∈ s.caps, c.active = true ∧ c.uid = uid ∧ c.perm &&& perm = perm ∧
        target_matches c.target target = true := by
  simp [spm_check, and_assoc]

/-- What a call does to the capabilities. -/
theorem step_caps (s : Spm) (call : Nat × Call) : (s.step call).caps = s.caps ∨
    ∃ c target, (s.step call).caps = s.caps ++ [c] ∧ c.target = strncpy target SPM_TARGET_MAX ∧
      s.spm_check (s.caller_uid call.1) PERM_GRANT target = true := by
  obtain ⟨pid, call⟩ := call
  cases call with
  | user_add uid name =>
    left
    simp only [step, sys_spm_user_add]
    split
    · rfl
    · split
      · rfl
      · simp only [spm_add_user]
        split_ifs <;> rfl
  | cap_grant uid perm target =>
    simp only [step, sys_spm_cap_grant]
    split
    · exact .inl rfl
    · next target =>
      split
      · exact .inl rfl
      · next hcheck =>
        rw [spm_grant_cap]
        split
        · exact .inl rfl
        · exact .inr ⟨_, target, rfl, rfl, by simpa using hcheck⟩
  | check uid perm target =>
    left
    simp only [step, sys_spm_check]
    split
    · rfl
    · split <;> rfl
  | user_passwd uid password =>
    left
    simp only [step, sys_spm_user_passwd]
    split
    · rfl
    · split
      · rfl
      · rw [spm_set_password]
        split <;> rfl
  | setuid uid =>
    left
    simp only [step, sys_setuid]
    split
    · rfl
    · rw [proc_setuid]
      split <;> rfl

theorem FromGrants.step {start : List SpmCapability} {participants : List UInt32} {call : Nat × Call}
    (h : FromGrants start participants s.caps) (hroot : s.caller_uid call.1 ≠ 0)
    (hcaller : s.caller_uid call.1 ∈ participants) :
    FromGrants start participants (s.step call).caps := by
  rcases step_caps s call with hsame | ⟨c, target, hadd, htarget, hcheck⟩
  · rw [hsame]
    exact h
  · rw [hadd]
    intro x hx
    rcases List.mem_append.mp hx with hx | hx
    · exact h x hx
    · rw [List.mem_singleton] at hx
      subst hx
      obtain ⟨e, he, hactive, huid, hperm, hmatch⟩ := (check_iff.mp hcheck).resolve_left hroot
      have hcover : Covers e.target x.target := htarget ▸ covers_of_matches e.fits hmatch
      right
      rcases h e he with hstart | ⟨f, hf, hpart, hgrants, hcovers⟩
      · exact ⟨e, hstart, huid ▸ hcaller, ⟨hactive, hperm⟩, hcover⟩
      · exact ⟨f, hf, hpart, hgrants, hcovers.trans hcover⟩

theorem fromGrants_run {start : List SpmCapability} {participants : List UInt32} {calls : List (Nat × Call)}
    (h : FromGrants start participants s.caps) (hroot : 0 ∉ callers s calls)
    (hcallers : ∀ c ∈ callers s calls, c ∈ participants) :
    FromGrants start participants (machine.run Spm.step s calls).caps := by
  induction calls generalizing s with
  | nil => exact h
  | cons call calls ih =>
    rw [callers, List.mem_cons, not_or] at hroot
    exact ih (h.step (Ne.symm hroot.1) (hcallers _ List.mem_cons_self)) hroot.2
      fun c hc => hcallers c (List.mem_cons_of_mem _ hc)

end Spm

open Spm

/-- What a user other than root is allowed after any calls it was allowed before, or a user that issued one of them
could grant on the same target. -/
theorem authority_from_grants (s : Spm) (calls : List (Nat × Call)) (hroot : 0 ∉ callers s calls) (u perm : UInt32)
    (hu : u ≠ 0) (target : List UInt8) (hallowed : (machine.run step s calls).spm_check u perm target = true) :
    s.spm_check u perm target = true ∨ ∃ c ∈ callers s calls, s.spm_check c PERM_GRANT target = true := by
  obtain ⟨c, hc, hactive, huid, hperm, hmatch⟩ := (check_iff.mp hallowed).resolve_left hu
  have hfrom : FromGrants s.caps (callers s calls) (machine.run Spm.step s calls).caps :=
    fromGrants_run (fun c hc => .inl hc) hroot fun _ h => h
  rcases hfrom c hc with hstart | ⟨f, hf, hpart, hgrants, hcovers⟩
  · exact .inl (check_iff.mpr (.inr ⟨c, hstart, hactive, huid, hperm, hmatch⟩))
  · exact .inr ⟨f.uid, hpart, check_iff.mpr (.inr ⟨f, hf, hgrants.1, rfl, hgrants.2, hcovers target hmatch⟩)⟩

/-- A user that can grant on one path, and nothing else, in a process with its uid. -/
def granter : Spm where
  users := []
  caps := [⟨1, PERM_GRANT, ['/'.toUInt8, 'a'.toUInt8], true, by decide⟩]
  procs _ := ⟨1, false⟩

/-- It grants itself the permission to write. -/
def self_grant : List (Nat × Call) := [(0, .cap_grant 1 2 (some ['/'.toUInt8, 'a'.toUInt8]))]

theorem authority_of_self_grant : (0 ∉ callers granter self_grant ∧ (1 : UInt32) ≠ 0 ∧
      (machine.run step granter self_grant).spm_check 1 2 ['/'.toUInt8, 'a'.toUInt8] = true) ∧
    (granter.spm_check 1 2 ['/'.toUInt8, 'a'.toUInt8] = true ∨
      ∃ c ∈ callers granter self_grant, granter.spm_check c PERM_GRANT ['/'.toUInt8, 'a'.toUInt8] = true) :=
  ⟨by decide, authority_from_grants granter self_grant (by decide) 1 2 (by decide) _ (by decide)⟩

/-- Whoever may grant on a target may grant what nobody who takes part is allowed. -/
theorem grant_adds_authority : ¬ ∀ (s : Spm) (calls : List (Nat × Call)), 0 ∉ callers s calls → ∀ u perm :
    UInt32, u ≠ 0 →
    ∀ target, (machine.run step s calls).spm_check u perm target = true →
      ∃ c ∈ u :: callers s calls, s.spm_check c perm target = true := by
  intro hclaim
  obtain ⟨c, hc, hallowed⟩ := hclaim granter self_grant (by decide) 1 2 (by decide) ['/'.toUInt8,
      'a'.toUInt8] (by decide)
  have hone : c = 1 := by
    have hcallers : callers granter self_grant = [1] := by decide
    simpa [hcallers] using hc
  subst hone
  exact absurd hallowed (by decide)

end graceos.spm
