import GraceOS.Proc.Jobs
import GraceOS.Spm.Policy

/-!
# Credentials

The calls of `security.c` that change the ids and the capabilities of a process, and `sys_setuid`, which asks the
security policy first.
-/

namespace graceos.proc

open spm machine

def CAP_ADMIN : UInt32 := 0x20

def proc_setgid (s : Kernel) (p : Ptr) (gid : Nat) : Kernel × Int :=
  if proc_has_cap (s.mem p) CAP_SETUID then (s.modify p fun q => { q with gid, egid := gid }, 0) else (s, -1)

/-- `proc_has_cap(current, CAP_ADMIN)`. -/
def caller_is_admin (s : Kernel) : Bool :=
  match s.current with
  | none => false
  | some caller => proc_has_cap (s.mem caller) CAP_ADMIN

def proc_grant_cap (s : Kernel) (p : Ptr) (cap : UInt32) : Kernel × Int :=
  if caller_is_admin s then (s.modify p fun q => { q with caps := q.caps ||| cap }, 0) else (s, -1)

def proc_revoke_cap (s : Kernel) (p : Ptr) (cap : UInt32) : Kernel × Int :=
  if caller_is_admin s then (s.modify p fun q => { q with caps := q.caps &&& ~~~cap }, 0) else (s, -1)

/-- `sys_setuid` on the bits of its argument: 32 of them are in the target that is checked, 16 in the uid. -/
def sys_setuid (policy : Spm) (s : Kernel) (uid : UInt64) : Kernel × Int :=
  match s.current with
  | none => (s, -1)
  | some p =>
    if !policy.spm_check (UInt32.ofNat (s.mem p).uid) PERM_GRANT (Spm.uid_target uid.toUInt32) then (s, -1)
    else proc_setuid s p uid.toUInt16.toNat

/-- A call that changes ids or capabilities. -/
inductive IdCall where
  | proc_setuid (p : Ptr) (uid : UInt16)
  | proc_setgid (p : Ptr) (gid : UInt16)
  | sys_setuid (uid : UInt64)
  | proc_grant_cap (p : Ptr) (cap : UInt32)
  | proc_revoke_cap (p : Ptr) (cap : UInt32)

/-- What the running process makes of a call. -/
def id_step (policy : Spm) (s : Kernel) : IdCall → Kernel
  | .proc_setuid p uid => (proc_setuid s p uid.toNat).1
  | .proc_setgid p gid => (proc_setgid s p gid.toNat).1
  | .sys_setuid uid => (sys_setuid policy s uid).1
  | .proc_grant_cap p cap => (proc_grant_cap s p cap).1
  | .proc_revoke_cap p cap => (proc_revoke_cap s p cap).1

/-! ## A process without privileges -/

/-- The running process is not root, and cannot change ids or capabilities. -/
structure Dropped (p : Ptr) (s : Kernel) : Prop where
  current : s.current = some p
  uid : (s.mem p).uid ≠ 0
  euid : (s.mem p).euid ≠ 0
  caps : (s.mem p).caps &&& (CAP_SETUID ||| CAP_ADMIN) = 0

variable {policy : Spm} {s : Kernel} {p : Ptr}

theorem caps_apart {caps : UInt32} (h : caps &&& (CAP_SETUID ||| CAP_ADMIN) = 0) :
    caps &&& CAP_SETUID = 0 ∧ caps &&& CAP_ADMIN = 0 := by
  have hsetuid : CAP_SETUID = (CAP_SETUID ||| CAP_ADMIN) &&& CAP_SETUID := by decide
  have hadmin : CAP_ADMIN = (CAP_SETUID ||| CAP_ADMIN) &&& CAP_ADMIN := by decide
  constructor
  · rw [hsetuid, ← UInt32.and_assoc, h, UInt32.zero_and]
  · rw [hadmin, ← UInt32.and_assoc, h, UInt32.zero_and]

theorem Dropped.no_setuid (h : Dropped p s) : proc_has_cap (s.mem p) CAP_SETUID = false := by
  simp [proc_has_cap, h.euid, (caps_apart h.caps).1]

theorem Dropped.no_admin (h : Dropped p s) : caller_is_admin s = false := by
  simp [caller_is_admin, h.current, proc_has_cap, h.euid, (caps_apart h.caps).2]

theorem Dropped.modify (h : Dropped p s) {q : Ptr} (hne : p ≠ q) (f : Process → Process) : Dropped p
    (s.modify q f) := by
  have hmem : (s.modify q f).mem p = s.mem p := Function.update_of_ne hne _ _
  exact ⟨h.current, by rw [hmem]; exact h.uid, by rw [hmem]; exact h.euid, by rw [hmem]; exact h.caps⟩

theorem Dropped.proc_setuid (h : Dropped p s) (q : Ptr) (uid : Nat) : Dropped p (proc_setuid s q uid).1 := by
  rw [proc.proc_setuid]
  split
  · next hcap =>
    have hne : p ≠ q := by
      rintro rfl
      rw [h.no_setuid] at hcap
      cases hcap
    dsimp only
    exact h.modify hne _
  · exact h

theorem Dropped.proc_setgid (h : Dropped p s) (q : Ptr) (gid : Nat) : Dropped p (proc_setgid s q gid).1 := by
  rw [proc.proc_setgid]
  split
  · next hcap =>
    have hne : p ≠ q := by
      rintro rfl
      rw [h.no_setuid] at hcap
      cases hcap
    dsimp only
    exact h.modify hne _
  · exact h

theorem Dropped.step (h : Dropped p s) (call : IdCall) : Dropped p (id_step policy s call) := by
  cases call with
  | proc_setuid q uid => exact h.proc_setuid q _
  | proc_setgid q gid => exact h.proc_setgid q _
  | sys_setuid uid =>
    rw [id_step, proc.sys_setuid, h.current]
    dsimp only
    split
    · exact h
    · exact h.proc_setuid p _
  | proc_grant_cap q cap =>
    rw [id_step, proc.proc_grant_cap, h.no_admin]
    exact h
  | proc_revoke_cap q cap =>
    rw [id_step, proc.proc_revoke_cap, h.no_admin]
    exact h

theorem Dropped.run (h : Dropped p s) (calls : List IdCall) : Dropped p (run (id_step policy) s calls) := by
  induction calls generalizing s with
  | nil => exact h
  | cons call calls ih => exact ih (h.step call)

/-! ## Dropping privileges -/

/-- A process that drops its privileges for good: whatever it calls, it is not root again. -/
def StaysDropped (policy : Spm) (s : Kernel) (p : Ptr) : Prop :=
  ∀ calls, ((run (id_step policy) s calls).mem p).uid ≠ 0 ∧ ((run (id_step policy) s calls).mem p).euid ≠ 0

theorem proc_setuid_ok {uid : Nat} (h : (proc_setuid s p uid).2 = 0) :
    proc_has_cap (s.mem p) CAP_SETUID = true ∧ (proc_setuid s p uid).1 = s.modify p fun q =>
        { q with uid, euid := uid } := by
  rw [proc_setuid] at h ⊢
  split at h
  · next hcap => exact ⟨hcap, by rw [if_pos hcap]⟩
  · cases h

@[simp] theorem modify_mem (s : Kernel) (p : Ptr) (f : Process → Process) : (s.modify p f).mem p = f (s.mem p) :=
  Function.update_self _ _ _

theorem root_again (hcap : proc_has_cap (s.mem p) CAP_SETUID = true) :
    ((id_step policy s (.proc_setuid p 0)).mem p).uid = 0 := by
  rw [id_step, proc_setuid, if_pos hcap]
  dsimp only
  rw [modify_mem]
  rfl

theorem has_granted (s : Kernel) (hadmin : caller_is_admin s = true) :
    proc_has_cap ((id_step policy s (.proc_grant_cap p CAP_SETUID)).mem p) CAP_SETUID = true := by
  rw [id_step, proc_grant_cap, if_pos hadmin]
  dsimp only
  rw [modify_mem]
  have hmask : ((s.mem p).caps ||| CAP_SETUID) &&& CAP_SETUID ≠ 0 := by
    have hkeep : ((s.mem p).caps ||| CAP_SETUID) &&& CAP_SETUID = CAP_SETUID := by
      refine UInt32.eq_of_toBitVec_eq (BitVec.eq_of_getLsbD_eq fun i _ => ?_)
      simp only [UInt32.toBitVec_and, UInt32.toBitVec_or, BitVec.getLsbD_and, BitVec.getLsbD_or]
      grind
    rw [hkeep]
    decide
  simp [proc_has_cap, hmask]

theorem caps_some {caps : UInt32} (h : caps &&& (CAP_SETUID ||| CAP_ADMIN) ≠ 0) :
    caps &&& CAP_SETUID ≠ 0 ∨ caps &&& CAP_ADMIN ≠ 0 := by
  by_contra hnone
  rw [not_or, not_not, not_not] at hnone
  refine h (UInt32.eq_of_toBitVec_eq ?_)
  have hsetuid := congrArg UInt32.toBitVec hnone.1
  have hadmin := congrArg UInt32.toBitVec hnone.2
  rw [UInt32.toBitVec_and] at hsetuid hadmin
  rw [UInt32.toBitVec_and, UInt32.toBitVec_or, BitVec.and_or_distrib_left, hsetuid, hadmin]
  rfl

theorem not_stays_dropped (hcur : s.current = some p) (hcaps : (s.mem p).caps &&& (CAP_SETUID ||| CAP_ADMIN) ≠ 0) :
    ¬StaysDropped policy s p := by
  intro h
  rcases caps_some hcaps with hsetuid | hadmin
  · have hcap : proc_has_cap (s.mem p) CAP_SETUID = true := by simp [proc_has_cap, hsetuid]
    have hroot : ((id_step policy s (.proc_setuid p 0)).mem p).uid = 0 := root_again hcap
    exact (h [.proc_setuid p 0]).1 hroot
  · have hcap : caller_is_admin s = true := by simp [caller_is_admin, hcur, proc_has_cap, hadmin]
    have hroot : ((id_step policy (id_step policy s (.proc_grant_cap p CAP_SETUID))
        (.proc_setuid p 0)).mem p).uid = 0 :=
      root_again (has_granted s hcap)
    exact (h [.proc_grant_cap p CAP_SETUID, .proc_setuid p 0]).1 hroot

theorem sys_setuid_stores (hcur : s.current = some p) {x : UInt64} (hok : (sys_setuid policy s x).2 = 0) :
    ((sys_setuid policy s x).1.mem p).uid = x.toUInt32.toNat % 2 ^ 16 := by
  rw [sys_setuid, hcur] at hok ⊢
  dsimp only at hok ⊢
  split at hok
  · cases hok
  next hcheck =>
  rw [if_neg hcheck, (proc_setuid_ok hok).2, modify_mem]
  dsimp only
  rw [UInt64.toNat_toUInt16, UInt64.toNat_toUInt32]
  omega

/-- A process that has set its uid stays without privileges exactly if it had no capability to change ids or
capabilities; and what `sys_setuid` stores is the uid whose target it has checked exactly if that has 16 bits. -/
theorem stays_dropped_iff (policy : Spm) (s : Kernel) (p : Ptr) (hcur : s.current = some p) (uid : UInt16)
    (huid : uid ≠ 0) (hok : (proc_setuid s p uid.toNat).2 = 0) :
    (StaysDropped policy (proc_setuid s p uid.toNat).1 p ↔ (s.mem p).caps &&& (CAP_SETUID ||| CAP_ADMIN) = 0) ∧
      ∀ t x, t.current = some p → (sys_setuid policy t x).2 = 0 →
        (((sys_setuid policy t x).1.mem p).uid = x.toUInt32.toNat ↔ x.toUInt32.toNat < 2 ^ 16) := by
  obtain ⟨-, hstate⟩ := proc_setuid_ok hok
  have hne : uid.toNat ≠ 0 := fun h => huid (UInt16.toNat_inj.mp h)
  constructor
  · rw [hstate]
    constructor
    · intro h
      by_contra hcaps
      refine absurd h (not_stays_dropped hcur ?_)
      rw [modify_mem]
      exact hcaps
    · intro hcaps calls
      have hdropped : Dropped p (s.modify p fun q => { q with uid := uid.toNat, euid := uid.toNat }) :=
        ⟨hcur, by rw [modify_mem]; exact hne, by rw [modify_mem]; exact hne, by rw [modify_mem]; exact hcaps⟩
      have hend : Dropped p (run (id_step policy) _ calls) := hdropped.run calls
      exact ⟨hend.uid, hend.euid⟩
  · intro t x ht hset
    rw [sys_setuid_stores ht hset]
    omega

/-- A root process with the capabilities `caps`. -/
def root_process (caps : UInt32) : Kernel := { boot with current := some 1, mem := fun _ => { caps } }

theorem drop_without_caps : ((root_process 0).current = some 1 ∧ (5 : UInt16) ≠ 0 ∧
      (proc_setuid (root_process 0) 1 (5 : UInt16).toNat).2 = 0) ∧
    (StaysDropped ⟨[], [], fun _ => ⟨0, false⟩⟩ (proc_setuid (root_process 0) 1 (5 : UInt16).toNat).1 1 ↔
        ((root_process 0).mem 1).caps &&& (CAP_SETUID ||| CAP_ADMIN) = 0) ∧
      ∀ t x, t.current = some 1 → (sys_setuid ⟨[], [], fun _ => ⟨0, false⟩⟩ t x).2 = 0 →
        (((sys_setuid ⟨[], [], fun _ => ⟨0, false⟩⟩ t x).1.mem 1).uid = x.toUInt32.toNat ↔ x.toUInt32.toNat < 2 ^ 16) :=
  ⟨⟨rfl, by decide, rfl⟩, stays_dropped_iff _ (root_process 0) 1 rfl 5 (by decide) rfl⟩

/-- With the capabilities that root starts with, the way back is open. -/
theorem root_after_drop : ¬∀ (policy : Spm) (s : Kernel) (p : Ptr), s.current = some p → ∀ uid : UInt16, uid ≠ 0 →
    (proc_setuid s p uid.toNat).2 = 0 → (∀ x, policy.spm_check uid.toUInt32 PERM_GRANT (Spm.uid_target x) = false) →
      StaysDropped policy (proc_setuid s p uid.toNat).1 p := by
  intro h
  have hdropped := h ⟨[], [], fun _ => ⟨0, false⟩⟩ (root_process CAP_ALL) 1 rfl 5 (by decide) rfl fun x => rfl
  exact (hdropped [.proc_setuid 1 0]).1 rfl

end graceos.proc
