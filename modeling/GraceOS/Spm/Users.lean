import GraceOS.Spm.Policy
import Mathlib.Algebra.Order.Ring.Int

/-!
# Users and passwords

Runs of `spm_add_user`, `spm_set_password` and `spm_auth_user`. Names and passwords are cut when they are stored and
compared in full, so users and passwords are told apart as long as nothing is stored that was cut to something else.
-/

namespace graceos.spm

namespace Spm

def spm_auth_user (s : Spm) (uid : UInt32) (password : List UInt8) : Int :=
  match s.spm_find_user uid with
  | none => -1
  | some u => if u.password = password then 0 else -1

/-- A call on the user table. -/
inductive UserCall where
  | add_user (uid : UInt32) (name : List UInt8)
  | set_password (uid : UInt32) (password : List UInt8)
  | auth_user (uid : UInt32) (password : List UInt8)

def user_call (s : Spm) : UserCall → Int × Spm
  | .add_user uid name => s.spm_add_user uid name
  | .set_password uid password => s.spm_set_password uid password
  | .auth_user uid password => (s.spm_auth_user uid password, s)

def user_calls (s : Spm) (calls : List UserCall) : Spm := calls.foldl (fun s call => (s.user_call call).2) s

/-- The passwords that were set last, behind one more call. -/
def remember (s : Spm) (last : UInt32 → List UInt8) : UserCall → UInt32 → List UInt8
  | .set_password uid password => if (s.spm_set_password uid password).1 = 0 then Function.update last uid
      password else last
  | .add_user _ _ => last
  | .auth_user _ _ => last

def last_passwords (s : Spm) (last : UInt32 → List UInt8) : List UserCall → UInt32 → List UInt8
  | [] => last
  | call :: calls => (s.user_call call).2.last_passwords (s.remember last call) calls

/-- The call stores nothing that is cut: the name of a new user fits or is not the cut name of another, and the password
of a user fits. -/
def Uncut (s : Spm) : UserCall → Prop
  | .add_user uid name => name.length < SPM_NAME_MAX ∨ SPM_MAX_USERS ≤ s.users.length ∨
      (s.spm_find_user uid).isSome = true ∨ ∀ u ∈ s.users, u.active = true → u.name ≠ strncpy name SPM_NAME_MAX
  | .set_password uid password => password.length < SPM_PASS_MAX ∨ s.spm_find_user uid = none
  | .auth_user _ _ => True

def AllUncut (s : Spm) : List UserCall → Prop
  | [] => True
  | call :: calls => s.Uncut call ∧ (s.user_call call).2.AllUncut calls

/-- The users are told apart, and their passwords are those that were set last. -/
structure UsersKept (s : Spm) (last : UInt32 → List UInt8) : Prop where
  active : ∀ u ∈ s.users, u.active = true
  apart : s.users.Pairwise fun u v => u.uid ≠ v.uid ∧ u.name ≠ v.name
  password : ∀ u ∈ s.users, u.password = last u.uid
  unset : ∀ uid, s.spm_find_user uid = none → last uid = []

/-! ## Searching the table -/

section Find

variable {s : Spm} {last : UInt32 → List UInt8}

theorem strncpy_of_lt {src : List UInt8} {max : Nat} (hlt : src.length < max) : strncpy src max = src :=
  List.take_of_length_le (by omega)

theorem find_some {uid : UInt32} {u : SpmUser} (h : s.spm_find_user uid = some u) : u ∈ s.users ∧ u.uid = uid := by
  have hmatch := List.find?_some h
  rw [Bool.and_eq_true, beq_iff_eq] at hmatch
  exact ⟨List.mem_of_find?_eq_some h, hmatch.2⟩

theorem find_none_iff (hactive : ∀ u ∈ s.users, u.active = true) (uid : UInt32) :
    s.spm_find_user uid = none ↔ ∀ u ∈ s.users, u.uid ≠ uid := by
  rw [spm_find_user, List.find?_eq_none]
  refine forall₂_congr fun u hu => ?_
  rw [hactive u hu, Bool.true_and, beq_iff_eq]

theorem UsersKept.auth_iff (h : s.UsersKept last) (uid : UInt32) (q : List UInt8) :
    s.spm_auth_user uid q = 0 ↔ (s.spm_find_user uid).isSome = true ∧ q = last uid := by
  rw [spm_auth_user]
  cases hfind : s.spm_find_user uid with
  | none => exact ⟨fun h => absurd (show (-1 : Int) = 0 from h) (by decide), fun h => absurd h.1 (by decide)⟩
  | some u =>
    obtain ⟨hu, rfl⟩ := find_some hfind
    have hpassword := h.password u hu
    dsimp only
    by_cases heq : u.password = q
    · rw [if_pos heq]
      exact ⟨fun _ => ⟨rfl, heq.symm.trans hpassword⟩, fun _ => rfl⟩
    · rw [if_neg heq]
      exact ⟨fun h => absurd (show (-1 : Int) = 0 from h) (by decide), fun h => absurd (hpassword.trans h.2.symm) heq⟩

/-! ## What a call does -/

theorem UsersKept.add_user (h : s.UsersKept last) {uid : UInt32} {name : List UInt8}
    (huncut : s.Uncut (.add_user uid name)) : (s.spm_add_user uid name).2.UsersKept last := by
  unfold spm_add_user
  by_cases hempty : name = []
  · rw [if_pos hempty]
    exact h
  rw [if_neg hempty]
  by_cases hfull : s.users.length ≥ SPM_MAX_USERS
  · rw [if_pos hfull]
    exact h
  rw [if_neg hfull]
  by_cases hfound : (s.spm_find_user uid).isSome = true
  · rw [if_pos hfound]
    exact h
  rw [if_neg hfound]
  by_cases htaken : (s.users.any fun u => u.active && u.name == name) = true
  · rw [if_pos htaken]
    exact h
  rw [if_neg htaken]
  have hnone : s.spm_find_user uid = none := Option.not_isSome_iff_eq_none.mp hfound
  have huid := (find_none_iff h.active uid).mp hnone
  have hname : ∀ u ∈ s.users, u.name ≠ strncpy name SPM_NAME_MAX := by
    intro u hu
    obtain hshort | hroom | hnew | hcut := huncut
    · rintro heq
      rw [strncpy_of_lt hshort] at heq
      refine htaken (List.any_eq_true.mpr ⟨u, hu, ?_⟩)
      rw [h.active u hu, Bool.true_and, beq_iff_eq]
      exact heq
    · exact absurd hroom hfull
    · exact absurd hnew hfound
    · exact hcut u hu (h.active u hu)
  refine ⟨?_, ?_, ?_, ?_⟩
  · rw [List.forall_mem_append]
    exact ⟨h.active, by simp⟩
  · rw [List.pairwise_append]
    refine ⟨h.apart, List.pairwise_singleton _ _, fun u hu v hv => ?_⟩
    obtain rfl := List.mem_singleton.mp hv
    exact ⟨huid u hu, hname u hu⟩
  · rw [List.forall_mem_append]
    refine ⟨h.password, List.forall_mem_singleton.mpr ?_⟩
    exact (h.unset uid hnone).symm
  · intro uid' hnone'
    refine h.unset uid' ?_
    rw [spm_find_user, List.find?_append, Option.or_eq_none_iff] at hnone'
    exact hnone'.1

theorem set_password_eq_map {users : List SpmUser} (hactive : ∀ u ∈ users, u.active = true)
    (hapart : users.Pairwise fun u v => u.uid ≠ v.uid ∧ u.name ≠ v.name) (uid : UInt32) (password : List UInt8) :
    set_password uid password users =
      users.map fun u => if u.uid = uid then { u with password := strncpy password SPM_PASS_MAX } else u := by
  induction users with
  | nil => rfl
  | cons u users ih =>
    obtain ⟨hu, hrest⟩ := List.forall_mem_cons.mp hactive
    obtain ⟨hhead, htail⟩ := List.pairwise_cons.mp hapart
    rw [set_password, List.map_cons, hu, Bool.true_and]
    by_cases huid : u.uid = uid
    · have hsame :
        (users.map fun v => if v.uid = uid then { v with password := strncpy password SPM_PASS_MAX } else v) =
          users := by
        refine (List.map_congr_left fun v hv => ?_).trans (List.map_id users)
        rw [if_neg fun heq => (hhead v hv).1 (huid.trans heq.symm)]
        rfl
      rw [if_pos (beq_iff_eq.mpr huid), if_pos huid, hsame]
    · rw [if_neg (mt beq_iff_eq.mp huid), if_neg huid, ih hrest htail]

theorem UsersKept.set_password (h : s.UsersKept last) {uid : UInt32} {password : List UInt8}
    (huncut : s.Uncut (.set_password uid password)) :
    (s.spm_set_password uid password).2.UsersKept (s.remember last (.set_password uid password)) := by
  by_cases hnone : (s.spm_find_user uid).isNone = true
  · have hfail : s.spm_set_password uid password = (-1, s) := if_pos hnone
    rw [remember, hfail, if_neg (show (-1 : Int) ≠ 0 by decide)]
    exact h
  have hshort : password.length < SPM_PASS_MAX := by
    refine huncut.resolve_right fun hnot => hnone ?_
    rw [hnot]
    rfl
  have hset : s.spm_set_password uid password =
      (0, { s with users := s.users.map fun u => if u.uid = uid then { u with password := password } else u }) := by
    rw [spm_set_password, if_neg hnone, set_password_eq_map h.active h.apart, strncpy_of_lt hshort]
  rw [remember, hset, if_pos rfl]
  have huids : ∀ u : SpmUser, (if u.uid = uid then { u with password := password } else u).uid = u.uid := fun u => by
    split <;> rfl
  have hnames : ∀ u : SpmUser, (if u.uid = uid then { u with password := password } else u).name = u.name := fun u => by
    split <;> rfl
  have hactives : ∀ u : SpmUser, (if u.uid = uid then { u with password := password } else u).active = u.active :=
    fun u => by split <;> rfl
  have hactive : ∀ v ∈ s.users.map fun u => if u.uid = uid then { u with password := password } else u,
      v.active = true := by
    intro v hv
    obtain ⟨u, hu, rfl⟩ := List.mem_map.mp hv
    rw [hactives, h.active u hu]
  refine ⟨hactive, ?_, ?_, ?_⟩
  · rw [List.pairwise_map]
    refine h.apart.imp fun hne => ?_
    rw [huids, huids, hnames, hnames]
    exact hne
  · intro v hv
    obtain ⟨u, hu, rfl⟩ := List.mem_map.mp hv
    by_cases huid : u.uid = uid
    · rw [if_pos huid]
      dsimp only
      rw [huid, Function.update_self]
    · rw [if_neg huid, Function.update_of_ne huid]
      exact h.password u hu
  · intro uid' hnone'
    have hall := (find_none_iff hactive uid').mp hnone'
    have hne : uid' ≠ uid := by
      rintro rfl
      refine hnone (Option.isNone_iff_eq_none.mpr ((find_none_iff h.active uid').mpr fun u hu => ?_))
      rw [← huids u]
      exact hall _ (List.mem_map_of_mem hu)
    rw [Function.update_of_ne hne]
    refine h.unset uid' ((find_none_iff h.active uid').mpr fun u hu => ?_)
    rw [← huids u]
    exact hall _ (List.mem_map_of_mem hu)

theorem UsersKept.user_call (h : s.UsersKept last) {call : UserCall} (huncut : s.Uncut call) :
    (s.user_call call).2.UsersKept (s.remember last call) := by
  cases call with
  | add_user uid name => exact h.add_user huncut
  | set_password uid password => exact h.set_password huncut
  | auth_user uid password => exact h

theorem UsersKept.user_calls (h : s.UsersKept last) {calls : List UserCall} (huncut : s.AllUncut calls) :
    (s.user_calls calls).UsersKept (s.last_passwords last calls) := by
  induction calls generalizing s last with
  | nil => exact h
  | cons call calls ih =>
    obtain ⟨hcall, hrest⟩ := huncut
    exact ih (h.user_call hcall) hrest

end Find

/-- In a run that stores nothing cut, active users are told apart and exactly the last password is accepted. -/
theorem users_told_apart (s : Spm) (hs : s.users = []) (calls : List UserCall) (huncut : s.AllUncut calls) :
    (((s.user_calls calls).users.filter (·.active)).Pairwise fun u v => u.uid ≠ v.uid ∧ u.name ≠ v.name) ∧
    ∀ uid q, (s.user_calls calls).spm_auth_user uid q = 0 ↔
      ((s.user_calls calls).spm_find_user uid).isSome = true ∧ q = s.last_passwords (fun _ => []) calls uid := by
  have hstart : s.UsersKept fun _ => [] := by
    refine ⟨?_, ?_, ?_, fun _ _ => rfl⟩
    · rw [hs]
      exact fun u hu => absurd hu (by simp)
    · rw [hs]
      exact List.Pairwise.nil
    · rw [hs]
      exact fun u hu => absurd hu (by simp)
  have h := hstart.user_calls huncut
  exact ⟨h.apart.sublist List.filter_sublist, h.auth_iff⟩

/-- Empty tables. -/
def empty_tables : Spm := ⟨[], [], fun _ => ⟨0, false⟩⟩

/-- Two users, one with a password. -/
def two_users : List UserCall :=
  [.add_user 0 [114], .add_user 7 (List.replicate 70 97), .set_password 7 [112, 119]]

theorem users_told_apart_two : (empty_tables.user_calls two_users).spm_auth_user 7 [112, 119] = 0 ∧
    (empty_tables.user_calls two_users).spm_auth_user 0 [112] ≠ 0 := by
  have huncut : empty_tables.AllUncut two_users := by
    refine ⟨.inl (by decide), .inr (.inr (.inr ?_)), .inl (by decide), trivial⟩
    decide
  have h := (users_told_apart empty_tables rfl two_users huncut).2
  exact ⟨(h 7 [112, 119]).mpr ⟨by decide, by decide⟩, fun hzero => absurd ((h 0 [112]).mp hzero).2 (by decide)⟩

/-- Two long names that differ behind the cut, and a long password. -/
def cut_users : List UserCall :=
  [.add_user 1 (List.replicate 63 97 ++ [98]), .add_user 2 (List.replicate 63 97 ++ [99]),
    .set_password 1 (List.replicate 64 112)]

theorem users_cut : ¬ (((empty_tables.user_calls cut_users).users.filter (·.active)).Pairwise
      fun u v => u.uid ≠ v.uid ∧ u.name ≠ v.name) ∧
    empty_tables.last_passwords (fun _ => []) cut_users 1 = List.replicate 64 112 ∧
    (empty_tables.user_calls cut_users).spm_auth_user 1 (List.replicate 64 112) = -1 ∧
    (empty_tables.user_calls cut_users).spm_auth_user 1 (List.replicate 63 112) = 0 := by
  decide

end Spm

end graceos.spm
