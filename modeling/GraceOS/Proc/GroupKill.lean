import GraceOS.Proc.Death
import GraceOS.Proc.SessionIds

/-!
# Killing a group

`job_kill_csid` takes the first 64 processes of the group off the table in pid order, and kills
them one after the other. A caller that is one of them does not come back from its own death.
-/

namespace graceos.proc

open linkq machine List

variable {s : Kernel} {c p : Ptr}

theorem inert_uid : Inert Process.uid :=
  ⟨fun _ _ => rfl, fun _ _ _ => rfl, fun _ _ _ _ _ => rfl, fun _ _ _ => rfl⟩

/-! ## One death -/

/-- `proc_terminate` up to the switch away from a caller that is its own victim. -/
def terminated (s : Kernel) (p : Ptr) : Kernel :=
  let s := s.modify p fun q => { q with exit_signal := SIGKILL, exit_code := 0 }
  let s := proc_reparent_children s (s.mem p).pid
  let s := park s p .zombie
  sched_wake_parent s (s.mem p).pid

theorem proc_terminate_eq (s : Kernel) (p : Ptr) :
    proc_terminate s p SIGKILL = if (terminated s p).current = some p then schedule (terminated s p)
        else terminated s p :=
  rfl

theorem core_terminated (s : Kernel) (p : Ptr) : (terminated s p).core = s.core.apply (.park p .zombie) := by
  unfold terminated
  dsimp only
  rw [sched_wake_parent_eq, core_park, core_reparent, core_modify rfl]

theorem preempt_count_park (s : Kernel) (p : Ptr) (state : ProcState) : (park s p state).preempt_count =
    s.preempt_count := by
  have hforward : ∀ (s : Kernel) (p v : Option Ptr), (link_forward s p v).preempt_count = s.preempt_count := by
    intro s p v
    unfold link_forward
    split <;> rfl
  have hback : ∀ (s : Kernel) (p v : Option Ptr), (link_back s p v).preempt_count = s.preempt_count := by
    intro s p v
    unfold link_back
    split <;> rfl
  exact (hback _ _ _).trans (hforward _ _ _)

theorem preempt_count_terminated (s : Kernel) (p : Ptr) : (terminated s p).preempt_count = s.preempt_count := by
  have hreparent : ∀ (s : Kernel) (pid : Nat), (proc_reparent_children s pid).preempt_count = s.preempt_count := by
    intro s pid
    refine foldl_keep Kernel.preempt_count (fun s p => ?_) s s.procs
    split <;> rfl
  unfold terminated
  dsimp only
  rw [sched_wake_parent_eq, preempt_count_park, hreparent]
  rfl

theorem terminated_keeps {β : Type} {φ : Process → β} (h : Inert φ)
    (hexit : ∀ q exit_signal exit_code, φ { q with exit_signal, exit_code } = φ q) (s : Kernel) (p : Ptr) :
    Keeps φ s (terminated s p) :=
  (modify_keeps (hexit _ _ _)).trans (h.zombify _ p)

/-- The caller is root. -/
def Kernel.RootCalls (s : Kernel) (c : Ptr) : Prop := s.current = some c ∧ (s.mem c).uid = 0

theorem Kernel.RootCalls.terminated (h : s.RootCalls c) (p : Ptr) : (terminated s p).RootCalls c :=
  ⟨(congrArg Core.current (core_terminated s p)).trans h.1,
    ((terminated_keeps inert_uid (fun _ _ _ => rfl) s p).field c).trans h.2⟩

theorem kill_by_root (hs : s.core.Sound) (hroot : s.RootCalls c) (hp : s.core.Listed p) :
    proc_kill s (s.mem p).pid SIGKILL = (proc_terminate s p SIGKILL, 0) := by
  have hmay : may_signal s p = true := by simp [may_signal, hroot.1, hroot.2]
  simp [proc_kill, find_of_listed hs hp, hmay, deliver]

theorem kill_returns (hroot : s.RootCalls c) (hother : p ≠ c ∨ s.preempt_count ≠ 0) :
    proc_terminate s p SIGKILL = terminated s p := by
  rw [proc_terminate_eq]
  split
  · next hcur =>
    have hpc : p = c := Option.some.inj (hcur.symm.trans (hroot.terminated p).1)
    have hpreempt : (terminated s p).preempt_count ≠ 0 := by
      rw [preempt_count_terminated]
      exact hother.resolve_left (not_not.mpr hpc)
    rw [schedule, if_pos hpreempt]
  · rfl

/-! ## The deaths of the group -/

variable {l : List Ptr}

/-- After the deaths of the processes `l`. -/
structure Killed (c : Ptr) (l : List Ptr) (s s' : Kernel) : Prop where
  sound : s'.core.Sound
  root : s'.RootCalls c
  preempt : s'.preempt_count = s.preempt_count
  table : s'.proc_table = s.proc_table
  state : ∀ x, (s'.mem x).state = if x ∈ l then .zombie else (s.mem x).state

theorem Killed.one (hs : s.core.Sound) (hroot : s.RootCalls c) (p : Ptr) : Killed c [p] s (terminated s p) where
  sound := by
    rw [core_terminated]
    exact hs.park .zombie
  root := hroot.terminated p
  preempt := preempt_count_terminated s p
  table := congrArg Core.table (core_terminated s p)
  state x := by
    have hstate : ((terminated s p).mem x).state = Function.update s.core.state p .zombie x :=
      congrFun (congrArg Core.state (core_terminated s p)) x
    rw [hstate]
    by_cases hx : x = p
    · simp [hx]
    · simp [hx, Kernel.core]

theorem Killed.cons {l : List Ptr} {s' s'' : Kernel} (h : Killed c [p] s s') (h' : Killed c l s' s'') :
    Killed c (p :: l) s s'' where
  sound := h'.sound
  root := h'.root
  preempt := h'.preempt.trans h.preempt
  table := h'.table.trans h.table
  state x := by
    rw [h'.state, h.state]
    by_cases hl : x ∈ l
    · simp [hl]
    · simp [hl]

theorem Killed.listed {s' : Kernel} (h : Killed c l s s') (hp : s.core.Listed p) : s'.core.Listed p := by
  obtain ⟨pid, hpid⟩ := hp
  exact ⟨pid, (congrFun h.table pid).trans hpid⟩

theorem kill_each_cons (s : Kernel) (p : Ptr) (l : List Ptr) (hp : (proc_kill s (s.mem p).pid SIGKILL).2 = 0) :
    kill_each s (p :: l) SIGKILL = kill_each (proc_kill s (s.mem p).pid SIGKILL).1 l SIGKILL := by
  simp [kill_each, hp]

theorem kill_each_killed (hs : s.core.Sound) (hroot : s.RootCalls c) (hl : ∀ p ∈ l, s.core.Listed p)
    (hother : c ∉ l ∨ s.preempt_count ≠ 0) :
    Killed c l s (kill_each s l SIGKILL).1 ∧ (kill_each s l SIGKILL).2 = 0 := by
  induction l generalizing s with
  | nil => exact ⟨⟨hs, hroot, rfl, rfl, fun _ => rfl⟩, rfl⟩
  | cons p l ih =>
    have hp : p ≠ c ∨ s.preempt_count ≠ 0 := hother.imp_left fun hc hpc => hc (hpc ▸ mem_cons_self)
    have hkill : proc_kill s (s.mem p).pid SIGKILL = (terminated s p, 0) := by
      rw [kill_by_root hs hroot (hl p mem_cons_self), kill_returns hroot hp]
    have hone := Killed.one hs hroot p
    have hrest := ih hone.sound hone.root (fun q hq => hone.listed (hl q (mem_cons_of_mem _ hq)))
      (hother.imp (fun hc hmem => hc (mem_cons_of_mem _ hmem)) fun hpre => hone.preempt ▸ hpre)
    rw [kill_each_cons s p l (by rw [hkill]), hkill]
    exact ⟨hone.cons hrest.1, hrest.2⟩

/-! ## A caller that kills itself -/

/-- The process is dead and another one has the processor. -/
structure Core.Gone (c : Ptr) (k : Core) : Prop where
  sound : k.Sound
  listed : k.Listed c
  zombie : k.state c = .zombie
  current : k.current ≠ some c

/-- What killing processes makes them do. -/
def Move.Kills : Move → Prop
  | .park _ state => state = .zombie
  | .dispatch _ => True
  | _ => False

theorem Core.Gone.apply {k : Core} {m : Move} (h : k.Gone c) (hlegal : k.Legal m) (hkills : m.Kills) :
    (k.apply m).Gone c := by
  cases m with
  | park p state =>
    obtain rfl : state = .zombie := hkills
    refine ⟨h.sound.apply hlegal, h.listed, ?_, h.current⟩
    exact zombie_apply h.sound h.listed h.zombie hlegal (fun _ => rfl) (by simp)
  | dispatch p =>
    refine ⟨h.sound.apply hlegal, h.listed, ?_, ?_⟩
    · exact zombie_apply h.sound h.listed h.zombie hlegal trivial (by simp)
    · intro hc
      obtain rfl : p = c := Option.some.inj hc
      rcases hlegal with hidle | ⟨hready, -⟩
      · exact h.sound.ne_idle h.listed hidle
      · rw [h.zombie] at hready
        cases hready
  | _ => exact absurd hkills id

theorem Core.Gone.of_moves {k k' : Core} (h : k.Gone c) (hmoves : Moves (fun _ m => m.Kills) k k') : k'.Gone c :=
  hmoves.invariant (fun _ _ hk hlegal hkills => Core.Gone.apply hk hlegal hkills) h

theorem proc_kill_kills (s : Kernel) (pid : Nat) : Moves (fun _ m => m.Kills) s.core (proc_kill s pid SIGKILL).1.core :=
  proc_kill_moves (fun _ _ => trivial) fun _ _ _ => by simp [AllowsSignal, SIGKILL, SIGSTOP, SIGCONT, Move.Kills]

theorem kill_each_kills (s : Kernel) (l : List Ptr) : Moves (fun _ m => m.Kills) s.core
    (kill_each s l SIGKILL).1.core := by
  rw [kill_each_eq]
  exact moves_run (P := fun _ _ => True) (fun s p _ => proc_kill_kills s _) (Along.of_forall (fun _ _ => trivial) l)

theorem gone_of_suicide (hs : s.core.Sound) (hroot : s.RootCalls c) (hc : s.core.Listed c)
    (hpreempt : s.preempt_count = 0) :
    (proc_kill s (s.mem c).pid SIGKILL).1.core.Gone c := by
  have hone := Killed.one hs hroot c
  have hzombie : (terminated s c).core.state c = .zombie := by
    have hstate := hone.state c
    rwa [if_pos mem_cons_self] at hstate
  have hkill : (proc_kill s (s.mem c).pid SIGKILL).1 = schedule (terminated s c) := by
    rw [kill_by_root hs hroot hc, proc_terminate_eq, if_pos hone.root.1]
  rw [hkill, core_schedule (hone.preempt.trans hpreempt)]
  have hlegal : (terminated s c).core.Legal (.dispatch (sched_pick (terminated s c))) :=
    (sched_pick_cases _).imp id fun h => h
  have hlisted := hone.listed hc
  refine ⟨hone.sound.apply hlegal, hlisted, zombie_apply hone.sound hlisted hzombie hlegal trivial (by simp), ?_⟩
  intro hcur
  have hpick : sched_pick (terminated s c) = c := Option.some.inj hcur
  rcases sched_pick_cases (terminated s c) with hidle | ⟨hready, -⟩
  · exact hone.sound.ne_idle hlisted (hpick.symm.trans hidle)
  · rw [hpick] at hready
    have hstate : ((terminated s c).mem c).state = .zombie := hzombie
    rw [hready] at hstate
    cases hstate

theorem kill_each_gone (hs : s.core.Sound) (hroot : s.RootCalls c) (hl : ∀ p ∈ l, s.core.Listed p)
    (hpreempt : s.preempt_count = 0) (hc : c ∈ l) : (kill_each s l SIGKILL).1.core.Gone c := by
  induction l generalizing s with
  | nil => cases hc
  | cons p l ih =>
    have hkill := kill_by_root hs hroot (hl p mem_cons_self)
    rw [kill_each_cons s p l (by rw [hkill])]
    by_cases hpc : p = c
    · subst hpc
      exact (gone_of_suicide hs hroot (hl p mem_cons_self) hpreempt).of_moves (kill_each_kills _ l)
    · rw [hkill, kill_returns hroot (.inl hpc)]
      have hone := Killed.one hs hroot p
      exact ih hone.sound hone.root (fun q hq => hone.listed (hl q (mem_cons_of_mem _ hq)))
        (hone.preempt.trans hpreempt) ((List.mem_cons.mp hc).resolve_left (Ne.symm hpc))

/-! ## The group -/

variable {csid : Nat}

/-- The processes with this csid. -/
def Kernel.group (s : Kernel) (csid : Nat) : List Ptr := s.procs.filter fun p => (s.mem p).csid = csid

theorem mem_group : p ∈ s.group csid ↔ p ∈ s.procs ∧ (s.mem p).csid = csid := by
  simp [Kernel.group]

theorem group_listed (hp : p ∈ (s.group csid).take 64) : s.core.Listed p :=
  listed_of_mem_procs (mem_group.mp (mem_of_mem_take hp)).1

theorem Core.Sound.group_nodup (hs : s.core.Sound) (csid : Nat) : (s.group csid).Nodup := by
  refine (List.nodup_range.filterMap fun i j p hi hj => ?_).filter _
  exact (hs.slots i p hi).2.2.1.symm.trans (hs.slots j p hj).2.2.1

/-- Nothing is left to kill. -/
def Process.gone (q : Process) : Prop := q.state = .zombie ∨ q.state = .dead

instance (q : Process) : Decidable q.gone := inferInstanceAs (Decidable (_ ∨ _))

/-- The call returns 0 to its caller, with every process of the group gone and every other one that does
not wait for a process of the group in the state it was in. -/
def KillsGroup (s : Kernel) (csid : Nat) : Prop :=
  (job_kill_csid s csid SIGKILL).2 = 0 ∧ (job_kill_csid s csid SIGKILL).1.current = s.current ∧
  (∀ p ∈ (job_kill_csid s csid SIGKILL).1.group csid, ((job_kill_csid s csid SIGKILL).1.mem p).gone) ∧
  ∀ p ∈ (job_kill_csid s csid SIGKILL).1.procs, p ∉ (job_kill_csid s csid SIGKILL).1.group csid →
    (∀ q ∈ s.group csid, (s.mem q).parent = (s.mem p).pid → ¬s.AwaitsChild p (s.mem q).pid) →
    ((job_kill_csid s csid SIGKILL).1.mem p).state = (s.mem p).state

theorem job_kill_csid_procs (hmember : (s.group csid).take 64 ≠ []) :
    (job_kill_csid s csid SIGKILL).2 = (kill_each s ((s.group csid).take 64) SIGKILL).2 ∧
    (job_kill_csid s csid SIGKILL).1.mem = (kill_each s ((s.group csid).take 64) SIGKILL).1.mem ∧
    (job_kill_csid s csid SIGKILL).1.core = (kill_each s ((s.group csid).take 64) SIGKILL).1.core := by
  have hgroup : proc_get_csid_group s csid 64 = (s.group csid).take 64 := rfl
  unfold job_kill_csid
  rw [hgroup]
  split
  · next hnone => exact absurd hnone hmember
  · dsimp only
    split <;> exact ⟨rfl, rfl, rfl⟩

theorem job_kill_csid_none (hnone : s.group csid = []) : job_kill_csid s csid SIGKILL = (s, -1) := by
  have hgroup : proc_get_csid_group s csid 64 = [] := by
    unfold proc_get_csid_group
    rw [show (s.procs.filter fun p => (s.mem p).csid = csid) = [] from hnone, take_nil]
  rw [job_kill_csid, hgroup]

theorem job_kill_csid_killed (hs : s.core.Sound) (hroot : s.RootCalls c)
    (hmember : (s.group csid).take 64 ≠ []) (hother : c ∉ (s.group csid).take 64 ∨ s.preempt_count ≠ 0) :
    (job_kill_csid s csid SIGKILL).2 = 0 ∧ (job_kill_csid s csid SIGKILL).1.current = s.current ∧
    (job_kill_csid s csid SIGKILL).1.procs = s.procs ∧
    ∀ p, ((job_kill_csid s csid SIGKILL).1.mem p).state =
      if p ∈ (s.group csid).take 64 then .zombie else (s.mem p).state := by
  have hlisted : ∀ p ∈ (s.group csid).take 64, s.core.Listed p := fun p hp =>
    listed_of_mem_procs (mem_group.mp (mem_of_mem_take hp)).1
  obtain ⟨hkilled, hzero⟩ := kill_each_killed hs hroot hlisted hother
  obtain ⟨hresult, hmem, hcore⟩ := job_kill_csid_procs hmember
  have htable : (job_kill_csid s csid SIGKILL).1.proc_table = s.proc_table :=
      (congrArg Core.table hcore).trans hkilled.table
  refine ⟨hresult.trans hzero, ?_, ?_, fun p => ?_⟩
  · exact (congrArg Core.current hcore).trans (hkilled.root.1.trans hroot.1.symm)
  · rw [Kernel.procs, Kernel.procs, htable]
  · rw [hmem]
    exact hkilled.state p

theorem group_kept (hprocs : (job_kill_csid s csid SIGKILL).1.procs = s.procs) :
    (job_kill_csid s csid SIGKILL).1.group csid = s.group csid := by
  simp only [Kernel.group, hprocs, (job_kill_csid_keeps s csid SIGKILL).field]

theorem KillsGroup.gone_behind (h : KillsGroup s csid) (hs : s.core.Sound) (hroot : s.RootCalls c)
    (hmember : s.group csid ≠ []) (hother : c ∉ (s.group csid).take 64 ∨ s.preempt_count ≠ 0)
    (hp : p ∈ (s.group csid).drop 64) :
    (s.mem p).gone := by
  obtain ⟨-, -, hprocs, hstate⟩ := job_kill_csid_killed hs hroot (by simpa using hmember) hother
  have hgone := h.2.2.1 p (group_kept hprocs ▸ mem_of_mem_drop hp)
  have hbehind : p ∉ (s.group csid).take 64 := fun hfirst =>
    disjoint_take_drop (hs.group_nodup csid) (Nat.le_refl 64) hfirst hp
  rwa [Process.gone, hstate, if_neg hbehind] at hgone

theorem KillsGroup.not_member (h : KillsGroup s csid) (hs : s.core.Sound) (hroot : s.RootCalls c)
    (hpreempt : s.preempt_count = 0) : c ∉ (s.group csid).take 64 := by
  intro hc
  have hgone := kill_each_gone hs hroot (fun p hp => group_listed hp) hpreempt hc
  have hcore := congrArg Core.current (job_kill_csid_procs (ne_nil_of_mem hc)).2.2
  exact hgone.current (hcore.symm.trans (h.2.1.trans hroot.1))

/-- A group kill by root reaches the whole group, leaves the others alone and comes back if and only if the
group has members, the caller is not among the first 64 of them unless preemption is disabled, and those
behind the first 64 are gone already. -/
theorem kills_group_iff (s : Kernel) (c : Ptr) (csid : Nat) (hs : s.core.Sound) (hroot : s.RootCalls c) :
    KillsGroup s csid ↔ s.group csid ≠ [] ∧ (c ∉ (s.group csid).take 64 ∨ s.preempt_count ≠ 0) ∧
      ∀ p ∈ (s.group csid).drop 64, (s.mem p).gone := by
  constructor
  · intro h
    have hmember : s.group csid ≠ [] := by
      intro hnone
      have hzero := h.1
      rw [job_kill_csid_none hnone] at hzero
      cases hzero
    have hother : c ∉ (s.group csid).take 64 ∨ s.preempt_count ≠ 0 := by
      by_cases hpreempt : s.preempt_count = 0
      · exact .inl (h.not_member hs hroot hpreempt)
      · exact .inr hpreempt
    exact ⟨hmember, hother, fun p hp => h.gone_behind hs hroot hmember hother hp⟩
  · rintro ⟨hmember, hother, hrest⟩
    obtain ⟨hzero, hcur, hprocs, hstate⟩ := job_kill_csid_killed hs hroot (by simpa using hmember) hother
    refine ⟨hzero, hcur, fun p hp => ?_, fun p _ hp _ => ?_⟩
    · rw [group_kept hprocs, ← take_append_drop 64 (s.group csid)] at hp
      rw [Process.gone, hstate]
      split
      · exact .inl rfl
      · next hbehind => exact hrest p ((List.mem_append.mp hp).resolve_left hbehind)
    · rw [group_kept hprocs] at hp
      rw [hstate, if_neg fun hmem => hp (mem_of_mem_take hmem)]

/-- A table with the processes 1 to `n`, all of one group, and a root process of another. -/
def crowd (n : Nat) : Kernel :=
  { proc_table_init with
    mem := fun p => { pid := p, csid := if p = 100 then 0 else 1 }
    heap := 100 :: List.range' 1 n
    proc_table := fun pid => if pid = 100 then some 100 else if 1 ≤ pid ∧ pid ≤ n then some pid else none
    current := some 100 }

theorem crowd_sound {n : Nat} (hn : n < 100) : (crowd n).core.Sound := by
  have happart : ∀ p, (crowd n).core.Apart p := fun _ => ⟨rfl, fun h => by cases h⟩
  have hmax : MAX_PROC = 8192 := by decide +kernel
  refine ⟨fun pid p hp => ?_, ?_, ⟨Nat.le_refl 1, ?_⟩, ⟨fun _ _ hxy => (by cases hxy), fun _ h => (by cases h)⟩,
    fun p _ => happart p, fun p _ => happart p⟩
  · have hslot : (if pid = 100 then some 100 else if 1 ≤ pid ∧ pid ≤ n then some pid else none) = some p := hp
    obtain ⟨rfl, hrange⟩ : p = pid ∧ (pid = 100 ∨ 1 ≤ pid ∧ pid ≤ n) := by grind
    have hheap : p ∈ 100 :: List.range' 1 n := by
      rw [mem_cons, List.mem_range'_1]
      exact hrange.imp_right fun ⟨hlow, hhigh⟩ => ⟨hlow, Nat.lt_one_add_iff.mpr hhigh⟩
    exact ⟨by omega, by omega, rfl, hheap⟩
  · change idle_proc ∉ 100 :: List.range' 1 n
    simp [idle_proc]
  · change 1 ≤ MAX_PROC
    omega

theorem crowd_root (n : Nat) : (crowd n).RootCalls 100 := ⟨rfl, rfl⟩

theorem couple_killed : (crowd 2).core.Sound ∧ (crowd 2).RootCalls 100 ∧ (KillsGroup (crowd 2) 1 ↔
    (crowd 2).group 1 ≠ [] ∧ (100 ∉ ((crowd 2).group 1).take 64 ∨ (crowd 2).preempt_count ≠ 0) ∧
      ∀ p ∈ ((crowd 2).group 1).drop 64, ((crowd 2).mem p).gone) :=
  ⟨crowd_sound (by decide), crowd_root 2, kills_group_iff (crowd 2) 100 1 (crowd_sound (by decide)) (crowd_root 2)⟩

/-- The process with the 65th pid of the group survives. -/
theorem crowd_survivor : ¬∀ (s : Kernel) (c : Ptr) (csid : Nat), s.core.Sound → s.RootCalls c →
    s.group csid ≠ [] → KillsGroup s csid := by
  intro h
  have hgroup : (crowd 65).group 1 = List.range' 1 65 := by decide +kernel
  have hmember : (crowd 65).group 1 ≠ [] := by
    rw [hgroup]
    decide
  have hkills := h (crowd 65) 100 1 (crowd_sound (by decide)) (crowd_root 65) hmember
  have hlast : (65 : Nat) ∈ ((crowd 65).group 1).drop 64 := by
    rw [hgroup]
    decide
  have hcaller : (100 : Nat) ∉ ((crowd 65).group 1).take 64 := by
    rw [hgroup]
    decide
  have hgone := hkills.gone_behind (crowd_sound (by decide)) (crowd_root 65) hmember (.inl hcaller) hlast
  rcases hgone with hzombie | hdead
  · cases hzombie
  · cases hdead

end graceos.proc
