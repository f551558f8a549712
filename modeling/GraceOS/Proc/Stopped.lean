import GraceOS.Proc.Death

/-!
# Stopped and sleeping processes

`SIGSTOP` and `sys_sleep` share the state `PROC_BLOCKED`. What tells them apart is the deadline in
`sleep_until`, which the timer looks at without asking who blocked the process, and which `SIGCONT`
does not look at.
-/

namespace graceos.proc

open linkq machine

/-- The process is neither ready nor running, and sleeps until `time`. -/
def Core.Asleep (c : Core) (p : Ptr) (time : UInt64) : Prop := c.Dormant p ∧ c.sleep_until p = time

/-- The move neither readies the process nor changes the time it sleeps until. -/
def Move.Leaves (p : Ptr) : Move → Prop
  | .ready q | .yield q | .sleep q _ => q ≠ p
  | _ => True

variable {p : Ptr}

theorem Core.Asleep.apply {c : Core} {time : UInt64} {m : Move} (h : c.Asleep p time)
    (hs : c.Sound) (hlisted : c.Listed p) (hlegal : c.Legal m) (hleaves : m.Leaves p) :
    (c.apply m).Asleep p time := by
  have hquiet : m.Quiet p := by
    cases m with
    | ready q | yield q => exact hleaves
    | _ => trivial
  refine ⟨h.1.apply (hs.ne_idle hlisted) hlegal hquiet, ?_⟩
  have hheap := hs.mem_heap hlisted
  cases m with
  | sleep q time => simpa [Core.apply, Ne.symm hleaves] using h.2
  | wipe q | spawn q slot =>
    have hq : p ≠ q := by
      rintro rfl
      exact hlegal.1 hheap
    simpa [Core.apply, hq] using h.2
  | _ => exact h.2

/-! ## Calls that leave a process asleep -/

variable {s : Kernel} {pid : Nat}

/-- A signal to this pid does not continue the process `p`. -/
def KillLeaves (p : Ptr) (signal : Int) (s : Kernel) (pid : Nat) : Prop :=
  signal = SIGCONT → may_signal s p → proc_find s pid ≠ some p

/-- The call does not wake the process `p`: it is not the target of a `SIGCONT`, of
`proc_set_ready` or of `sched_unblock`, and does not itself yield or sleep anew. -/
def Leaves (p : Ptr) (s : Kernel) : Op → Prop
  | .proc_set_ready pid | .sched_unblock pid => proc_find s pid ≠ some p
  | .sched_yield => s.current ≠ some p
  | .sys_sleep ms => 0 < ms → s.current ≠ some p
  | .proc_kill pid signal => KillLeaves p signal s pid
  | .job_kill_csid csid signal => SignalsGroup (KillLeaves p) s csid signal
  | .job_kill_num job_num signal => ∀ slot, job_find_by_num s job_num = some slot →
    SignalsGroup (KillLeaves p) s (s.jobs slot).csid signal
  | .job_fg job_num | .job_bg job_num => ResumesJob (KillLeaves p) s job_num
  | _ => True

theorem KillLeaves.allows {op : Op} {signal : Int} (h : KillLeaves p signal s pid) :
    AllowsKill (During op fun _ m => m.Leaves p) signal s pid := by
  intro q hq hmay
  unfold AllowsSignal
  split
  · trivial
  · split
    · next hcont =>
      rintro - rfl
      exact absurd hq (h hcont hmay)
    · trivial

theorem Leaves.allows {op : Op} (hs : s.core.Sound)
    (hlisted : s.core.Listed p) (hexpired : ¬ s.expired p) (h : Leaves p s op) :
    Allows (During op fun _ m => m.Leaves p) s op := by
  have hgroup : ∀ {op s csid signal}, SignalsGroup (KillLeaves p) s csid signal →
      SignalsGroup (AllowsKill (During op fun _ m => m.Leaves p)) s csid signal := fun h =>
    h.imp fun _ _ hkill => hkill.allows
  have htick : ∀ q, s.expired q → q ≠ p := by
    rintro q hq rfl
    exact hexpired hq
  have hnew : ∀ {parent a s' child}, proc_create s parent a = (s', some child) → child ≠ p := by
    rintro parent a s' child hcreate rfl
    exact (created_listed hs hcreate).2.2 (hs.mem_heap hlisted)
  have hcurrent : ∀ {c : Ptr}, s.current ≠ some p → s.current = some c → c ≠ p := by
    rintro c hne hc rfl
    exact hne hc
  cases op with
  | proc_create parent a => exact fun _ _ => ⟨rfl, fun _ => rfl⟩
  | proc_set_ready pid =>
    rintro q hq rfl
    exact h hq
  | proc_set_blocked pid | proc_invalidate pid => exact fun _ _ => trivial
  | proc_set_zombie pid code => exact fun _ _ => trivial
  | proc_terminate pid signal => exact fun _ _ => trivial
  | proc_fork a => exact ⟨fun _ _ => ⟨rfl, fun _ => rfl⟩, fun _ _ _ _ hcreate => hnew hcreate⟩
  | proc_vfork a =>
    exact ⟨fun _ _ => ⟨rfl, fun _ => rfl⟩, fun _ _ _ _ hcreate => ⟨trivial, hnew hcreate⟩⟩
  | proc_exit code => exact fun _ _ _ _ => trivial
  | proc_reap_zombies => exact fun _ _ => rfl
  | proc_wait pid options | proc_wait_resume pid options =>
    exact ⟨fun _ _ => rfl, fun _ _ _ => trivial⟩
  | sched_yield => exact fun c hc => hcurrent h hc
  | sched_block | sched_sleep => exact fun _ _ => trivial
  | sched_unblock pid =>
    rintro q hq - rfl
    exact h hq
  | sched_tick | proc_check_sleepers => exact fun _ q hq => ⟨htick q hq, htick q hq⟩
  | sys_sleep ms => exact fun hms c hc => ⟨hcurrent (h hms) hc, trivial⟩
  | proc_kill pid signal => exact KillLeaves.allows h
  | job_kill_csid csid signal => exact hgroup h
  | job_kill_num job_num signal => exact fun slot hslot => hgroup (h slot hslot)
  | job_fg job_num | job_bg job_num => exact fun slot hslot hstopped => hgroup (h slot hslot hstopped)
  | _ => trivial

/-- A process stays asleep through calls that leave it alone and find its sleep not yet over. -/
theorem asleep_run {time : UInt64} {later : List Op}
    (hs : s.core.Sound) (hpid : s.proc_table pid = some p) (hasleep : s.core.Asleep p time)
    (halong : Along Kernel.step (fun s op => (Leaves p s op ∧ (s.step op).proc_table pid = some p) ∧
      (time = 0 ∨ s.boot_ticks < time)) s later) :
    (s.run later).core.Asleep p time := by
  have hinv := halong.invariant
    (I := fun s => s.core.Sound ∧ s.proc_table pid = some p ∧ s.core.Asleep p time)
    (fun s op hs hop => ?_) ⟨hs, hpid, hasleep⟩
  · exact hinv.2.2
  · obtain ⟨hsound, hpid, hasleep⟩ := hs
    obtain ⟨⟨hleaves, hafter⟩, htime⟩ := hop
    have hexpired : ¬ s.expired p := by
      rintro ⟨-, hpos, hover⟩
      have hsleep : (s.mem p).sleep_until = time := hasleep.2
      rw [hsleep] at hpos hover
      rcases htime with rfl | hlt
      · exact absurd hpos (by decide)
      · exact absurd hlt (UInt64.not_lt.mpr hover)
    have hmoves : Moves (fun _ _ => True) s.core (s.step op).core :=
      step_moves (fun _ _ => trivial) hsound (allows_of_forall (fun _ _ => trivial) s op)
    refine ⟨hmoves.sound hsound, hafter, ?_⟩
    exact step_keeps (Q := fun c => c.Asleep p time) hsound (fun _ _ => trivial)
      (hleaves.allows hsound ⟨pid, hpid⟩ hexpired) hpid
      (fun c m hc hslot hq hlegal hm _ =>
        hq.apply hc ⟨pid, hslot⟩ hlegal (by cases m <;> first | exact hm | trivial))
      hasleep hafter

/-! ## Stopping and sleeping -/

theorem table_of_find (hfind : proc_find s pid = some p) :
    s.proc_table pid = some p := by
  unfold proc_find at hfind
  split at hfind
  · simp at hfind
  · exact hfind

theorem core_stop (hfind : proc_find s pid = some p) (hstop : (proc_kill s pid SIGSTOP).2 = 0) :
    (s.step (.proc_kill pid SIGSTOP)).core = s.core.apply (.park p .blocked) := by
  by_cases hmay : may_signal s p
  · have hkill : (proc_kill s pid SIGSTOP).1 = park s p .blocked := by
      simp [proc_kill, hfind, hmay, deliver, SIGSTOP, SIGKILL, SIGTERM]
    exact (congrArg Kernel.core hkill).trans (core_park s p .blocked)
  · simp [proc_kill, hfind, hmay] at hstop

/-- A process that calls `sys_sleep` is asleep until its deadline, and another runs. -/
theorem asleep_sys_sleep {ms : Int} (hs : s.core.Sound)
    (hlisted : s.core.Listed p) (hcurrent : s.current = some p) (hms : 0 < ms) :
    (s.step (.sys_sleep ms)).core.Asleep p (s.boot_ticks + UInt64.ofInt ms) ∧
      (s.step (.sys_sleep ms)).core.table = s.core.table := by
  have hstep : s.step (.sys_sleep ms) = schedule (park (s.modify p fun q =>
      { q with sleep_until := s.boot_ticks + UInt64.ofInt ms }) p .blocked) := by
    simp only [Kernel.step, sys_sleep, hcurrent, show ¬ ms ≤ 0 by omega, if_false]
  have hcore := core_park (s.modify p fun q =>
    { q with sleep_until := s.boot_ticks + UInt64.ofInt ms }) p .blocked
  rw [core_set_sleep] at hcore
  rw [hstep]
  generalize park _ p .blocked = t at hcore ⊢
  have hasleep : t.core.Asleep p (s.boot_ticks + UInt64.ofInt ms) := by
    rw [hcore]
    exact ⟨by simp [Core.Dormant, Core.apply], by simp [Core.apply]⟩
  have hsound : t.core.Sound := by
    rw [hcore]
    exact Core.Sound.park (hs.apply (m := .sleep p _) trivial) .blocked
  have htlisted : t.core.Listed p := by
    rw [hcore]
    exact hlisted
  have htable : t.core.table = s.core.table := by rw [hcore]; rfl
  by_cases hpreempt : t.preempt_count = 0
  · rw [core_schedule hpreempt]
    exact ⟨hasleep.apply hsound htlisted (sched_pick_cases t) trivial, htable⟩
  · simpa [schedule, hpreempt] using ⟨hasleep, htable⟩

/-- In every run: a process without a deadline that `SIGSTOP` has stopped is neither ready nor
running as long as no later call wakes it; and a process in `sys_sleep` that no call wakes is
neither ready nor running before its deadline. -/
theorem stopped_stays_stopped (before later : List Op) (pid : Nat) (p : Ptr)
    (hfind : proc_find (boot.run before) pid = some p) :
    ((proc_kill (boot.run before) pid SIGSTOP).2 = 0 →
      ((boot.run before).mem p).sleep_until = 0 →
      Along Kernel.step (fun s op => Leaves p s op ∧ (s.step op).proc_table pid = some p)
        ((boot.run before).step (.proc_kill pid SIGSTOP)) later →
      ((((boot.run before).step (.proc_kill pid SIGSTOP)).run later).core.Dormant p)) ∧
    (∀ ms, 0 < ms → (boot.run before).current = some p →
      Along Kernel.step (fun s op => (Leaves p s op ∧ (s.step op).proc_table pid = some p) ∧
          s.boot_ticks < (boot.run before).boot_ticks + UInt64.ofInt ms)
        ((boot.run before).step (.sys_sleep ms)) later →
      (((boot.run before).step (.sys_sleep ms)).run later).core.Dormant p) := by
  have hs := run_sound before
  have hlisted := listed_of_find hfind
  have htable := table_of_find hfind
  have hstep : ∀ op, ((boot.run before).step op).core.Sound := by
    intro op
    have hnext := run_sound (before ++ [op])
    rwa [show boot.run (before ++ [op]) = (boot.run before).step op from run_append before [op]] at hnext
  refine ⟨fun hstop hsleep halong => ?_, fun ms hms hcurrent halong => ?_⟩
  · have hcore := core_stop hfind hstop
    have hasleep : ((boot.run before).step (.proc_kill pid SIGSTOP)).core.Asleep p 0 := by
      rw [hcore]
      exact ⟨by simp [Core.Dormant, Core.apply], hsleep⟩
    have hpid : ((boot.run before).step (.proc_kill pid SIGSTOP)).proc_table pid = some p :=
      (congrFun (congrArg Core.table hcore) pid).trans htable
    exact (asleep_run (hstep _) hpid hasleep (halong.imp fun _ _ hop => ⟨hop, .inl rfl⟩)).1
  · obtain ⟨hasleep, hkeep⟩ := asleep_sys_sleep hs hlisted hcurrent hms
    have hpid : ((boot.run before).step (.sys_sleep ms)).proc_table pid = some p :=
      (congrFun hkeep pid).trans htable
    exact (asleep_run (hstep _) hpid hasleep (halong.imp fun _ _ hop => ⟨hop.1, .inr hop.2⟩)).1

/-- A running process is stopped, or sleeps, and the timer ticks. -/
theorem stopped_process_through_tick :
    (((boot.run [.proc_create none 1, .proc_set_ready 1, .schedule]).step
      (.proc_kill 1 SIGSTOP)).run [.timer_tick, .sched_tick]).core.Dormant 1 ∧
    (((boot.run [.proc_create none 1, .proc_set_ready 1, .schedule]).step
      (.sys_sleep 5)).run [.timer_tick, .sched_tick]).core.Dormant 1 := by
  have hboth := stopped_stays_stopped [.proc_create none 1, .proc_set_ready 1, .schedule]
    [.timer_tick, .sched_tick] 1 1 (by decide +kernel)
  refine ⟨hboth.1 (by decide +kernel) (by decide +kernel)
    ⟨⟨trivial, by decide +kernel⟩, ⟨trivial, by decide +kernel⟩, trivial⟩, ?_⟩
  exact hboth.2 5 (by decide) (by decide +kernel)
    ⟨⟨⟨trivial, by decide +kernel⟩, by decide +kernel⟩,
      ⟨⟨trivial, by decide +kernel⟩, by decide +kernel⟩, trivial⟩

/-- A sleeping process that is stopped is made ready by the timer; one that is not stopped is made
ready by `SIGCONT`, with four ticks to go. -/
theorem stopped_sleeper_woken :
    ((boot.run [.proc_create none 1, .proc_set_ready 1, .schedule, .sys_sleep 1,
      .proc_kill 1 SIGSTOP, .timer_tick, .sched_tick]).mem 1).state = .ready ∧
    ((boot.run [.proc_create none 1, .proc_set_ready 1, .schedule, .sys_sleep 5, .timer_tick,
      .proc_kill 1 SIGCONT]).mem 1).state = .ready := by
  decide +kernel

end graceos.proc
