import GraceOS.Proc.Calls

/-!
# The integrity of the run queue

The queue is a doubly linked list of exactly the runnable processes as long as nothing is unlinked
from it that is not in it. `sched_remove` does not check this: it takes a process without links
for the only one in the queue, and empties the queue.
-/

namespace graceos.proc

open linkq machine

/-- The states of the processes that belong on the run queue. -/
def ProcState.Runnable (state : ProcState) : Prop := state = .ready ∨ state = .running

/-- The run queue is the list `l`, of exactly the runnable processes. -/
structure Core.Intact (c : Core) (l : List Ptr) : Prop where
  spells : c.links.Spells l
  members : ∀ p ∈ l, (c.state p).Runnable
  complete : ∀ p, c.Listed p → (c.state p).Runnable → p ∈ l

/-- A move that takes off the queue what is on it, and readies in place only what is on it. -/
def Core.Orderly (c : Core) : Move → Prop
  | .park p _ => c.links.Reached p ∨ c.links.head = none
  | .yield p => ¬ c.Listed p ∨ c.links.Reached p
  | _ => True

/-! ## Integrity is kept by every orderly move -/

section Intact

variable {c : Core} {l : List Ptr} {p : Ptr}

theorem Core.Intact.ready (h : c.Intact l) (p : Ptr) :
    ∃ l', (c.apply (.ready p)).Intact l' := by
  have hstate : ∀ x, x ≠ p → (c.apply (.ready p)).state x = c.state x := fun x hx => by
    simp [Core.apply, hx]
  have hself : (c.apply (.ready p)).state p = .ready := by simp [Core.apply]
  by_cases hp : p ∈ l
  · have hlinks : (c.apply (.ready p)).links = c.links := by
      simp [Core.apply, show c.Linked p from h.spells.mem_iff_linked.mp hp]
    refine ⟨l, hlinks ▸ h.spells, fun x hx => ?_, fun x hlisted hx => ?_⟩
    · by_cases hxp : x = p
      · rw [hxp]
        exact .inl hself
      · exact hstate x hxp ▸ h.members x hx
    · by_cases hxp : x = p
      · exact hxp ▸ hp
      · exact h.complete x hlisted (hstate x hxp ▸ hx)
  · have hlinks : (c.apply (.ready p)).links = c.links.push_back p := by
      simp [Core.apply, show ¬ c.Linked p from fun hl => hp (h.spells.mem_iff_linked.mpr hl)]
    refine ⟨l ++ [p], hlinks ▸ h.spells.push_back hp, fun x hx => ?_, fun x hlisted hx => ?_⟩
    · by_cases hxp : x = p
      · rw [hxp]
        exact .inl hself
      · have hxl : x ∈ l := by simpa [hxp] using hx
        exact hstate x hxp ▸ h.members x hxl
    · by_cases hxp : x = p
      · simp [hxp]
      · exact List.mem_append_left _ (h.complete x hlisted (hstate x hxp ▸ hx))

theorem Core.Intact.park {state : ProcState} (h : c.Intact l) (hlegal : c.Legal (.park p state))
    (horderly : c.Orderly (.park p state)) : ∃ l', (c.apply (.park p state)).Intact l' := by
  have hstate : ∀ x, x ≠ p → (c.apply (.park p state)).state x = c.state x := fun x hx => by
    simp [Core.apply, hx]
  have hself : ¬ ((c.apply (.park p state)).state p).Runnable := by
    rcases hlegal with rfl | rfl | rfl <;> simp [Core.apply, ProcState.Runnable]
  rcases horderly with hreached | hempty
  · obtain ⟨a, b, rfl⟩ := List.append_of_mem (h.spells.mem_iff.mpr hreached)
    have hnodup := h.spells.nodup
    rw [List.nodup_middle, List.nodup_cons] at hnodup
    refine ⟨a ++ b, h.spells.unlink, fun x hx => ?_, fun x hlisted hx => ?_⟩
    · have hxp : x ≠ p := by
        rintro rfl
        exact hnodup.1 hx
      rw [hstate x hxp]
      exact h.members x (List.perm_middle.symm.subset (List.mem_cons_of_mem p hx))
    · have hxp : x ≠ p := by
        rintro rfl
        exact hself hx
      have hmem := h.complete x hlisted (hstate x hxp ▸ hx)
      simpa [hxp] using hmem
  · obtain rfl : l = [] := by simpa [h.spells.head] using hempty
    refine ⟨[], h.spells.unlink_nil, by simp, fun x hlisted hx => ?_⟩
    have hxp : x ≠ p := by
      rintro rfl
      exact hself hx
    exact h.complete x hlisted (hstate x hxp ▸ hx)

theorem Core.Intact.yield (h : c.Intact l) (horderly : c.Orderly (.yield p)) :
    (c.apply (.yield p)).Intact l := by
  refine ⟨h.spells, fun x hx => ?_, fun x hlisted hx => ?_⟩
  · by_cases hxp : x = p
    · simp [Core.apply, hxp, ProcState.Runnable]
    · simpa [Core.apply, hxp] using h.members x hx
  · by_cases hxp : x = p
    · subst hxp
      exact h.spells.mem_iff.mpr (horderly.resolve_left fun hn => hn hlisted)
    · exact h.complete x hlisted (by simpa [Core.apply, hxp] using hx)

theorem runnable_preempted (c : Core) (x : Ptr) :
    (c.preempted x).Runnable ↔ (c.state x).Runnable := by
  unfold Core.preempted
  split
  · next hrun => simp [ProcState.Runnable, hrun.2]
  · rfl

theorem Core.Intact.dispatch (hs : c.Sound) (h : c.Intact l) (hlegal : c.Legal (.dispatch p)) :
    (c.apply (.dispatch p)).Intact l := by
  refine ⟨h.spells, fun x hx => ?_, fun x hlisted hx => ?_⟩
  · by_cases hxp : x = p
    · simp [Core.apply, hxp, ProcState.Runnable]
    · simpa [Core.apply, hxp, runnable_preempted] using h.members x hx
  · by_cases hxp : x = p
    · subst hxp
      rcases hlegal with hidle | ⟨-, hreached⟩
      · exact absurd hidle (hs.ne_idle hlisted)
      · exact h.spells.mem_iff.mpr hreached
    · refine h.complete x hlisted ?_
      simpa [Core.apply, hxp, runnable_preempted] using hx

theorem Core.Intact.fresh {c' : Core} (hs : c.Sound) (h : c.Intact l) (hfresh : p ∉ c.heap)
    (hlinks : c'.links = c.links.clear p) (hstate : c'.state = Function.update c.state p .new)
    (hlisted : ∀ x, c'.Listed x → x = p ∨ c.Listed x) : c'.Intact l := by
  have hp : p ∉ l := fun hp => hfresh (hs.reached_mem_heap (h.spells.mem_iff.mp hp))
  refine ⟨hlinks ▸ h.spells.clear hp, fun x hx => ?_, fun x hx hrun => ?_⟩
  · have hxp : x ≠ p := by
      rintro rfl
      exact hp hx
    rw [hstate, Function.update_of_ne hxp]
    exact h.members x hx
  · have hxp : x ≠ p := by
      rintro rfl
      simp [hstate, ProcState.Runnable] at hrun
    rw [hstate, Function.update_of_ne hxp] at hrun
    exact h.complete x ((hlisted x hx).resolve_left hxp) hrun

theorem Core.Intact.spawn {pid : Nat} (hs : c.Sound) (h : c.Intact l)
    (hlegal : c.Legal (.spawn p pid)) : (c.apply (.spawn p pid)).Intact l := by
  refine h.fresh hs hlegal.1 rfl rfl fun x hx => ?_
  obtain ⟨slot, hslot⟩ := hx
  by_cases hsame : slot = pid
  · exact .inl (by simpa [Core.apply, hsame] using hslot.symm)
  · exact .inr ⟨slot, by simpa [Core.apply, hsame] using hslot⟩

theorem Core.Intact.free (h : c.Intact l) (hlegal : c.Legal (.free p)) :
    (c.apply (.free p)).Intact l := by
  obtain ⟨-, hzombie⟩ := hlegal
  refine ⟨h.spells, fun x hx => ?_, fun x hlisted hx => ?_⟩
  · have hxp : x ≠ p := by
      rintro rfl
      have := h.members x hx
      simp [hzombie, ProcState.Runnable] at this
    simpa [Core.apply, hxp] using h.members x hx
  · have hxp : x ≠ p := by
      rintro rfl
      simp [Core.apply, ProcState.Runnable] at hx
    obtain ⟨slot, hslot⟩ := hlisted
    refine h.complete x ⟨slot, ?_⟩ (by simpa [Core.apply, hxp] using hx)
    by_cases hsame : slot = c.pid p
    · simp [Core.apply, hsame] at hslot
    · simpa [Core.apply, hsame] using hslot

theorem Core.Intact.apply {m : Move} (hs : c.Sound) (h : c.Intact l) (hlegal : c.Legal m)
    (horderly : c.Orderly m) : ∃ l', (c.apply m).Intact l' := by
  cases m with
  | ready p => exact h.ready p
  | park p state => exact h.park hlegal horderly
  | yield p => exact ⟨l, h.yield horderly⟩
  | dispatch p => exact ⟨l, h.dispatch hs hlegal⟩
  | sleep p time => exact ⟨l, h.spells, h.members, h.complete⟩
  | wipe p => exact ⟨l, h.fresh hs hlegal.1 rfl rfl fun _ hx => .inr hx⟩
  | spawn p pid => exact ⟨l, h.spawn hs hlegal⟩
  | free p => exact ⟨l, h.free hlegal⟩

end Intact

/-! ## Runs -/

/-- The run queue is a doubly linked list from its head to its tail that repeats no process; every
process that is ready or running is on it, and none that is blocked, waiting or dead. -/
structure Kernel.QueueIntact (s : Kernel) : Prop where
  linked : s.links.Spells s.run_queue
  complete : ∀ pid p, proc_find s pid = some p →
    (s.mem p).state = .ready ∨ (s.mem p).state = .running → p ∈ s.run_queue
  parked : ∀ p ∈ s.run_queue, (s.mem p).state ≠ .blocked ∧ (s.mem p).state ≠ .wait ∧
    (s.mem p).state ≠ .zombie

/-- The process is on the run queue, or the queue is empty. -/
def Kernel.Removable (s : Kernel) (p : Ptr) : Prop := p ∈ s.run_queue ∨ s.run_queue_head = none

instance (s : Kernel) (p : Ptr) : Decidable (s.Removable p) := inferInstanceAs (Decidable (_ ∨ _))

/-- A signal that takes a process off the run queue finds it there. -/
def KillKeepsQueue (signal : Int) (s : Kernel) (pid : Nat) : Prop :=
  ∀ p ∈ proc_find s pid, may_signal s p → signal ≠ SIGCONT → s.Removable p

/-- What a call takes off the run queue is on it, or the queue is empty; and a process that yields
is on the run queue, unless it is not in the process table, as the idle process is not. -/
def KeepsQueue (s : Kernel) : Op → Prop
  | .proc_set_blocked pid | .proc_invalidate pid | .proc_set_zombie pid _ | .proc_terminate pid _ =>
    ∀ p ∈ proc_find s pid, s.Removable p
  | .proc_vfork a => ∀ c ∈ s.current, (proc_create s s.current a).2 ≠ none → s.Removable c
  | .proc_exit _ => ∀ c ∈ s.current, (s.mem c).state ≠ .zombie → (s.mem c).state ≠ .dead →
    s.Removable c
  | .proc_wait pid options => (proc_wait s pid options).2 = .asleep → ∀ c ∈ s.current, s.Removable c
  | .proc_wait_resume pid options => (proc_wait_resume s pid options).2 = .asleep →
    ∀ c ∈ s.current, s.Removable c
  | .sched_block | .sched_sleep => ∀ c ∈ s.current, s.Removable c
  | .sys_sleep ms => 0 < ms → ∀ c ∈ s.current, s.Removable c
  | .sched_yield => ∀ c ∈ s.current, proc_find s (s.mem c).pid = some c → c ∈ s.run_queue
  | .proc_kill pid signal => KillKeepsQueue signal s pid
  | .job_kill_csid csid signal => SignalsGroup KillKeepsQueue s csid signal
  | .job_kill_num job_num signal => ∀ slot, job_find_by_num s job_num = some slot →
    SignalsGroup KillKeepsQueue s (s.jobs slot).csid signal
  | _ => True

theorem reached_of_mem {s : Kernel} {p : Ptr} (hp : p ∈ s.run_queue) : s.core.links.Reached p :=
  Links.walk_reached (fun _ hx => .head hx) p hp

theorem Kernel.Removable.orderly {s : Kernel} {p : Ptr} (h : s.Removable p) (state : ProcState) :
    s.core.Orderly (.park p state) :=
  h.imp_left reached_of_mem

theorem KillKeepsQueue.allows {signal : Int} {s : Kernel} {pid : Nat}
    (h : KillKeepsQueue signal s pid) : AllowsKill Core.Orderly signal s pid := by
  intro p hp hmay
  unfold AllowsSignal
  split
  · next hstop => exact (h p hp hmay (by simp [hstop, SIGSTOP, SIGCONT])).orderly _
  · split
    · exact fun _ => trivial
    · next hcont => exact (h p hp hmay hcont).orderly _

theorem Kernel.Removable.created {s s' : Kernel} {l : List Ptr} (hs : s.core.Sound)
    (hintact : s.core.Intact l) {p a child : Ptr} {parent : Option Ptr} (h : s.Removable p)
    (hcreate : proc_create s parent a = (s', some child)) (state : ProcState) :
    s'.core.Orderly (.park p state) := by
  have hcases := proc_create_cases hs.cursor.1 hs.cursor.2 parent a
  rw [hcreate] at hcases
  cases hcases with
  | created hfresh hidle hpos hmax hempty hcore =>
    have hnew := hintact.spawn hs ⟨hfresh, hidle, hpos, hmax, hempty⟩
    rw [hcore]
    refine h.imp (fun hmem => ?_) fun hhead => hhead
    exact hnew.spells.mem_iff.mp (hintact.spells.mem_iff.mpr (reached_of_mem hmem))

theorem KeepsQueue.allows {s : Kernel} {op : Op} {l : List Ptr} (hs : s.core.Sound)
    (hintact : s.core.Intact l) (h : KeepsQueue s op) : Allows Core.Orderly s op := by
  have hcreates : Creates Core.Orderly := fun _ _ => ⟨trivial, fun _ => trivial⟩
  have hreaps : Reaps Core.Orderly := fun _ _ => trivial
  have hgroup : ∀ {s csid signal}, SignalsGroup KillKeepsQueue s csid signal →
      SignalsGroup (AllowsKill Core.Orderly) s csid signal := fun h =>
    h.imp fun _ _ hkill => hkill.allows
  have hcont : ∀ s csid, SignalsGroup (AllowsKill Core.Orderly) s csid SIGCONT := fun s csid =>
    hgroup (Along.of_forall (fun _ _ _ _ _ hne => absurd rfl hne) _)
  cases op with
  | proc_create parent a => exact hcreates
  | proc_set_ready pid => exact fun _ _ => trivial
  | proc_set_blocked pid => exact fun p hp => (h p hp).orderly _
  | proc_invalidate pid => exact fun p hp => (h p hp).orderly _
  | proc_set_zombie pid code => exact fun p hp => (h p hp).orderly _
  | proc_terminate pid signal => exact fun p hp => (h p hp).orderly _
  | proc_fork a => exact ⟨hcreates, fun _ _ _ _ _ => trivial⟩
  | proc_vfork a =>
    refine ⟨hcreates, fun parent s' child hparent hcreate => ⟨?_, trivial⟩⟩
    have hremovable : s.Removable parent := h parent hparent (by simp [hparent, hcreate])
    exact hremovable.created hs hintact hcreate .blocked
  | proc_exit code => exact fun c hc hzombie hdead => (h c hc hzombie hdead).orderly _
  | proc_reap_zombies => exact hreaps
  | proc_wait pid options => exact ⟨hreaps, fun hsleep c hc => (h hsleep c hc).orderly _⟩
  | proc_wait_resume pid options => exact ⟨hreaps, fun hsleep c hc => (h hsleep c hc).orderly _⟩
  | sched_yield =>
    intro c hc
    by_cases hlisted : s.core.Listed c
    · exact .inr (reached_of_mem (h c hc (find_of_listed hs hlisted)))
    · exact .inl hlisted
  | sched_block => exact fun c hc => (h c hc).orderly _
  | sched_sleep => exact fun c hc => (h c hc).orderly _
  | sched_unblock pid => exact fun _ _ _ => trivial
  | sched_tick => exact fun _ _ _ => ⟨trivial, trivial⟩
  | proc_check_sleepers => exact fun _ _ _ => ⟨trivial, trivial⟩
  | sys_sleep ms => exact fun hms c hc => ⟨trivial, (h hms c hc).orderly .blocked⟩
  | proc_kill pid signal => exact KillKeepsQueue.allows h
  | job_kill_csid csid signal => exact hgroup h
  | job_kill_num job_num signal => exact fun slot hslot => hgroup (h slot hslot)
  | job_fg job_num => exact fun slot _ _ => hcont s (s.jobs slot).csid
  | job_bg job_num => exact fun slot _ _ => hcont s (s.jobs slot).csid
  | _ => trivial

theorem KeepsQueue.step {s : Kernel} {op : Op} (hs : s.core.Sound)
    (hintact : ∃ l, s.core.Intact l) (h : KeepsQueue s op) :
    (s.step op).core.Sound ∧ ∃ l, (s.step op).core.Intact l := by
  obtain ⟨l, hl⟩ := hintact
  have hmoves := step_moves (fun _ _ => trivial) hs (h.allows hs hl)
  refine hmoves.invariant (I := fun c => c.Sound ∧ ∃ l, c.Intact l)
    (fun c m hc hlegal horderly => ?_) ⟨hs, l, hl⟩
  obtain ⟨hsound, l, hl⟩ := hc
  exact ⟨hsound.apply hlegal, hl.apply hsound hlegal horderly⟩

theorem Core.Intact.queue {s : Kernel} {l : List Ptr} (hs : s.core.Sound) (h : s.core.Intact l) :
    s.QueueIntact := by
  have hsubset : l ⊆ s.heap := fun p hp => hs.reached_mem_heap (h.spells.mem_iff.mp hp)
  have hlen := (List.subperm_of_subset h.spells.nodup hsubset).length_le
  have hwalk : s.run_queue = l := h.spells.walk_eq (by omega)
  refine ⟨hwalk ▸ h.spells, fun pid p hp hrun => ?_, fun p hp => ?_⟩
  · rw [hwalk]
    exact h.complete p (listed_of_find hp) hrun
  · rw [hwalk] at hp
    rcases h.members p hp with hready | hrunning
    · have hstate : (s.mem p).state = .ready := hready
      simp [hstate]
    · have hstate : (s.mem p).state = .running := hrunning
      simp [hstate]

theorem boot_intact : boot.core.Intact [] := by
  have hlinks : ∀ p, boot.links.next p = none ∧ boot.links.prev p = none := by
    intro p
    by_cases hp : p = idle_proc
    · subst hp
      exact ⟨rfl, rfl⟩
    · have hzero : boot.mem p = .zero := Function.update_of_ne hp _ _
      simp only [Kernel.links, hzero]
      exact ⟨rfl, rfl⟩
  refine ⟨⟨List.nodup_nil, rfl, rfl, by simp, fun p _ => hlinks p⟩, by simp, ?_⟩
  rintro p ⟨pid, hpid⟩
  cases hpid

/-- As long as every call takes off the run queue only what is on it, the run queue is in order. -/
theorem run_queue_intact (ops : List Op) (h : Along Kernel.step KeepsQueue boot ops) :
    (boot.run ops).QueueIntact := by
  obtain ⟨hs, l, hl⟩ := h.invariant
    (I := fun s => s.core.Sound ∧ ∃ l, s.core.Intact l)
    (fun s op hs hop => hop.step hs.1 hs.2) ⟨boot_sound, [], boot_intact⟩
  exact hl.queue hs

/-- One process sleeps while another waits for its turn. -/
theorem sleeper_leaves_queue_intact :
    (boot.run [.proc_create none 1, .proc_set_ready 1, .proc_create none 2, .proc_set_ready 2,
      .schedule, .sys_sleep 5]).QueueIntact :=
  run_queue_intact _ ⟨trivial, trivial, trivial, trivial, trivial, fun _ => by decide +kernel, trivial⟩

theorem not_queueIntact {s : Kernel} (pid : Nat) (p : Ptr)
    (h : proc_find s pid = some p ∧ (s.mem p).state = .ready ∧ p ∉ s.run_queue) :
    ¬ s.QueueIntact := fun hintact =>
  h.2.2 (hintact.complete pid p h.1 (.inl h.2.1))

/-- Stopping a process that sleeps empties the run queue, on which another process was ready. -/
theorem stopped_sleeper_drops_queue :
    ¬ (boot.run [.proc_create none 1, .proc_set_ready 1, .proc_create none 2, .proc_set_ready 2,
      .proc_set_blocked 2, .proc_kill 2 SIGSTOP]).QueueIntact :=
  not_queueIntact 1 1 (by decide +kernel)

end graceos.proc
