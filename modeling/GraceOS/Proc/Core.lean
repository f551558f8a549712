import GraceOS.Proc.Jobs

/-!
# What scheduling is about

`Core` keeps, of the whole kernel, which processes exist, what state each is in, and how they are
linked into the run queue. On it the code makes eight kinds of moves, and every function of the
source comes down to a few of them; the rest of what it writes does not show.
-/

namespace graceos.proc

open linkq Function

/-- The part of the kernel that the moves work on. -/
@[ext] structure Core where
  state : Ptr → ProcState
  sleep_until : Ptr → UInt64
  pid : Ptr → Nat
  links : Links Ptr
  table : Nat → Option Ptr
  heap : List Ptr
  cursor : Nat
  current : Option Ptr

def Kernel.core (s : Kernel) : Core where
  state p := (s.mem p).state
  sleep_until p := (s.mem p).sleep_until
  pid p := (s.mem p).pid
  links := s.links
  table := s.proc_table
  heap := s.heap
  cursor := s.next_pid
  current := s.current

/-- The moves. -/
inductive Move
  /-- Marks a process ready and queues it. -/
  | ready (p : Ptr)
  /-- Takes a process off the queue into another state. -/
  | park (p : Ptr) (state : ProcState)
  /-- Marks a process ready where it is. -/
  | yield (p : Ptr)
  /-- Switches to a process. -/
  | dispatch (p : Ptr)
  /-- Sets the time a process sleeps until. -/
  | sleep (p : Ptr) (time : UInt64)
  /-- Clears an unused block. -/
  | wipe (p : Ptr)
  /-- Makes an unused block a process. -/
  | spawn (p : Ptr) (pid : Nat)
  /-- Gives the block of a process back. -/
  | free (p : Ptr)

/-- The queue links of `p` say that it is queued already. -/
def Core.Linked (c : Core) (p : Ptr) : Prop :=
  c.links.next p ≠ none ∨ c.links.prev p ≠ none ∨ c.links.head = some p

instance (c : Core) (p : Ptr) : Decidable (c.Linked p) := inferInstanceAs (Decidable (_ ∨ _ ∨ _))

/-- The states after the running process has given up the processor. -/
def Core.preempted (c : Core) : Ptr → ProcState := fun x =>
  if c.current = some x ∧ c.state x = .running then .ready else c.state x

def Core.apply (c : Core) : Move → Core
  | .ready p =>
    { c with
      state := update c.state p .ready
      links := if c.Linked p then c.links else c.links.push_back p }
  | .park p state =>
    { c with state := update c.state p state, links := c.links.unlink p }
  | .yield p => { c with state := update c.state p .ready }
  | .dispatch p =>
    { c with state := update c.preempted p .running, current := some p }
  | .sleep p time => { c with sleep_until := update c.sleep_until p time }
  | .wipe p =>
    { c with
      state := update c.state p .new
      sleep_until := update c.sleep_until p 0
      pid := update c.pid p 0
      links := c.links.clear p }
  | .spawn p pid =>
    { c with
      state := update c.state p .new
      sleep_until := update c.sleep_until p 0
      pid := update c.pid p pid
      links := c.links.clear p
      table := update c.table pid (some p)
      heap := p :: c.heap
      cursor := if MAX_PROC ≤ pid + 1 then 1 else pid + 1 }
  | .free p =>
    { c with
      state := update c.state p .dead
      table := update c.table (c.pid p) none
      heap := c.heap.filter (· ≠ p) }

/-! ## Writes to a PCB -/

theorem modify_field {β : Type} (φ : Process → β) (s : Kernel) (p : Ptr) (f : Process → Process) :
    (fun x => φ ((s.modify p f).mem x)) =
      update (fun x => φ (s.mem x)) p (φ (f (s.mem p))) := by
  funext x
  by_cases hx : x = p
  · subst hx
    simp [Kernel.modify]
  · simp [Kernel.modify, hx]

theorem core_write (s : Kernel) (p : Ptr) (f : Process → Process) :
    (s.modify p f).core =
      { s.core with
        state := update s.core.state p (f (s.mem p)).state
        sleep_until := update s.core.sleep_until p (f (s.mem p)).sleep_until
        pid := update s.core.pid p (f (s.mem p)).pid
        links := { s.core.links with
          next := write s.core.links.next (some p) (f (s.mem p)).next
          prev := write s.core.links.prev (some p) (f (s.mem p)).prev } } := by
  ext1
  · exact modify_field (·.state) s p f
  · exact modify_field (·.sleep_until) s p f
  · exact modify_field (·.pid) s p f
  · simp only [write_some]
    ext1
    · exact modify_field (·.next) s p f
    · exact modify_field (·.prev) s p f
    all_goals rfl
  all_goals rfl

section Keep

variable (s : Kernel) (p : Ptr)

@[simp] theorem keep_state : update s.core.state p (s.mem p).state = s.core.state :=
  update_eq_self p s.core.state

@[simp] theorem keep_sleep :
    update s.core.sleep_until p (s.mem p).sleep_until = s.core.sleep_until :=
  update_eq_self p s.core.sleep_until

@[simp] theorem keep_pid : update s.core.pid p (s.mem p).pid = s.core.pid :=
  update_eq_self p s.core.pid

@[simp] theorem keep_next : write s.core.links.next (some p) (s.mem p).next = s.core.links.next := by
  rw [write_some]
  exact update_eq_self p s.core.links.next

@[simp] theorem keep_prev : write s.core.links.prev (some p) (s.mem p).prev = s.core.links.prev := by
  rw [write_some]
  exact update_eq_self p s.core.links.prev

end Keep

/-- What `Core` keeps of one PCB. -/
def Process.cell (q : Process) : ProcState × UInt64 × Nat × Option Ptr × Option Ptr :=
  (q.state, q.sleep_until, q.pid, q.next, q.prev)

theorem core_modify {s : Kernel} {p : Ptr} {f : Process → Process}
    (hcell : (f (s.mem p)).cell = (s.mem p).cell) : (s.modify p f).core = s.core := by
  simp only [Process.cell, Prod.mk.injEq] at hcell
  obtain ⟨hstate, hsleep, hpid, hnext, hprev⟩ := hcell
  simp [core_write, hstate, hsleep, hpid, hnext, hprev]

theorem core_set_state (s : Kernel) (p : Ptr) (state : ProcState) :
    (s.modify p fun q => { q with state }).core =
      { s.core with state := update s.core.state p state } := by
  simp [core_write]

theorem core_set_sleep (s : Kernel) (p : Ptr) (time : UInt64) :
    (s.modify p fun q => { q with sleep_until := time }).core = s.core.apply (.sleep p time) := by
  simp [core_write, Core.apply]

theorem foldl_keep {α β : Type} (φ : Kernel → β) {f : Kernel → α → Kernel}
    (hf : ∀ s x, φ (f s x) = φ s) (s : Kernel) (l : List α) : φ (l.foldl f s) = φ s := by
  induction l generalizing s with
  | nil => rfl
  | cons x l ih => rw [List.foldl_cons, ih, hf]

theorem core_reparent (s : Kernel) (pid : Nat) : (proc_reparent_children s pid).core = s.core := by
  refine foldl_keep Kernel.core (fun s p => ?_) s s.procs
  split
  · exact core_modify rfl
  · rfl

theorem core_sched_age (s : Kernel) : (sched_age s).core = s.core := by
  refine foldl_keep Kernel.core (fun s p => ?_) s s.run_queue
  split
  · exact core_modify rfl
  · rfl

/-- The parent that `sched_wake_parent` looks for is in `PROC_WAIT`, and `sched_unblock` acts on
`PROC_BLOCKED` alone: the call does nothing. -/
theorem sched_wake_parent_eq (s : Kernel) (pid : Nat) : sched_wake_parent s pid = s := by
  unfold sched_wake_parent
  cases proc_find s pid with
  | none => rfl
  | some child =>
    dsimp only
    cases proc_find s (s.mem child).parent with
    | none => rfl
    | some parent =>
      dsimp only
      split
      · next hwait =>
        split
        · simp [sched_unblock, hwait]
        · rfl
      · rfl

/-! ## The queue -/

theorem core_link_forward (s : Kernel) (p v : Option Ptr) :
    (link_forward s p v).core =
      { s.core with
        links := { s.core.links with
          next := write s.core.links.next p v
          head := if p = none then v else s.core.links.head } } := by
  cases p with
  | none => simp [link_forward, Kernel.core, Kernel.links]
  | some x => simp [link_forward, core_write]

theorem core_link_back (s : Kernel) (p v : Option Ptr) :
    (link_back s p v).core =
      { s.core with
        links := { s.core.links with
          prev := write s.core.links.prev p v
          tail := if p = none then v else s.core.links.tail } } := by
  cases p with
  | none => simp [link_back, Kernel.core, Kernel.links]
  | some x => simp [link_back, core_write]

theorem core_set_links (s : Kernel) (p : Ptr) (next prev : Option Ptr) :
    (s.modify p fun q => { q with next, prev }).core =
      { s.core with
        links := { s.core.links with
          next := write s.core.links.next (some p) next
          prev := write s.core.links.prev (some p) prev } } := by
  simp [core_write]

theorem core_sched_remove (s : Kernel) (p : Ptr) :
    (sched_remove s p).core = { s.core with links := s.core.links.unlink p } := by
  have hstats : ∀ (s : Kernel) stats, ({ s with stats } : Kernel).core = s.core := fun _ _ => rfl
  rw [sched_remove, hstats, core_set_links, core_link_back, core_link_forward]
  rfl

theorem core_park (s : Kernel) (p : Ptr) (state : ProcState) :
    (park s p state).core = s.core.apply (.park p state) := by
  simp only [park, core_sched_remove, core_set_state]
  rfl

theorem core_sched_add {s : Kernel} {p : Ptr} (hdead : (s.mem p).state ≠ .dead)
    (hzombie : (s.mem p).state ≠ .zombie) :
    (sched_add s p).core =
      { s.core with links := if s.core.Linked p then s.core.links else s.core.links.push_back p } := by
  have hguard : s.core.Linked p ↔
      ((s.mem p).next ≠ none ∨ (s.mem p).prev ≠ none ∨ s.run_queue_head = some p) := Iff.rfl
  have htail : ∀ (s : Kernel) tail stats,
      ({ s with run_queue_tail := tail, stats } : Kernel).core =
        { s.core with links := { s.core.links with tail } } := fun _ _ _ => rfl
  by_cases hlinked : s.core.Linked p
  · have hadd : sched_add s p = s := by
      simp only [sched_add, hdead, hzombie, or_self, if_false, hguard.mp hlinked, if_true]
    rw [hadd, if_pos hlinked]
  · rw [hguard] at hlinked
    simp only [sched_add, hdead, hzombie, or_self, if_false, hlinked, hguard]
    rw [htail, core_link_forward, core_set_links]
    rfl

theorem core_make_ready (s : Kernel) (p : Ptr) :
    (make_ready s p).core = s.core.apply (.ready p) := by
  have hstate : ((s.modify p fun q => { q with state := .ready }).mem p).state = .ready := by
    simp [Kernel.modify]
  rw [make_ready, core_sched_add (by simp [hstate]) (by simp [hstate]), core_set_state]
  rfl

/-! ## Switching -/

theorem core_preempt (s : Kernel) :
    (s.on_current fun prev =>
      if (s.mem prev).state = .running then s.modify prev fun q => { q with state := .ready }
      else s).core = { s.core with state := s.core.preempted } := by
  cases hcurrent : s.current with
  | none =>
    have hsame : s.core.preempted = s.core.state := by
      funext x
      simp [Core.preempted, Kernel.core, hcurrent]
    simp [Kernel.on_current, hcurrent, hsame]
  | some prev =>
    have hstates : s.core.preempted =
        if (s.mem prev).state = .running then update s.core.state prev .ready
        else s.core.state := by
      funext x
      by_cases hx : x = prev
      · subst hx
        by_cases hrun : (s.mem x).state = .running <;>
          simp [Core.preempted, Kernel.core, hcurrent, hrun]
      · by_cases hrun : (s.mem prev).state = .running <;>
          simp [Core.preempted, Kernel.core, hcurrent, hrun, hx, Ne.symm hx]
    simp only [Kernel.on_current, hcurrent, hstates]
    by_cases hrun : (s.mem prev).state = .running
    · simp only [hrun, if_true, core_set_state]
    · simp only [hrun, if_false]

theorem core_account (s : Kernel) (now : UInt64) :
    (s.on_current fun prev =>
      s.modify prev fun q => { q with cpu_time := q.cpu_time + (now - q.last_run) }).core =
      s.core := by
  cases hcurrent : s.current with
  | none => simp only [Kernel.on_current, hcurrent]
  | some prev =>
    simp only [Kernel.on_current, hcurrent]
    exact core_modify rfl

theorem core_start_running (s : Kernel) (p : Ptr) (now : UInt64) :
    (s.modify p fun q => { q with state := .running, last_run := now, wait_time := 0 }).core =
      { s.core with state := update s.core.state p .running } := by
  simp [core_write]

theorem core_schedule {s : Kernel} (hpreempt : s.preempt_count = 0) :
    (schedule s).core = s.core.apply (.dispatch (sched_pick s)) := by
  have hstats : ∀ (s : Kernel) current stats,
      ({ s with current, stats } : Kernel).core = { s.core with current } := fun _ _ _ => rfl
  simp only [schedule, hpreempt, ne_eq, not_true_eq_false, if_false]
  split
  · rw [hstats, core_start_running, core_account, core_preempt]
    rfl
  · next hsame =>
    rw [core_set_state, core_preempt]
    have hcurrent : s.core.current = some (sched_pick s) := by
      have hkeep := congrArg Core.current (core_preempt s)
      exact hkeep.symm.trans (not_not.mp hsame)
    simp only [Core.apply, ← hcurrent]

/-! ## Creation and destruction -/

theorem proc_alloc_pid_cases {s : Kernel} (hpos : 1 ≤ s.next_pid) (hmax : s.next_pid ≤ MAX_PROC) :
    proc_alloc_pid s = (s, PID_INVALID) ∨
      ∃ pid, 1 ≤ pid ∧ pid < MAX_PROC ∧ s.proc_table pid = none ∧
        proc_alloc_pid s =
          ({ s with next_pid := if MAX_PROC ≤ pid + 1 then 1 else pid + 1 }, pid) := by
  unfold proc_alloc_pid
  cases hfirst : free_pid s s.next_pid (MAX_PROC - s.next_pid) with
  | some pid =>
    have hmem := List.mem_of_find?_eq_some hfirst
    have hempty := List.find?_some hfirst
    rw [List.mem_range'_1] at hmem
    exact .inr ⟨pid, by omega, by omega, by simpa using hempty, rfl⟩
  | none =>
    cases hsecond : free_pid s 1 (s.next_pid - 1) with
    | some pid =>
      have hmem := List.mem_of_find?_eq_some hsecond
      have hempty := List.find?_some hsecond
      rw [List.mem_range'_1] at hmem
      exact .inr ⟨pid, by omega, by omega, by simpa using hempty, rfl⟩
    | none => exact .inl rfl

theorem core_table_add {s : Kernel} {p : Ptr} {pid : Nat} (hpid : (s.mem p).pid = pid)
    (hpos : 1 ≤ pid) (hmax : pid < MAX_PROC) :
    (proc_table_add s p).core =
      { s.core with table := update s.core.table pid (some p) } := by
  have hslot : ¬ (pid = PID_INVALID ∨ MAX_PROC ≤ pid) := by
    simp only [PID_INVALID]
    omega
  simp only [proc_table_add, hpid, hslot, if_false]
  rfl

theorem core_start {s t : Kernel} {a : Ptr} {pid : Nat} (now : UInt64)
    (hwiped : t.core = { s.core.apply (.wipe a) with
      pid := update s.core.pid a pid
      heap := a :: s.core.heap
      cursor := if MAX_PROC ≤ pid + 1 then 1 else pid + 1 })
    (hpos : 1 ≤ pid) (hmax : pid < MAX_PROC) :
    (proc_table_add (t.modify a (·.start now)) a).core = s.core.apply (.spawn a pid) := by
  have hsleep : (t.mem a).sleep_until = 0 := by
    exact (congrFun (congrArg Core.sleep_until hwiped) a).trans (by simp [Core.apply])
  have hpid : (t.mem a).pid = pid := by
    exact (congrFun (congrArg Core.pid hwiped) a).trans (by simp)
  rw [core_table_add (by simp [Kernel.modify, Process.start, hpid]) hpos hmax, core_write, hwiped]
  simp [Core.apply, Links.clear, write_some, Process.start, hsleep, hpid]

/-- What `proc_create` can come to. -/
inductive Created (s : Kernel) (a : Ptr) : Kernel × Option Ptr → Prop
  | refused : Created s a (s, none)
  | no_pid {s' : Kernel} (hfresh : a ∉ s.heap) (hidle : a ≠ idle_proc)
      (hcore : s'.core = s.core.apply (.wipe a)) : Created s a (s', none)
  | created {s' : Kernel} {pid : Nat} (hfresh : a ∉ s.heap) (hidle : a ≠ idle_proc)
      (hpos : 1 ≤ pid) (hmax : pid < MAX_PROC) (hempty : s.proc_table pid = none)
      (hcore : s'.core = s.core.apply (.spawn a pid)) : Created s a (s', some a)

theorem proc_create_cases {s : Kernel} (hpos : 1 ≤ s.next_pid) (hmax : s.next_pid ≤ MAX_PROC)
    (parent : Option Ptr) (a : Ptr) : Created s a (proc_create s parent a) := by
  unfold proc_create kmalloc
  by_cases hused : a = idle_proc ∨ a ∈ s.heap
  · simp only [hused, if_true]
    exact .refused
  · obtain ⟨hidle, hfresh⟩ := not_or.mp hused
    simp only [hused, if_false]
    have hwipe : (s.modify a fun _ => .zero).core = s.core.apply (.wipe a) := by
      simp [core_write, Core.apply, Links.clear, Process.zero]
    rcases proc_alloc_pid_cases (s := s.modify a fun _ => .zero) hpos hmax with
      hnone | ⟨pid, hpid, hpidMax, hempty, halloc⟩
    · simp only [hnone, if_true]
      exact .no_pid hfresh hidle hwipe
    · have hvalid : pid ≠ PID_INVALID := by
        simp only [PID_INVALID]
        omega
      simp only [halloc, hvalid, if_false]
      refine .created hfresh hidle hpid hpidMax hempty ?_
      have hpidCore : ∀ (s : Kernel) next_pid heap,
          ({ ({ s with next_pid } : Kernel).modify a fun q => { q with pid } with heap } : Kernel).core =
            { s.core with pid := update s.core.pid a pid, heap, cursor := next_pid } := by
        intro s next_pid heap
        have := core_write s a fun q => { q with pid }
        simp only [keep_state, keep_sleep, keep_next, keep_prev] at this
        exact congrArg (fun c : Core => { c with heap, cursor := next_pid }) this
      cases parent with
      | none =>
        refine core_start _ ?_ hpid hpidMax
        refine (core_modify rfl).trans ?_
        refine (hpidCore _ _ _).trans ?_
        rw [hwipe]
        simp [Core.apply]
        rfl
      | some par =>
        refine core_start _ ?_ hpid hpidMax
        refine (core_modify rfl).trans ?_
        refine (hpidCore _ _ _).trans ?_
        rw [hwipe]
        simp [Core.apply]
        rfl

theorem core_destroy {s : Kernel} {p : Ptr} (hpos : 1 ≤ (s.mem p).pid)
    (hmax : (s.mem p).pid < MAX_PROC) : (proc_destroy s p).core = s.core.apply (.free p) := by
  have hslot : ¬ ((s.mem p).pid = PID_INVALID ∨ MAX_PROC ≤ (s.mem p).pid) := by
    simp only [PID_INVALID]
    omega
  have hremove : ∀ (s : Kernel) proc_table,
      ({ s with proc_table } : Kernel).core = { s.core with table := proc_table } := fun _ _ => rfl
  have hheap : ∀ (s : Kernel) heap, ({ s with heap } : Kernel).core = { s.core with heap } :=
    fun _ _ => rfl
  unfold proc_destroy proc_table_remove
  have hparents := core_reparent s (s.mem p).pid
  generalize proc_reparent_children s (s.mem p).pid = t at hparents ⊢
  have hpid : (t.mem p).pid = (s.mem p).pid := congrFun (congrArg Core.pid hparents) p
  have htable : t.proc_table = s.proc_table := congrArg Core.table hparents
  have hblocks : t.heap = s.heap := congrArg Core.heap hparents
  simp only [hpid, hslot, if_false, htable]
  rw [hheap, core_set_state, hremove, hparents]
  simp only [Kernel.modify, hblocks]
  rfl

/-! ## The choice of the next process -/

/-- The process that is picked is idle, or a ready one on the queue. -/
theorem sched_pick_cases (s : Kernel) :
    sched_pick s = idle_proc ∨
      ((s.mem (sched_pick s)).state = .ready ∧ s.links.Reached (sched_pick s)) := by
  have hfold : ∀ (l : List Ptr) (acc : Option Ptr × Int),
      (∀ x ∈ l, s.links.Reached x) →
      (∀ b, acc.1 = some b → (s.mem b).state = .ready ∧ s.links.Reached b) →
      ∀ b, (l.foldl (sched_consider s) acc).1 = some b →
        (s.mem b).state = .ready ∧ s.links.Reached b := by
    intro l
    induction l with
    | nil => exact fun _ _ hacc => hacc
    | cons x l ih =>
      intro acc hl hacc
      refine ih _ (fun y hy => hl y (List.mem_cons_of_mem x hy)) fun b hb => ?_
      -- each turn keeps the best process or takes the ready one in hand
      by_cases hready : (s.mem x).state = .ready
      · have hkeep : (sched_consider s acc x).1 = acc.1 ∨ (sched_consider s acc x).1 = some x := by
          unfold sched_consider
          grind
        rcases hkeep with hkeep | hkeep
        · exact hacc b (hkeep ▸ hb)
        · obtain rfl : x = b := by simpa [hkeep] using hb
          exact ⟨hready, hl x (by simp)⟩
      · have hkeep : sched_consider s acc x = acc := by simp [sched_consider, hready]
        exact hacc b (hkeep ▸ hb)
  unfold sched_pick
  cases hbest : (s.run_queue.foldl (sched_consider s) (none, INT64_MAX)).1 with
  | none => exact .inl rfl
  | some b =>
    exact .inr (hfold s.run_queue (none, INT64_MAX)
      (Links.walk_reached fun x hx => .head hx) (by simp) b hbest)

end graceos.proc
