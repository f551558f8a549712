import GraceOS.Proc.Process

/-!
# The scheduler

The functions of `sched.c`, the sleep timer of `table.c`, and `sys_sleep`. A spinlock is held for
a whole function and has no part in the model.
-/

namespace graceos.proc

open linkq

def SCHED_QUANTUM_MS : UInt64 := 10
def SCHED_AGING_FACTOR : UInt64 := 100
def SCHED_INVALID_PENALTY : Int := 10000
def INT64_MAX : Int := 2 ^ 63 - 1
def INT64_MIN : Int := -2 ^ 63

/-! ## The run queue -/

/-- Makes `v` the successor of `p`, or the head of the queue if `p` is no process. -/
def link_forward (s : Kernel) (p v : Option Ptr) : Kernel :=
  match p with
  | some x => s.modify x fun q => { q with next := v }
  | none => { s with run_queue_head := v }

/-- Makes `v` the predecessor of `p`, or the tail of the queue if `p` is no process. -/
def link_back (s : Kernel) (p v : Option Ptr) : Kernel :=
  match p with
  | some x => s.modify x fun q => { q with prev := v }
  | none => { s with run_queue_tail := v }

def sched_add (s : Kernel) (p : Ptr) : Kernel :=
  if (s.mem p).state = .dead ∨ (s.mem p).state = .zombie then s
  -- already in the queue?
  else if (s.mem p).next ≠ none ∨ (s.mem p).prev ≠ none ∨ s.run_queue_head = some p then s
  else
    let s := s.modify p fun q => { q with next := none, prev := s.run_queue_tail }
    let s := link_forward s s.run_queue_tail (some p)
    { s with
      run_queue_tail := some p
      stats := { s.stats with runnable_count := s.stats.runnable_count + 1 } }

def sched_remove (s : Kernel) (p : Ptr) : Kernel :=
  let next := (s.mem p).next
  let prev := (s.mem p).prev
  let s := link_forward s prev next
  let s := link_back s next prev
  let s := s.modify p fun q => { q with next := none, prev := none }
  { s with
    stats := { s.stats with
      runnable_count :=
        if 0 < s.stats.runnable_count then s.stats.runnable_count - 1 else s.stats.runnable_count } }

/-- The processes a loop from `run_queue_head` visits. -/
def Kernel.run_queue (s : Kernel) : List Ptr := s.links.walk (s.heap.length + 1) s.run_queue_head

/-! ## Picking and switching -/

/-- `(int64_t)x`. -/
def as_int64 (x : UInt64) : Int := x.toBitVec.toInt

def sched_calc_score (q : Process) : Int :=
  let score := as_int64 q.est_runtime
  let score := score - as_int64 (q.wait_time / SCHED_AGING_FACTOR)
  let score := score - q.current_priority * 10
  let score := if q.valid then score else score + SCHED_INVALID_PENALTY
  if score < INT64_MIN / 2 then INT64_MIN / 2 else score

/-- One turn of the loop of `sched_pick`, on the best process so far and its score. -/
def sched_consider (s : Kernel) : Option Ptr × Int → Ptr → Option Ptr × Int
  | (best, best_score), p =>
    let q := s.mem p
    if q.state ≠ .ready then (best, best_score)
    else if !q.valid && best.isSome then (best, best_score)
    else
      let score := sched_calc_score q
      if score < best_score then (some p, score)
      else match best with
        | none => (best, best_score)
        | some b =>
          if score = best_score then
            if (s.mem b).wait_time < q.wait_time then (some p, best_score)
            else if q.wait_time = (s.mem b).wait_time ∧ s.current = some b ∧ s.current ≠ some p then
              (some p, best_score)
            else (best, best_score)
          else (best, best_score)

def sched_pick (s : Kernel) : Ptr :=
  (s.run_queue.foldl (sched_consider s) (none, INT64_MAX)).1.getD idle_proc

/-- Runs `f` on the current process, if there is one. -/
def Kernel.on_current (s : Kernel) (f : Ptr → Kernel) : Kernel :=
  match s.current with
  | some c => f c
  | none => s

/-- `preempt_count` goes up before the switch and comes down again after it, in the process that
is switched to: that process resumes behind its own `ctx_switch`, or starts in a trampoline that
counts down as well. -/
def schedule (s : Kernel) : Kernel :=
  if s.preempt_count ≠ 0 then s
  else
    let next := sched_pick s
    let s := s.on_current fun prev =>
      if (s.mem prev).state = .running then s.modify prev fun q => { q with state := .ready } else s
    if s.current ≠ some next then
      let now := s.boot_ticks
      let s := s.on_current fun prev =>
        s.modify prev fun q => { q with cpu_time := q.cpu_time + (now - q.last_run) }
      let s := s.modify next fun q => { q with state := .running, last_run := now, wait_time := 0 }
      { s with
        current := some next
        stats := { s.stats with context_switches := s.stats.context_switches + 1 } }
    else s.modify next fun q => { q with state := .running }

def sched_yield (s : Kernel) : Kernel :=
  schedule (s.on_current fun c => s.modify c fun q => { q with state := .ready })

/-! ## Blocking -/

/-- Sets the state of a process and takes it off the run queue. -/
def park (s : Kernel) (p : Ptr) (state : ProcState) : Kernel :=
  sched_remove (s.modify p fun q => { q with state }) p

/-- Marks a process ready and puts it on the run queue. -/
def make_ready (s : Kernel) (p : Ptr) : Kernel :=
  sched_add (s.modify p fun q => { q with state := .ready }) p

def sched_block (s : Kernel) : Kernel :=
  schedule (s.on_current fun c =>
    let s := park s c .blocked
    { s with stats := { s.stats with blocked_count := s.stats.blocked_count + 1 } })

def sched_sleep (s : Kernel) : Kernel :=
  schedule (s.on_current fun c => park s c .wait)

def sched_unblock (s : Kernel) (p : Ptr) : Kernel :=
  if (s.mem p).state = .blocked then
    let s := make_ready s p
    { s with
      stats := { s.stats with
        blocked_count :=
          if 0 < s.stats.blocked_count then s.stats.blocked_count - 1 else s.stats.blocked_count } }
  else s

def sched_wake_parent (s : Kernel) (child_pid : Nat) : Kernel :=
  match proc_find s child_pid with
  | none => s
  | some child =>
    match proc_find s (s.mem child).parent with
    | none => s
    | some parent =>
      if (s.mem parent).state = .wait then
        if (s.mem parent).waiting_for = child_pid ∨ (s.mem parent).waiting_for = PID_ANY then
          sched_unblock s parent
        else s
      else s

def sys_sleep (s : Kernel) (ms : Int) : Kernel :=
  if ms ≤ 0 then s
  else
    match s.current with
    | none => s
    | some c =>
      let s := s.modify c fun q => { q with sleep_until := s.boot_ticks + UInt64.ofInt ms }
      schedule (park s c .blocked)

/-! ## The timer -/

/-- The sleep of `p` is over. -/
def Kernel.expired (s : Kernel) (p : Ptr) : Prop :=
  (s.mem p).state = .blocked ∧ 0 < (s.mem p).sleep_until ∧ (s.mem p).sleep_until ≤ s.boot_ticks

instance (s : Kernel) (p : Ptr) : Decidable (s.expired p) :=
  inferInstanceAs (Decidable (_ ∧ _ ∧ _))

/-- One turn of the scan of `proc_check_sleepers`: at most 64 sleepers are noted in `wake`. -/
def note_sleeper : Kernel × List Ptr → Ptr → Kernel × List Ptr
  | (s, wake), p =>
    if wake.length < 64 ∧ s.expired p then
      (s.modify p fun q => { q with sleep_until := 0 }, wake ++ [p])
    else (s, wake)

def proc_check_sleepers (s : Kernel) : Kernel :=
  let (s, wake) := s.procs.foldl note_sleeper (s, [])
  wake.foldl sched_unblock s

/-- Ages the ready processes of the run queue. -/
def sched_age (s : Kernel) : Kernel :=
  s.run_queue.foldl (fun s p =>
    if (s.mem p).state = .ready ∧ s.current ≠ some p then
      s.modify p fun q => { q with wait_time := q.wait_time + 1 }
    else s) s

/-- The part of `sched_tick` under the lock: aging and the counters. -/
def sched_count (s : Kernel) : Kernel :=
  let s := { s with stats := { s.stats with total_ticks := s.stats.total_ticks + 1 } }
  let s := sched_age s
  if s.current = some idle_proc then
    { s with stats := { s.stats with idle_time := s.stats.idle_time + 1 } }
  else s

/-- The end of `sched_tick`: an idle processor takes up queued work, and a process whose time
slice is over gives way. -/
def sched_preempt (s : Kernel) (have_runnable : Bool) : Kernel :=
  if s.current = some idle_proc ∧ have_runnable then schedule s
  else s.on_current fun c =>
    if c ≠ idle_proc ∧ SCHED_QUANTUM_MS ≤ s.boot_ticks - (s.mem c).last_run then schedule s else s

def sched_tick (s : Kernel) : Kernel :=
  let s := sched_count s
  let have_runnable := s.run_queue_head.isSome
  sched_preempt (proc_check_sleepers s) have_runnable

/-- `timer_tick`, of which only the tick count is read here. -/
def timer_tick (s : Kernel) : Kernel := { s with boot_ticks := s.boot_ticks + 1 }

def sched_disable_preempt (s : Kernel) : Kernel := { s with preempt_count := s.preempt_count + 1 }

def sched_enable_preempt (s : Kernel) : Kernel := { s with preempt_count := s.preempt_count - 1 }

/-! ## Priorities -/

/-- A priority cut to the range the scheduler uses. -/
def clamp_priority (priority : Int) : Int :=
  if priority < SCHED_MIN_PRIORITY then SCHED_MIN_PRIORITY
  else if SCHED_MAX_PRIORITY < priority then SCHED_MAX_PRIORITY
  else priority

def sched_set_priority (s : Kernel) (p : Ptr) (priority : Int) : Kernel :=
  s.modify p fun q => { q with
    base_priority := clamp_priority priority, current_priority := clamp_priority priority }

def sched_set_nice (s : Kernel) (p : Ptr) (nice : Int) : Kernel :=
  let nice := if nice < -20 then -20 else if 19 < nice then 19 else nice
  s.modify p fun q => { q with nice, current_priority := clamp_priority (q.base_priority - nice) }

/-! ## Start -/

/-- The globals before `sched_init`, with an empty process table. -/
def proc_table_init : Kernel where
  mem _ := .zero
  heap := []
  proc_table _ := none
  next_pid := 1
  next_csid := 1
  current := none
  run_queue_head := none
  run_queue_tail := none
  preempt_count := 0
  stats := {}
  boot_ticks := 0
  jobs _ := {}
  next_job_num := 1

def sched_init (s : Kernel) : Kernel :=
  let s := { s with stats := {} }
  let s := s.modify idle_proc fun _ =>
    { Process.zero with
      pid := PID_KERNEL, csid := 0, state := .ready, valid := true, flags := PROC_FLAG_KERNEL
      base_priority := SCHED_MIN_PRIORITY, current_priority := SCHED_MIN_PRIORITY }
  { s with current := some idle_proc }

end graceos.proc
