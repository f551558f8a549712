import Mathlib.Logic.Function.Basic
import GraceOS.Lib.LinkedQueue

/-!
# Process control blocks, the process table and process creation

The data model of `proc.h` and `job.c`, and the functions of `table.c` and `proc.c` that work on
it. A `process_t*` is an address; the idle process is a static object at an address of its own.
-/

namespace graceos.proc

open linkq

/-- The address of a `process_t`. -/
abbrev Ptr := Nat

/-- `&idle_proc`. -/
def idle_proc : Ptr := 0

@[irreducible] def MAX_PROC : Nat := 8192

def PID_INVALID : Nat := 0
def PID_KERNEL : Nat := 0
def PID_INIT : Nat := 1

/-- `(pid_t)-1`: any child, or an error. -/
def PID_ANY : Nat := 65535

def PROC_FLAG_KERNEL : UInt32 := 0x01
def PROC_FLAG_NOFORK : UInt32 := 0x08
def PROC_FLAG_ORPHAN : UInt32 := 0x20

def CAP_SETUID : UInt32 := 0x2
def CAP_ALL : UInt32 := 0xFFFFFFFF

def SCHED_DEFAULT_PRIORITY : Int := 20
def SCHED_MIN_PRIORITY : Int := 0
def SCHED_MAX_PRIORITY : Int := 40

/-- `proc_state_t`. -/
inductive ProcState
  | new
  | ready
  | running
  | wait
  | blocked
  | zombie
  | dead
  deriving DecidableEq, Repr

/-- The fields of `process_t` that process management and scheduling use. -/
structure Process where
  pid : Nat := 0
  csid : Nat := 0
  parent : Nat := 0
  state : ProcState := .new
  valid : Bool := false
  flags : UInt32 := 0
  start_time : UInt64 := 0
  cpu_time : UInt64 := 0
  est_runtime : UInt64 := 0
  wait_time : UInt64 := 0
  last_run : UInt64 := 0
  sleep_until : UInt64 := 0
  exit_code : Int := 0
  exit_signal : Int := 0
  uid : Nat := 0
  euid : Nat := 0
  gid : Nat := 0
  egid : Nat := 0
  caps : UInt32 := 0
  base_priority : Int := 0
  current_priority : Int := 0
  nice : Int := 0
  waiting_for : Nat := 0
  next : Option Ptr := none
  prev : Option Ptr := none

/-- `memset(p, 0, sizeof(process_t))`. -/
def Process.zero : Process := {}

/-- `sched_stats_t`, less `zombie_count`, which nothing writes. -/
structure SchedStats where
  context_switches : UInt64 := 0
  idle_time : UInt64 := 0
  total_ticks : UInt64 := 0
  runnable_count : UInt32 := 0
  blocked_count : UInt32 := 0

/-- `job_state_t`. -/
inductive JobState
  | running
  | stopped
  | done
  deriving DecidableEq, Repr

/-- `job_t`, less the command text. -/
structure Job where
  csid : Nat := 0
  leader : Nat := 0
  state : JobState := .running
  job_num : Int := 0

/-- The globals of the process subsystem, and the memory its pointers lead to. `heap` lists the
blocks that `kmalloc` has handed out for PCBs and not got back. -/
structure Kernel where
  mem : Ptr → Process
  heap : List Ptr
  proc_table : Nat → Option Ptr
  next_pid : Nat
  next_csid : Nat
  current : Option Ptr
  run_queue_head : Option Ptr
  run_queue_tail : Option Ptr
  preempt_count : Int
  stats : SchedStats
  boot_ticks : UInt64
  jobs : Nat → Job
  next_job_num : Int

/-- Writes to the PCB at `p`. -/
def Kernel.modify (s : Kernel) (p : Ptr) (f : Process → Process) : Kernel :=
  { s with mem := Function.update s.mem p (f (s.mem p)) }

/-- The links of the run queue. -/
def Kernel.links (s : Kernel) : Links Ptr where
  next p := (s.mem p).next
  prev p := (s.mem p).prev
  head := s.run_queue_head
  tail := s.run_queue_tail

/-! ## The process table -/

/-- The occupied slots of `proc_table`, in the order the loops of `table.c` visit them. -/
def Kernel.procs (s : Kernel) : List Ptr := (List.range MAX_PROC).filterMap s.proc_table

theorem mem_procs {s : Kernel} {p : Ptr} :
    p ∈ s.procs ↔ ∃ pid, pid < MAX_PROC ∧ s.proc_table pid = some p := by
  simp only [Kernel.procs, List.mem_filterMap, List.mem_range]

def proc_find (s : Kernel) (pid : Nat) : Option Ptr :=
  if pid = PID_INVALID ∨ MAX_PROC ≤ pid then none else s.proc_table pid

def proc_table_add (s : Kernel) (p : Ptr) : Kernel :=
  let pid := (s.mem p).pid
  if pid = PID_INVALID ∨ MAX_PROC ≤ pid then s
  else { s with proc_table := Function.update s.proc_table pid (some p) }

def proc_table_remove (s : Kernel) (pid : Nat) : Kernel :=
  if pid = PID_INVALID ∨ MAX_PROC ≤ pid then s
  else { s with proc_table := Function.update s.proc_table pid none }

/-- The first empty slot among the `n` from `pid` on. -/
def free_pid (s : Kernel) (pid n : Nat) : Option Nat :=
  (List.range' pid n).find? fun i => (s.proc_table i).isNone

def proc_alloc_pid (s : Kernel) : Kernel × Nat :=
  let take := fun pid =>
    ({ s with next_pid := if MAX_PROC ≤ pid + 1 then 1 else pid + 1 }, pid)
  match free_pid s s.next_pid (MAX_PROC - s.next_pid) with
  | some pid => take pid
  | none =>
    -- wrap around and search from 1
    match free_pid s 1 (s.next_pid - 1) with
    | some pid => take pid
    | none => (s, PID_INVALID)

def proc_alloc_csid (s : Kernel) : Kernel × Nat :=
  let next := (s.next_csid + 1) % 2 ^ 16
  ({ s with next_csid := if next = 0 then 1 else next }, s.next_csid)

def proc_get_csid_group (s : Kernel) (csid max : Nat) : List Ptr :=
  (s.procs.filter fun p => (s.mem p).csid = csid).take max

def proc_get_children (s : Kernel) (parent max : Nat) : List Ptr :=
  (s.procs.filter fun p => (s.mem p).parent = parent).take max

def proc_reparent_children (s : Kernel) (old_parent : Nat) : Kernel :=
  s.procs.foldl (fun s p =>
    if (s.mem p).parent = old_parent then
      s.modify p fun q => { q with parent := PID_INIT, flags := q.flags ||| PROC_FLAG_ORPHAN }
    else s) s

/-! ## Creation and destruction -/

/-- The allocator hands out any block that is not in use; `a` is the one it picks. An `a` that
is in use stands for an allocation that fails. -/
def kmalloc (s : Kernel) (a : Ptr) : Option Ptr :=
  if a = idle_proc ∨ a ∈ s.heap then none else some a

/-- What `proc_create` takes over from the parent. -/
def Process.inherit (q parent : Process) : Process :=
  { q with
    parent := parent.pid, csid := parent.csid
    uid := parent.uid, euid := parent.euid, gid := parent.gid, egid := parent.egid
    caps := parent.caps
    base_priority := parent.base_priority, nice := parent.nice }

/-- What `proc_create` gives a new session leader. -/
def Process.lead (q : Process) (csid : Nat) : Process :=
  { q with
    csid, parent := PID_KERNEL
    uid := 0, euid := 0, gid := 0, egid := 0
    caps := CAP_ALL
    base_priority := SCHED_DEFAULT_PRIORITY, nice := 0 }

/-- The rest of a new PCB. -/
def Process.start (q : Process) (now : UInt64) : Process :=
  { q with
    state := .new, valid := true, flags := 0
    start_time := now, cpu_time := 0, est_runtime := 100, wait_time := 0, last_run := 0
    current_priority := q.base_priority
    waiting_for := PID_INVALID
    next := none, prev := none }

def proc_create (s : Kernel) (parent : Option Ptr) (a : Ptr) : Kernel × Option Ptr :=
  match kmalloc s a with
  | none => (s, none)
  | some p =>
    let s := s.modify p fun _ => .zero
    let (s, pid) := proc_alloc_pid s
    -- without a pid the block is given back
    if pid = PID_INVALID then (s, none)
    else
      let s := { s.modify p fun q => { q with pid } with heap := p :: s.heap }
      let s := match parent with
        | some par => s.modify p fun q => q.inherit (s.mem par)
        | none =>
          let (s, csid) := proc_alloc_csid s
          s.modify p fun q => q.lead csid
      let s := s.modify p (·.start s.boot_ticks)
      (proc_table_add s p, some p)

def proc_destroy (s : Kernel) (p : Ptr) : Kernel :=
  let s := proc_reparent_children s (s.mem p).pid
  let s := proc_table_remove s (s.mem p).pid
  let s := s.modify p fun q => { q with state := .dead }
  { s with heap := s.heap.filter (· ≠ p) }

end graceos.proc
