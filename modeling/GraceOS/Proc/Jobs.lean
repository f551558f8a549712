import GraceOS.Lib.Machine
import GraceOS.Proc.Lifecycle

/-!
# Signals, jobs, and the process subsystem as a machine

The functions of `job.c`, and the calls of the whole subsystem as the steps of a machine that
starts behind `sched_init`. A call that takes a `process_t*` takes the pid of that process here.
-/

namespace graceos.proc

def SIGKILL : Int := 9
def SIGTERM : Int := 15
def SIGCONT : Int := 18
def SIGSTOP : Int := 19

def MAX_JOBS : Nat := 64

/-! ## Signals -/

/-- Root may signal anyone, others only processes of their own. -/
def may_signal (s : Kernel) (p : Ptr) : Bool :=
  match s.current with
  | none => true
  | some sender =>
    (s.mem sender).uid = 0 ∨ (s.mem p).uid = (s.mem sender).uid ∨ (s.mem p).uid = (s.mem sender).euid

/-- What a signal does to its target. -/
def deliver (s : Kernel) (p : Ptr) (signal : Int) : Kernel :=
  if signal = SIGKILL then proc_terminate s p SIGKILL
  else if signal = SIGTERM then proc_terminate s p SIGTERM
  else if signal = SIGSTOP then park s p .blocked
  else if signal = SIGCONT then
    if (s.mem p).state = .blocked then make_ready s p else s
  else proc_terminate s p signal

def proc_kill (s : Kernel) (pid : Nat) (signal : Int) : Kernel × Int :=
  match proc_find s pid with
  | none => (s, -1)
  | some p => if may_signal s p then (deliver s p signal, 0) else (s, -1)

/-! ## Jobs -/

/-- The first slot of the job table that meets `good`. -/
def find_job (s : Kernel) (good : Job → Bool) : Option Nat :=
  (List.range MAX_JOBS).find? fun i => good (s.jobs i)

def Kernel.set_job (s : Kernel) (slot : Nat) (job : Job) : Kernel :=
  { s with jobs := Function.update s.jobs slot job }

def job_create (s : Kernel) (csid leader : Nat) : Kernel × Int :=
  match find_job s (·.csid = 0) with
  | none => (s, -1)
  | some slot =>
    let job := { csid, leader, state := .running, job_num := s.next_job_num }
    ({ s.set_job slot job with next_job_num := s.next_job_num + 1 }, job.job_num)

def job_find_by_csid (s : Kernel) (csid : Nat) : Option Nat := find_job s (·.csid = csid)

def job_find_by_num (s : Kernel) (job_num : Int) : Option Nat :=
  find_job s fun job => job.job_num = job_num ∧ job.csid ≠ 0

def job_remove (s : Kernel) (csid : Nat) : Kernel :=
  match find_job s (·.csid = csid) with
  | some slot => s.set_job slot {}
  | none => s

/-- Signals the processes of `procs` in turn; the result is -1 if any of them fails. -/
def kill_each (s : Kernel) (procs : List Ptr) (signal : Int) : Kernel × Int :=
  procs.foldl (fun (s, result) p =>
    let (s', r) := proc_kill s (s.mem p).pid signal
    (s', if r < 0 then -1 else result)) (s, 0)

/-- The state a job is left in by a signal to its processes. -/
def Job.signalled (job : Job) (signal : Int) : Job :=
  if signal = SIGKILL ∨ signal = SIGTERM then { job with state := .done }
  else if signal = SIGSTOP then { job with state := .stopped }
  else if signal = SIGCONT then { job with state := .running }
  else job

def job_kill_csid (s : Kernel) (csid : Nat) (signal : Int) : Kernel × Int :=
  match proc_get_csid_group s csid 64 with
  | [] => (s, -1)
  | procs =>
    let (s, result) := kill_each s procs signal
    match job_find_by_csid s csid with
    | some slot => (s.set_job slot ((s.jobs slot).signalled signal), result)
    | none => (s, result)

def job_kill_num (s : Kernel) (job_num signal : Int) : Kernel × Int :=
  match job_find_by_num s job_num with
  | none => (s, -1)
  | some slot => job_kill_csid s (s.jobs slot).csid signal

/-- Resumes a job, in the foreground or in the background. -/
def job_resume (s : Kernel) (job_num : Int) : Kernel × Int :=
  match job_find_by_num s job_num with
  | none => (s, -1)
  | some slot =>
    let s := if (s.jobs slot).state = .stopped then (job_kill_csid s (s.jobs slot).csid SIGCONT).1
      else s
    (s.set_job slot { s.jobs slot with state := .running }, 0)

def job_fg (s : Kernel) (job_num : Int) : Kernel × Int := job_resume s job_num

def job_bg (s : Kernel) (job_num : Int) : Kernel × Int := job_resume s job_num

/-! ## The machine -/

/-- The calls of the subsystem. A call that allocates says which block it gets. -/
inductive Op
  | proc_create (parent : Option Nat) (a : Ptr)
  | proc_set_ready (pid : Nat)
  | proc_set_blocked (pid : Nat)
  | proc_set_zombie (pid : Nat) (exit_code : Int)
  | proc_invalidate (pid : Nat)
  | proc_fork (a : Ptr)
  | proc_vfork (a : Ptr)
  | proc_exit (code : Int)
  | proc_terminate (pid : Nat) (signal : Int)
  | proc_reap_zombies
  | proc_wait (pid options : Nat)
  | proc_wait_resume (pid options : Nat)
  | proc_setuid (pid uid : Nat)
  | proc_setsid
  | schedule
  | sched_yield
  | sched_block
  | sched_sleep
  | sched_unblock (pid : Nat)
  | sched_tick
  | timer_tick
  | proc_check_sleepers
  | sys_sleep (ms : Int)
  | sched_set_priority (pid : Nat) (priority : Int)
  | sched_set_nice (pid : Nat) (nice : Int)
  | sched_disable_preempt
  | sched_enable_preempt
  | proc_kill (pid : Nat) (signal : Int)
  | job_create (csid leader : Nat)
  | job_remove (csid : Nat)
  | job_kill_csid (csid : Nat) (signal : Int)
  | job_kill_num (job_num signal : Int)
  | job_fg (job_num : Int)
  | job_bg (job_num : Int)

/-- Runs `f` on the process with this pid, if there is one. -/
def Kernel.on_pid (s : Kernel) (pid : Nat) (f : Ptr → Kernel) : Kernel :=
  match proc_find s pid with
  | some p => f p
  | none => s

def Kernel.step (s : Kernel) : Op → Kernel
  | .proc_create parent a =>
    match parent with
    | none => (proc_create s none a).1
    | some pid => s.on_pid pid fun par => (proc_create s (some par) a).1
  | .proc_set_ready pid => s.on_pid pid (proc.proc_set_ready s)
  | .proc_set_blocked pid => s.on_pid pid (proc.proc_set_blocked s)
  | .proc_set_zombie pid code => s.on_pid pid (proc.proc_set_zombie s · code)
  | .proc_invalidate pid => s.on_pid pid (proc.proc_invalidate s)
  | .proc_fork a => (proc_fork s a).1
  | .proc_vfork a => (proc_vfork s a).1
  | .proc_exit code => proc.proc_exit s code
  | .proc_terminate pid signal => s.on_pid pid (proc.proc_terminate s · signal)
  | .proc_reap_zombies => proc.proc_reap_zombies s
  | .proc_wait pid options => (proc_wait s pid options).1
  | .proc_wait_resume pid options => (proc_wait_resume s pid options).1
  | .proc_setuid pid uid => s.on_pid pid fun p => (proc_setuid s p uid).1
  | .proc_setsid => (proc_setsid s).1
  | .schedule => proc.schedule s
  | .sched_yield => proc.sched_yield s
  | .sched_block => proc.sched_block s
  | .sched_sleep => proc.sched_sleep s
  | .sched_unblock pid => s.on_pid pid (proc.sched_unblock s)
  | .sched_tick => proc.sched_tick s
  | .timer_tick => proc.timer_tick s
  | .proc_check_sleepers => proc.proc_check_sleepers s
  | .sys_sleep ms => proc.sys_sleep s ms
  | .sched_set_priority pid priority => s.on_pid pid (proc.sched_set_priority s · priority)
  | .sched_set_nice pid nice => s.on_pid pid (proc.sched_set_nice s · nice)
  | .sched_disable_preempt => proc.sched_disable_preempt s
  | .sched_enable_preempt => proc.sched_enable_preempt s
  | .proc_kill pid signal => (proc_kill s pid signal).1
  | .job_create csid leader => (job_create s csid leader).1
  | .job_remove csid => proc.job_remove s csid
  | .job_kill_csid csid signal => (job_kill_csid s csid signal).1
  | .job_kill_num job_num signal => (job_kill_num s job_num signal).1
  | .job_fg job_num => (job_fg s job_num).1
  | .job_bg job_num => (job_bg s job_num).1

/-- The kernel behind `sched_init`. -/
def boot : Kernel := sched_init proc_table_init

/-- The kernel after the calls `ops`. -/
def Kernel.run (s : Kernel) (ops : List Op) : Kernel := machine.run Kernel.step s ops

end graceos.proc
