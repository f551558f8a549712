import GraceOS.Proc.Sched

/-!
# The life of a process

State transitions (`proc.c`), forking (`fork.c`), exiting (`zombie.c`), waiting (`wait.c`), and
the credentials and invalidation of `security.c`.
-/

namespace graceos.proc

/-! ## State transitions -/

def proc_set_ready (s : Kernel) (p : Ptr) : Kernel :=
  -- the dead are not resurrected
  if (s.mem p).state = .zombie ∨ (s.mem p).state = .dead then s else make_ready s p

def proc_set_blocked (s : Kernel) (p : Ptr) : Kernel := park s p .blocked

def proc_set_zombie (s : Kernel) (p : Ptr) (exit_code : Int) : Kernel :=
  let s := s.modify p fun q => { q with exit_code }
  let s := park s p .zombie
  sched_wake_parent s (s.mem p).pid

def proc_invalidate (s : Kernel) (p : Ptr) : Kernel :=
  park (s.modify p fun q => { q with valid := false }) p .blocked

/-! ## Forking -/

/-- The result is the child's pid, or `PID_ANY` on an error. -/
def proc_fork (s : Kernel) (a : Ptr) : Kernel × Nat :=
  match s.current with
  | none => (s, PID_ANY)
  | some parent =>
    if (s.mem parent).flags &&& PROC_FLAG_NOFORK ≠ 0 then (s, PID_ANY)
    else match proc_create s (some parent) a with
      | (s, none) => (s, PID_ANY)
      | (s, some child) =>
        let s := s.modify child fun q => { q with est_runtime := (s.mem parent).est_runtime }
        let s := make_ready s child
        (s, (s.mem child).pid)

def proc_vfork (s : Kernel) (a : Ptr) : Kernel × Nat :=
  match s.current with
  | none => (s, PID_ANY)
  | some parent =>
    match proc_create s (some parent) a with
    | (s, none) => (s, PID_ANY)
    | (s, some child) =>
      -- block the parent until the child exits or execs
      let s := park s parent .blocked
      let s := make_ready s child
      (s, (s.mem child).pid)

/-! ## Exiting -/

def proc_exit (s : Kernel) (code : Int) : Kernel :=
  match s.current with
  | none => s
  | some p =>
    if (s.mem p).state = .zombie ∨ (s.mem p).state = .dead then s
    else
      let s := s.modify p fun q => { q with exit_code := code, exit_signal := 0 }
      let s := proc_reparent_children s (s.mem p).pid
      let s := park s p .zombie
      let s := sched_wake_parent s (s.mem p).pid
      schedule s

def proc_terminate (s : Kernel) (p : Ptr) (signal : Int) : Kernel :=
  let s := s.modify p fun q => { q with exit_signal := signal, exit_code := 0 }
  let s := proc_reparent_children s (s.mem p).pid
  let s := park s p .zombie
  let s := sched_wake_parent s (s.mem p).pid
  if s.current = some p then schedule s else s

def proc_reap_zombies (s : Kernel) : Kernel :=
  (proc_get_children s PID_INIT 64).foldl (fun s p =>
    if (s.mem p).state = .zombie then proc_destroy s p else s) s

/-! ## Waiting -/

def WNOHANG : Nat := 0x01

def find_zombie_child (s : Kernel) (parent_pid target_pid : Nat) : Option Ptr :=
  (proc_get_children s parent_pid 64).find? fun child =>
    (target_pid = PID_ANY ∨ (s.mem child).pid = target_pid) ∧ (s.mem child).state = .zombie

def has_children (s : Kernel) (parent_pid target_pid : Nat) : Bool :=
  let children := proc_get_children s parent_pid 64
  if target_pid = PID_ANY then 0 < children.length
  else children.any fun child => (s.mem child).pid = target_pid

/-- The status word of a dead child. -/
def wait_status (zombie : Process) : Int :=
  if zombie.exit_signal ≠ 0 then zombie.exit_signal % 0x80 else zombie.exit_code % 0x100 * 0x100

/-- How a call of `proc_wait` leaves off: with a pid and a status word, or asleep in its loop. -/
inductive WaitResult
  | returned (pid : Nat) (status : Option Int)
  | asleep
  deriving DecidableEq, Repr

/-- One turn of the loop of `proc_wait`, up to its sleep. -/
def wait_turn (s : Kernel) (parent : Ptr) (pid options : Nat) : Kernel × WaitResult :=
  match find_zombie_child s (s.mem parent).pid pid with
  | some zombie =>
    (proc_destroy s zombie, .returned (s.mem zombie).pid (some (wait_status (s.mem zombie))))
  | none =>
    if options &&& WNOHANG ≠ 0 then (s, .returned 0 none)
    else (sched_sleep (s.modify parent fun q => { q with state := .wait }), .asleep)

def proc_wait (s : Kernel) (pid options : Nat) : Kernel × WaitResult :=
  match s.current with
  | none => (s, .returned PID_ANY none)
  | some parent =>
    if has_children s (s.mem parent).pid pid then
      wait_turn (s.modify parent fun q => { q with waiting_for := pid }) parent pid options
    else (s, .returned PID_ANY none)

/-- `proc_wait` from where its caller slept. -/
def proc_wait_resume (s : Kernel) (pid options : Nat) : Kernel × WaitResult :=
  match s.current with
  | none => (s, .returned PID_ANY none)
  | some parent =>
    if has_children s (s.mem parent).pid pid then wait_turn s parent pid options
    else (s, .returned PID_ANY none)

/-! ## Credentials -/

def proc_has_cap (q : Process) (cap : UInt32) : Bool := q.euid = 0 ∨ q.caps &&& cap ≠ 0

def proc_setuid (s : Kernel) (p : Ptr) (uid : Nat) : Kernel × Int :=
  if proc_has_cap (s.mem p) CAP_SETUID then (s.modify p fun q => { q with uid, euid := uid }, 0)
  else (s, -1)

/-- Starts a new session; 0 is an error. -/
def proc_setsid (s : Kernel) : Kernel × Nat :=
  match s.current with
  | none => (s, 0)
  | some p =>
    if (s.mem p).pid = (s.mem p).csid then (s, 0)
    else
      let (s, csid) := proc_alloc_csid s
      (s.modify p fun q => { q with csid }, csid)

end graceos.proc
