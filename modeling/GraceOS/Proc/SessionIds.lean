import GraceOS.Proc.Fields
import GraceOS.Proc.Jobs

/-!
# Session ids

`proc_alloc_csid` counts up to 65535 and starts again at 1. What every call does to the session ids
is said once (`step_csid`); over it, a machine that numbers the sessions themselves says when two
sessions share an id.
-/

namespace graceos.proc

open machine Function

theorem inert_csid : Inert Process.csid :=
  ⟨fun _ _ => rfl, fun _ _ _ => rfl, fun _ _ _ _ _ => rfl, fun _ _ _ => rfl⟩

/-! ## Calls that issue no id -/

section Kept

variable {s : Kernel} {p : Ptr}

theorem on_pid_keeps {pid : Nat} {f : Ptr → Kernel} (hf : ∀ p, Keeps Process.csid s (f p)) :
    Keeps Process.csid s (s.on_pid pid f) := by
  unfold Kernel.on_pid
  split
  · exact hf _
  · exact .refl

theorem proc_exit_keeps (s : Kernel) (code : Int) : Keeps Process.csid s (proc_exit s code) := by
  unfold proc_exit
  split
  · exact .refl
  · split
    · exact .refl
    · next p _ _ =>
      have hexit : Keeps Process.csid s (s.modify p fun q => { q with exit_code := code, exit_signal := 0 }) :=
        modify_keeps rfl
      exact (hexit.trans (inert_csid.zombify _ p)).trans (inert_csid.schedule _)

theorem proc_terminate_keeps (s : Kernel) (p : Ptr) (signal : Int) : Keeps Process.csid s
    (proc_terminate s p signal) := by
  have hexit : Keeps Process.csid s (s.modify p fun q => { q with exit_signal := signal, exit_code := 0 }) :=
    modify_keeps rfl
  have hzombie := hexit.trans (inert_csid.zombify _ p)
  unfold proc_terminate
  dsimp only
  split
  · exact hzombie.trans (inert_csid.schedule _)
  · exact hzombie

theorem proc_set_zombie_keeps (s : Kernel) (p : Ptr) (code : Int) : Keeps Process.csid s
    (proc_set_zombie s p code) := by
  have hexit : Keeps Process.csid s (s.modify p fun q => { q with exit_code := code }) := modify_keeps rfl
  exact (hexit.trans (inert_csid.park _ p .zombie)).trans (inert_csid.sched_wake_parent _ _)

theorem proc_set_ready_keeps (s : Kernel) (p : Ptr) : Keeps Process.csid s (proc_set_ready s p) := by
  unfold proc_set_ready
  split
  · exact .refl
  · exact inert_csid.make_ready s p

theorem proc_invalidate_keeps (s : Kernel) (p : Ptr) : Keeps Process.csid s (proc_invalidate s p) := by
  have hvalid : Keeps Process.csid s (s.modify p fun q => { q with valid := false }) := modify_keeps rfl
  exact hvalid.trans (inert_csid.park _ p .blocked)

theorem proc_reap_zombies_keeps (s : Kernel) : Keeps Process.csid s (proc_reap_zombies s) := by
  refine foldl_keeps (fun s p => ?_) _ s
  split
  · exact inert_csid.proc_destroy s p
  · exact .refl

theorem sched_sleep_keeps (s : Kernel) : Keeps Process.csid s (sched_sleep s) :=
  (on_current_keeps fun c _ => inert_csid.park s c .wait).trans (inert_csid.schedule _)

theorem wait_turn_keeps (s : Kernel) (parent : Ptr) (pid options : Nat) :
    Keeps Process.csid s (wait_turn s parent pid options).1 := by
  unfold wait_turn
  split
  · exact inert_csid.proc_destroy s _
  · split
    · exact .refl
    · exact (inert_csid.set_state s parent .wait).trans (sched_sleep_keeps _)

theorem proc_wait_keeps (s : Kernel) (pid options : Nat) : Keeps Process.csid s (proc_wait s pid options).1 := by
  unfold proc_wait
  split
  · exact .refl
  · split
    · next parent _ _ =>
      have hwait : Keeps Process.csid s (s.modify parent fun q => { q with waiting_for := pid }) := modify_keeps rfl
      exact hwait.trans (wait_turn_keeps _ parent pid options)
    · exact .refl

theorem proc_wait_resume_keeps (s : Kernel) (pid options : Nat) :
    Keeps Process.csid s (proc_wait_resume s pid options).1 := by
  unfold proc_wait_resume
  split
  · exact .refl
  · split
    · exact wait_turn_keeps _ _ pid options
    · exact .refl

theorem proc_setuid_keeps (s : Kernel) (p : Ptr) (uid : Nat) : Keeps Process.csid s (proc_setuid s p uid).1 := by
  have hset : Keeps Process.csid s (s.modify p fun q => { q with uid, euid := uid }) := modify_keeps rfl
  unfold proc_setuid
  split
  · exact hset
  · exact .refl

theorem sched_yield_keeps (s : Kernel) : Keeps Process.csid s (sched_yield s) :=
  (on_current_keeps fun c _ => inert_csid.set_state s c .ready).trans (inert_csid.schedule _)

theorem sched_block_keeps (s : Kernel) : Keeps Process.csid s (sched_block s) := by
  refine Keeps.trans (on_current_keeps fun c _ => ?_) (inert_csid.schedule _)
  exact (inert_csid.park s c .blocked).trans ⟨fun _ => rfl, rfl, fun _ _ h => h⟩

theorem sys_sleep_keeps (s : Kernel) (ms : Int) : Keeps Process.csid s (sys_sleep s ms) := by
  unfold sys_sleep
  split
  · exact .refl
  · split
    · exact .refl
    · next c _ =>
      have hsleep : Keeps Process.csid s
          (s.modify c fun q => { q with sleep_until := s.boot_ticks + UInt64.ofInt ms }) := modify_keeps rfl
      exact (hsleep.trans (inert_csid.park _ c .blocked)).trans (inert_csid.schedule _)

theorem note_sleepers_keeps (l wake : List Ptr) (s : Kernel) :
    Keeps Process.csid s (l.foldl note_sleeper (s, wake)).1 := by
  induction l generalizing s wake with
  | nil => exact .refl
  | cons p l ih =>
    rw [List.foldl_cons, note_sleeper]
    split
    · have hnote : Keeps Process.csid s (s.modify p fun q => { q with sleep_until := 0 }) := modify_keeps rfl
      exact hnote.trans (ih _ _)
    · exact ih _ _

theorem proc_check_sleepers_keeps (s : Kernel) : Keeps Process.csid s (proc_check_sleepers s) :=
  (note_sleepers_keeps s.procs [] s).trans (foldl_keeps inert_csid.sched_unblock _ _)

theorem sched_count_keeps (s : Kernel) : Keeps Process.csid s (sched_count s) := by
  have hage : ∀ s : Kernel, Keeps Process.csid s (sched_age s) := by
    intro s
    refine foldl_keeps (fun t p => ?_) _ s
    split
    · exact modify_keeps rfl
    · exact .refl
  have hstats : Keeps Process.csid s { s with stats := { s.stats with total_ticks := s.stats.total_ticks + 1 } } :=
    ⟨fun _ => rfl, rfl, fun _ _ h => h⟩
  unfold sched_count
  dsimp only
  split
  · exact (hstats.trans (hage _)).trans ⟨fun _ => rfl, rfl, fun _ _ h => h⟩
  · exact hstats.trans (hage _)

theorem sched_preempt_keeps (s : Kernel) (have_runnable : Bool) : Keeps Process.csid s
    (sched_preempt s have_runnable) := by
  unfold sched_preempt
  split
  · exact inert_csid.schedule s
  · refine on_current_keeps fun c _ => ?_
    split
    · exact inert_csid.schedule s
    · exact .refl

theorem sched_tick_keeps (s : Kernel) : Keeps Process.csid s (sched_tick s) :=
  ((sched_count_keeps s).trans (proc_check_sleepers_keeps _)).trans (sched_preempt_keeps _ _)

theorem proc_kill_keeps (s : Kernel) (pid : Nat) (signal : Int) : Keeps Process.csid s (proc_kill s pid signal).1 := by
  have hdeliver : ∀ p, Keeps Process.csid s (deliver s p signal) := by
    intro p
    unfold deliver
    split
    · exact proc_terminate_keeps s p _
    · split
      · exact proc_terminate_keeps s p _
      · split
        · exact inert_csid.park s p .blocked
        · split
          · split
            · exact inert_csid.make_ready s p
            · exact .refl
          · exact proc_terminate_keeps s p _
  unfold proc_kill
  split
  · exact .refl
  · split
    · exact hdeliver _
    · exact .refl

theorem kill_each_keeps (procs : List Ptr) (s : Kernel) (signal : Int) :
    Keeps Process.csid s (kill_each s procs signal).1 := by
  unfold kill_each
  have hfirst : s = (s, (0 : Int)).1 := rfl
  generalize (s, (0 : Int)) = start at hfirst ⊢
  subst hfirst
  induction procs generalizing start with
  | nil => exact .refl
  | cons p procs ih =>
    refine Keeps.trans ?_ (ih _)
    exact proc_kill_keeps start.1 (start.1.mem p).pid signal

theorem set_job_keeps (s : Kernel) (slot : Nat) (job : Job) : Keeps Process.csid s (s.set_job slot job) :=
  ⟨fun _ => rfl, rfl, fun _ _ h => h⟩

theorem job_kill_csid_keeps (s : Kernel) (csid : Nat) (signal : Int) :
    Keeps Process.csid s (job_kill_csid s csid signal).1 := by
  unfold job_kill_csid
  split
  · exact .refl
  · have hkill := kill_each_keeps (proc_get_csid_group s csid 64) s signal
    dsimp only
    split
    · exact hkill.trans (set_job_keeps _ _ _)
    · exact hkill

theorem job_kill_num_keeps (s : Kernel) (job_num signal : Int) : Keeps Process.csid s
    (job_kill_num s job_num signal).1 := by
  unfold job_kill_num
  split
  · exact .refl
  · exact job_kill_csid_keeps s _ signal

theorem job_resume_keeps (s : Kernel) (job_num : Int) : Keeps Process.csid s (job_resume s job_num).1 := by
  unfold job_resume
  split
  · exact .refl
  · dsimp only
    split
    · exact (job_kill_csid_keeps s _ SIGCONT).trans (set_job_keeps _ _ _)
    · exact set_job_keeps _ _ _

theorem job_create_keeps (s : Kernel) (csid leader : Nat) : Keeps Process.csid s (job_create s csid leader).1 := by
  unfold job_create
  split
  · exact .refl
  · exact ⟨fun _ => rfl, rfl, fun _ _ h => h⟩

theorem job_remove_keeps (s : Kernel) (csid : Nat) : Keeps Process.csid s (job_remove s csid) := by
  unfold job_remove
  split
  · exact set_job_keeps _ _ _
  · exact .refl

end Kept

/-! ## What a call does to session ids -/

/-- What happens to session ids in a call. -/
inductive Event
  | none
  /-- A block is cleared and given back. -/
  | wipe (a : Ptr)
  /-- A new process joins the session of `parent`. -/
  | join (a parent : Ptr)
  /-- A process, new or not, starts a session. -/
  | lead (p : Ptr)

/-- The event of `proc_create`. -/
def creation (s : Kernel) (parent : Option Ptr) (a : Ptr) : Event :=
  match kmalloc s a with
  | none => .none
  | some p =>
    if (proc_alloc_pid (s.modify p fun _ => .zero)).2 = PID_INVALID then .wipe p
    else match parent with
      | some par => .join p par
      | none => .lead p

def event (s : Kernel) : Op → Event
  | .proc_create none a => creation s none a
  | .proc_create (some pid) a =>
    match proc_find s pid with
    | some par => creation s (some par) a
    | none => .none
  | .proc_fork a =>
    match s.current with
    | none => .none
    | some parent => if (s.mem parent).flags &&& PROC_FLAG_NOFORK ≠ 0 then .none else creation s (some parent) a
  | .proc_vfork a =>
    match s.current with
    | none => .none
    | some parent => creation s (some parent) a
  | .proc_setsid =>
    match s.current with
    | none => .none
    | some p => if (s.mem p).pid = (s.mem p).csid then .none else .lead p
  | _ => .none

/-- The session ids of all PCBs. -/
def Kernel.csids (s : Kernel) : Ptr → Nat := fun p => (s.mem p).csid

/-- The session ids after an event. -/
def Event.csids (s : Kernel) : Event → Ptr → Nat
  | .none => s.csids
  | .wipe a => Function.update s.csids a 0
  | .join a parent => Function.update s.csids a (Function.update s.csids a 0 parent)
  | .lead p => Function.update s.csids p (proc_alloc_csid s).2

/-- The counter after an event. -/
def Event.next (s : Kernel) : Event → Nat
  | .lead _ => (proc_alloc_csid s).1.next_csid
  | _ => s.next_csid

/-- The process that an event may add to the table. -/
def Event.Adds (q : Ptr) : Event → Prop
  | .join a _ => q = a
  | .lead p => q = p
  | _ => False

/-- The effect of an event on the session ids, the counter and the table. -/
structure Effect (e : Event) (s s' : Kernel) : Prop where
  csids : s'.csids = e.csids s
  next : s'.next_csid = e.next s
  table : ∀ pid q, s'.proc_table pid = some q → s.proc_table pid = some q ∨ e.Adds q

variable {s s' s'' : Kernel} {e : Event}

theorem Keeps.effect (h : Keeps Process.csid s s') : Effect .none s s' :=
  ⟨funext h.field, h.next, fun pid q hq => .inl (h.table pid q hq)⟩

theorem Effect.keeps (h : Effect e s s') (h' : Keeps Process.csid s' s'') : Effect e s s'' :=
  ⟨(funext h'.field).trans h.csids, h'.next.trans h.next, fun pid q hq => h.table pid q (h'.table pid q hq)⟩

theorem csids_modify (s : Kernel) (p : Ptr) (f : Process → Process) :
    (s.modify p f).csids = Function.update s.csids p (f (s.mem p)).csid := modify_field Process.csid s p f

theorem proc_alloc_pid_same (s : Kernel) : (proc_alloc_pid s).1.mem = s.mem ∧
    (proc_alloc_pid s).1.next_csid = s.next_csid ∧ (proc_alloc_pid s).1.proc_table = s.proc_table := by
  unfold proc_alloc_pid
  dsimp only
  split
  · exact ⟨rfl, rfl, rfl⟩
  · split <;> exact ⟨rfl, rfl, rfl⟩

theorem enter_effect (t : Kernel) (p : Ptr) (now : UInt64) :
    let t' := proc_table_add (t.modify p (·.start now)) p
    t'.csids = t.csids ∧ t'.next_csid = t.next_csid ∧
    ∀ pid q, t'.proc_table pid = some q → t.proc_table pid = some q ∨ q = p := by
  have hstart : (t.modify p (·.start now)).csids = t.csids :=
    (csids_modify t p _).trans (update_eq_self p t.csids)
  dsimp only
  unfold proc_table_add
  dsimp only
  split
  · exact ⟨hstart, rfl, fun _ _ hq => .inl hq⟩
  · refine ⟨hstart, rfl, fun pid q hq => ?_⟩
    dsimp only at hq
    by_cases hpid : pid = ((t.modify p (·.start now)).mem p).pid
    · rw [hpid, update_self, Option.some.injEq] at hq
      exact .inr hq.symm
    · rw [update_of_ne hpid] at hq
      exact .inl hq

theorem proc_create_effect (s : Kernel) (parent : Option Ptr) (a : Ptr) :
    Effect (creation s parent a) s (proc_create s parent a).1 := by
  unfold creation proc_create
  cases kmalloc s a with
  | none => exact ⟨rfl, rfl, fun _ _ hq => .inl hq⟩
  | some p =>
    dsimp only
    have hwiped : (s.modify p fun _ => Process.zero).csids = Function.update s.csids p 0 := csids_modify s p _
    obtain ⟨hmem, hnext, htable⟩ := proc_alloc_pid_same (s.modify p fun _ => Process.zero)
    generalize proc_alloc_pid (s.modify p fun _ => Process.zero) = r at hmem hnext htable
    obtain ⟨s₁, pid⟩ := r
    dsimp only at hmem hnext htable ⊢
    have hcsids : s₁.csids = Function.update s.csids p 0 := by
      rw [← hwiped]
      exact congrArg (fun m => fun x => Process.csid (m x)) hmem
    have hsame : s₁.next_csid = s.next_csid := hnext
    have htab : s₁.proc_table = s.proc_table := htable
    by_cases hpid : pid = PID_INVALID
    · rw [if_pos hpid, if_pos hpid]
      exact ⟨hcsids, hsame, fun k q hq => .inl (htab ▸ hq)⟩
    · rw [if_neg hpid, if_neg hpid]
      have hnamed : (s₁.modify p fun q => { q with pid }).csids = Function.update s.csids p 0 :=
        ((csids_modify s₁ p _).trans (update_eq_self p s₁.csids)).trans hcsids
      cases parent with
      | some par =>
        obtain ⟨hadd, haddnext, haddtable⟩ := enter_effect
          ({ s₁.modify p fun q => { q with pid } with heap := p :: s₁.heap }.modify p fun q =>
            q.inherit ((s₁.modify p fun q => { q with pid }).mem par)) p s₁.boot_ticks
        refine ⟨hadd.trans ((csids_modify _ _ _).trans ?_), haddnext.trans hsame,
          fun k q hq => (haddtable k q hq).imp_left fun hq => htab ▸ hq⟩
        have hjoin : Function.update (s₁.modify p fun q => { q with pid }).csids p
            ((s₁.modify p fun q => { q with pid }).csids par) =
              Function.update s.csids p (Function.update s.csids p 0 par) := by
          rw [hnamed, update_idem]
        exact hjoin
      | none =>
        obtain ⟨hadd, haddnext, haddtable⟩ := enter_effect
          ((proc_alloc_csid { s₁.modify p fun q => { q with pid } with heap := p :: s₁.heap }).1.modify p fun q =>
            q.lead s₁.next_csid) p s₁.boot_ticks
        refine ⟨hadd.trans ((csids_modify _ _ _).trans ?_), haddnext.trans ?_,
          fun k q hq => (haddtable k q hq).imp_left fun hq => htab ▸ hq⟩
        · have hlead : Function.update (s₁.modify p fun q => { q with pid }).csids p s₁.next_csid =
              Function.update s.csids p s.next_csid := by
            rw [hnamed, update_idem, hsame]
          exact hlead
        · simp only [Event.next, proc_alloc_csid, Kernel.modify, hsame]

theorem proc_fork_effect (s : Kernel) (a : Ptr) : Effect (event s (.proc_fork a)) s (proc_fork s a).1 := by
  unfold proc_fork
  simp only [event]
  cases s.current with
  | none => exact ⟨rfl, rfl, fun _ _ hq => .inl hq⟩
  | some parent =>
    dsimp only
    split
    · exact ⟨rfl, rfl, fun _ _ hq => .inl hq⟩
    · have hcreate := proc_create_effect s (some parent) a
      split
      · next heq =>
        rw [heq] at hcreate
        exact hcreate
      · next s₁ child heq =>
        rw [heq] at hcreate
        have hruntime : Keeps Process.csid s₁
            (s₁.modify child fun q => { q with est_runtime := (s₁.mem parent).est_runtime }) := modify_keeps rfl
        exact hcreate.keeps (hruntime.trans (inert_csid.make_ready _ child))

theorem proc_vfork_effect (s : Kernel) (a : Ptr) : Effect (event s (.proc_vfork a)) s (proc_vfork s a).1 := by
  unfold proc_vfork
  simp only [event]
  cases s.current with
  | none => exact ⟨rfl, rfl, fun _ _ hq => .inl hq⟩
  | some parent =>
    dsimp only
    have hcreate := proc_create_effect s (some parent) a
    split
    · next heq =>
      rw [heq] at hcreate
      exact hcreate
    · next s₁ child heq =>
      rw [heq] at hcreate
      exact hcreate.keeps ((inert_csid.park s₁ parent .blocked).trans (inert_csid.make_ready _ child))

theorem proc_setsid_effect (s : Kernel) : Effect (event s .proc_setsid) s (proc_setsid s).1 := by
  unfold proc_setsid
  simp only [event]
  cases s.current with
  | none => exact ⟨rfl, rfl, fun _ _ hq => .inl hq⟩
  | some p =>
    dsimp only
    split
    · exact ⟨rfl, rfl, fun _ _ hq => .inl hq⟩
    · exact ⟨csids_modify (proc_alloc_csid s).1 p fun q => { q with csid := (proc_alloc_csid s).2 }, rfl,
        fun _ _ hq => .inl hq⟩

/-- What a call does to the session ids. -/
theorem step_csid (s : Kernel) (op : Op) : Effect (event s op) s (s.step op) := by
  cases op with
  | proc_create parent a =>
    cases parent with
    | none => exact proc_create_effect s none a
    | some pid =>
      simp only [Kernel.step, Kernel.on_pid, event]
      cases proc_find s pid with
      | none => exact ⟨rfl, rfl, fun _ _ hq => .inl hq⟩
      | some par => exact proc_create_effect s (some par) a
  | proc_fork a => exact proc_fork_effect s a
  | proc_vfork a => exact proc_vfork_effect s a
  | proc_setsid => exact proc_setsid_effect s
  | proc_set_ready pid => exact (on_pid_keeps (proc_set_ready_keeps s)).effect
  | proc_set_blocked pid => exact (on_pid_keeps fun p => inert_csid.park s p .blocked).effect
  | proc_set_zombie pid code => exact (on_pid_keeps fun p => proc_set_zombie_keeps s p code).effect
  | proc_invalidate pid => exact (on_pid_keeps (proc_invalidate_keeps s)).effect
  | proc_exit code => exact (proc_exit_keeps s code).effect
  | proc_terminate pid signal => exact (on_pid_keeps fun p => proc_terminate_keeps s p signal).effect
  | proc_reap_zombies => exact (proc_reap_zombies_keeps s).effect
  | proc_wait pid options => exact (proc_wait_keeps s pid options).effect
  | proc_wait_resume pid options => exact (proc_wait_resume_keeps s pid options).effect
  | proc_setuid pid uid => exact (on_pid_keeps fun p => proc_setuid_keeps s p uid).effect
  | schedule => exact (inert_csid.schedule s).effect
  | sched_yield => exact (sched_yield_keeps s).effect
  | sched_block => exact (sched_block_keeps s).effect
  | sched_sleep => exact (sched_sleep_keeps s).effect
  | sched_unblock pid => exact (on_pid_keeps (inert_csid.sched_unblock s)).effect
  | sched_tick => exact (sched_tick_keeps s).effect
  | timer_tick => exact ⟨rfl, rfl, fun _ _ hq => .inl hq⟩
  | proc_check_sleepers => exact (proc_check_sleepers_keeps s).effect
  | sys_sleep ms => exact (sys_sleep_keeps s ms).effect
  | sched_set_priority pid priority =>
    have hset : ∀ p, Keeps Process.csid s (sched_set_priority s p priority) := fun p => by
      unfold sched_set_priority
      exact modify_keeps rfl
    exact (on_pid_keeps hset).effect
  | sched_set_nice pid nice =>
    have hset : ∀ p, Keeps Process.csid s (sched_set_nice s p nice) := fun p => by
      unfold sched_set_nice
      exact modify_keeps rfl
    exact (on_pid_keeps hset).effect
  | sched_disable_preempt => exact ⟨rfl, rfl, fun _ _ hq => .inl hq⟩
  | sched_enable_preempt => exact ⟨rfl, rfl, fun _ _ hq => .inl hq⟩
  | proc_kill pid signal => exact (proc_kill_keeps s pid signal).effect
  | job_create csid leader => exact (job_create_keeps s csid leader).effect
  | job_remove csid => exact (job_remove_keeps s csid).effect
  | job_kill_csid csid signal => exact (job_kill_csid_keeps s csid signal).effect
  | job_kill_num job_num signal => exact (job_kill_num_keeps s job_num signal).effect
  | job_fg job_num => exact (job_resume_keeps s job_num).effect
  | job_bg job_num => exact (job_resume_keeps s job_num).effect

/-! ## Sessions -/

/-- The kernel with the number of sessions that were ever started, and for each PCB the number of its
session; 0 is no session. -/
structure Sessions where
  kernel : Kernel
  issued : Nat
  session : Ptr → Nat

namespace Sessions

def init : Sessions := ⟨boot, 0, fun _ => 0⟩

/-- A call changes the sessions as it does the session ids. -/
def step (t : Sessions) (op : Op) : Sessions :=
  match event t.kernel op with
  | .none => { t with kernel := t.kernel.step op }
  | .wipe a => { t with kernel := t.kernel.step op, session := Function.update t.session a 0 }
  | .join a parent =>
    { t with kernel := t.kernel.step op, session := Function.update t.session a (Function.update t.session a 0 parent) }
  | .lead p => ⟨t.kernel.step op, t.issued + 1, Function.update t.session p (t.issued + 1)⟩

@[simp] theorem kernel_step (t : Sessions) (op : Op) : (t.step op).kernel = t.kernel.step op := by
  unfold step
  split <;> rfl

theorem kernel_run (t : Sessions) (ops : List Op) : (run step t ops).kernel = t.kernel.run ops := by
  induction ops generalizing t with
  | nil => rfl
  | cons op ops ih =>
    rw [run_cons, ih, kernel_step]
    rfl

theorem kernel_run_init (ops : List Op) : (run step init ops).kernel = boot.run ops := kernel_run init ops

/-- The id of the session with this number. -/
def number (n : Nat) : Nat := if n = 0 then 0 else (n - 1) % 65535 + 1

theorem number_succ (n : Nat) : (if (number (n + 1) + 1) % 2 ^ 16 = 0 then 1 else (number (n + 1) + 1) % 2 ^ 16) =
    number (n + 2) := by
  have hnext : number (n + 1) = n % 65535 + 1 := rfl
  have hafter : number (n + 2) = (n + 1) % 65535 + 1 := rfl
  rw [hnext, hafter]
  split <;> omega

theorem number_eq_iff {m n : Nat} (hle : m ≤ n) : number m = number (n + 1) ↔ m ≠ 0 ∧ (n + 1 - m) % 65535 = 0 := by
  have hnext : number (n + 1) = n % 65535 + 1 := rfl
  rw [hnext, number]
  split <;> omega

/-- The ids are those of the sessions. -/
structure Numbered (t : Sessions) : Prop where
  next : t.kernel.next_csid = number (t.issued + 1)
  csid : ∀ p, t.kernel.csids p = number (t.session p)
  le : ∀ p, t.session p ≤ t.issued

theorem init_numbered : init.Numbered := by
  refine ⟨rfl, fun p => ?_, fun _ => Nat.le_refl 0⟩
  by_cases hp : p = idle_proc
  · subst hp
    rfl
  · simp [init, Kernel.csids, boot, sched_init, proc_table_init, Kernel.modify, hp, Process.zero, number]

variable {t : Sessions} {op : Op}

theorem Numbered.step (ht : t.Numbered) (op : Op) : (t.step op).Numbered := by
  have heffect := step_csid t.kernel op
  unfold Sessions.step
  cases hevent : event t.kernel op with
  | none =>
    rw [hevent] at heffect
    exact ⟨heffect.next.trans ht.next, fun p => (congrFun heffect.csids p).trans (ht.csid p), ht.le⟩
  | wipe a =>
    rw [hevent] at heffect
    refine ⟨heffect.next.trans ht.next, fun p => (congrFun heffect.csids p).trans ?_, fun p => ?_⟩
    · simp only [Event.csids]
      by_cases hp : p = a
      · simp [hp, number]
      · simp [hp, ht.csid p]
    · by_cases hp : p = a
      · simp [hp]
      · simp [hp, ht.le p]
  | join a parent =>
    rw [hevent] at heffect
    have hparent : Function.update t.kernel.csids a 0 parent = number (Function.update t.session a 0 parent) ∧
        Function.update t.session a 0 parent ≤ t.issued := by
      by_cases hp : parent = a
      · simp [hp, number]
      · simp [hp, ht.csid parent, ht.le parent]
    refine ⟨heffect.next.trans ht.next, fun p => (congrFun heffect.csids p).trans ?_, fun p => ?_⟩
    · simp only [Event.csids]
      by_cases hp : p = a
      · rw [hp, update_self, update_self, hparent.1]
      · rw [update_of_ne hp, update_of_ne hp, ht.csid p]
    · dsimp only
      by_cases hp : p = a
      · rw [hp, update_self]
        exact hparent.2
      · rw [update_of_ne hp]
        exact ht.le p
  | lead p =>
    rw [hevent] at heffect
    refine ⟨heffect.next.trans ?_, fun q => (congrFun heffect.csids q).trans ?_, fun q => ?_⟩
    · simp only [Event.next, proc_alloc_csid, ht.next]
      exact number_succ t.issued
    · simp only [Event.csids, proc_alloc_csid]
      by_cases hq : q = p
      · rw [hq, update_self, update_self, ht.next]
      · rw [update_of_ne hq, update_of_ne hq, ht.csid q]
    · dsimp only
      by_cases hq : q = p
      · rw [hq]
        exact Nat.le_of_eq (update_self _ _ _)
      · rw [update_of_ne hq]
        exact Nat.le_succ_of_le (ht.le q)

theorem run_numbered (ops : List Op) : (run Sessions.step init ops).Numbered :=
  (Along.of_forall (P := fun _ _ => True) (fun _ _ => trivial) ops).invariant
    (fun _ op ht _ => ht.step op) init_numbered

/-- A session was started a multiple of 65535 sessions before the next one. -/
def Clashes (t : Sessions) (p : Ptr) : Prop := t.session p ≠ 0 ∧ (t.issued + 1 - t.session p) % 65535 = 0

/-- The calls that keep sessions apart: an id is issued when no process in the table has a session that
clashes, and a process that forks is in the table itself, or has no session. -/
def Apart (t : Sessions) (op : Op) : Prop :=
  match event t.kernel op with
  | .lead _ => ∀ q ∈ t.kernel.procs, ¬ t.Clashes q
  | .join _ parent => parent ∈ t.kernel.procs ∨ t.session parent = 0
  | _ => True

/-- Processes in the table that share an id share a session. -/
def Isolated (t : Sessions) : Prop :=
  ∀ p ∈ t.kernel.procs, ∀ q ∈ t.kernel.procs, t.kernel.csids p = t.kernel.csids q → t.session p = t.session q

theorem Numbered.clashes_iff (ht : t.Numbered) (q : Ptr) :
    t.kernel.csids q = (proc_alloc_csid t.kernel).2 ↔ t.Clashes q := by
  simp only [proc_alloc_csid, ht.next, ht.csid q, Clashes]
  exact number_eq_iff (ht.le q)

theorem Numbered.session_eq_zero (ht : t.Numbered) {q : Ptr} (hq : t.kernel.csids q = 0) : t.session q = 0 := by
  rw [ht.csid q, number] at hq
  split at hq
  · assumption
  · omega

theorem Isolated.update {t' : Sessions} (hisolated : t.Isolated) {a : Ptr} {csid session : Nat}
    (hcsids : t'.kernel.csids = Function.update t.kernel.csids a csid)
    (hsession : t'.session = Function.update t.session a session)
    (hprocs : ∀ q ∈ t'.kernel.procs, q ≠ a → q ∈ t.kernel.procs)
    (hshare : ∀ q ∈ t.kernel.procs, t.kernel.csids q = csid → t.session q = session) : t'.Isolated := by
  intro p hp q hq hsame
  rw [hcsids] at hsame
  rw [hsession]
  by_cases hpa : p = a
  · by_cases hqa : q = a
    · rw [hpa, hqa]
    · rw [hpa, update_self, update_of_ne hqa] at hsame
      rw [hpa, update_self, update_of_ne hqa]
      exact (hshare q (hprocs q hq hqa) hsame.symm).symm
  · rw [update_of_ne hpa] at hsame ⊢
    by_cases hqa : q = a
    · rw [hqa, update_self] at hsame ⊢
      exact hshare p (hprocs p hp hpa) hsame
    · rw [update_of_ne hqa] at hsame ⊢
      exact hisolated p (hprocs p hp hpa) q (hprocs q hq hqa) hsame

theorem mem_procs_of_effect {s s' : Kernel} {e : Event} (heffect : Effect e s s') {q : Ptr} (hq : q ∈ s'.procs)
    (hnew : ¬ e.Adds q) : q ∈ s.procs := by
  obtain ⟨pid, hpid, htable⟩ := mem_procs.mp hq
  exact mem_procs.mpr ⟨pid, hpid, (heffect.table pid q htable).resolve_right hnew⟩

theorem Isolated.step (ht : t.Numbered) (hisolated : t.Isolated) (hapart : t.Apart op) : (t.step op).Isolated := by
  have heffect := step_csid t.kernel op
  unfold Apart at hapart
  unfold Sessions.step
  cases hevent : event t.kernel op with
  | none =>
    rw [hevent] at heffect
    intro p hp q hq hsame
    dsimp only at hp hq hsame
    rw [heffect.csids] at hsame
    exact hisolated p (mem_procs_of_effect heffect hp id) q (mem_procs_of_effect heffect hq id) hsame
  | wipe a =>
    rw [hevent] at heffect
    exact hisolated.update heffect.csids rfl (fun q hq _ => mem_procs_of_effect heffect hq id)
      fun q _ hzero => ht.session_eq_zero hzero
  | join a parent =>
    rw [hevent] at heffect hapart
    refine hisolated.update heffect.csids rfl (fun q hq hne => mem_procs_of_effect heffect hq hne) fun q hq hsame => ?_
    by_cases hpa : parent = a
    · rw [hpa, update_self] at hsame ⊢
      exact ht.session_eq_zero hsame
    · rw [update_of_ne hpa] at hsame ⊢
      rcases hapart with hlisted | hnone
      · exact hisolated q hq parent hlisted hsame
      · rw [hnone]
        refine ht.session_eq_zero (hsame.trans ?_)
        rw [ht.csid parent, hnone]
        rfl
  | lead p =>
    rw [hevent] at heffect hapart
    exact hisolated.update heffect.csids rfl (fun q hq hne => mem_procs_of_effect heffect hq hne)
      fun q hq hsame => absurd ((ht.clashes_iff q).mp hsame) (hapart q hq)

theorem run_isolated {ops : List Op} (hapart : Along Sessions.step Apart init ops) :
    (run Sessions.step init ops).Isolated := by
  have hboth := hapart.invariant (I := fun t => t.Numbered ∧ t.Isolated)
    (fun t op ht hop => ⟨ht.1.step op, Isolated.step ht.1 ht.2 hop⟩) ⟨init_numbered, fun _ _ _ _ _ => rfl⟩
  exact hboth.2

end Sessions

/-- After any calls, the next id that is issued differs from that of every process in the table
exactly when the call keeps sessions apart; and in a run all of whose calls do, the processes that
`job_kill_csid` signals are of one session. -/
theorem csids_isolate_sessions (ops : List Op) :
    let t := run Sessions.step .init ops
    t.kernel = boot.run ops ∧
    (∀ op p, event t.kernel op = .lead p → (t.kernel.step op).csids p = (proc_alloc_csid t.kernel).2 ∧
      ((∀ q ∈ t.kernel.procs, t.kernel.csids q ≠ (proc_alloc_csid t.kernel).2) ↔ t.Apart op)) ∧
    (Along Sessions.step Sessions.Apart .init ops → ∀ csid, ∀ p ∈ proc_get_csid_group t.kernel csid 64,
      ∀ q ∈ proc_get_csid_group t.kernel csid 64, t.session p = t.session q) := by
  intro t
  have ht : t.Numbered := Sessions.run_numbered ops
  refine ⟨Sessions.kernel_run_init ops, fun op p hevent => ⟨?_, ?_⟩, fun hapart csid p hp q hq => ?_⟩
  · have heffect := (step_csid t.kernel op).csids
    rw [hevent] at heffect
    rw [heffect]
    exact update_self _ _ _
  · simp only [Sessions.Apart, hevent, ne_eq, ht.clashes_iff]
  · have hgroup : ∀ p ∈ proc_get_csid_group t.kernel csid 64, p ∈ t.kernel.procs ∧ t.kernel.csids p = csid := by
      intro p hp
      have hmem := List.mem_of_mem_take hp
      rw [List.mem_filter, decide_eq_true_eq] at hmem
      exact hmem
    have hisolated : t.Isolated := Sessions.run_isolated hapart
    exact hisolated p (hgroup p hp).1 q (hgroup q hq).1 ((hgroup p hp).2.trans (hgroup q hq).2.symm)

/-- Two processes in sessions of their own. -/
theorem csids_isolate_two_sessions :
    let ops := [.proc_create none 1, .proc_create none 2]
    let t := run Sessions.step .init ops
    Along Sessions.step Sessions.Apart .init ops ∧ t.kernel.procs = [1, 2] ∧ t.kernel.csids 1 ≠ t.kernel.csids 2 ∧
      ∀ csid, ∀ p ∈ proc_get_csid_group t.kernel csid 64, ∀ q ∈ proc_get_csid_group t.kernel csid 64,
        t.session p = t.session q := by
  have hlead (s : Kernel) (a : Ptr) (hheap : kmalloc s a = some a)
      (hpid : (proc_alloc_pid (s.modify a fun _ => .zero)).2 ≠ PID_INVALID) :
      event s (.proc_create none a) = .lead a := by
    simp only [event, creation, hheap, if_neg hpid]
  have hapart : Along Sessions.step Sessions.Apart .init [.proc_create none 1, .proc_create none 2] := by
    refine ⟨((csids_isolate_sessions []).2.1 _ 1 (hlead _ 1 ?_ ?_)).2.mp ?_,
      ((csids_isolate_sessions [.proc_create none 1]).2.1 _ 2 (hlead _ 2 ?_ ?_)).2.mp ?_, trivial⟩
    all_goals decide +kernel
  exact ⟨hapart, by decide +kernel, by decide +kernel, (csids_isolate_sessions _).2.2 hapart⟩

/-- Two sessions with a process each, and a second process in the first of them that runs. -/
def two_sessions : List Op :=
  [.proc_create none 1, .proc_set_ready 1, .schedule, .proc_fork 2, .proc_create none 3, .proc_set_blocked 1, .schedule]

theorem two_sessions_state : let t := run Sessions.step .init two_sessions
    (t.issued = 2 ∧ t.session 1 = 1 ∧ t.session 2 = 1) ∧ t.kernel.current = some 2 ∧ (t.kernel.mem 2).pid = 2 ∧
      t.kernel.proc_table 1 = some 1 := by
  decide +kernel

/-- The running process starts one session after the other. -/
theorem many_sessions_state (n : Nat) (hn : n ≤ 65533) :
    let t := run Sessions.step .init (two_sessions ++ List.replicate n .proc_setsid)
    (t.issued = 2 + n ∧ t.session 1 = 1 ∧ t.session 2 = if n = 0 then 1 else 2 + n) ∧ t.kernel.current = some 2 ∧
      (t.kernel.mem 2).pid = 2 ∧ t.kernel.proc_table 1 = some 1 := by
  induction n with
  | zero =>
    simp only [List.replicate_zero, List.append_nil, if_true]
    exact two_sessions_state
  | succ n ih =>
    have ht : (run Sessions.step .init (two_sessions ++ List.replicate n .proc_setsid)).Numbered :=
      Sessions.run_numbered _
    rw [List.replicate_succ', ← List.append_assoc, run_append, run_cons, run_nil]
    obtain ⟨⟨hissued, hfirst, hsecond⟩, hcurrent, hpid, htable⟩ := ih (by omega)
    generalize run Sessions.step .init (two_sessions ++ List.replicate n .proc_setsid) = t at *
    have hne : (t.kernel.mem 2).pid ≠ (t.kernel.mem 2).csid := by
      have hcsid : (t.kernel.mem 2).csid = Sessions.number (t.session 2) := ht.csid 2
      rw [hpid, hcsid, hsecond, Sessions.number]
      split <;> split <;> omega
    have hevent : event t.kernel .proc_setsid = .lead 2 := by
      simp only [event, hcurrent, if_neg hne]
    have hstep : t.kernel.step .proc_setsid = (proc_alloc_csid t.kernel).1.modify 2 fun q =>
        { q with csid := (proc_alloc_csid t.kernel).2 } := by
      simp only [Kernel.step, proc_setsid, hcurrent, if_neg hne]
    have hsession : t.step .proc_setsid = ⟨t.kernel.step .proc_setsid, t.issued + 1,
        Function.update t.session 2 (t.issued + 1)⟩ := by
      rw [Sessions.step, hevent]
    simp only [hsession, hstep]
    refine ⟨⟨by omega, ?_, ?_⟩, hcurrent, ?_, htable⟩
    · rw [update_of_ne (by decide), hfirst]
    · rw [update_self, hissued, if_neg (Nat.succ_ne_zero n)]
      omega
    · simpa [Kernel.modify, proc_alloc_csid] using hpid

theorem wrapped_state (n : Nat) (hn : n = 65533) :
    let s := boot.run (two_sessions ++ List.replicate n .proc_setsid)
    event s .proc_setsid = .lead 2 ∧ 1 ∈ s.procs ∧ s.csids 1 = (proc_alloc_csid s).2 := by
  rw [← Sessions.kernel_run_init]
  have ht : (run Sessions.step .init (two_sessions ++ List.replicate n .proc_setsid)).Numbered :=
    Sessions.run_numbered _
  obtain ⟨⟨hissued, hfirst, hsecond⟩, hcurrent, hpid, htable⟩ := many_sessions_state n (by omega)
  generalize run Sessions.step .init (two_sessions ++ List.replicate n .proc_setsid) = t at *
  subst hn
  have hne : (t.kernel.mem 2).pid ≠ (t.kernel.mem 2).csid := by
    have hcsid : (t.kernel.mem 2).csid = Sessions.number (t.session 2) := ht.csid 2
    rw [hpid, hcsid, hsecond]
    decide
  have hclash : t.Clashes 1 := by
    rw [Sessions.Clashes, hissued, hfirst]
    decide
  exact ⟨by simp only [event, hcurrent, if_neg hne], mem_procs.mpr ⟨1, by unfold MAX_PROC; decide, htable⟩,
    (ht.clashes_iff 1).mpr hclash⟩

/-- After 65535 sessions the next one gets the id of the first, which still has a process. -/
theorem csid_wraps_around : ¬ ∀ (ops : List Op) (op : Op) (p : Ptr), event (boot.run ops) op = .lead p →
    ∀ q ∈ (boot.run ops).procs, (boot.run ops).csids q ≠ (proc_alloc_csid (boot.run ops)).2 := by
  intro h
  -- the length of the run stays a variable, so that the run is not evaluated
  obtain ⟨n, hn⟩ : ∃ n, n = 65533 := ⟨_, rfl⟩
  obtain ⟨hevent, hlisted, hsame⟩ := wrapped_state n hn
  exact h _ .proc_setsid 2 hevent 1 hlisted hsame

end graceos.proc
