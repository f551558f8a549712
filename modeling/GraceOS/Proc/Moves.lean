import GraceOS.Proc.Sound

/-!
# Every call is a sequence of moves

A call is described by the moves it makes. `Allows K` asks a condition `K` of exactly those moves
of a call that are the caller's choice, and `step_moves` gives it back for all moves of the call.
-/

namespace graceos.proc

open linkq machine

/-- `c'` comes from `c` by legal moves that meet `K`. -/
def Moves (K : Core → Move → Prop) (c c' : Core) : Prop :=
  ∃ ms, Along Core.apply (fun c m => c.Legal m ∧ K c m) c ms ∧ c' = machine.run Core.apply c ms

/-- The condition leaves the choice of the next process free. -/
def Switches (K : Core → Move → Prop) : Prop := ∀ c p, K c (.dispatch p)

/-- The condition leaves the creation of processes free. -/
def Creates (K : Core → Move → Prop) : Prop :=
  ∀ c p, K c (.wipe p) ∧ ∀ pid, K c (.spawn p pid)

/-- The condition leaves the destruction of processes free. -/
def Reaps (K : Core → Move → Prop) : Prop := ∀ c p, K c (.free p)

variable {K : Core → Move → Prop}

theorem Moves.refl (c : Core) : Moves K c c := ⟨[], trivial, rfl⟩

variable {c c' : Core}

theorem Moves.of_eq (h : c' = c) : Moves K c c' := ⟨[], trivial, h⟩

theorem Moves.one (m : Move) (hlegal : c.Legal m) (hK : K c m) (h : c' = c.apply m) : Moves K c c' :=
  ⟨[m], ⟨⟨hlegal, hK⟩, trivial⟩, h⟩

theorem Moves.trans {c₀ c₁ c₂ : Core} (h₁ : Moves K c₀ c₁) (h₂ : Moves K c₁ c₂) :
    Moves K c₀ c₂ := by
  obtain ⟨ms₁, hok₁, rfl⟩ := h₁
  obtain ⟨ms₂, hok₂, rfl⟩ := h₂
  exact ⟨ms₁ ++ ms₂, along_append.mpr ⟨hok₁, hok₂⟩, (run_append ms₁ ms₂).symm⟩

theorem Moves.invariant {I : Core → Prop} {c c' : Core} (h : Moves K c c')
    (hI : ∀ c m, I c → c.Legal m → K c m → I (c.apply m)) (hc : I c) : I c' := by
  obtain ⟨ms, hok, rfl⟩ := h
  exact hok.invariant (fun c m hc hm => hI c m hc hm.1 hm.2) hc

theorem Moves.sound (h : Moves K c c') (hc : c.Sound) : c'.Sound :=
  h.invariant (fun _ _ hc hlegal _ => hc.apply hlegal) hc

variable {s : Kernel}

theorem moves_run {ι : Type} {step : Kernel → ι → Kernel} {P : Kernel → ι → Prop}
    (hstep : ∀ s x, P s x → Moves K s.core (step s x).core) {l : List ι}
    (h : Along step P s l) : Moves K s.core (machine.run step s l).core := by
  induction l generalizing s with
  | nil => exact .refl _
  | cons x l ih => exact (hstep s x h.1).trans (ih h.2)

/-! ## The scheduler -/

variable {p : Ptr} {t : Kernel}

theorem schedule_moves (hK : Switches K) (s : Kernel) : Moves K s.core (schedule s).core := by
  by_cases hpreempt : s.preempt_count = 0
  · exact .one (.dispatch _) (sched_pick_cases s) (hK _ _) (core_schedule hpreempt)
  · exact .of_eq (by simp [schedule, hpreempt])

theorem park_moves {state : ProcState} (hstate : state = .blocked ∨ state = .wait ∨ state = .zombie)
    (h : K s.core (.park p state)) : Moves K s.core (park s p state).core :=
  .one (.park p state) hstate h (core_park s p state)

theorem make_ready_moves (hlisted : s.core.Listed p) (hzombie : (s.mem p).state ≠ .zombie) (h : K s.core (.ready p)) :
    Moves K s.core (make_ready s p).core :=
  .one (.ready p) ⟨hlisted, hzombie⟩ h (core_make_ready s p)

theorem sched_unblock_moves (hlisted : s.core.Listed p) (h : (s.mem p).state = .blocked → K s.core (.ready p)) :
    Moves K s.core (sched_unblock s p).core := by
  unfold sched_unblock
  split
  · next hblocked => exact make_ready_moves hlisted (by simp [hblocked]) (h hblocked)
  · exact .refl _

theorem listed_of_mem_procs (hp : p ∈ s.procs) : s.core.Listed p := by
  obtain ⟨pid, -, hpid⟩ := mem_procs.mp hp
  exact ⟨pid, hpid⟩

theorem listed_of_find {pid : Nat} (hfind : proc_find s pid = some p) :
    s.core.Listed p := by
  unfold proc_find at hfind
  split at hfind
  · simp at hfind
  · exact ⟨pid, hfind⟩

theorem find_of_listed (hs : s.core.Sound) (hlisted : s.core.Listed p) :
    proc_find s (s.mem p).pid = some p := by
  obtain ⟨pid, hpid⟩ := hlisted
  obtain ⟨hpos, hmax, hpidOf, -⟩ := hs.slots pid p hpid
  have hself : (s.mem p).pid = pid := hpidOf
  have hslot : ¬ (pid = PID_INVALID ∨ MAX_PROC ≤ pid) := by
    simp only [PID_INVALID]
    omega
  rw [proc_find, hself, if_neg hslot]
  exact hpid

/-- The scan of `proc_check_sleepers` notes processes whose sleep is over, and changes nothing
but the times they sleep until. -/
theorem note_sleepers_moves (l wake : List Ptr)
    (hallow : ∀ c p, s.expired p → K c (.sleep p 0)) (hmoves : Moves K s.core t.core)
    (htable : t.proc_table = s.proc_table) (hl : ∀ p ∈ l, s.core.Listed p)
    (hexpired : ∀ p, t.expired p → s.expired p)
    (hwake : ∀ p ∈ wake, s.core.Listed p ∧ s.expired p) :
    let r := l.foldl note_sleeper (t, wake)
    Moves K s.core r.1.core ∧ r.1.proc_table = s.proc_table ∧
      ∀ p ∈ r.2, s.core.Listed p ∧ s.expired p := by
  induction l generalizing t wake with
  | nil => exact ⟨hmoves, htable, hwake⟩
  | cons p l ih =>
    have hl' : ∀ x ∈ l, s.core.Listed x := fun x hx => hl x (List.mem_cons_of_mem p hx)
    simp only [List.foldl_cons, note_sleeper]
    split
    · next hnote =>
      have hp := hexpired p hnote.2
      refine ih _ (hmoves.trans (.one (.sleep p 0) trivial (hallow _ p hp) (core_set_sleep t p 0)))
        htable hl' ?_ ?_
      · intro x hx
        by_cases hxp : x = p
        · simp [Kernel.expired, Kernel.modify, hxp] at hx
        · exact hexpired x (by simpa [Kernel.expired, Kernel.modify, hxp] using hx)
      · intro x hx
        rcases List.mem_append.mp hx with hx | hx
        · exact hwake x hx
        · obtain rfl : x = p := by simpa using hx
          exact ⟨hl x (by simp), hp⟩
    · exact ih _ hmoves htable hl' hexpired hwake

theorem table_sched_unblock (s : Kernel) (p : Ptr) :
    (sched_unblock s p).core.table = s.core.table := by
  unfold sched_unblock
  split
  · have htable := congrArg Core.table (core_make_ready s p)
    exact htable
  · rfl

theorem unblock_all_moves {wake : List Ptr} (hwake : ∀ p ∈ wake, s.core.Listed p)
    (hallow : ∀ p ∈ wake, ∀ c, K c (.ready p)) :
    Moves K s.core (wake.foldl sched_unblock s).core := by
  induction wake generalizing s with
  | nil => exact .refl _
  | cons p wake ih =>
    have hp := sched_unblock_moves (hwake p (by simp)) fun _ => hallow p (by simp) _
    refine hp.trans (ih (fun x hx => ?_) fun x hx => hallow x (List.mem_cons_of_mem p hx))
    rw [Core.Listed, table_sched_unblock]
    exact hwake x (List.mem_cons_of_mem p hx)

theorem check_sleepers_moves
    (hallow : ∀ c p, s.expired p → K c (.sleep p 0) ∧ K c (.ready p)) :
    Moves K s.core (proc_check_sleepers s).core := by
  obtain ⟨hnote, htable, hwake⟩ := note_sleepers_moves s.procs []
    (fun c p hp => (hallow c p hp).1) (.refl _) rfl (fun p hp => listed_of_mem_procs hp)
    (fun _ hp => hp) (by simp)
  refine hnote.trans (unblock_all_moves (fun p hp => ?_) fun p hp c => ?_)
  · obtain ⟨pid, hpid⟩ := (hwake p hp).1
    exact ⟨pid, (congrFun htable pid).trans hpid⟩
  · exact (hallow c p (hwake p hp).2).2

theorem expired_congr (hcore : t.core = s.core) (hticks : t.boot_ticks = s.boot_ticks)
    (hp : t.expired p) : s.expired p := by
  have hstate : (t.mem p).state = (s.mem p).state := congrFun (congrArg Core.state hcore) p
  have hsleep : (t.mem p).sleep_until = (s.mem p).sleep_until :=
    congrFun (congrArg Core.sleep_until hcore) p
  rwa [Kernel.expired, hstate, hsleep, hticks] at hp

theorem core_sched_count (s : Kernel) : (sched_count s).core = s.core := by
  unfold sched_count
  dsimp only
  split <;> exact core_sched_age _

theorem boot_ticks_sched_count (s : Kernel) : (sched_count s).boot_ticks = s.boot_ticks := by
  have hage : ∀ s : Kernel, (sched_age s).boot_ticks = s.boot_ticks := by
    intro s
    refine foldl_keep Kernel.boot_ticks (fun s p => ?_) s s.run_queue
    split <;> rfl
  unfold sched_count
  dsimp only
  split <;> exact hage _

theorem on_current_some {c : Ptr} (hc : s.current = some c) {f : Ptr → Kernel} :
    s.on_current f = f c := by
  simp [Kernel.on_current, hc]

theorem on_current_moves {f : Ptr → Kernel} (hf : ∀ c, s.current = some c → Moves K s.core (f c).core) :
    Moves K s.core (s.on_current f).core := by
  unfold Kernel.on_current
  split
  · next c hc => exact hf c hc
  · exact .refl _

theorem sched_preempt_moves (hK : Switches K) (s : Kernel) (have_runnable : Bool) :
    Moves K s.core (sched_preempt s have_runnable).core := by
  unfold sched_preempt
  split
  · exact schedule_moves hK s
  · refine on_current_moves fun c _ => ?_
    split
    · exact schedule_moves hK s
    · exact .refl _

theorem sched_tick_moves (hK : Switches K)
    (hallow : ∀ c p, s.expired p → K c (.sleep p 0) ∧ K c (.ready p)) :
    Moves K s.core (sched_tick s).core := by
  have hcore := core_sched_count s
  have hsleepers : Moves K s.core (proc_check_sleepers (sched_count s)).core := by
    rw [← hcore]
    exact check_sleepers_moves fun c p hp =>
      hallow c p (expired_congr hcore (boot_ticks_sched_count s) hp)
  exact hsleepers.trans (sched_preempt_moves hK _ _)

/-! ## The current process -/

theorem sched_yield_moves (hK : Switches K)
    (hallow : ∀ c, s.current = some c → K s.core (.yield c)) :
    Moves K s.core (sched_yield s).core := by
  refine (on_current_moves fun c hc => ?_).trans (schedule_moves hK _)
  exact .one (.yield c) hc (hallow c hc) (core_set_state s c .ready)

theorem sched_block_moves (hK : Switches K)
    (hallow : ∀ c, s.current = some c → K s.core (.park c .blocked)) :
    Moves K s.core (sched_block s).core := by
  refine (on_current_moves fun c hc => ?_).trans (schedule_moves hK _)
  exact park_moves (.inl rfl) (hallow c hc)

theorem sched_sleep_moves (hK : Switches K)
    (hallow : ∀ c, s.current = some c → K s.core (.park c .wait)) :
    Moves K s.core (sched_sleep s).core := by
  refine (on_current_moves fun c hc => ?_).trans (schedule_moves hK _)
  exact park_moves (.inr (.inl rfl)) (hallow c hc)

theorem sys_sleep_moves (hK : Switches K) {ms : Int} (hallow : 0 < ms → ∀ c, s.current = some c →
      let time := s.boot_ticks + UInt64.ofInt ms
      K s.core (.sleep c time) ∧ K (s.core.apply (.sleep c time)) (.park c .blocked)) :
    Moves K s.core (sys_sleep s ms).core := by
  unfold sys_sleep
  split
  · exact .refl _
  · next hms =>
    split
    · exact .refl _
    · next c hc =>
      obtain ⟨hsleep, hpark⟩ := hallow (by omega) c hc
      refine Moves.trans ?_ (schedule_moves hK _)
      refine (Moves.one (.sleep c _) trivial hsleep (core_set_sleep s c _)).trans ?_
      exact park_moves (.inl rfl) (core_set_sleep s c _ ▸ hpark)

/-! ## Exiting -/

theorem zombify_moves (ht : t.core = s.core) (h : K s.core (.park p .zombie)) (pid : Nat) :
    Moves K s.core (sched_wake_parent (park t p .zombie) pid).core := by
  rw [sched_wake_parent_eq, ← ht]
  exact park_moves (.inr (.inr rfl)) (ht.symm ▸ h)

theorem proc_set_zombie_moves {code : Int}
    (h : K s.core (.park p .zombie)) : Moves K s.core (proc_set_zombie s p code).core :=
  zombify_moves (core_modify rfl) h _

theorem proc_terminate_moves (hK : Switches K) {signal : Int}
    (h : K s.core (.park p .zombie)) : Moves K s.core (proc_terminate s p signal).core := by
  unfold proc_terminate
  dsimp only
  split
  · exact (zombify_moves ((core_reparent _ _).trans (core_modify rfl)) h _).trans
      (schedule_moves hK _)
  · exact zombify_moves ((core_reparent _ _).trans (core_modify rfl)) h _

theorem proc_exit_moves (hK : Switches K) {code : Int}
    (h : ∀ c, s.current = some c → (s.mem c).state ≠ .zombie → (s.mem c).state ≠ .dead →
      K s.core (.park c .zombie)) : Moves K s.core (proc_exit s code).core := by
  unfold proc_exit
  split
  · exact .refl _
  · next p hp =>
    split
    · exact .refl _
    · next halive =>
      obtain ⟨hzombie, hdead⟩ := not_or.mp halive
      have hpark := h p hp hzombie hdead
      exact (zombify_moves ((core_reparent _ _).trans (core_modify rfl)) hpark _).trans
        (schedule_moves hK _)

theorem proc_destroy_moves (hK : Reaps K) (hs : s.core.Sound)
    (hlisted : s.core.Listed p) (hzombie : (s.mem p).state = .zombie) :
    Moves K s.core (proc_destroy s p).core := by
  have hlegal : s.core.Legal (.free p) := ⟨hlisted, hzombie⟩
  obtain ⟨pid, hpid⟩ := hlisted
  obtain ⟨hpos, hmax, hpidOf, -⟩ := hs.slots pid p hpid
  have hpidOf' : (s.mem p).pid = pid := hpidOf
  exact .one (.free p) hlegal (hK _ _) (core_destroy (by omega) (by omega))

/-- Reaping goes through a list of processes that are in the table until they are destroyed. -/
theorem reap_moves (hK : Reaps K) (hs : s.core.Sound) {l : List Ptr}
    (hl : ∀ p ∈ l, (s.mem p).state = .zombie → s.core.Listed p) :
    Moves K s.core (l.foldl (fun s p =>
      if (s.mem p).state = .zombie then proc_destroy s p else s) s).core := by
  induction l generalizing s with
  | nil => exact .refl _
  | cons p l ih =>
    have hl' : ∀ x ∈ l, (s.mem x).state = .zombie → s.core.Listed x :=
      fun x hx => hl x (List.mem_cons_of_mem p hx)
    rw [List.foldl_cons]
    split
    · next hzombie =>
      have hlisted := hl p (by simp) hzombie
      have hmove := proc_destroy_moves hK hs hlisted hzombie
      obtain ⟨pid, hpid⟩ := hlisted
      obtain ⟨hpos, hmax, hpidOf, -⟩ := hs.slots pid p hpid
      have hcore : (proc_destroy s p).core = s.core.apply (.free p) :=
        core_destroy (show 1 ≤ s.core.pid p by omega) (show s.core.pid p < MAX_PROC by omega)
      refine hmove.trans (ih (hmove.sound hs) fun x hx hxz => ?_)
      have hxp : x ≠ p := by
        rintro rfl
        have hdead := congrFun (congrArg Core.state hcore) x
        exact absurd (hxz.symm.trans hdead) (by simp [Core.apply])
      have hxz' : (s.mem x).state = .zombie := by
        have hsame := congrFun (congrArg Core.state hcore) x
        exact (hsame.trans (by simp [Core.apply, hxp, Kernel.core])).symm.trans hxz
      obtain ⟨slot, hslot⟩ := hl' x hx hxz'
      have hne : slot ≠ pid := by
        rintro rfl
        exact hxp (by simpa [hpid] using hslot.symm)
      refine ⟨slot, ?_⟩
      rw [hcore]
      simpa [Core.apply, hpidOf, hne] using hslot
    · exact ih hs hl'

theorem listed_of_mem_children {parent max : Nat} (hp : p ∈ proc_get_children s parent max) : s.core.Listed p :=
  listed_of_mem_procs (List.mem_of_mem_filter (List.mem_of_mem_take hp))

theorem proc_reap_zombies_moves (hK : Reaps K) (hs : s.core.Sound) :
    Moves K s.core (proc_reap_zombies s).core :=
  reap_moves hK hs fun _ hp _ => listed_of_mem_children hp

/-! ## Creating -/

variable {a : Ptr}

theorem proc_create_moves (hK : Creates K) (hs : s.core.Sound) (parent : Option Ptr)
    (a : Ptr) : Moves K s.core (proc_create s parent a).1.core := by
  have hcreate := proc_create_cases hs.cursor.1 hs.cursor.2 parent a
  generalize proc_create s parent a = r at hcreate ⊢
  cases hcreate with
  | refused => exact .refl _
  | no_pid hfresh hidle hcore => exact .one (.wipe a) ⟨hfresh, hidle⟩ (hK _ _).1 hcore
  | created hfresh hidle hpos hmax hempty hcore =>
    exact .one (.spawn a _) ⟨hfresh, hidle, hpos, hmax, hempty⟩ ((hK _ _).2 _) hcore

theorem created_listed {s' : Kernel} (hs : s.core.Sound) {parent : Option Ptr} {child : Ptr}
    (h : proc_create s parent a = (s', some child)) :
    s'.core.Listed child ∧ s'.core.state child = .new ∧ child ∉ s.heap := by
  have hcreate := proc_create_cases hs.cursor.1 hs.cursor.2 parent a
  rw [h] at hcreate
  cases hcreate with
  | @created _ pid hfresh hidle hpos hmax hempty hcore =>
    rw [hcore]
    exact ⟨⟨pid, by simp [Core.apply]⟩, by simp [Core.apply], hfresh⟩

theorem proc_fork_moves (hK : Creates K) (hs : s.core.Sound) (h : ∀ parent s' child, s.current = some parent →
      proc_create s (some parent) a = (s', some child) → K s'.core (.ready child)) :
    Moves K s.core (proc_fork s a).1.core := by
  unfold proc_fork
  split
  · exact .refl _
  · next parent hparent =>
    split
    · exact .refl _
    · have hmoves := proc_create_moves hK hs (some parent) a
      split
      · next s' hcreate =>
        rwa [hcreate] at hmoves
      · next s' child hcreate =>
        obtain ⟨hlisted, hnew, -⟩ := created_listed hs hcreate
        rw [hcreate] at hmoves
        have hready := h parent s' child hparent hcreate
        refine hmoves.trans ?_
        dsimp only
        generalize hest : s'.modify child _ = t
        have ht : t.core = s'.core := hest ▸ core_modify rfl
        rw [← ht] at hlisted hready hnew ⊢
        exact make_ready_moves hlisted (fun hz => by simp [Kernel.core, hz] at hnew) hready

theorem proc_vfork_moves (hK : Creates K) (hs : s.core.Sound) (h : ∀ parent s' child, s.current = some parent →
      proc_create s (some parent) a = (s', some child) →
      K s'.core (.park parent .blocked) ∧
        K (s'.core.apply (.park parent .blocked)) (.ready child)) :
    Moves K s.core (proc_vfork s a).1.core := by
  unfold proc_vfork
  split
  · exact .refl _
  · next parent hparent =>
    have hmoves := proc_create_moves hK hs (some parent) a
    split
    · next s' hcreate =>
      rwa [hcreate] at hmoves
    · next s' child hcreate =>
      obtain ⟨hlisted, hnew, -⟩ := created_listed hs hcreate
      rw [hcreate] at hmoves
      obtain ⟨hpark, hready⟩ := h parent s' child hparent hcreate
      have hcore := core_park s' parent .blocked
      refine hmoves.trans ((park_moves (.inl rfl) hpark).trans ?_)
      refine make_ready_moves (hcore ▸ hlisted) ?_ (hcore ▸ hready)
      have hstate : ((park s' parent .blocked).mem child).state =
          (s'.core.apply (.park parent .blocked)).state child := congrFun (congrArg Core.state hcore) child
      rw [hstate]
      by_cases hsame : child = parent
      · simp [Core.apply, hsame]
      · simp [Core.apply, hsame, hnew]

end graceos.proc
