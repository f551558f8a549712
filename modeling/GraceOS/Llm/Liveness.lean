import GraceOS.Llm.Runtime

/-!
# Long calls and released slots

Where nothing that a long call uses is released, its context and model stay as they were when it began. Nothing
in the code keeps another process from releasing them.
-/

namespace graceos.llm

open Function

/-- A context in use is valid, and its model is loaded and the same as when it was created. -/
def Attached (t : Tables) : Prop :=
  ∀ i, (t.contexts i).in_use = true → (t.contexts i).valid = true ∧
    (t.models (t.contexts i).model_id).in_use = true ∧
      (t.models (t.contexts i).model_id).use = (t.contexts i).model_use

/-- The context of a long call is the one it began with. -/
def Held (t : Tables) : Prop :=
  ∀ p call, t.calls p = some call → (t.contexts call.ctx_id).in_use = true ∧
    (t.contexts call.ctx_id).use = call.use ∧ (t.contexts call.ctx_id).model_id = call.model_id ∧
      (t.contexts call.ctx_id).model_use = call.model_use

/-- No slot lies behind the table of contexts. -/
def Bounded (t : Tables) : Prop := ∀ i, LLM_MAX_CONTEXTS ≤ i → (t.contexts i).in_use = false

variable {t t' : Tables}

variable {p : Nat}

theorem Held.live (hattached : Attached t) (hheld : Held t) {call : LongCall}
    (h : t.calls p = some call) : Live t call := by
  obtain ⟨hin_use, huse, hid, hmodel_use⟩ := hheld p call h
  obtain ⟨-, hmodel, hload⟩ := hattached call.ctx_id hin_use
  rw [hid] at hmodel hload
  exact ⟨hin_use, huse, hmodel, hload.trans hmodel_use⟩

/-! ## Free slots -/

variable {id : Nat} {a1 : Int}

theorem find_free_model_free (h : find_free_model t = some id) : (t.models id).in_use = false := by
  have hfree := List.find?_some h
  simpa using hfree

theorem find_free_ctx_free (h : find_free_ctx t = some id) : (t.contexts id).in_use = false := by
  have hfree := List.find?_some h
  simpa using hfree

theorem model_slot_in_use (h : model_slot t a1 = some id) : (t.models id).in_use = true := by
  unfold model_slot at h
  split at h
  · next hc =>
    rw [← Option.some.inj h]
    exact hc.2.2
  · cases h

theorem ctx_slot_in_use (h : ctx_slot t a1 = some id) :
    id < LLM_MAX_CONTEXTS ∧ (t.contexts id).in_use = true := by
  unfold ctx_slot at h
  split at h
  · next hc =>
    rw [← Option.some.inj h]
    exact ⟨by omega, hc.2.2⟩
  · cases h

/-! ## What a call changes -/

variable {slot : CtxSlot}

theorem set_model_attached {slot : ModelSlot} (hattached : Attached t)
    (hfree : (t.models id).in_use = false) : Attached (set_model t id slot) := by
  intro i hi
  obtain ⟨hvalid, hmodel, hload⟩ := hattached i hi
  have hne : (t.contexts i).model_id ≠ id := by
    intro heq
    rw [heq, hfree] at hmodel
    cases hmodel
  have hsame : (set_model t id slot).models (t.contexts i).model_id = t.models (t.contexts i).model_id :=
    update_of_ne hne _ _
  refine ⟨hvalid, ?_, ?_⟩
  · change ((set_model t id slot).models (t.contexts i).model_id).in_use = true
    rw [hsame, hmodel]
  · change ((set_model t id slot).models (t.contexts i).model_id).use = (t.contexts i).model_use
    rw [hsame, hload]

theorem set_context_at (t : Tables) (id : Nat) (slot : CtxSlot) : (set_context t id slot).contexts id = slot :=
  update_self _ _ _

theorem set_context_of_ne {i : Nat} (h : i ≠ id) (slot : CtxSlot) :
    (set_context t id slot).contexts i = t.contexts i := update_of_ne h _ _

theorem set_context_attached (hattached : Attached t)
    (hslot : slot.in_use = true → slot.valid = true ∧ (t.models slot.model_id).in_use = true ∧
      (t.models slot.model_id).use = slot.model_use) : Attached (set_context t id slot) := by
  intro i hi
  by_cases heq : i = id
  · subst heq
    rw [set_context_at] at hi ⊢
    exact hslot hi
  · rw [set_context_of_ne heq] at hi ⊢
    exact hattached i hi

theorem set_context_held (hheld : Held t) (hidle : Idle t id) :
    Held (set_context t id slot) := by
  intro p call hcall
  rw [set_context_of_ne (hidle p call hcall)]
  exact hheld p call hcall

theorem Held.idle_of_free (hheld : Held t) (hfree : (t.contexts id).in_use = false) : Idle t id := by
  rintro p call hcall rfl
  rw [(hheld p call hcall).1] at hfree
  cases hfree

theorem set_call_held {call : Option LongCall} (hheld : Held t)
    (hcall : ∀ c, call = some c → (t.contexts c.ctx_id).in_use = true ∧ (t.contexts c.ctx_id).use = c.use ∧
      (t.contexts c.ctx_id).model_id = c.model_id ∧ (t.contexts c.ctx_id).model_use = c.model_use) :
    Held (set_call t p call) := by
  intro q c hq
  by_cases heq : q = p
  · subst heq
    rw [set_call] at hq
    dsimp only at hq
    rw [update_self] at hq
    exact hcall c hq
  · rw [set_call] at hq
    dsimp only at hq
    rw [update_of_ne heq] at hq
    exact hheld q c hq

/-! ## Steps -/

theorem load_invariant (hattached : Attached t) (hheld : Held t) (loaded : Bool) :
    Attached (sys_llm_load_model loaded t) ∧ Held (sys_llm_load_model loaded t) := by
  unfold sys_llm_load_model
  split
  · exact ⟨hattached, hheld⟩
  · next id hid =>
    have hfree := find_free_model_free hid
    split
    · exact ⟨set_model_attached hattached hfree, hheld⟩
    · exact ⟨set_model_attached hattached hfree, hheld⟩

theorem unload_invariant (hattached : Attached t) (hheld : Held t)
    (hbound : Bounded t)
    (hcareful : ∀ id, model_slot t a1 = some id →
      ∀ i, (t.contexts i).in_use → (t.contexts i).model_id = id → Idle t i) :
    Attached (sys_llm_unload_model a1 t) ∧ Held (sys_llm_unload_model a1 t) := by
  unfold sys_llm_unload_model
  split
  · exact ⟨hattached, hheld⟩
  next id hid =>
  dsimp only
  constructor
  · intro i hi
    change (if i < LLM_MAX_CONTEXTS ∧ (t.contexts i).in_use ∧ (t.contexts i).model_id = id then
      destroyed (t.contexts i) else t.contexts i).in_use = true at hi
    split at hi
    · cases hi
    next hkept =>
    obtain ⟨hvalid, hmodel, hload⟩ := hattached i hi
    have hlt : i < LLM_MAX_CONTEXTS := by
      by_contra hge
      rw [hbound i (Nat.le_of_not_lt hge)] at hi
      cases hi
    have hne : (t.contexts i).model_id ≠ id := fun heq => hkept ⟨hlt, hi, heq⟩
    change (if _ then destroyed (t.contexts i) else t.contexts i).valid = true ∧
      (update t.models id _ (if _ then destroyed (t.contexts i) else t.contexts i).model_id).in_use = true ∧
      (update t.models id _ (if _ then destroyed (t.contexts i) else t.contexts i).model_id).use =
        (if _ then destroyed (t.contexts i) else t.contexts i).model_use
    rw [if_neg hkept, update_of_ne hne]
    exact ⟨hvalid, hmodel, hload⟩
  · intro p call hcall
    obtain ⟨hin_use, huse, hmodel_id, hmodel_use⟩ := hheld p call hcall
    have hkept : ¬ (call.ctx_id < LLM_MAX_CONTEXTS ∧ (t.contexts call.ctx_id).in_use = true ∧
        (t.contexts call.ctx_id).model_id = id) :=
      fun hgone => hcareful id hid call.ctx_id hgone.2.1 hgone.2.2 p call hcall rfl
    change (if _ then destroyed (t.contexts call.ctx_id) else t.contexts call.ctx_id).in_use = true ∧
      (if _ then destroyed (t.contexts call.ctx_id) else t.contexts call.ctx_id).use = call.use ∧
      (if _ then destroyed (t.contexts call.ctx_id) else t.contexts call.ctx_id).model_id = call.model_id ∧
      (if _ then destroyed (t.contexts call.ctx_id) else t.contexts call.ctx_id).model_use = call.model_use
    rw [if_neg hkept]
    exact ⟨hin_use, huse, hmodel_id, hmodel_use⟩

theorem create_invariant (hattached : Attached t) (hheld : Held t) (created : Bool) (a1 : Int) :
    Attached (sys_llm_create_context created a1 t) ∧ Held (sys_llm_create_context created a1 t) := by
  unfold sys_llm_create_context
  split
  · exact ⟨hattached, hheld⟩
  next model_id hmodel =>
  split
  · exact ⟨hattached, hheld⟩
  next id hid =>
  have hidle : Idle t id := hheld.idle_of_free (find_free_ctx_free hid)
  split
  · constructor
    · exact set_context_attached hattached fun _ => ⟨rfl, model_slot_in_use hmodel, rfl⟩
    · exact set_context_held hheld hidle
  · constructor
    · exact set_context_attached hattached fun hin_use => Bool.noConfusion hin_use
    · exact set_context_held hheld hidle

theorem destroy_invariant (hattached : Attached t) (hheld : Held t)
    (hcareful : ∀ id, ctx_slot t a1 = some id → Idle t id) :
    Attached (sys_llm_destroy_context a1 t) ∧ Held (sys_llm_destroy_context a1 t) := by
  unfold sys_llm_destroy_context
  split
  · exact ⟨hattached, hheld⟩
  · next id hid =>
    constructor
    · exact set_context_attached hattached fun hin_use => Bool.noConfusion hin_use
    · exact set_context_held hheld (hcareful id hid)

theorem enter_invariant (hattached : Attached t) (hheld : Held t) (p : Nat) (a1 : Int) :
    Attached (enter_call p a1 t) ∧ Held (enter_call p a1 t) := by
  unfold enter_call
  split
  · exact ⟨hattached, hheld⟩
  next id hid =>
  dsimp only
  split
  · exact ⟨hattached, hheld⟩
  · refine ⟨hattached, set_call_held hheld ?_⟩
    rintro c hc
    rw [← Option.some.inj hc]
    exact ⟨(ctx_slot_in_use hid).2, rfl, rfl, rfl⟩

/-! ## Runs -/

theorem find_free_ctx_lt (h : find_free_ctx t = some id) : id < LLM_MAX_CONTEXTS :=
  List.mem_range.mp (List.mem_of_find?_eq_some h)

theorem set_context_bounded (hbound : Bounded t) (hid : id < LLM_MAX_CONTEXTS) :
    Bounded (set_context t id slot) := by
  intro i hi
  rw [set_context_of_ne (by omega)]
  exact hbound i hi

theorem create_bounded (hbound : Bounded t) (created : Bool) (a1 : Int) :
    Bounded (sys_llm_create_context created a1 t) := by
  unfold sys_llm_create_context
  split
  · exact hbound
  split
  · exact hbound
  next id hid =>
  split
  · exact set_context_bounded hbound (find_free_ctx_lt hid)
  · exact set_context_bounded hbound (find_free_ctx_lt hid)

theorem unload_bounded (hbound : Bounded t) (a1 : Int) : Bounded (sys_llm_unload_model a1 t) := by
  unfold sys_llm_unload_model
  split
  · exact hbound
  next id hid =>
  intro i hi
  change (if _ then destroyed (t.contexts i) else t.contexts i).in_use = false
  split
  · rfl
  · exact hbound i hi

theorem load_bounded (hbound : Bounded t) (loaded : Bool) : Bounded (sys_llm_load_model loaded t) := by
  unfold sys_llm_load_model
  split
  · exact hbound
  split
  · exact hbound
  · exact hbound

theorem destroy_bounded (hbound : Bounded t) (a1 : Int) : Bounded (sys_llm_destroy_context a1 t) := by
  unfold sys_llm_destroy_context
  split
  · exact hbound
  · next id hid => exact set_context_bounded hbound (ctx_slot_in_use hid).1

theorem enter_bounded (hbound : Bounded t) (p : Nat) (a1 : Int) : Bounded (enter_call p a1 t) := by
  unfold enter_call
  split
  · exact hbound
  dsimp only
  split
  · exact hbound
  · exact hbound

theorem idle_process {next : Tables} (h : (if (t.calls p).isSome then none else some next) = some t') :
    t' = next := by
  split at h
  · cases h
  · exact (Option.some.inj h).symm

/-- What holds behind careful steps. -/
structure Invariant (t : Tables) : Prop where
  attached : Attached t
  held : Held t
  bounded : Bounded t

theorem step_invariant (hinv : Invariant t) {s : Step} (hcareful : Careful t s)
    (h : step p s t = some t') : Invariant t' := by
  obtain ⟨hattached, hheld, hbound⟩ := hinv
  cases s with
  | load loaded =>
    obtain rfl := idle_process h
    obtain ⟨h1, h2⟩ := load_invariant hattached hheld loaded
    exact ⟨h1, h2, load_bounded hbound loaded⟩
  | unload a1 =>
    obtain rfl := idle_process h
    obtain ⟨h1, h2⟩ := unload_invariant hattached hheld hbound hcareful
    exact ⟨h1, h2, unload_bounded hbound a1⟩
  | create created a1 =>
    obtain rfl := idle_process h
    obtain ⟨h1, h2⟩ := create_invariant hattached hheld created a1
    exact ⟨h1, h2, create_bounded hbound created a1⟩
  | destroy a1 =>
    obtain rfl := idle_process h
    obtain ⟨h1, h2⟩ := destroy_invariant hattached hheld hcareful
    exact ⟨h1, h2, destroy_bounded hbound a1⟩
  | enter a1 =>
    obtain rfl := idle_process h
    obtain ⟨h1, h2⟩ := enter_invariant hattached hheld p a1
    exact ⟨h1, h2, enter_bounded hbound p a1⟩
  | sample a1 =>
    obtain rfl := idle_process h
    exact ⟨hattached, hheld, hbound⟩
  | resume again =>
    obtain ⟨call, hcall, rfl⟩ := Option.map_eq_some_iff.mp h
    refine ⟨hattached, set_call_held hheld ?_, hbound⟩
    intro c hc
    split at hc
    · rw [← Option.some.inj hc]
      exact hheld p call hcall
    · cases hc

theorem careful_invariant (hrun : Reaches Careful t) : Invariant t := by
  induction hrun with
  | empty => exact ⟨fun i hi => Bool.noConfusion hi, fun _ _ hcall => (by cases hcall), fun _ _ => rfl⟩
  | step _ hcareful hstep ih => exact step_invariant ih hcareful hstep

/-- In a run that releases no context that a long call is on, and no model of one, every step reads a context
and a model that are those of the beginning of its call. -/
theorem careful_reads_live (hrun : Reaches Careful t) {p : Nat} {s : Step} {call : LongCall}
    (h : reads p s t = some call) : Live t call := by
  obtain ⟨hattached, hheld, -⟩ := careful_invariant hrun
  have hslot {a1 : Int} (h : (ctx_slot t a1).map (fun id =>
      (⟨id, (t.contexts id).use, (t.contexts id).model_id, (t.contexts id).model_use⟩ : LongCall)) = some call) :
      Live t call := by
    obtain ⟨id, hid, rfl⟩ := Option.map_eq_some_iff.mp h
    have hin_use := (ctx_slot_in_use hid).2
    obtain ⟨-, hmodel, hload⟩ := hattached id hin_use
    exact ⟨hin_use, rfl, hmodel, hload⟩
  cases s with
  | resume again => exact Held.live hattached hheld h
  | enter a1 => exact hslot h
  | sample a1 => exact hslot h
  | load loaded => cases h
  | unload a1 => cases h
  | create created a1 => cases h
  | destroy a1 => cases h

/-- One model, one context, and process 1 in a call on it. -/
def decoding : Tables := enter_call 1 0 (sys_llm_create_context true 0 (sys_llm_load_model true {}))

theorem decoding_reached (ok : Tables → Step → Prop) (hload : ∀ t b, ok t (.load b))
    (hcreate : ∀ t b a1, ok t (.create b a1)) (henter : ∀ t a1, ok t (.enter a1)) : Reaches ok decoding :=
  .step (p := 1) (s := .enter 0) (.step (p := 0) (s := .create true 0) (.step (p := 0) (s := .load true) .empty
    (hload _ _) rfl) (hcreate _ _ _) rfl) (henter _ _) rfl

theorem careful_reads_live_decoding :
    reads 1 (.resume true) decoding = some ⟨0, 1, 0, 0⟩ ∧ Live decoding ⟨0, 1, 0, 0⟩ :=
  ⟨by decide, careful_reads_live (decoding_reached Careful (fun _ _ => trivial) (fun _ _ _ => trivial)
    fun _ _ => trivial) (p := 1) (s := .resume true) (by decide)⟩

/-- Process 2 destroys the context between two layers. -/
theorem reads_destroyed_context :
    ¬ ∀ (t : Tables) (p : Nat) (s : Step) (call : LongCall), Reaches (fun _ _ => True) t → (step p s t).isSome →
      reads p s t = some call → Live t call := by
  intro hclaim
  have hrun : Reaches (fun _ _ => True) (sys_llm_destroy_context 0 decoding) :=
    .step (p := 2) (s := .destroy 0) (decoding_reached _ (fun _ _ => trivial) (fun _ _ _ => trivial)
      fun _ _ => trivial) trivial rfl
  have hlive := hclaim _ 1 (.resume true) ⟨0, 1, 0, 0⟩ hrun (by decide) (by decide)
  exact absurd hlive.ctx_in_use (by decide)

end graceos.llm
