import Mathlib.Data.List.Basic
import Mathlib.Logic.Function.Basic

/-!
# The tables of models and contexts

The calls of `runtime.c` on their two tables. A long call keeps its slot across the yields of
`forward_layer` and `sys_llm_chat_generate`, where other processes run. Every use of a slot is numbered.
-/

namespace graceos.llm

def LLM_MAX_MODELS : Nat := 4
def LLM_MAX_CONTEXTS : Nat := 8

/-- `llm_model_slot_t`; `use` numbers the load that filled it. -/
structure ModelSlot where
  in_use : Bool := false
  use : Nat := 0

/-- `llm_ctx_slot_t` with the `valid` of its context; `use` numbers the creation, and `model_use` is the load of
the model at that time. -/
structure CtxSlot where
  in_use : Bool := false
  valid : Bool := false
  model_id : Nat := 0
  use : Nat := 0
  model_use : Nat := 0

/-- A call of `sys_llm_eval` or `sys_llm_chat_generate` between two of its yields. -/
structure LongCall where
  ctx_id : Nat
  use : Nat
  model_id : Nat
  model_use : Nat
  deriving DecidableEq

structure Tables where
  models : Nat → ModelSlot := fun _ => {}
  contexts : Nat → CtxSlot := fun _ => {}
  /-- The long call that a process is in. -/
  calls : Nat → Option LongCall := fun _ => none
  next_use : Nat := 0

def find_free_model (t : Tables) : Option Nat := (List.range LLM_MAX_MODELS).find? fun i => !(t.models i).in_use

def find_free_ctx (t : Tables) : Option Nat := (List.range LLM_MAX_CONTEXTS).find? fun i => !(t.contexts i).in_use

/-- `model_slot` with the check that the slot is in use. -/
def model_slot (t : Tables) (id : Int) : Option Nat :=
  if 0 ≤ id ∧ id < LLM_MAX_MODELS ∧ (t.models id.toNat).in_use then some id.toNat else none

/-- `ctx_slot` with the check that the slot is in use. -/
def ctx_slot (t : Tables) (id : Int) : Option Nat :=
  if 0 ≤ id ∧ id < LLM_MAX_CONTEXTS ∧ (t.contexts id.toNat).in_use then some id.toNat else none

def set_model (t : Tables) (id : Nat) (slot : ModelSlot) : Tables :=
  { t with models := Function.update t.models id slot }

def set_context (t : Tables) (id : Nat) (slot : CtxSlot) : Tables :=
  { t with contexts := Function.update t.contexts id slot }

def set_call (t : Tables) (p : Nat) (call : Option LongCall) : Tables :=
  { t with calls := Function.update t.calls p call }

/-! ## Calls

Each returns the tables behind it; a call that returns -1 leaves them as they are, but for a slot that was free. -/

/-- `loaded` says whether `llm_model_load` succeeds. -/
def sys_llm_load_model (loaded : Bool) (t : Tables) : Tables :=
  match find_free_model t with
  | none => t
  | some id =>
    if loaded then
      let t' := set_model t id { in_use := true, use := t.next_use }
      { t' with next_use := t.next_use + 1 }
    else set_model t id {}

/-- The slot of a context that `llm_ctx_destroy` was called for. -/
def destroyed (slot : CtxSlot) : CtxSlot := { slot with in_use := false, valid := false }

def sys_llm_unload_model (a1 : Int) (t : Tables) : Tables :=
  match model_slot t a1 with
  | none => t
  | some id =>
    let contexts := fun i => if i < LLM_MAX_CONTEXTS ∧ (t.contexts i).in_use ∧ (t.contexts i).model_id = id
      then destroyed (t.contexts i) else t.contexts i
    set_model { t with contexts } id { t.models id with in_use := false }

/-- `created` says whether `llm_ctx_create` succeeds. -/
def sys_llm_create_context (created : Bool) (a1 : Int) (t : Tables) : Tables :=
  match model_slot t a1 with
  | none => t
  | some model_id =>
    match find_free_ctx t with
    | none => t
    | some id =>
      if created then
        let slot : CtxSlot :=
          { in_use := true, valid := true, model_id, use := t.next_use, model_use := (t.models model_id).use }
        { set_context t id slot with next_use := t.next_use + 1 }
      else set_context t id {}

def sys_llm_destroy_context (a1 : Int) (t : Tables) : Tables :=
  match ctx_slot t a1 with
  | none => t
  | some id => set_context t id (destroyed (t.contexts id))

/-- `sys_llm_eval` and `sys_llm_chat_generate` up to their first yield. -/
def enter_call (p : Nat) (a1 : Int) (t : Tables) : Tables :=
  match ctx_slot t a1 with
  | none => t
  | some id =>
    let slot := t.contexts id
    if !slot.valid then t
    else set_call t p (some ⟨id, slot.use, slot.model_id, slot.model_use⟩)

/-- What a process does next: a call of its own, or the part of its long call behind a yield, which ends in
another yield or in the return. -/
inductive Step where
  | load (loaded : Bool)
  | unload (a1 : Int)
  | create (created : Bool) (a1 : Int)
  | destroy (a1 : Int)
  | enter (a1 : Int)
  | sample (a1 : Int)
  | resume (again : Bool)

/-- A process makes no call while it is in one. -/
def step (p : Nat) : Step → Tables → Option Tables
  | .resume again, t => (t.calls p).map fun call => set_call t p (if again then some call else none)
  | .load loaded, t => if (t.calls p).isSome then none else some (sys_llm_load_model loaded t)
  | .unload a1, t => if (t.calls p).isSome then none else some (sys_llm_unload_model a1 t)
  | .create created a1, t => if (t.calls p).isSome then none else some (sys_llm_create_context created a1 t)
  | .destroy a1, t => if (t.calls p).isSome then none else some (sys_llm_destroy_context a1 t)
  | .enter a1, t => if (t.calls p).isSome then none else some (enter_call p a1 t)
  -- sampling has no yield
  | .sample _, t => if (t.calls p).isSome then none else some t

/-- The context whose cache, buffer or tensors a step reads, as it was when its call began. -/
def reads (p : Nat) : Step → Tables → Option LongCall
  | .resume _, t => t.calls p
  | .enter a1, t | .sample a1, t => (ctx_slot t a1).map fun id =>
      ⟨id, (t.contexts id).use, (t.contexts id).model_id, (t.contexts id).model_use⟩
  | _, _ => none

/-- The context of a call and its model are those that were there when the call began. -/
structure Live (t : Tables) (call : LongCall) : Prop where
  ctx_in_use : (t.contexts call.ctx_id).in_use = true
  ctx_use : (t.contexts call.ctx_id).use = call.use
  model_in_use : (t.models call.model_id).in_use = true
  model_use : (t.models call.model_id).use = call.model_use

/-- No long call is in progress on the context. -/
def Idle (t : Tables) (ctx_id : Nat) : Prop := ∀ p call, t.calls p = some call → call.ctx_id ≠ ctx_id

/-- A step that releases nothing that a long call uses. -/
def Careful (t : Tables) : Step → Prop
  | .destroy a1 => ∀ id, ctx_slot t a1 = some id → Idle t id
  | .unload a1 => ∀ id, model_slot t a1 = some id →
      ∀ i, (t.contexts i).in_use → (t.contexts i).model_id = id → Idle t i
  | _ => True

/-- The tables that runs from empty ones lead to whose steps are all `ok`. -/
inductive Reaches (ok : Tables → Step → Prop) : Tables → Prop
  | empty : Reaches ok {}
  | step {t t' : Tables} {p : Nat} {s : Step} : Reaches ok t → ok t s → step p s t = some t' → Reaches ok t'

end graceos.llm
