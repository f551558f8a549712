import Mathlib.Control.Monad.Basic
import Mathlib.Tactic.Common

/-!
# Computations with what they do to the outside

A value, with the list of the events that came about on the way to it. A computation over a memory reads places; where
all of them lie below a bound, it does not depend on what the memory holds from the bound on.
-/

namespace traced

variable {ε α β : Type}

/-- A value and the events that led to it. -/
structure Traced (ε α : Type) where
  events : List ε
  value : α

namespace Traced

instance : Monad (Traced ε) where
  pure a := ⟨[], a⟩
  bind x f := ⟨x.events ++ (f x.value).events, (f x.value).value⟩

/-- Every event is one of some kind. -/
def All (P : ε → Prop) (x : Traced ε α) : Prop := ∀ e ∈ x.events, P e

/-- Every place that is read lies below a bound. -/
def Within (bound : Nat) (x : Traced Nat α) : Prop := x.All (· < bound)

variable {P : ε → Prop} {bound : Nat}

@[simp] theorem value_pure (a : α) : (pure a : Traced ε α).value = a := rfl

@[simp] theorem value_bind (x : Traced ε α) (f : α → Traced ε β) : (x >>= f).value = (f x.value).value := rfl

@[simp] theorem all_pure (a : α) : (pure a : Traced ε α).All P := by
  intro e he
  cases he

@[simp] theorem all_bind {x : Traced ε α} {f : α → Traced ε β} : (x >>= f).All P ↔ x.All P ∧ (f x.value).All P := by
  constructor
  · intro h
    exact ⟨fun e he => h e (List.mem_append_left _ he), fun e he => h e (List.mem_append_right _ he)⟩
  · rintro ⟨hx, hf⟩ e he
    cases List.mem_append.mp he with
    | inl he => exact hx e he
    | inr he => exact hf e he

@[simp] theorem within_pure (a : α) : (pure a : Traced Nat α).Within bound := all_pure a

@[simp] theorem within_bind {x : Traced Nat α} {f : α → Traced Nat β} :
    (x >>= f).Within bound ↔ x.Within bound ∧ (f x.value).Within bound :=
  all_bind

end Traced

/-- The contents of a place. -/
def read (m : Nat → β) (i : Nat) : Traced Nat β := ⟨[i], m i⟩

@[simp] theorem value_read (m : Nat → β) (i : Nat) : (read m i).value = m i := rfl

@[simp] theorem within_read {m : Nat → β} {i bound : Nat} : (read m i).Within bound ↔ i < bound := by
  simp [Traced.Within, Traced.All, read]

/-! ## Computations that may stay without a value -/

variable {x : OptionT (Traced ε) α} {f : α → OptionT (Traced ε) β}

variable {P : ε → Prop}

/-- The value of a computation that may have none. -/
def outcome (x : OptionT (Traced ε) α) : Option α := x.run.value

/-- Every event is one of some kind, also where there is no value. -/
def AllRun (P : ε → Prop) (x : OptionT (Traced ε) α) : Prop := x.run.All P

@[simp] theorem outcome_pure (a : α) : outcome (pure a : OptionT (Traced ε) α) = some a := rfl

@[simp] theorem outcome_lift (x : Traced ε α) : outcome (liftM x : OptionT (Traced ε) α) = some x.value := rfl

theorem outcome_bind (x : OptionT (Traced ε) α) (f : α → OptionT (Traced ε) β) :
    outcome (x >>= f) = (outcome x).bind fun a => outcome (f a) := by
  change (OptionT.run (x >>= f)).value = _
  rw [OptionT.run_bind, Option.elimM, Traced.value_bind, outcome]
  cases x.run.value with
  | none => rfl
  | some a => rfl

@[simp] theorem allRun_pure (a : α) : AllRun P (pure a : OptionT (Traced ε) α) := Traced.all_pure (some a)

@[simp] theorem allRun_lift {x : Traced ε α} : AllRun P (liftM x : OptionT (Traced ε) α) ↔ x.All P := by
  change (x >>= fun a => pure (some a)).All P ↔ _
  rw [Traced.all_bind]
  exact and_iff_left (Traced.all_pure _)

/-- What follows is only done with a value. -/
theorem allRun_bind (hx : AllRun P x) (hf : ∀ a, outcome x = some a → AllRun P (f a)) : AllRun P (x >>= f) := by
  change (OptionT.run (x >>= f)).All P
  rw [OptionT.run_bind, Option.elimM, Traced.all_bind]
  refine ⟨hx, ?_⟩
  cases h : x.run.value with
  | none => exact Traced.all_pure none
  | some a => exact hf a h

theorem mem_events_left {e : ε} (he : e ∈ x.run.events) :
    e ∈ (x >>= f).run.events := by
  rw [OptionT.run_bind, Option.elimM]
  exact List.mem_append_left _ he

theorem mem_events_right {e : ε} {a : α}
    (hx : outcome x = some a) (he : e ∈ (f a).run.events) : e ∈ (x >>= f).run.events := by
  rw [OptionT.run_bind, Option.elimM]
  refine List.mem_append_right _ ?_
  rw [show x.run.value = some a from hx]
  exact he

end traced
