import Mathlib.Algebra.Group.Int.Defs
import Mathlib.Algebra.Group.Nat.Defs
import Mathlib.Data.List.Basic

/-!
# Computations that change a state

A computation over a state gives a value, stops with an error, or has not ended within the fuel that it was given.
In each case it leaves a state.
-/

namespace exec

inductive Outcome (α : Type)
  | ok (a : α)
  | error
  | hang
  deriving DecidableEq

def Exec (σ α : Type) : Type := σ → Outcome α × σ

variable {σ α β : Type}

namespace Exec

def pure (a : α) : Exec σ α := fun s => (.ok a, s)

def error : Exec σ α := fun s => (.error, s)

def hang : Exec σ α := fun s => (.hang, s)

def get : Exec σ σ := fun s => (.ok s, s)

def modify (f : σ → σ) : Exec σ Unit := fun s => (.ok (), f s)

def bind (m : Exec σ α) (f : α → Exec σ β) : Exec σ β := fun s =>
  match m s with
  | (.ok a, s') => f a s'
  | (.error, s') => (.error, s')
  | (.hang, s') => (.hang, s')

/-- `handler` runs behind an error of `m`. -/
def orElse (m handler : Exec σ α) : Exec σ α := fun s =>
  match m s with
  | (.error, s') => handler s'
  | r => r

instance : Monad (Exec σ) where
  pure := Exec.pure
  bind := Exec.bind

end Exec

open Exec

variable {m handler : Exec σ α} {f : α → Exec σ β} {s s' : σ} {a : α}

@[simp] theorem pure_apply (a : α) (s : σ) : (Pure.pure a : Exec σ α) s = (.ok a, s) := rfl

@[simp] theorem error_apply (s : σ) : (Exec.error : Exec σ α) s = (.error, s) := rfl

@[simp] theorem hang_apply (s : σ) : (Exec.hang : Exec σ α) s = (.hang, s) := rfl

@[simp] theorem get_apply (s : σ) : (Exec.get : Exec σ σ) s = (.ok s, s) := rfl

@[simp] theorem modify_apply (g : σ → σ) (s : σ) : Exec.modify g s = (.ok (), g s) := rfl

theorem bind_ok (h : m s = (.ok a, s')) : (m >>= f) s = f a s' := by
  change Exec.bind m f s = _
  rw [Exec.bind, h]

theorem bind_error (h : m s = (.error, s')) : (m >>= f) s = (.error, s') := by
  change Exec.bind m f s = _
  rw [Exec.bind, h]

theorem bind_hang (h : m s = (.hang, s')) : (m >>= f) s = (.hang, s') := by
  change Exec.bind m f s = _
  rw [Exec.bind, h]

/-! ## What a computation gives -/

variable {P Q : α → Prop} {R : β → Prop}

/-- Every value that `m` gives has a property. -/
def Yields (m : Exec σ α) (P : α → Prop) : Prop := ∀ s a s', m s = (.ok a, s') → P a

theorem Yields.pure (h : P a) : Yields (Pure.pure a : Exec σ α) P := by
  intro s b s' hrun
  cases hrun
  exact h

theorem Yields.error : Yields (Exec.error : Exec σ α) P := by
  intro s b s' hrun
  cases hrun

theorem Yields.hang : Yields (Exec.hang : Exec σ α) P := by
  intro s b s' hrun
  cases hrun

theorem Yields.any (m : Exec σ α) : Yields m fun _ => True := fun _ _ _ _ => trivial

theorem Yields.mono (h : Yields m P) (himp : ∀ a, P a → Q a) : Yields m Q :=
  fun s a s' hrun => himp a (h s a s' hrun)

theorem Yields.bind (hm : Yields m P) (hf : ∀ a, P a → Yields (f a) R) : Yields (m >>= f) R := by
  intro s b s' hrun
  rcases hms : m s with ⟨_ | a, s₁⟩
  case ok a =>
    rw [bind_ok hms] at hrun
    exact hf a (hm s a s₁ hms) s₁ b s' hrun
  case error =>
    rw [bind_error hms] at hrun
    cases hrun
  case hang =>
    rw [bind_hang hms] at hrun
    cases hrun

theorem Yields.orElse (hm : Yields m P) (hh : Yields handler P) : Yields (m.orElse handler) P := by
  intro s b s' hrun
  unfold Exec.orElse at hrun
  split at hrun
  · next s₁ _ => exact hh s₁ b s' hrun
  · exact hm s b s' hrun

theorem run_of_value (h : (m s).1 = .ok a) : m s = (.ok a, (m s).2) := Prod.ext h rfl

end exec
