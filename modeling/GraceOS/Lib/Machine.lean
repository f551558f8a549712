import Mathlib.Algebra.Group.Int.Defs
import Mathlib.Algebra.Group.Nat.Defs
import Mathlib.Data.List.Basic

/-!
# Runs of a deterministic machine

A machine is its step function. `run` takes the steps of a list in order, and `Along` says that
every step of a run meets a condition in the state it is taken from.
-/

namespace machine

variable {σ ι : Type*}

/-- The state after the steps `ops` from `s`. -/
def run (step : σ → ι → σ) (s : σ) (ops : List ι) : σ := ops.foldl step s

/-- Every step of the run `ops` from `s` meets `P` in the state before it. -/
def Along (step : σ → ι → σ) (P : σ → ι → Prop) : σ → List ι → Prop
  | _, [] => True
  | s, op :: ops => P s op ∧ Along step P (step s op) ops

variable {step : σ → ι → σ} {P Q : σ → ι → Prop} {s : σ}

@[simp] theorem run_nil : run step s [] = s := rfl

@[simp] theorem run_cons (op : ι) (ops : List ι) :
    run step s (op :: ops) = run step (step s op) ops := rfl

@[simp] theorem along_nil : Along step P s [] := trivial

@[simp] theorem along_cons {op : ι} {ops : List ι} :
    Along step P s (op :: ops) ↔ P s op ∧ Along step P (step s op) ops := Iff.rfl

theorem run_append (first second : List ι) :
    run step s (first ++ second) = run step (run step s first) second :=
  List.foldl_append

theorem along_append {first second : List ι} :
    Along step P s (first ++ second) ↔
      Along step P s first ∧ Along step P (run step s first) second := by
  induction first generalizing s with
  | nil => simp
  | cons op ops ih => simp [ih, and_assoc]

theorem Along.of_forall (h : ∀ s op, P s op) (ops : List ι) : Along step P s ops := by
  induction ops generalizing s with
  | nil => trivial
  | cons op ops ih => exact ⟨h s op, ih⟩

/-- A condition that all operations of the list meet in any state. -/
theorem Along.of_mem {ops : List ι} (h : ∀ s, ∀ op ∈ ops, P s op) : Along step P s ops := by
  induction ops generalizing s with
  | nil => trivial
  | cons op ops ih =>
    exact ⟨h s op List.mem_cons_self, ih fun s op hop => h s op (List.mem_cons_of_mem _ hop)⟩

/-- What one step keeps under `P`, a run all of whose steps meet `P` keeps. -/
theorem Along.invariant {I : σ → Prop} (hstep : ∀ s op, I s → P s op → I (step s op))
    {ops : List ι} (halong : Along step P s ops) (hs : I s) : I (run step s ops) := by
  induction ops generalizing s with
  | nil => exact hs
  | cons op ops ih => exact ih halong.2 (hstep s op hs halong.1)

/-- A condition may be weakened along a run. -/
theorem Along.imp (himp : ∀ s op, P s op → Q s op) {ops : List ι}
    (halong : Along step P s ops) : Along step Q s ops := by
  induction ops generalizing s with
  | nil => trivial
  | cons op ops ih => exact ⟨himp s op halong.1, ih halong.2⟩

end machine
