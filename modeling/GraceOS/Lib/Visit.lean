import Mathlib.Data.List.Chain
import Mathlib.Tactic.Common

/-!
# Loops that end at a state

A loop takes step after step until it is in a state where it stops; the states that it visits are a list. Whether it
stops after a number of steps is shown by what holds of its state after each of them.
-/

namespace visit

variable {σ : Type*}

/-- The states that the loop visits, or `none` where the fuel does not suffice. -/
def states (step : σ → σ) (stop : σ → Prop) [DecidablePred stop] : (fuel : Nat) → σ → Option (List σ)
  | 0, _ => none
  | fuel + 1, s => if stop s then some [s] else (states step stop fuel (step s)).map (s :: ·)

variable {step : σ → σ} {stop : σ → Prop} [DecidablePred stop] {good : Nat → σ → Prop} {n : Nat}

theorem states_stop {s : σ} (h : stop s) (fuel : Nat) : states step stop (fuel + 1) s = some [s] := if_pos h

theorem states_go {s : σ} (h : ¬ stop s) (fuel : Nat) :
    states step stop (fuel + 1) s = (states step stop fuel (step s)).map (s :: ·) :=
  if_neg h

/-- The list of visited states starts with the first one. -/
theorem exists_cons {fuel : Nat} {s : σ} {l : List σ} (h : states step stop fuel s = some l) : ∃ rest, l =
    s :: rest := by
  cases fuel with
  | zero => cases h
  | succ fuel =>
    by_cases hstop : stop s
    · rw [states_stop hstop] at h
      cases h
      exact ⟨[], rfl⟩
    · rw [states_go hstop] at h
      obtain ⟨rest, -, rfl⟩ := Option.map_eq_some_iff.mp h
      exact ⟨rest, rfl⟩

/-- What one step does in the `k`th state, up to the `n`th one, where the loop stops. -/
structure Course (step : σ → σ) (stop : σ → Prop) (good : Nat → σ → Prop) (n : Nat) : Prop where
  go : ∀ k < n, ∀ s, good k s → ¬ stop s ∧ good (k + 1) (step s)
  stop : ∀ s, good n s → stop s

/-- The loop stops in the `n`th state. -/
theorem Course.visits (h : Course step stop good n) {k m : Nat} (hkm : k + m = n) {s : σ} (hs : good k s) :
    ∃ l, states step stop (m + 1) s = some l ∧ l.length = m + 1 ∧ (∃ last, l.getLast? = some last ∧ good n last) ∧
      (∀ t ∈ l, ∃ i ≤ n, good i t) ∧ l.IsChain fun t t' => t' = step t ∧ ∃ i < n, good i t := by
  induction m generalizing k s with
  | zero =>
    obtain rfl : k = n := hkm
    refine ⟨[s], states_stop (h.stop s hs) 0, rfl, ⟨s, rfl, hs⟩, fun t ht => ?_, List.isChain_singleton s⟩
    exact ⟨k, le_refl k, List.mem_singleton.mp ht ▸ hs⟩
  | succ m ih =>
    obtain ⟨hgo, hnext⟩ := h.go k (by omega) s hs
    obtain ⟨l, hl, hlength, ⟨last, hlast, hgood⟩, hall, hchain⟩ := ih (by omega) hnext
    obtain ⟨rest, rfl⟩ := exists_cons hl
    refine ⟨s :: step s :: rest,
      by rw [states_go hgo, hl]; rfl, by rw [List.length_cons, hlength], ⟨last, ?_, hgood⟩, ?_, ?_⟩
    · rwa [List.getLast?_cons_cons]
    · intro t ht
      obtain rfl | ht := List.mem_cons.mp ht
      · exact ⟨k, by omega, hs⟩
      · exact hall t ht
    · exact List.IsChain.cons_cons ⟨rfl, k, by omega, hs⟩ hchain

/-! ## Progress -/

/-- A coordinate that changes by one at most gets no farther than the list is long. -/
theorem span_lt_length {c : σ → Int} {l : List σ} (h : l.IsChain fun s t => (c t - c s).natAbs ≤ 1) {first last : σ}
    (hfirst : l.head? = some first) (hlast : l.getLast? = some last) : (c last - c first).natAbs < l.length := by
  induction l generalizing first with
  | nil => cases hfirst
  | cons s rest ih =>
    obtain rfl : s = first := Option.some.inj hfirst
    cases rest with
    | nil =>
      obtain rfl : s = last := Option.some.inj hlast
      rw [Int.sub_self]
      exact Nat.one_pos
    | cons t rest =>
      obtain ⟨hst, hrest⟩ := List.isChain_cons_cons.mp h
      have hih := ih hrest rfl (by rwa [List.getLast?_cons_cons] at hlast)
      rw [List.length_cons]
      omega

/-- Where the coordinate stands still for one step, the loop needs more steps than the distance that is left. -/
theorem stalls {c : σ → Int} {stall : Nat} (hgo : ∀ k < stall, ∀ s, good k s → ¬ stop s ∧ good (k + 1) (step s))
    (hstall : ∀ s, good stall s → ¬ stop s ∧ c (step s) = c s) {fuel k : Nat} (hk : k ≤ stall) {s last : σ}
    (hs : good k s)
    {l : List σ} (hl : states step stop fuel s = some l) (hchain : l.IsChain fun s t => (c t - c s).natAbs ≤ 1)
    (hlast : l.getLast? = some last) : (c last - c s).natAbs + 1 < l.length := by
  induction fuel generalizing k s l with
  | zero => cases hl
  | succ fuel ih =>
    have hmoves : ¬ stop s := by
      obtain hlt | rfl := Nat.lt_or_eq_of_le hk
      · exact (hgo k hlt s hs).1
      · exact (hstall s hs).1
    rw [states_go hmoves] at hl
    obtain ⟨rest, hrest, rfl⟩ := Option.map_eq_some_iff.mp hl
    obtain ⟨rest', rfl⟩ := exists_cons hrest
    obtain ⟨hst, hchain⟩ := List.isChain_cons_cons.mp hchain
    rw [List.getLast?_cons_cons] at hlast
    obtain hlt | rfl := Nat.lt_or_eq_of_le hk
    · have hih := ih hlt (hgo k hlt s hs).2 hrest hchain hlast
      rw [List.length_cons]
      omega
    · have hspan := span_lt_length hchain rfl hlast
      rw [(hstall s hs).2] at hspan
      rw [List.length_cons]
      omega

end visit
