import Mathlib.Data.List.TakeWhile
import Mathlib.Tactic.Common

/-!
# Parts between separators

A text is cut at a separator, and empty parts are dropped. Parts that are joined again are found as they were.
-/

namespace separated

open List

variable {α : Type} [DecidableEq α] {sep : α}

/-- What is left of a text behind its first part is shorter. -/
theorem rest_lt {s : List α} (h : s.dropWhile (· = sep) ≠ []) :
    ((s.dropWhile (· = sep)).dropWhile (· ≠ sep)).length < s.length := by
  have hle := (s.dropWhile_sublist (· = sep)).length_le
  have hhead := s.head_dropWhile_not (· = sep) h
  obtain ⟨c, rest, hs⟩ := exists_cons_of_ne_nil h
  simp only [hs, head_cons, decide_eq_false_iff_not] at hhead
  have hrest := (rest.dropWhile_sublist (· ≠ sep)).length_le
  rw [hs] at hle ⊢
  rw [dropWhile_cons_of_pos (by simpa using hhead)]
  rw [length_cons] at hle
  omega

variable (sep) in
/-- The parts between separators that are not empty. -/
def parts (s : List α) : List (List α) :=
  if _h : s.dropWhile (· = sep) = [] then []
  else (s.dropWhile (· = sep)).takeWhile (· ≠ sep) :: parts ((s.dropWhile (· = sep)).dropWhile (· ≠ sep))
termination_by s.length
decreasing_by exact rest_lt _h

variable (sep) in
/-- Each part behind a separator. -/
def spelled (ps : List (List α)) : List α := ps.flatMap (sep :: ·)

/-- A text that can stand between separators. -/
structure Part (sep : α) (p : List α) : Prop where
  ne_nil : p ≠ []
  whole : sep ∉ p

theorem parts_of_nil {s : List α} (h : s.dropWhile (· = sep) = []) : parts sep s = [] := by
  rw [parts]
  exact dif_pos h

theorem parts_of_ne {s : List α} (h : s.dropWhile (· = sep) ≠ []) : parts sep s =
    (s.dropWhile (· = sep)).takeWhile (· ≠ sep) :: parts sep ((s.dropWhile (· = sep)).dropWhile (· ≠ sep)) := by
  rw [parts]
  exact dif_neg h

@[simp] theorem parts_nil : parts sep [] = [] := parts_of_nil rfl

/-- Separators in front do not count. -/
theorem parts_congr {s s' : List α} (h : s.dropWhile (· = sep) = s'.dropWhile (· = sep)) :
    parts sep s = parts sep s' := by
  by_cases hnil : s.dropWhile (· = sep) = []
  · rw [parts_of_nil hnil, parts_of_nil (h ▸ hnil)]
  · rw [parts_of_ne hnil, h]
    exact (parts_of_ne (h ▸ hnil)).symm

@[simp] theorem parts_sep_cons (s : List α) : parts sep (sep :: s) = parts sep s :=
  parts_congr (dropWhile_cons_of_pos (by simp))

theorem parts_append_sep (a b : List α) : parts sep (a ++ sep :: b) = parts sep a ++ parts sep b := by
  induction hn : a.length using Nat.strongRecOn generalizing a with
  | ind n ih =>
    subst hn
    by_cases hall : a.dropWhile (· = sep) = []
    · -- only separators in front
      rw [parts_of_nil hall, nil_append]
      refine (parts_congr ?_).trans (parts_sep_cons b)
      rw [dropWhile_append, hall]
      rfl
    · have hdrop : (a ++ sep :: b).dropWhile (· = sep) = a.dropWhile (· = sep) ++ sep :: b := by
        rw [dropWhile_append, if_neg (by simpa using hall)]
      rw [@parts_of_ne _ _ sep (a ++ sep :: b) (by rw [hdrop]; simp), parts_of_ne hall, hdrop]
      by_cases hone : (a.dropWhile (· = sep)).dropWhile (· ≠ sep) = []
      · -- the first part ends at the separator
        have hwhole : ∀ c ∈ a.dropWhile (· = sep), decide (c ≠ sep) = true := List.dropWhile_eq_nil_iff.mp hone
        rw [takeWhile_append_of_pos hwhole, dropWhile_append_of_pos hwhole, hone, parts_nil,
          takeWhile_cons_of_neg (by simp), dropWhile_cons_of_neg (by simp), parts_sep_cons, append_nil,
          List.takeWhile_eq_self_iff.mpr hwhole]
        rfl
      · have hlt := rest_lt hall
        have htake : (a.dropWhile (· = sep) ++ sep :: b).takeWhile (· ≠ sep) =
            (a.dropWhile (· = sep)).takeWhile (· ≠ sep) := by
          rw [takeWhile_append, if_neg]
          intro hlength
          refine hone (List.dropWhile_eq_nil_iff.mpr fun c hc => ?_)
          have hself := ( takeWhile_prefix (l := a.dropWhile (· = sep)) (· ≠ sep)).eq_of_length hlength
          exact List.takeWhile_eq_self_iff.mp hself c hc
        rw [htake, dropWhile_append, if_neg (by simpa using hone), ih _ hlt _ rfl]
        rfl

/-- A part is a piece of the text. -/
theorem mem_parts {s p : List α} (h : p ∈ parts sep s) : Part sep p ∧ ∀ c ∈ p, c ∈ s := by
  induction s using @parts.induct _ _ sep with
  | case1 s hnil =>
    rw [parts_of_nil hnil] at h
    exact absurd h not_mem_nil
  | case2 s hne ih =>
    rw [parts_of_ne hne] at h
    cases List.mem_cons.mp h with
    | inl hfirst =>
      subst hfirst
      refine ⟨⟨fun hnil => ?_, fun hsep => ?_⟩, fun c hc => ?_⟩
      · have hhead := s.head_dropWhile_not (· = sep) hne
        obtain ⟨c, rest, hs⟩ := exists_cons_of_ne_nil hne
        simp only [hs, head_cons, decide_eq_false_iff_not] at hhead
        rw [hs, takeWhile_cons_of_pos (by simpa using hhead)] at hnil
        cases hnil
      · simpa using mem_takeWhile_imp hsep
      · exact (s.dropWhile_sublist _).subset ((takeWhile_sublist _).subset hc)
    | inr hrest =>
      obtain ⟨hpart, hmem⟩ := ih hrest
      exact ⟨hpart, fun c hc => (s.dropWhile_sublist _).subset ((dropWhile_sublist _).subset (hmem c hc))⟩

/-- A single part. -/
theorem parts_single {p : List α} (h : Part sep p) : parts sep p = [p] := by
  obtain ⟨c, rest, rfl⟩ := exists_cons_of_ne_nil h.ne_nil
  have hc : c ≠ sep := fun hc => h.whole (hc ▸ mem_cons_self ..)
  have hwhole : ∀ d ∈ c :: rest, decide (d ≠ sep) = true := by
    intro d hd
    simpa using fun hsep : d = sep => h.whole (hsep ▸ hd)
  have hdrop : (c :: rest).dropWhile (· = sep) = c :: rest := dropWhile_cons_of_neg (by simpa using hc)
  rw [parts_of_ne (by rw [hdrop]; simp), hdrop, List.takeWhile_eq_self_iff.mpr hwhole,
    List.dropWhile_eq_nil_iff.mpr hwhole, parts_nil]

/-- Parts that are joined are found again. -/
theorem parts_spelled {ps : List (List α)} (h : ∀ p ∈ ps, Part sep p) : parts sep (spelled sep ps) = ps := by
  induction ps with
  | nil => exact parts_nil
  | cons p ps ih =>
    have hrest := ih fun q hq => h q (mem_cons_of_mem p hq)
    have hp := parts_single (h p (mem_cons_self ..))
    rw [spelled, flatMap_cons, cons_append, parts_sep_cons]
    cases ps with
    | nil => rw [flatMap_nil, append_nil, hp]
    | cons q ps =>
      rw [spelled, flatMap_cons, cons_append, parts_sep_cons] at hrest
      rw [flatMap_cons, cons_append, parts_append_sep, hp, hrest]
      rfl

end separated
