import GraceOS.Shell.Resolve
import Mathlib.Data.List.GetD

/-!
# Resolved paths are canonical

The table holds the segments of a walk, and the output spells them. A resolved path is walked to its own segments.
-/

namespace graceos.shell

open bfs separated traced List

/-! ## Rows of the table -/

/-- A place of the table. -/
def Inside (place : Nat × Nat) : Prop := place.1 < SHELL_MAX_SEGMENTS ∧ place.2 < SHELL_SEGMENT_MAX

/-- A row begins with a string. -/
def Holds (row : Nat → Int8) (p : List Int8) : Prop := ∀ j ≤ p.length, row j = p.getD j 0

/-- A segment that fits a row. -/
structure Fits (p : List Int8) : Prop where
  short : p.length < SHELL_SEGMENT_MAX
  no_nul : 0 ∉ p

/-- The rows of the table from the first on. -/
structure Spells (segments : Table) (ps : List (List Int8)) : Prop where
  rows : ∀ i (h : i < ps.length), Holds (segments i) ps[i]
  fits : ∀ p ∈ ps, Fits p

/-- What a computation over the table comes to, and that it stays in the table. -/
structure Does (x : Resolving (Table × Nat)) (result : Option (List (List Int8))) : Prop where
  inside : AllRun Inside x
  none_of : result = none → outcome x = none
  some_of : ∀ ps, result = some ps → ∃ segments, outcome x = some (segments, ps.length) ∧ Spells segments ps

section Rows

variable {segments : Table} {n i : Nat} {p : List Int8} {ps : List (List Int8)}

theorem copy_segment_value : (copy_segment n i p segments).value =
    fun a b => if a = n ∧ i ≤ b ∧ b < i + p.length then p.getD (b - i) 0 else segments a b := by
  induction p generalizing i segments with
  | nil =>
    funext a b
    rw [if_neg (by rw [length_nil]; omega)]
    rfl
  | cons c p ih =>
    rw [copy_segment, Traced.value_bind, ih]
    funext a b
    rw [length_cons]
    by_cases ha : a = n
    · by_cases hb : b = i
      · rw [if_neg (by omega), if_pos (by omega), hb, Nat.sub_self]
        exact if_pos ⟨ha, rfl⟩
      · by_cases hin : i + 1 ≤ b ∧ b < i + 1 + p.length
        · obtain ⟨k, rfl⟩ : ∃ k, b = i + 1 + k := ⟨b - (i + 1), by omega⟩
          rw [if_pos ⟨ha, hin⟩, if_pos (by omega), Nat.add_sub_cancel_left, show i + 1 + k - i = k + 1 by omega]
          rfl
        · rw [if_neg (by omega), if_neg (by omega)]
          exact if_neg fun h => hb h.2
    · rw [if_neg (by omega), if_neg (by omega)]
      exact if_neg fun h => ha h.1

theorem put_all (hi : n < SHELL_MAX_SEGMENTS) (hj : i < SHELL_SEGMENT_MAX) (c : Int8) :
    (put segments n i c).All Inside := by
  intro e he
  obtain rfl := List.mem_singleton.mp he
  exact ⟨hi, hj⟩

theorem copy_segment_all (hn : n < SHELL_MAX_SEGMENTS) (hi : i + p.length ≤ SHELL_SEGMENT_MAX) :
    (copy_segment n i p segments).All Inside := by
  induction p generalizing i segments with
  | nil => exact Traced.all_pure segments
  | cons c p ih =>
    rw [length_cons] at hi
    exact Traced.all_bind.mpr ⟨put_all hn (by omega) c, ih (by omega)⟩

theorem seed_segment_copies (hn : n < SHELL_MAX_SEGMENTS) (hi : i + p.length < SHELL_SEGMENT_MAX) :
    AllRun Inside (seed_segment n i p segments) ∧
      outcome (seed_segment n i p segments) = some (copy_segment n i p segments).value := by
  induction p generalizing i segments with
  | nil => exact ⟨allRun_pure segments, rfl⟩
  | cons c p ih =>
    rw [length_cons] at hi
    obtain ⟨hall, hvalue⟩ := @ih (put segments n i c).value (i + 1) (by omega)
    rw [seed_segment, if_neg (by omega)]
    refine ⟨allRun_bind (allRun_lift.mpr (put_all hn (by omega) c)) fun t ht => ?_, ?_⟩
    · obtain rfl := Option.some.inj ht
      exact hall
    · rw [outcome_bind, outcome_lift]
      exact hvalue

/-- A segment and its NUL in the next row. -/
theorem Spells.push (h : Spells segments ps) (hp : Fits p) :
    Spells (put (copy_segment ps.length 0 p segments).value ps.length p.length 0).value (ps ++ [p]) := by
  have hrow : ∀ a b, (put (copy_segment ps.length 0 p segments).value ps.length p.length 0).value a b =
      if a = ps.length ∧ b ≤ p.length then p.getD b 0 else segments a b := by
    intro a b
    change (if a = ps.length ∧ b = p.length then 0 else (copy_segment ps.length 0 p segments).value a b) = _
    rw [copy_segment_value]
    by_cases hend : a = ps.length ∧ b = p.length
    · rw [if_pos hend, if_pos ⟨hend.1, hend.2.le⟩, getD_eq_default _ _ hend.2.ge]
    · rw [if_neg hend]
      dsimp only
      rw [Nat.sub_zero]
      congr 1
      rw [eq_iff_iff]
      omega
  constructor
  · intro i hi j hj
    rw [length_append, length_singleton] at hi
    rw [hrow]
    by_cases hlast : i = ps.length
    · subst hlast
      simp only [getElem_concat_length] at hj ⊢
      exact if_pos ⟨trivial, hj⟩
    · have hlt : i < ps.length := by omega
      rw [getElem_append_left hlt] at hj ⊢
      rw [if_neg fun hin => hlast hin.1, h.rows i hlt j hj]
  · intro q hq
    cases List.mem_append.mp hq with
    | inl hq => exact h.fits q hq
    | inr hq => exact List.mem_singleton.mp hq ▸ hp

theorem Spells.dropLast (h : Spells segments ps) : Spells segments ps.dropLast := by
  constructor
  · intro i hi
    rw [getElem_dropLast]
    exact h.rows i _
  · exact fun p hp => h.fits p (dropLast_subset ps hp)

end Rows

/-! ## Both loops walk -/

section Walks

variable {segments : Table} {ps : List (List Int8)} {result : Option (List (List Int8))}

theorem Does.pure (h : Spells segments ps) : Does (pure (segments, ps.length)) (some ps) where
  inside := allRun_pure _
  none_of hnone := by cases hnone
  some_of qs hqs := by
    obtain rfl := Option.some.inj hqs
    exact ⟨segments, rfl, h⟩

theorem Does.failure : Does failure none where
  inside := Traced.all_pure none
  none_of _ := rfl
  some_of ps hps := by cases hps

theorem Does.bind {α : Type} {x : Resolving α} {a : α} {f : α → Resolving (Table × Nat)} (hall : AllRun Inside x)
    (hx : outcome x = some a) (hf : Does (f a) result) : Does (x >>= f) result where
  inside := allRun_bind hall fun b hb => by
    obtain rfl := Option.some.inj (hx.symm.trans hb)
    exact hf.inside
  none_of hnone := by
    rw [outcome_bind, hx]
    exact hf.none_of hnone
  some_of ps hps := by
    rw [outcome_bind, hx]
    exact hf.some_of ps hps

theorem no_nul_part {s p : List Int8} (h : 0 ∉ s) (hp : p ∈ parts SLASH s) : 0 ∉ p :=
  fun hin => h ((mem_parts hp).2 0 hin)

theorem no_nul_rest {s : List Int8} (h : 0 ∉ s) : 0 ∉ (s.dropWhile (· = SLASH)).dropWhile (· ≠ SLASH) :=
  fun hin => h ((s.dropWhile_sublist _).subset ((dropWhile_sublist _).subset hin))

/-- The current directory is put into the table. -/
theorem seed_does {c : List Int8} (h : Spells segments ps) (hnul : 0 ∉ c)
    (hshort : ∀ p ∈ parts SLASH c, p.length < SHELL_SEGMENT_MAX)
    (hcount : ps.length + (parts SLASH c).length ≤ SHELL_MAX_SEGMENTS) :
    Does (seed segments ps.length c) (some (ps ++ parts SLASH c)) := by
  induction c using @parts.induct _ _ SLASH generalizing segments ps with
  | case1 c hnil =>
    rw [seed, dif_pos hnil, parts_of_nil hnil, append_nil]
    exact .pure h
  | case2 c hne ih =>
    rw [seed, dif_neg hne]
    have hparts := parts_of_ne hne
    set p := (c.dropWhile (· = SLASH)).takeWhile (· ≠ SLASH)
    have hp : p ∈ parts SLASH c := hparts ▸ mem_cons_self ..
    have hfits : Fits p := ⟨hshort p hp, no_nul_part hnul hp⟩
    have hpos : p.length > 0 := List.length_pos_iff.mpr (mem_parts hp).1.ne_nil
    rw [hparts, length_cons] at hcount
    obtain ⟨hall, hvalue⟩ := @seed_segment_copies segments ps.length 0 p (by omega)
      (by rw [Nat.zero_add]; exact hfits.short)
    refine .bind hall hvalue ?_
    rw [if_pos hpos, if_neg (by omega)]
    refine .bind (allRun_lift.mpr (put_all (by omega) hfits.short 0)) (outcome_lift _) ?_
    have hrest := ih (h.push hfits) (no_nul_rest hnul) (fun q hq => hshort q (hparts ▸ mem_cons_of_mem p hq))
      (by rw [length_append, length_singleton]; omega)
    rw [length_append, length_singleton, append_assoc, singleton_append] at hrest
    rw [hparts]
    exact hrest

/-- The input is walked. -/
theorem apply_input_does {p : List Int8} (h : Spells segments ps) (hnul : 0 ∉ p)
    (hcount : ps.length ≤ SHELL_MAX_SEGMENTS) :
    Does (apply_input segments ps.length p) (walk ps (parts SLASH p)) := by
  induction p using @parts.induct _ _ SLASH generalizing segments ps with
  | case1 p hnil =>
    rw [apply_input, dif_pos hnil, parts_of_nil hnil]
    exact .pure h
  | case2 p hne ih =>
    rw [apply_input, dif_neg hne]
    have hparts := parts_of_ne hne
    rw [hparts, walk, foldlM_cons, enter]
    set q := (p.dropWhile (· = SLASH)).takeWhile (· ≠ SLASH)
    have hq : q ∈ parts SLASH p := hparts ▸ mem_cons_self ..
    dsimp only
    by_cases hlong : q.length ≥ SHELL_SEGMENT_MAX
    · rw [if_pos hlong, if_pos hlong]
      exact .failure
    rw [if_neg hlong, if_neg hlong]
    by_cases hdot : q = [DOT]
    · rw [if_pos hdot, if_pos hdot]
      exact ih h (no_nul_rest hnul) hcount
    rw [if_neg hdot, if_neg hdot]
    by_cases hdots : q = [DOT, DOT]
    · have hlength : (if ps.length > 0 then ps.length - 1 else ps.length) = ps.dropLast.length := by
        rw [length_dropLast]
        split <;> omega
      rw [if_pos hdots, if_pos hdots, hlength]
      exact ih h.dropLast (no_nul_rest hnul) (by rw [length_dropLast]; omega)
    rw [if_neg hdots, if_neg hdots]
    by_cases hfull : ps.length ≥ SHELL_MAX_SEGMENTS
    · rw [if_pos hfull, if_pos hfull]
      exact .failure
    rw [if_neg hfull, if_neg hfull]
    have hfits : Fits q := ⟨not_le.mp hlong, no_nul_part hnul hq⟩
    refine .bind (allRun_lift.mpr (copy_segment_all (by omega) (by have := hfits.short; omega))) (outcome_lift _) ?_
    refine .bind (allRun_lift.mpr (put_all (by omega) hfits.short 0)) (outcome_lift _) ?_
    have hrest := ih (h.push hfits) (no_nul_rest hnul) (by rw [length_append, length_singleton]; omega)
    rw [length_append, length_singleton] at hrest
    exact hrest

end Walks

/-! ## The output spells the segments -/

section Output

variable {out : Buffer} {row : Nat → Int8} {p s : List Int8}

theorem store_set (c : Int8) : (out.store s).set s.length c = out.store (s ++ [c]) := by
  funext k
  rw [Buffer.set, Buffer.store, Buffer.store]
  by_cases hlt : k < s.length
  · rw [if_neg (by omega), getD_append _ _ _ _ hlt]
  · by_cases heq : k = s.length
    · rw [if_pos heq, getD_append_right _ _ _ _ (by omega), heq, Nat.sub_self]
      rfl
    · rw [if_neg heq, getD_eq_default _ _ (by omega),
        getD_eq_default _ _ (by rw [length_append, length_singleton]; omega)]

theorem range_split {m n : Nat} (h : m ≤ n) : List.range n = List.range m ++ List.range' m (n - m) := by
  have hadd := @List.range'_append_1 0 m (n - m)
  rw [Nat.zero_add, Nat.add_sub_of_le h] at hadd
  rw [range_eq_range', range_eq_range', hadd]

theorem strlen_eq (h : Holds row p) (hp : Fits p) : strlen row = p.length := by
  have hshort := hp.short
  obtain ⟨left, hleft⟩ : ∃ left, SHELL_SEGMENT_MAX - p.length = left + 1 := ⟨SHELL_SEGMENT_MAX - p.length - 1, by omega⟩
  have hchars : ∀ j ∈ List.range p.length, decide (row j ≠ 0) = true := by
    intro j hj
    have hlt := List.mem_range.mp hj
    rw [h j hlt.le, getD_eq_getElem _ _ hlt]
    simpa using fun hzero : p[j] = 0 => hp.no_nul (hzero ▸ getElem_mem hlt)
  have hend : ¬ (fun j => decide (row j ≠ 0)) p.length = true := by
    dsimp only
    rw [h p.length le_rfl, getD_eq_default _ _ le_rfl]
    simp
  rw [strlen, range_split hshort.le, takeWhile_append_of_pos hchars, hleft, List.range'_succ,
    takeWhile_cons_of_neg (p := fun j => decide (row j ≠ 0)) hend, append_nil, length_range]

theorem copy_out_store (h : Holds row p) : copy_out row s.length p.length (out.store s) = out.store (s ++ p) := by
  have htake : ∀ n ≤ p.length, copy_out row s.length n (out.store s) = out.store (s ++ p.take n) := by
    intro n hn
    induction n with
    | zero => rw [take_zero, append_nil]; rfl
    | succ n ih =>
      have hprev := ih (by omega)
      rw [copy_out] at hprev ⊢
      have hlength : s.length + n = (s ++ p.take n).length := by
        rw [length_append, length_take, Nat.min_eq_left (by omega)]
      have hrow : row n = p[n] := (h n (by omega)).trans (getD_eq_getElem _ _ (by omega))
      rw [range_succ, foldl_append, hprev, foldl_cons, foldl_nil, hlength, store_set, hrow,
        append_assoc, take_append_getElem (by omega)]
  rw [htake p.length le_rfl, take_length]

theorem text_snoc (ps : List (List Int8)) (p : List Int8) :
    text (ps ++ [p]) = text ps ++ ((if ps = [] then [] else [SLASH]) ++ p) := by
  rw [text, if_neg (by simp), text]
  by_cases hps : ps = []
  · subst hps
    simp [spelled]
  · rw [if_neg hps, if_neg hps, spelled, flatMap_append, flatMap_singleton, spelled]
    rfl

theorem text_length_pos {ps : List (List Int8)} (hparts : ∀ p ∈ ps, p ≠ []) :
    1 < (text ps).length ↔ ps ≠ [] := by
  cases ps with
  | nil => simp [text]
  | cons p ps =>
    have hp := List.length_pos_iff.mpr (hparts p (mem_cons_self ..))
    rw [text, if_neg (cons_ne_nil _ _), spelled, flatMap_cons, cons_append, length_cons,
      length_append]
    exact iff_of_true (by omega) (cons_ne_nil _ _)

/-- The path of the segments that fit is written; a position is left where all do. -/
theorem write_out_eq {segments : Table} {out_len : Int} {found ps : List (List Int8)}
    (h : Spells segments (found ++ ps)) (hparts : ∀ p ∈ found ++ ps, p ≠ []) :
    write_out segments out_len (List.range' found.length ps.length) (text found).length (out.store (text found)) =
      (out.store (text (fitting out_len found ps)),
        if fitting out_len found ps = found ++ ps then some (text (found ++ ps)).length else none) := by
  induction ps generalizing found with
  | nil =>
    rw [append_nil, fitting, if_pos rfl]
    rfl
  | cons p ps ih =>
    have hrow : Holds (segments found.length) p := by
      have hrow := h.rows found.length (by simp)
      rwa [getElem_append_right le_rfl, getElem_cons, dif_pos (Nat.sub_self _)] at hrow
    have hp : Fits p := h.fits p (by simp)
    have hfound := text_length_pos fun q hq => hparts q (mem_append_left _ hq)
    have hlength : (text found).length + (if (text found).length > 1 then 1 else 0) + p.length =
        (text (found ++ [p])).length := by
      rw [text_snoc, length_append, length_append]
      by_cases hnil : found = []
      · rw [if_neg (by rw [gt_iff_lt, hfound]; simpa using hnil), if_pos hnil, length_nil]
        omega
      · rw [if_pos (hfound.mpr hnil), if_neg hnil, length_singleton]
        omega
    rw [length_cons, List.range'_succ, write_out]
    dsimp only
    rw [strlen_eq hrow hp, hlength, fitting]
    by_cases hlong : ((text (found ++ [p])).length : Int) ≥ out_len
    · rw [if_pos hlong, if_pos hlong, if_neg]
      intro hall
      have := congrArg List.length hall
      rw [length_append, length_cons] at this
      omega
    · rw [if_neg hlong, if_neg hlong]
      have hrest := @ih (found ++ [p]) (by rwa [append_assoc, singleton_append])
        (by rwa [append_assoc, singleton_append])
      rw [length_append, length_singleton, append_assoc, singleton_append] at hrest
      by_cases hnil : found = []
      · have hpos : ¬ (text found).length > 1 := by
          rw [gt_iff_lt, hfound]
          simpa using hnil
        have htext : text found ++ p = text (found ++ [p]) := by rw [text_snoc, if_pos hnil, nil_append]
        rw [if_neg hpos]
        dsimp only
        rw [copy_out_store hrow, ← length_append, htext]
        exact hrest
      · have hpos : (text found).length > 1 := hfound.mpr hnil
        have htext : text found ++ [SLASH] ++ p = text (found ++ [p]) := by
          rw [text_snoc, if_neg hnil, append_assoc]
        have hnext : (text found).length + 1 = (text found ++ [SLASH]).length := by simp
        rw [if_pos hpos]
        dsimp only
        rw [store_set, hnext, copy_out_store hrow, ← length_append, htext]
        exact hrest

end Output

end graceos.shell
