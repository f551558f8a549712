import Mathlib.Algebra.Order.Ring.Int
import Mathlib.Data.List.Basic
import Mathlib.Logic.Function.Basic

/-!
# Rows of text

A row of the buffer of `quill.c` holds a C string. A row notes whether it was ever written behind its end.
-/

namespace graceos.quill

open List

def Q_MAX_COLS : Nat := 256

/-- A `char[Q_MAX_COLS]`. -/
structure Row where
  cells : Nat → UInt8 := fun _ => 0
  overrun : Bool := false

def Row.put (row : Row) (k : Nat) (c : UInt8) : Row where
  cells := Function.update row.cells k c
  overrun := row.overrun || Q_MAX_COLS ≤ k

/-- The loop of `strlen`; a row without a NUL counts as full. -/
def strlen_from (str : Nat → UInt8) (len : Nat) : Nat → Nat
  | 0 => len
  | n + 1 => if str len = 0 then len else strlen_from str (len + 1) n

def strlen (str : Nat → UInt8) : Nat := strlen_from str 0 Q_MAX_COLS

/-- The loop of `strcpy` to the place `d` of a row, from index `i` on. -/
def copy_from (dest : Row) (d : Nat) (src : Nat → UInt8) (i : Nat) : Nat → Row
  | 0 => dest
  | n + 1 =>
    let dest := dest.put (d + i) (src i)
    if src i = 0 then dest else copy_from dest d src (i + 1) n

def strcpy (dest : Row) (src : Nat → UInt8) : Row := copy_from dest 0 src 0 Q_MAX_COLS

def strcat (dest : Row) (src : Nat → UInt8) : Row := copy_from dest (strlen dest.cells) src 0 Q_MAX_COLS

/-- `line[i + 1] = line[i]` for the `n` indices from `x` on, the last one first. -/
def shift_right (line : Row) (x : Nat) : Nat → Row
  | 0 => line
  | n + 1 => shift_right (line.put (x + n + 1) (line.cells (x + n))) x n

/-- `line[i] = line[i + 1]` for the `n` indices from `i` on. -/
def shift_left (line : Row) (i : Nat) : Nat → Row
  | 0 => line
  | n + 1 => shift_left (line.put i (line.cells (i + 1))) (i + 1) n

/-! ## The string of a row -/

/-- The cells spell a string that ends within a row. -/
structure Spells (cells : Nat → UInt8) (s : List UInt8) : Prop where
  chars : ∀ k c, s[k]? = some c → cells k = c
  nul : cells s.length = 0
  no_nul : ∀ c ∈ s, c ≠ 0
  short : s.length < Q_MAX_COLS

variable {cells src : Nat → UInt8} {s p : List UInt8}

theorem Spells.ne_nul (h : Spells cells s) {k : Nat} (hk : k < s.length) : cells k ≠ 0 := by
  rw [h.chars k s[k] (List.getElem?_eq_getElem hk)]
  exact h.no_nul _ (getElem_mem hk)

theorem Spells.strlen_from (h : Spells cells s) (n len : Nat) (hlen : len ≤ s.length) (hn : s.length - len < n) :
    strlen_from cells len n = s.length := by
  induction n generalizing len with
  | zero => omega
  | succ n ih =>
    rw [quill.strlen_from]
    split
    · next hzero =>
      by_contra hne
      exact h.ne_nul (by omega) hzero
    · next hne =>
      have hlt : len < s.length := by
        by_contra hge
        rw [show len = s.length by omega] at hne
        exact hne h.nul
      exact ih (len + 1) (by omega) (by omega)

theorem Spells.strlen_eq (h : Spells cells s) : strlen cells = s.length :=
  h.strlen_from Q_MAX_COLS 0 (Nat.zero_le _) (by have := h.short; omega)

theorem exists_spells {k : Nat} (hk : k < Q_MAX_COLS) (hzero : cells k = 0) : ∃ s, Spells cells s := by
  induction k using Nat.strongRecOn with
  | _ k ih =>
    by_cases hfirst : ∀ j < k, cells j ≠ 0
    · refine ⟨(List.range k).map cells, ?_, ?_, ?_, ?_⟩
      · intro j c hj
        rw [List.getElem?_map, Option.map_eq_some_iff] at hj
        obtain ⟨i, hi, rfl⟩ := hj
        obtain ⟨_, rfl⟩ := List.getElem?_eq_some_iff.mp hi
        rw [getElem_range]
      · rw [length_map, length_range]
        exact hzero
      · intro c hc
        obtain ⟨j, hj, rfl⟩ := List.mem_map.mp hc
        exact hfirst j (List.mem_range.mp hj)
      · rw [length_map, length_range]
        exact hk
    · push Not at hfirst
      obtain ⟨j, hj, hj0⟩ := hfirst
      exact ih j hj (by omega) hj0

theorem Spells.empty (h : cells 0 = 0) : Spells cells [] :=
  ⟨fun _ _ hk => (by cases hk), h, fun _ hc => (by cases hc), by decide⟩

theorem Spells.drop (h : Spells cells s) {x : Nat} (hx : x ≤ s.length) :
    Spells (fun k => cells (x + k)) (s.drop x) where
  chars k c hk := h.chars (x + k) c (by rw [← List.getElem?_drop]; exact hk)
  nul := by
    rw [length_drop, Nat.add_sub_cancel' hx]
    exact h.nul
  no_nul c hc := h.no_nul c (mem_of_mem_drop hc)
  short := by
    have := h.short
    rw [length_drop]
    omega

/-! ## Writing -/

theorem Row.put_self (row : Row) (k : Nat) (c : UInt8) : (row.put k c).cells k = c := Function.update_self _ _ _

theorem Row.put_of_ne {row : Row} {j k : Nat} (h : j ≠ k) (c : UInt8) : (row.put k c).cells j = row.cells j :=
  Function.update_of_ne h _ _

theorem Row.put_overrun {row : Row} {k : Nat} (hk : k < Q_MAX_COLS) (c : UInt8) :
    (row.put k c).overrun = row.overrun := by
  change (row.overrun || decide (Q_MAX_COLS ≤ k)) = row.overrun
  rw [decide_eq_false (by omega), Bool.or_false]

theorem shift_right_cells (line : Row) (x n k : Nat) :
    (shift_right line x n).cells k = if x < k ∧ k ≤ x + n then line.cells (k - 1) else line.cells k := by
  induction n generalizing line with
  | zero => rw [if_neg (by omega), shift_right]
  | succ n ih =>
    rw [shift_right, ih]
    by_cases hin : x < k ∧ k ≤ x + n
    · rw [if_pos hin, if_pos (by omega), Row.put_of_ne (by omega)]
    · rw [if_neg hin]
      by_cases hlast : k = x + n + 1
      · subst hlast
        rw [if_pos (by omega), Row.put_self]
        rfl
      · rw [if_neg (by omega), Row.put_of_ne hlast]

theorem shift_right_overrun (line : Row) {x n : Nat} (h : x + n < Q_MAX_COLS) :
    (shift_right line x n).overrun = line.overrun := by
  induction n generalizing line with
  | zero => rfl
  | succ n ih =>
    rw [shift_right, ih _ (by omega)]
    exact Row.put_overrun (by omega) _

theorem shift_left_cells (line : Row) (i n k : Nat) :
    (shift_left line i n).cells k = if i ≤ k ∧ k < i + n then line.cells (k + 1) else line.cells k := by
  induction n generalizing line i with
  | zero => rw [if_neg (by omega), shift_left]
  | succ n ih =>
    rw [shift_left, ih]
    by_cases hin : i + 1 ≤ k ∧ k < i + 1 + n
    · rw [if_pos hin, if_pos (by omega), Row.put_of_ne (by omega)]
    · rw [if_neg hin]
      by_cases hfirst : k = i
      · subst hfirst
        rw [if_pos (by omega), Row.put_self]
      · rw [if_neg (by omega), Row.put_of_ne hfirst]

theorem shift_left_overrun (line : Row) {i n : Nat} (h : i + n ≤ Q_MAX_COLS) :
    (shift_left line i n).overrun = line.overrun := by
  induction n generalizing line i with
  | zero => rfl
  | succ n ih =>
    rw [shift_left, ih _ (by omega)]
    exact Row.put_overrun (by omega) _

theorem Spells.copy_cells (h : Spells src s) (dest : Row) (d n i : Nat) (hi : i ≤ s.length) (hn : s.length - i < n)
    (k : Nat) : (copy_from dest d src i n).cells k =
      if d + i ≤ k ∧ k ≤ d + s.length then src (k - d) else dest.cells k := by
  induction n generalizing dest i with
  | zero => omega
  | succ n ih =>
    rw [copy_from]
    split
    · next hzero =>
      have hend : i = s.length := by
        by_contra hne
        exact h.ne_nul (by omega) hzero
      by_cases hk : k = d + i
      · subst hk
        rw [Row.put_self, if_pos (by omega), Nat.add_sub_cancel_left]
      · rw [Row.put_of_ne hk, if_neg (by omega)]
    · next hne =>
      have hlt : i < s.length := by
        by_contra hge
        rw [show i = s.length by omega] at hne
        exact hne h.nul
      rw [ih _ (i + 1) (by omega) (by omega)]
      by_cases hin : d + (i + 1) ≤ k ∧ k ≤ d + s.length
      · rw [if_pos hin, if_pos (by omega)]
      · rw [if_neg hin]
        by_cases hk : k = d + i
        · subst hk
          rw [Row.put_self, if_pos (by omega), Nat.add_sub_cancel_left]
        · rw [Row.put_of_ne hk, if_neg (by omega)]

theorem Spells.copy_overrun (h : Spells src s) {dest : Row} {d : Nat} (hfits : d + s.length < Q_MAX_COLS) (n i : Nat)
    (hi : i ≤ s.length) : (copy_from dest d src i n).overrun = dest.overrun := by
  induction n generalizing dest i with
  | zero => rfl
  | succ n ih =>
    rw [copy_from]
    split
    · exact Row.put_overrun (by omega) _
    · next hne =>
      have hlt : i < s.length := by
        by_contra hge
        rw [show i = s.length by omega] at hne
        exact hne h.nul
      rw [ih (i + 1) (by omega)]
      exact Row.put_overrun (by omega) _

/-! ## Strings behind an edit -/

theorem Spells.strcpy (h : Spells src s) (dest : Row) :
    Spells (strcpy dest src).cells s ∧ (strcpy dest src).overrun = dest.overrun := by
  have hshort := h.short
  have hcells (k : Nat) := h.copy_cells dest 0 Q_MAX_COLS 0 (Nat.zero_le _) (by omega) k
  refine ⟨⟨?_, ?_, h.no_nul, hshort⟩, h.copy_overrun (by omega) _ _ (Nat.zero_le _)⟩
  · intro k c hk
    obtain ⟨hlt, -⟩ := List.getElem?_eq_some_iff.mp hk
    rw [quill.strcpy, hcells, if_pos (by omega)]
    exact h.chars k c hk
  · rw [quill.strcpy, hcells, if_pos (by omega)]
    exact h.nul

theorem Spells.strcat {dest : Row} (hdest : Spells dest.cells p) (h : Spells src s)
    (hfits : p.length + s.length < Q_MAX_COLS) :
    Spells (strcat dest src).cells (p ++ s) ∧ (strcat dest src).overrun = dest.overrun := by
  have hshort := h.short
  have hcells (k : Nat) := h.copy_cells dest p.length Q_MAX_COLS 0 (Nat.zero_le _) (by omega) k
  rw [quill.strcat, hdest.strlen_eq]
  refine ⟨⟨?_, ?_, ?_, ?_⟩, h.copy_overrun (by omega) _ _ (Nat.zero_le _)⟩
  · intro k c hk
    rw [hcells]
    by_cases hlt : k < p.length
    · rw [List.getElem?_append_left hlt] at hk
      rw [if_neg (by omega)]
      exact hdest.chars k c hk
    · rw [List.getElem?_append_right (by omega)] at hk
      obtain ⟨hlt', -⟩ := List.getElem?_eq_some_iff.mp hk
      rw [if_pos (by omega)]
      exact h.chars _ c hk
  · rw [hcells, length_append, if_pos (by omega), Nat.add_sub_cancel_left]
    exact h.nul
  · intro c hc
    rcases List.mem_append.mp hc with hc | hc
    · exact hdest.no_nul c hc
    · exact h.no_nul c hc
  · rw [length_append]
    exact hfits

theorem Spells.cut {row : Row} (h : Spells row.cells s) {x : Nat} (hx : x ≤ s.length) :
    Spells (row.put x 0).cells (s.take x) ∧ (row.put x 0).overrun = row.overrun := by
  have hshort := h.short
  refine ⟨⟨?_, ?_, ?_, ?_⟩, Row.put_overrun (by omega) 0⟩
  · intro k c hk
    obtain ⟨hlt, -⟩ := List.getElem?_eq_some_iff.mp hk
    rw [length_take] at hlt
    rw [List.getElem?_take_of_lt (by omega)] at hk
    rw [Row.put_of_ne (by omega)]
    exact h.chars k c hk
  · rw [length_take, Nat.min_eq_left hx, Row.put_self]
  · intro c hc
    exact h.no_nul c (mem_of_mem_take hc)
  · rw [length_take]
    omega

/-- A character comes in at `x`. -/
theorem Spells.insert {row : Row} (h : Spells row.cells s) {x : Nat} (hx : x ≤ s.length)
    (hfits : s.length + 1 < Q_MAX_COLS) {c : UInt8} (hc : c ≠ 0) :
    Spells ((shift_right row x (s.length + 1 - x)).put x c).cells (s.take x ++ c :: s.drop x) ∧
      ((shift_right row x (s.length + 1 - x)).put x c).overrun = row.overrun := by
  have hlen : (s.take x ++ c :: s.drop x).length = s.length + 1 := by
    rw [length_append, length_cons, length_take, length_drop]
    omega
  have htake : (s.take x).length = x := by
    rw [length_take]
    omega
  refine ⟨⟨?_, ?_, ?_, by rw [hlen]; exact hfits⟩, ?_⟩
  · intro k d hk
    rcases Nat.lt_trichotomy k x with hlt | rfl | hgt
    · rw [List.getElem?_append_left (by omega), List.getElem?_take_of_lt hlt] at hk
      rw [Row.put_of_ne (by omega), shift_right_cells, if_neg (by omega)]
      exact h.chars k d hk
    · rw [List.getElem?_append_right (by omega), htake, Nat.sub_self, List.getElem?_cons_zero] at hk
      rw [Row.put_self]
      exact Option.some.inj hk
    · obtain ⟨hlt, -⟩ := List.getElem?_eq_some_iff.mp hk
      rw [hlen] at hlt
      rw [List.getElem?_append_right (by omega), htake, show k - x = k - 1 - x + 1 by omega, List.getElem?_cons_succ,
        List.getElem?_drop, show x + (k - 1 - x) = k - 1 by omega] at hk
      rw [Row.put_of_ne (by omega), shift_right_cells, if_pos (by omega)]
      exact h.chars _ d hk
  · rw [hlen, Row.put_of_ne (by omega), shift_right_cells, if_pos (by omega), Nat.add_sub_cancel]
    exact h.nul
  · intro d hd
    rcases List.mem_append.mp hd with hd | hd
    · exact h.no_nul d (mem_of_mem_take hd)
    · rcases List.mem_cons.mp hd with rfl | hd
      · exact hc
      · exact h.no_nul d (mem_of_mem_drop hd)
  · rw [Row.put_overrun (by omega), shift_right_overrun _ (by omega)]

theorem Spells.delete {row : Row} (h : Spells row.cells s) {x : Nat} (hx : x < s.length) :
    Spells (shift_left row x (s.length - x)).cells (s.eraseIdx x) ∧
      (shift_left row x (s.length - x)).overrun = row.overrun := by
  have hshort := h.short
  have hlen : (s.eraseIdx x).length = s.length - 1 := length_eraseIdx_of_lt hx
  refine ⟨⟨?_, ?_, ?_, ?_⟩, shift_left_overrun _ (by omega)⟩
  · intro k c hk
    obtain ⟨hlt, -⟩ := List.getElem?_eq_some_iff.mp hk
    rw [hlen] at hlt
    rw [List.getElem?_eraseIdx] at hk
    rw [shift_left_cells]
    split at hk
    · rw [if_neg (by omega)]
      exact h.chars k c hk
    · rw [if_pos (by omega)]
      exact h.chars _ c hk
  · rw [hlen, shift_left_cells, if_pos (by omega), show s.length - 1 + 1 = s.length by omega]
    exact h.nul
  · intro c hc
    exact h.no_nul c (mem_of_mem_eraseIdx hc)
  · rw [hlen]
    omega

end graceos.quill
