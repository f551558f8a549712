import GraceOS.Quill.Editor
import Mathlib.Order.Basic
import Mathlib.Algebra.Order.Ring.Nat

/-!
# The editor as a text

The lines before the cursor's line, that line and the lines behind it; every key changes these as it changes the
text that they join to.
-/

namespace graceos.quill

open List Function

/-! ## Lines of a buffer -/

/-- The rows spell what `f` says, where it says anything, and nothing was written outside of the buffer. -/
structure Holds (b : Buffer) (f : Nat → Option (List UInt8)) : Prop where
  rows : ∀ y s, f y = some s → Spells (b.lines y).cells s
  clean : ∀ y, (b.lines y).overrun = false
  inside : b.stray = false

variable {b : Buffer} {f g : Nat → Option (List UInt8)} {A B : List (List UInt8)} {l p s : List UInt8} {e : Editor}

theorem Holds.mono (h : Holds b f) (hg : ∀ y s, g y = some s → f y = some s) : Holds b g :=
  ⟨fun y s hs => h.rows y s (hg y s hs), h.clean, h.inside⟩

theorem Holds.set_line (h : Holds b f) {y : Nat} (hy : y < Q_MAX_LINES) {row : Row}
    (hrow : Spells row.cells s ∧ row.overrun = false) :
    Holds (b.set_line y row) (update f y (some s)) where
  rows j t ht := by
    change Spells (update b.lines y row j).cells t
    by_cases hj : j = y
    · subst hj
      rw [update_self] at ht ⊢
      rw [← Option.some.inj ht]
      exact hrow.1
    · rw [update_of_ne hj] at ht ⊢
      exact h.rows j t ht
  clean j := by
    change (update b.lines y row j).overrun = false
    by_cases hj : j = y
    · subst hj
      rw [update_self]
      exact hrow.2
    · rw [update_of_ne hj]
      exact h.clean j
  inside := by
    change (b.stray || decide (Q_MAX_LINES ≤ y)) = false
    rw [h.inside, decide_eq_false (by omega), Bool.or_false]

theorem Holds.strcpy_line (h : Holds b f) {y : Nat} (hy : y < Q_MAX_LINES) {src : Nat → UInt8} (hsrc : Spells src s) :
    Holds (b.set_line y (strcpy (b.lines y) src)) (update f y (some s)) := by
  obtain ⟨hspells, hclean⟩ := hsrc.strcpy (b.lines y)
  exact h.set_line hy ⟨hspells, hclean.trans (h.clean y)⟩

theorem pull_up_line_count (b : Buffer) (i n : Nat) : (pull_up b i n).line_count = b.line_count := by
  induction n generalizing b i with
  | zero => rfl
  | succ n ih => exact ih _ _

theorem push_down_line_count (b : Buffer) (y n : Nat) : (push_down b y n).line_count = b.line_count := by
  induction n generalizing b with
  | zero => rfl
  | succ n ih => exact ih _

theorem Holds.pull_up (h : Holds b f) {i n : Nat} (hsrc : ∀ j, i < j → j ≤ i + n → (f j).isSome)
    (hlimit : i + n ≤ Q_MAX_LINES) :
    Holds (pull_up b i n) fun j => if i ≤ j ∧ j < i + n then f (j + 1) else f j := by
  induction n generalizing b f i with
  | zero =>
    apply h.mono
    intro y s hs
    rwa [if_neg (by omega)] at hs
  | succ n ih =>
    obtain ⟨s, hs⟩ := Option.isSome_iff_exists.mp (hsrc (i + 1) (by omega) (by omega))
    have hstep := h.strcpy_line (y := i) (by omega) (h.rows (i + 1) s hs)
    have hsrc' : ∀ j, i + 1 < j → j ≤ i + 1 + n → (update f i (some s) j).isSome := by
      intro j hlt hle
      rw [update_of_ne (by omega)]
      exact hsrc j (by omega) (by omega)
    apply (ih hstep hsrc' (by omega)).mono
    intro j t ht
    by_cases hin : i + 1 ≤ j ∧ j < i + 1 + n
    · rw [if_pos (by omega)] at ht
      rw [if_pos hin, update_of_ne (by omega), ht]
    · rw [if_neg hin]
      by_cases hfirst : j = i
      · subst hfirst
        rw [if_pos (by omega)] at ht
        rw [update_self, ← hs, ht]
      · rw [if_neg (by omega)] at ht
        rw [update_of_ne hfirst, ht]

theorem Holds.push_down (h : Holds b f) {y n : Nat} (hsrc : ∀ j, y < j → j ≤ y + n → (f j).isSome)
    (hlimit : y + n + 1 < Q_MAX_LINES) :
    Holds (push_down b y n) fun j => if y + 1 < j ∧ j ≤ y + n + 1 then f (j - 1) else f j := by
  induction n generalizing b f with
  | zero =>
    apply h.mono
    intro j s hs
    rwa [if_neg (by omega)] at hs
  | succ n ih =>
    obtain ⟨s, hs⟩ := Option.isSome_iff_exists.mp (hsrc (y + n + 1) (by omega) (by omega))
    have hstep := h.strcpy_line (y := y + n + 2) (by omega) (h.rows (y + n + 1) s hs)
    have hsrc' : ∀ j, y < j → j ≤ y + n → (update f (y + n + 2) (some s) j).isSome := by
      intro j hlt hle
      rw [update_of_ne (by omega)]
      exact hsrc j (by omega) (by omega)
    apply (ih hstep hsrc' (by omega)).mono
    intro j t ht
    by_cases hin : y + 1 < j ∧ j ≤ y + n + 1
    · rw [if_pos (by omega)] at ht
      rw [if_pos hin, update_of_ne (by omega), ht]
    · rw [if_neg hin]
      by_cases hlast : j = y + n + 2
      · subst hlast
        rw [if_pos (by omega)] at ht
        rw [update_self, ← hs, ← ht]
        rfl
      · rw [if_neg (by omega)] at ht
        rw [update_of_ne hlast, ht]

/-! ## Lines around the cursor -/

/-- The buffer shows these lines. -/
structure Shows (b : Buffer) (L : List (List UInt8)) : Prop where
  holds : Holds b fun y => L[y]?
  count : b.line_count = L.length

/-- The cursor stands in line `l`, with the lines `A` before it and `B` behind it. -/
structure Ready (e : Editor) (A : List (List UInt8)) (l : List UInt8) (B : List (List UInt8)) : Prop where
  lines : Shows e.buffer (A ++ l :: B)
  row : e.cursor.y = A.length
  col : e.cursor.x ≤ l.length
  room : A.length + B.length + 1 ≤ Q_MAX_LINES

theorem Ready.count (h : Ready e A l B) : e.buffer.line_count = A.length + B.length + 1 := by
  rw [h.lines.count, length_append, length_cons]
  omega

theorem Ready.current (h : Ready e A l B) : Spells (e.buffer.lines e.cursor.y).cells l := by
  apply h.lines.holds.rows
  rw [h.row, List.getElem?_append_right (le_refl _), Nat.sub_self]
  rfl

theorem Ready.row_lt (h : Ready e A l B) : e.cursor.y < Q_MAX_LINES := by
  have := h.room
  rw [h.row]
  omega

theorem getElem?_middle {A B : List (List UInt8)} {l : List UInt8} {j : Nat} (hj : j ≠ A.length) (l' : List UInt8) :
    (A ++ l' :: B)[j]? = (A ++ l :: B)[j]? := by
  rcases Nat.lt_or_gt_of_ne hj with hlt | hgt
  · rw [List.getElem?_append_left hlt, List.getElem?_append_left hlt]
  · rw [List.getElem?_append_right hgt.le, List.getElem?_append_right hgt.le]
    obtain ⟨k, hk⟩ : ∃ k, j - A.length = k + 1 := ⟨j - A.length - 1, by omega⟩
    rw [hk, List.getElem?_cons_succ, List.getElem?_cons_succ]

theorem getElem?_at (A B : List (List UInt8)) (l : List UInt8) : (A ++ l :: B)[A.length]? = some l := by
  rw [List.getElem?_append_right (le_refl _), Nat.sub_self]
  rfl

theorem getElem?_behind (A B : List (List UInt8)) (l : List UInt8) {j : Nat} (h : A.length < j) :
    (A ++ l :: B)[j]? = B[j - A.length - 1]? := by
  rw [List.getElem?_append_right h.le]
  obtain ⟨k, hk⟩ : ∃ k, j - A.length = k + 1 := ⟨j - A.length - 1, by omega⟩
  rw [hk, List.getElem?_cons_succ, Nat.add_sub_cancel]

theorem Ready.set_current (h : Ready e A l B) {row : Row} (hrow : Spells row.cells s ∧ row.overrun = false) :
    Holds (e.buffer.set_line e.cursor.y row) fun y => (A ++ s :: B)[y]? := by
  apply (h.lines.holds.set_line h.row_lt hrow).mono
  intro j t ht
  rw [h.row]
  by_cases hj : j = A.length
  · subst hj
    rw [update_self, ← ht, getElem?_at]
  · rw [update_of_ne hj, ← ht]
    exact getElem?_middle hj l

/-- Putting another text on the line of the cursor. -/
theorem Ready.edited (h : Ready e A l B) {row : Row} (hrow : Spells row.cells s ∧ row.overrun = false) {x : Nat}
    (hx : x ≤ s.length) :
    Ready { buffer := { e.buffer.set_line e.cursor.y row with modified := true }, cursor := { e.cursor with x } }
      A s B := by
  have hset := h.set_current hrow
  refine ⟨⟨⟨hset.rows, hset.clean, hset.inside⟩, ?_⟩, h.row, hx, h.room⟩
  change e.buffer.line_count = _
  rw [h.count, length_append, length_cons]
  omega

theorem quill_insert_ready (h : Ready e A l B) {c : UInt8} (hc : c ≠ 0) (hfits : l.length < Q_COLS) :
    Ready (quill_insert c e) A (l.take e.cursor.x ++ c :: l.drop e.cursor.x) B ∧
      (quill_insert c e).cursor.x = e.cursor.x + 1 := by
  have hlen := h.current.strlen_eq
  have hcol := h.col
  have hwide : l.length + 1 < Q_MAX_COLS := by
    change l.length + 1 < 256
    change l.length < 79 at hfits
    omega
  obtain ⟨hspells, hclean⟩ := h.current.insert hcol hwide hc
  have heq : quill_insert c e =
      { buffer := { e.buffer.set_line e.cursor.y ((shift_right (e.buffer.lines e.cursor.y) e.cursor.x
          (l.length + 1 - e.cursor.x)).put e.cursor.x c) with modified := true }
        cursor := { e.cursor with x := e.cursor.x + 1 } } := by
    rw [quill_insert, if_neg (not_le.mpr h.row_lt)]
    dsimp only
    rw [hlen, if_neg (not_le.mpr hfits)]
  rw [heq]
  refine ⟨h.edited ⟨hspells, hclean.trans (h.lines.holds.clean _)⟩ ?_, rfl⟩
  rw [length_append, length_cons, length_take]
  omega

theorem quill_insert_full (h : Ready e A l B) {c : UInt8} (hfull : Q_COLS ≤ l.length) : quill_insert c e = e := by
  rw [quill_insert, if_neg (not_le.mpr h.row_lt)]
  dsimp only
  rw [h.current.strlen_eq, if_pos hfull]

theorem quill_backspace_delete (h : Ready e A l B) (hx : 0 < e.cursor.x) :
    Ready (quill_backspace e) A (l.eraseIdx (e.cursor.x - 1)) B ∧
      (quill_backspace e).cursor.x = e.cursor.x - 1 := by
  have hcol := h.col
  obtain ⟨hspells, hclean⟩ := h.current.delete (x := e.cursor.x - 1) (by omega)
  have heq : quill_backspace e =
      { buffer := { e.buffer.set_line e.cursor.y (shift_left (e.buffer.lines e.cursor.y) (e.cursor.x - 1)
          (l.length - (e.cursor.x - 1))) with modified := true }
        cursor := { e.cursor with x := e.cursor.x - 1 } } := by
    rw [quill_backspace]
    dsimp only
    rw [if_neg (by omega), if_pos hx, h.current.strlen_eq]
  rw [heq]
  refine ⟨h.edited ⟨hspells, hclean.trans (h.lines.holds.clean _)⟩ ?_, rfl⟩
  rw [length_eraseIdx_of_lt (by omega)]
  omega

theorem Ready.previous (h : Ready e (A ++ [p]) l B) : Spells (e.buffer.lines (e.cursor.y - 1)).cells p := by
  apply h.lines.holds.rows
  rw [h.row, length_append, length_singleton, Nat.add_sub_cancel, append_assoc, singleton_append]
  exact getElem?_at A (l :: B) p

theorem quill_backspace_merge (h : Ready e (A ++ [p]) l B) (hx : e.cursor.x = 0)
    (hfits : p.length + l.length < Q_MAX_COLS) :
    Ready (quill_backspace e) A (p ++ l) B ∧ (quill_backspace e).cursor.x = p.length := by
  have hrow : e.cursor.y = A.length + 1 := by rw [h.row, length_append, length_singleton]
  have hroom := h.room
  rw [length_append, length_singleton] at hroom
  have hcount := h.count
  rw [length_append, length_singleton] at hcount
  obtain ⟨hspells, hclean⟩ := h.previous.strcat h.current hfits
  have hset := h.lines.holds.set_line (y := A.length) (by omega) ⟨hspells, hclean.trans (h.lines.holds.clean _)⟩
  have hpull := hset.pull_up (i := A.length + 1) (n := B.length) (by
    intro j hlt hle
    rw [update_of_ne (by omega), append_assoc, singleton_append, getElem?_behind A (l :: B) p (by omega)]
    rw [List.getElem?_eq_getElem (by rw [length_cons]; omega)]
    rfl) (by omega)
  have heq : quill_backspace e =
      { buffer := { pull_up (e.buffer.set_line A.length (strcat (e.buffer.lines (e.cursor.y - 1))
          (e.buffer.lines e.cursor.y).cells)) (A.length + 1) B.length with
            line_count := A.length + B.length + 1, modified := true }
        cursor := { x := p.length, y := A.length } } := by
    rw [quill_backspace]
    dsimp only
    rw [if_neg (by omega), if_neg (by omega), h.previous.strlen_eq, h.current.strlen_eq, if_pos hfits,
      pull_up_line_count]
    have hn : (e.buffer.set_line (e.cursor.y - 1) (strcat (e.buffer.lines (e.cursor.y - 1))
        (e.buffer.lines e.cursor.y).cells)).line_count - 1 - e.cursor.y = B.length := by
      change e.buffer.line_count - 1 - e.cursor.y = _
      omega
    have hcount' : (e.buffer.set_line (e.cursor.y - 1) (strcat (e.buffer.lines (e.cursor.y - 1))
        (e.buffer.lines e.cursor.y).cells)).line_count - 1 = A.length + B.length + 1 := by
      change e.buffer.line_count - 1 = _
      omega
    rw [hn, hcount', hrow, Nat.add_sub_cancel]
  rw [heq]
  have hfinal := hpull.mono (g := fun y => (A ++ (p ++ l) :: B)[y]?) (by
    intro j t ht
    rcases Nat.lt_trichotomy j A.length with hlt | rfl | hgt
    · rw [if_neg (by omega), update_of_ne (by omega), ← ht, append_assoc, List.getElem?_append_left hlt,
        List.getElem?_append_left hlt]
    · rw [if_neg (by omega), update_self, ← ht, getElem?_at]
    · rw [getElem?_behind A B _ hgt] at ht
      obtain ⟨hlt', -⟩ := List.getElem?_eq_some_iff.mp ht
      rw [if_pos (by omega), update_of_ne (by omega), append_assoc, singleton_append,
        getElem?_behind A (l :: B) p (by omega), ← ht, show j + 1 - A.length - 1 = j - A.length - 1 + 1 by omega,
        List.getElem?_cons_succ])
  refine ⟨⟨⟨⟨hfinal.rows, hfinal.clean, hfinal.inside⟩, ?_⟩, rfl, ?_, by omega⟩, rfl⟩
  · change A.length + B.length + 1 = _
    rw [length_append, length_cons]
    omega
  · rw [length_append]
    exact Nat.le_add_right _ _

theorem quill_backspace_stays (h : Ready e A l B)
    (hstays : (e.cursor.x = 0 ∧ e.cursor.y = 0) ∨ (e.cursor.x = 0 ∧
      Q_MAX_COLS ≤ strlen (e.buffer.lines (e.cursor.y - 1)).cells + strlen (e.buffer.lines e.cursor.y).cells)) :
    quill_backspace e = e := by
  rw [quill_backspace]
  dsimp only
  by_cases hstart : e.cursor.x = 0 ∧ e.cursor.y = 0
  · rw [if_pos hstart]
  · rcases hstays with hstart' | ⟨hx, hfull⟩
    · exact absurd hstart' hstart
    · rw [if_neg hstart, if_neg (by omega), if_neg (not_lt.mpr hfull)]

theorem enter_rows {y : Nat} (hrow : y = A.length) (x : Nat) {j : Nat} {t : List UInt8}
    (ht : ((A ++ [l.take x]) ++ l.drop x :: B)[j]? = some t) :
    update (update (fun j => if y + 1 < j ∧ j ≤ y + B.length + 1 then
      (A ++ l :: B)[j - 1]? else (A ++ l :: B)[j]?) (y + 1) (some (l.drop x))) y (some (l.take x)) j = some t := by
  rw [append_assoc, singleton_append] at ht
  rcases Nat.lt_trichotomy j A.length with hlt | heq | hgt
  · rw [List.getElem?_append_left hlt] at ht
    rw [update_of_ne (by omega), update_of_ne (by omega), if_neg (by omega), ← ht,
      List.getElem?_append_left hlt]
  · rw [heq, getElem?_at] at ht
    rw [heq, ← hrow, update_self, ht]
  · rw [getElem?_behind A _ _ hgt] at ht
    rw [update_of_ne (by omega)]
    by_cases hnext : j = A.length + 1
    · rw [hnext, show A.length + 1 - A.length - 1 = 0 by omega, List.getElem?_cons_zero] at ht
      rw [hnext, ← hrow, update_self, ht]
    · rw [show j - A.length - 1 = j - 1 - A.length - 1 + 1 by omega, List.getElem?_cons_succ] at ht
      obtain ⟨hlt', -⟩ := List.getElem?_eq_some_iff.mp ht
      rw [update_of_ne (by omega), if_pos (by omega), ← ht]
      exact getElem?_behind A B l (by omega)

theorem quill_enter_ready (h : Ready e A l B) (hroom : A.length + B.length + 1 < Q_MAX_LINES) :
    Ready (quill_enter e) (A ++ [l.take e.cursor.x]) (l.drop e.cursor.x) B ∧ (quill_enter e).cursor.x = 0 := by
  have hrow := h.row
  have hcol := h.col
  have hcount := h.count
  have hpush := h.lines.holds.push_down (y := e.cursor.y) (n := B.length) (by
    intro j hlt hle
    rw [getElem?_behind A B l (by omega), List.getElem?_eq_getElem (by omega)]
    rfl) (by omega)
  set b := push_down e.buffer e.cursor.y B.length with hb
  have hcurrent : Spells (b.lines e.cursor.y).cells l := by
    apply hpush.rows
    rw [if_neg (by omega), hrow]
    exact getElem?_at A B l
  -- both branches leave the tail in the next line and the head in this one
  have hbranch : Holds
      (if e.cursor.x < l.length then
        (b.set_line (e.cursor.y + 1) (strcpy (b.lines (e.cursor.y + 1))
          fun k => (b.lines e.cursor.y).cells (e.cursor.x + k))).set_line
            e.cursor.y ((b.lines e.cursor.y).put e.cursor.x 0)
      else b.set_line (e.cursor.y + 1) ((b.lines (e.cursor.y + 1)).put 0 0))
      (update (update (fun j => if e.cursor.y + 1 < j ∧ j ≤ e.cursor.y + B.length + 1 then
        (A ++ l :: B)[j - 1]? else (A ++ l :: B)[j]?) (e.cursor.y + 1) (some (l.drop e.cursor.x))) e.cursor.y
        (some (l.take e.cursor.x))) := by
    split
    · obtain ⟨hcut, hcut_clean⟩ := hcurrent.cut hcol
      exact (hpush.strcpy_line (y := e.cursor.y + 1) (by omega) (hcurrent.drop hcol)).set_line h.row_lt
        ⟨hcut, hcut_clean.trans (hpush.clean _)⟩
    · have hx : e.cursor.x = l.length := by omega
      have hempty : Spells ((b.lines (e.cursor.y + 1)).put 0 0).cells [] := Spells.empty (Row.put_self _ 0 0)
      have hset := hpush.set_line (y := e.cursor.y + 1) (by omega)
        ⟨hempty, (Row.put_overrun (by decide) 0).trans (hpush.clean _)⟩
      apply hset.mono
      intro j t ht
      rw [hx, drop_length, take_length] at ht
      by_cases hj : j = e.cursor.y
      · subst hj
        rw [update_self] at ht
        rw [update_of_ne (by omega), if_neg (by omega), ← ht, hrow]
        exact getElem?_at A B l
      · rwa [update_of_ne hj] at ht
  have heq : quill_enter e =
      { buffer := { (if e.cursor.x < l.length then
          (b.set_line (e.cursor.y + 1) (strcpy (b.lines (e.cursor.y + 1))
            fun k => (b.lines e.cursor.y).cells (e.cursor.x + k))).set_line e.cursor.y
              ((b.lines e.cursor.y).put e.cursor.x 0)
          else b.set_line (e.cursor.y + 1) ((b.lines (e.cursor.y + 1)).put 0 0)) with
            line_count := A.length + B.length + 2, modified := true }
        cursor := { x := 0, y := e.cursor.y + 1 } } := by
    rw [quill_enter]
    dsimp only
    rw [if_neg (by omega), h.current.strlen_eq, show e.buffer.line_count - (e.cursor.y + 1) = B.length by omega, ← hb]
    have hlines : b.line_count = A.length + B.length + 1 := by rw [hb, push_down_line_count, hcount]
    split
    · simp only [Buffer.set_line, hlines]
    · simp only [Buffer.set_line, hlines]
  rw [heq]
  have hfinal := hbranch.mono (g := fun y => ((A ++ [l.take e.cursor.x]) ++ l.drop e.cursor.x :: B)[y]?)
    fun j t ht => enter_rows hrow e.cursor.x ht
  refine ⟨⟨⟨⟨hfinal.rows, hfinal.clean, hfinal.inside⟩, ?_⟩, ?_, Nat.zero_le _, ?_⟩, rfl⟩
  · change A.length + B.length + 2 = _
    simp only [length_append, length_cons, length_nil]
    omega
  · change e.cursor.y + 1 = _
    rw [length_append, length_singleton, hrow]
  · rw [length_append, length_singleton]
    omega

/-! ## The joined text -/

/-- The text of the lines before a line, and of those behind it. -/
def before (A : List (List UInt8)) : List UInt8 := A.flatMap (· ++ [10])

def behind (B : List (List UInt8)) : List UInt8 := B.flatMap (10 :: ·)

theorem intercalate_cons (l : List UInt8) (B : List (List UInt8)) : List.intercalate [10] (l :: B) = l ++ behind B := by
  induction B generalizing l with
  | nil => simp [List.intercalate, behind]
  | cons m B ih =>
    rw [intercalate_cons_cons, ih, behind, behind, flatMap_cons]
    simp

theorem intercalate_split (A : List (List UInt8)) (l : List UInt8) (B : List (List UInt8)) :
    List.intercalate [10] (A ++ l :: B) = before A ++ l ++ behind B := by
  induction A with
  | nil => exact intercalate_cons l B
  | cons m A ih =>
    rw [cons_append, before, flatMap_cons, ← before]
    cases A with
    | nil =>
      rw [nil_append, intercalate_cons_cons, intercalate_cons]
      simp [before]
    | cons n A =>
      rw [cons_append, intercalate_cons_cons, ← cons_append, ih]
      simp

theorem length_before (A : List (List UInt8)) : (before A).length = (A.map (·.length + 1)).sum := by
  rw [before, length_flatMap]
  simp

theorem Spells.row_text {row : Row} (h : Spells row.cells s) : row_text row = s := by
  apply ext_getElem?
  intro k
  rw [quill.row_text, h.strlen_eq, List.getElem?_map]
  by_cases hk : k < s.length
  · rw [List.getElem?_range hk, List.getElem?_eq_getElem hk]
    exact congrArg some (h.chars k _ (List.getElem?_eq_getElem hk))
  · rw [List.getElem?_eq_none (by rw [length_range]; omega), List.getElem?_eq_none (by omega)]
    rfl

theorem Shows.line_texts {L : List (List UInt8)} (h : Shows b L) : b.line_texts = L := by
  apply ext_getElem?
  intro y
  rw [Buffer.line_texts, h.count, List.getElem?_map]
  by_cases hy : y < L.length
  · rw [List.getElem?_range hy, List.getElem?_eq_getElem hy]
    exact congrArg some (h.holds.rows y _ (List.getElem?_eq_getElem hy)).row_text
  · rw [List.getElem?_eq_none (by rw [length_range]; omega), List.getElem?_eq_none (by omega)]
    rfl

theorem Ready.text (h : Ready e A l B) : e.buffer.text = before A ++ l ++ behind B := by
  rw [Buffer.text, h.lines.line_texts, intercalate_split]

theorem Ready.offset (h : Ready e A l B) : e.offset = (before A).length + e.cursor.x := by
  rw [Editor.offset, h.lines.line_texts, h.row, take_left, length_before]

/-! ## Effects -/

/-- A character comes in at a place of a text. -/
def insert_at (text : List UInt8) (offset : Nat) (c : UInt8) : List UInt8 :=
  text.take offset ++ c :: text.drop offset

/-- What a key does to the text and the place of the cursor. -/
def Effect (e e' : Editor) : Key → Prop
  | .insert c =>
    if Q_COLS ≤ strlen (e.buffer.lines e.cursor.y).cells then e' = e
    else e'.buffer.text = insert_at e.buffer.text e.offset c ∧ e'.offset = e.offset + 1
  | .enter =>
    if Q_MAX_LINES ≤ e.buffer.line_count then e' = e
    else e'.buffer.text = insert_at e.buffer.text e.offset 10 ∧ e'.offset = e.offset + 1
  | .backspace =>
    if e.offset = 0 ∨ (e.cursor.x = 0 ∧
      Q_MAX_COLS ≤ strlen (e.buffer.lines (e.cursor.y - 1)).cells + strlen (e.buffer.lines e.cursor.y).cells) then e' =
        e
    else e'.buffer.text = e.buffer.text.eraseIdx (e.offset - 1) ∧ e'.offset = e.offset - 1
  | .move _ _ | .home | .end_key => e'.buffer = e.buffer

theorem eraseIdx_middle (u v : List UInt8) (c : UInt8) : (u ++ c :: v).eraseIdx u.length = u ++ v := by
  rw [eraseIdx_append_of_length_le (le_refl _), Nat.sub_self, eraseIdx_cons_zero]

theorem Ready.text_split (h : Ready e A l B) :
    e.buffer.text = before A ++ l.take e.cursor.x ++ (l.drop e.cursor.x ++ behind B) ∧
      (before A ++ l.take e.cursor.x).length = e.offset := by
  have hcol := h.col
  constructor
  · rw [h.text]
    conv_lhs => rw [← take_append_drop e.cursor.x l]
    simp only [append_assoc]
  · rw [h.offset, length_append, length_take, Nat.min_eq_left hcol]

theorem insert_effect (h : Ready e A l B) {c : UInt8} (hc : c ≠ 0) :
    (∃ A' l' B', Ready (quill_insert c e) A' l' B') ∧ Effect e (quill_insert c e) (.insert c) := by
  unfold Effect
  dsimp only
  rw [h.current.strlen_eq]
  by_cases hfull : Q_COLS ≤ l.length
  · rw [if_pos hfull, quill_insert_full h hfull]
    exact ⟨⟨A, l, B, h⟩, rfl⟩
  · rw [if_neg hfull]
    obtain ⟨hready, hx⟩ := quill_insert_ready h hc (not_le.mp hfull)
    obtain ⟨htext, hoffset⟩ := h.text_split
    refine ⟨⟨_, _, _, hready⟩, ?_, ?_⟩
    · rw [hready.text, htext, ← hoffset, insert_at, take_left, drop_left]
      simp
    · rw [hready.offset, h.offset, hx]
      omega

theorem enter_effect (h : Ready e A l B) :
    (∃ A' l' B', Ready (quill_enter e) A' l' B') ∧ Effect e (quill_enter e) .enter := by
  unfold Effect
  dsimp only
  by_cases hfull : Q_MAX_LINES ≤ e.buffer.line_count
  · have hstays : quill_enter e = e := by
      rw [quill_enter]
      dsimp only
      rw [if_pos hfull]
    rw [if_pos hfull, hstays]
    exact ⟨⟨A, l, B, h⟩, rfl⟩
  · rw [if_neg hfull]
    rw [h.count] at hfull
    obtain ⟨hready, hx⟩ := quill_enter_ready h (not_le.mp hfull)
    obtain ⟨htext, hoffset⟩ := h.text_split
    have hbefore : before (A ++ [l.take e.cursor.x]) = before A ++ l.take e.cursor.x ++ [10] := by
      simp [before, flatMap_append]
    refine ⟨⟨_, _, _, hready⟩, ?_, ?_⟩
    · rw [hready.text, htext, ← hoffset, insert_at, take_left, drop_left, hbefore]
      simp
    · rw [hready.offset, hx, hbefore, length_append, hoffset]
      rfl

theorem backspace_effect (h : Ready e A l B) :
    (∃ A' l' B', Ready (quill_backspace e) A' l' B') ∧ Effect e (quill_backspace e) .backspace := by
  unfold Effect
  dsimp only
  have hoffset := h.offset
  have hcol := h.col
  by_cases hx : 0 < e.cursor.x
  · rw [if_neg (by omega)]
    obtain ⟨hready, hx'⟩ := quill_backspace_delete h hx
    refine ⟨⟨_, _, _, hready⟩, ?_, ?_⟩
    · have hlt : e.cursor.x - 1 < l.length := by omega
      rw [hready.text, h.text, hoffset, append_assoc, append_assoc,
        eraseIdx_append_of_length_le (by omega), show (before A).length + e.cursor.x - 1 - (before A).length =
          e.cursor.x - 1 by omega, eraseIdx_append_of_lt_length hlt]
    · rw [hready.offset, hoffset, hx']
      omega
  · have hx0 : e.cursor.x = 0 := by omega
    rcases eq_nil_or_concat A with rfl | ⟨A, p, rfl⟩
    · have hstart : e.cursor.x = 0 ∧ e.cursor.y = 0 := ⟨hx0, h.row⟩
      rw [if_pos (Or.inl (by rw [hoffset, hx0]; rfl)), quill_backspace_stays h (Or.inl hstart)]
      exact ⟨⟨[], l, B, h⟩, rfl⟩
    · rw [concat_eq_append] at h hoffset
      have hbefore : before (A ++ [p]) = before A ++ p ++ [10] := by simp [before, flatMap_append]
      have hlength : (before (A ++ [p])).length = (before A ++ p).length + 1 := by
        rw [hbefore, length_append]
        rfl
      rw [h.previous.strlen_eq, h.current.strlen_eq]
      by_cases hfull : Q_MAX_COLS ≤ p.length + l.length
      · rw [if_pos (Or.inr ⟨hx0, hfull⟩), quill_backspace_stays h (Or.inr ⟨hx0, by
          rw [h.previous.strlen_eq, h.current.strlen_eq]
          exact hfull⟩)]
        exact ⟨⟨_, l, B, h⟩, rfl⟩
      · obtain ⟨hready, hx'⟩ := quill_backspace_merge h hx0 (not_le.mp hfull)
        rw [if_neg (by omega)]
        refine ⟨⟨_, _, _, hready⟩, ?_, ?_⟩
        · rw [hready.text, h.text, hoffset, hx0, Nat.add_zero, hlength, Nat.add_sub_cancel, hbefore]
          rw [append_assoc (before A ++ p), append_assoc (before A ++ p), singleton_append,
            cons_append, eraseIdx_middle]
          simp
        · rw [hready.offset, hoffset, hx', hx0, hlength, length_append]
          omega

theorem Shows.ready {L : List (List UInt8)} (h : Shows e.buffer L) (hroom : L.length ≤ Q_MAX_LINES) {cursor : Cursor}
    (hy : cursor.y < L.length) (hx : cursor.x ≤ strlen (e.buffer.lines cursor.y).cells) :
    ∃ A l B, Ready { e with cursor } A l B := by
  have hsplit : L.take cursor.y ++ L[cursor.y] :: L.drop (cursor.y + 1) = L := by
    rw [← drop_eq_getElem_cons hy, take_append_drop]
  have hspells := h.holds.rows cursor.y L[cursor.y] (List.getElem?_eq_getElem hy)
  refine ⟨L.take cursor.y, L[cursor.y], L.drop (cursor.y + 1), ?_, ?_, ?_, ?_⟩
  · rw [hsplit]
    exact h
  · rw [length_take, Nat.min_eq_left hy.le]
  · rw [← hspells.strlen_eq]
    exact hx
  · rw [length_take, length_drop]
    omega

end graceos.quill
