import GraceOS.Video.Paper
import Mathlib.Data.List.Induction

/-!
# Lines of text on the terminal

A line longer than the screen is wide goes on in the next row. A line that fills its last row has an empty row behind
it, as the cursor moves on at the last column.
-/

namespace graceos.video.tty

open List

/-- A character that `tty_putchar` writes into a cell. -/
def Regular (c : UInt8) : Prop := c ≠ 0x0A ∧ c ≠ 0x0D ∧ c ≠ 0x09 ∧ c ≠ 0x08

/-- The rows of one line, each but the last with `W` characters. -/
def lineRows (W : Nat) (l : List UInt8) : List (List UInt8) :=
  (List.range (l.length / W + 1)).map fun k => (l.drop (k * W)).take W

def textRows (W : Nat) (lines : List (List UInt8)) : List (List UInt8) := lines.flatMap (lineRows W)

/-- The cell of the paper that column `x` of row `k` is written to. -/
def Paper.textCell (p : Paper) (rows : List (List UInt8)) (k x : Nat) : Cell :=
  match rows[k]?.bind (·[x]?) with
  | some c => ⟨c, p.shade c⟩
  | none => ⟨0x20, p.color⟩

/-! ## Rows -/

section rows

variable {W : Nat} {l : List UInt8}

theorem lineRows_eq (W : Nat) (l : List UInt8) :
    lineRows W l = ((List.range (l.length / W)).map fun k => (l.drop (k * W)).take W) ++
      [(l.drop (l.length / W * W)).take W] := by
  rw [lineRows, range_succ, map_append]
  rfl

theorem lineRows_nil (W : Nat) : lineRows W [] = [[]] := by simp [lineRows]

theorem length_last (W : Nat) (l : List UInt8) : (l.drop (l.length / W * W)).length = l.length % W := by
  rw [length_drop, Nat.mul_comm]
  have := Nat.div_add_mod l.length W
  omega

theorem take_last (hW : 0 < W) (l : List UInt8) : (l.drop (l.length / W * W)).take W = l.drop (l.length / W * W) :=
  take_of_length_le (by rw [length_last]; exact (Nat.mod_lt _ hW).le)

theorem filled_append (l : List UInt8) (c : UInt8) :
    ((List.range (l.length / W)).map fun k => ((l ++ [c]).drop (k * W)).take W) =
      (List.range (l.length / W)).map fun k => (l.drop (k * W)).take W := by
  refine map_congr_left fun k hk => ?_
  have hfull : (k + 1) * W ≤ l.length := (Nat.mul_le_mul_right W (List.mem_range.mp hk)).trans (Nat.div_mul_le_self _ _)
  rw [Nat.add_one_mul] at hfull
  rw [drop_append_of_le_length (by omega), take_append_of_le_length (by rw [length_drop]; omega)]

/-- The rows before the one that the line ends in, and that row. -/
theorem lineRows_append (hW : 0 < W) (l : List UInt8) (c : UInt8) :
    ∃ first last, lineRows W l = first ++ [last] ∧ last.length < W ∧
      lineRows W (l ++ [c]) = if last.length + 1 < W then first ++ [last ++ [c]] else first ++
          [last ++ [c]] ++ [[]] := by
  have hlast := length_last W l
  have hmod := Nat.mod_lt l.length hW
  refine ⟨_, _, lineRows_eq W l, by rw [take_last hW, hlast]; exact hmod, ?_⟩
  have hdrop : (l ++ [c]).drop (l.length / W * W) = l.drop (l.length / W * W) ++ [c] :=
    drop_append_of_le_length (Nat.div_mul_le_self _ _)
  have hdiv := Nat.div_add_mod l.length W
  have hlength : (l ++ [c]).length = l.length + 1 := by simp
  rw [take_last hW, hlast]
  split
  case isTrue hfit =>
    have hsame : (l.length + 1) / W = l.length / W := by
      rw [Nat.div_eq_iff hW, Nat.mul_comm]
      omega
    rw [lineRows_eq, hlength, hsame, filled_append, hdrop, take_of_length_le]
    rw [length_append, hlast, length_singleton]
    omega
  case isFalse hfull =>
    have hnext : (l.length + 1) / W = l.length / W + 1 := by
      rw [Nat.div_eq_iff hW, Nat.add_one_mul, Nat.mul_comm]
      omega
    have hend : (l ++ [c]).drop ((l.length / W + 1) * W) = [] := by
      rw [drop_eq_nil_iff, hlength, Nat.add_one_mul, Nat.mul_comm]
      omega
    rw [lineRows_eq, hlength, hnext, range_succ, map_append, filled_append, map_singleton, hdrop, hend,
      take_of_length_le, take_nil]
    · rw [length_append, hlast, length_singleton]
      omega

end rows

/-! ## Writing the rows -/

/-- The rows are on the paper, with the cursor in the last of them. -/
structure Written (p : Paper) (rows : List (List UInt8)) : Prop where
  cols : 0 < p.cols
  y_lt : p.y < p.rows
  length : p.top + p.y + 1 = rows.length
  bottom : p.top = 0 ∨ p.y + 1 = p.rows
  line : ∀ k x, p.line k x = p.textCell rows k x

/-- The cursor is behind the last character. -/
structure Typed (p : Paper) (rows : List (List UInt8)) : Prop extends Written p rows where
  last : ∃ first row, rows = first ++ [row] ∧ row.length = p.x
  x_lt : p.x < p.cols

variable {p : Paper} {rows : List (List UInt8)} {row : List UInt8}

theorem textCell_append_nil (p : Paper) (rows : List (List UInt8)) (k x : Nat) :
    p.textCell (rows ++ [[]]) k x = p.textCell rows k x := by
  unfold Paper.textCell
  rcases lt_trichotomy k rows.length with hk | hk | hk
  · rw [List.getElem?_append_left hk]
  · rw [hk, List.getElem?_concat_length, List.getElem?_eq_none le_rfl]
    rfl
  · rw [List.getElem?_eq_none hk.le, List.getElem?_eq_none (by rw [length_append]; exact hk)]

theorem Written.newline (h : Written p rows) : Typed p.newline (rows ++ [[]]) := by
  have hlength := h.length
  have hlast : ∃ first row, rows ++ [[]] = first ++ [row] ∧ row.length = 0 := ⟨rows, [], rfl, rfl⟩
  have hy := h.y_lt
  unfold Paper.newline
  split
  case isTrue hroom =>
    refine ⟨⟨h.cols, hroom, ?_, h.bottom.imp id fun hb => by omega, fun k x => ?_⟩, hlast, h.cols⟩
    · rw [length_append, length_singleton, ← hlength]
      rfl
    · exact (h.line k x).trans (textCell_append_nil p rows k x).symm
  case isFalse hfull =>
    have hbottom : p.y + 1 = p.rows := by omega
    refine ⟨⟨h.cols, hy, ?_, Or.inr hbottom, fun k x => ?_⟩, hlast, h.cols⟩
    · change p.top + 1 + p.y + 1 = _
      rw [length_append, length_singleton, ← hlength]
      omega
    · -- the row that comes into the window was never written to
      change Function.update p.line (p.top + p.rows) (fun _ => ⟨0x20, p.color⟩) k x = p.textCell (rows ++ [[]]) k x
      rw [textCell_append_nil, Function.update_apply]
      split
      case isTrue hk =>
        unfold Paper.textCell
        rw [hk, List.getElem?_eq_none (by omega)]
        rfl
      case isFalse => exact h.line k x

theorem textCell_put (first : List (List UInt8)) (row : List UInt8) (c : UInt8) (k x : Nat) :
    p.textCell (first ++ [row ++ [c]]) k x =
      if k = first.length ∧ x = row.length then ⟨c, p.shade c⟩ else p.textCell (first ++ [row]) k x := by
  unfold Paper.textCell
  rcases lt_trichotomy k first.length with hk | hk | hk
  · rw [List.getElem?_append_left hk, List.getElem?_append_left hk, if_neg (by omega)]
  · rw [hk, List.getElem?_concat_length, List.getElem?_concat_length]
    simp only [Option.bind_some, true_and]
    rcases lt_trichotomy x row.length with hx | hx | hx
    · rw [List.getElem?_append_left hx, if_neg (by omega)]
    · rw [hx, List.getElem?_concat_length, if_pos rfl]
    · rw [List.getElem?_eq_none hx.le, List.getElem?_eq_none (by rw [length_append]; exact hx), if_neg (by omega)]
  · rw [if_neg (by omega), List.getElem?_eq_none (by rw [length_append]; exact hk),
      List.getElem?_eq_none (by rw [length_append]; exact hk)]

/-- A character of a line, at the end of its last row. -/
theorem Typed.put (h : Typed p (rows ++ [row])) (c : UInt8) :
    Typed (p.putRegular c)
      (if row.length + 1 < p.cols then rows ++ [row ++ [c]] else rows ++ [row ++ [c]] ++ [[]]) := by
  have hrow : row.length = p.x := by
    obtain ⟨first, row', heq, hlen⟩ := h.last
    obtain ⟨-, hsame⟩ := append_inj' heq rfl
    obtain rfl := List.singleton_inj.mp hsame
    exact hlen
  have hlength : p.top + p.y = rows.length := by
    have := h.length
    rw [length_append, length_singleton] at this
    omega
  have hline : ∀ k x, (p.put c).line k x = p.textCell (rows ++ [row ++ [c]]) k x := by
    intro k x
    change set p.line (p.top + p.y) p.x ⟨c, p.shade c⟩ k x = _
    rw [set_apply, textCell_put, h.line, hlength, hrow]
  have hcount : p.top + p.y + 1 = (rows ++ [row ++ [c]]).length := by
    rw [length_append, length_singleton, hlength]
  have hput : Written (p.put c) (rows ++ [row ++ [c]]) := ⟨h.cols, h.y_lt, hcount, h.bottom, hline⟩
  unfold Paper.putRegular Paper.advance
  change Typed (if p.x + 1 < p.cols then _ else _) _
  rw [hrow]
  split
  case isTrue hfit =>
    refine ⟨⟨h.cols, h.y_lt, hcount, h.bottom, hline⟩, ⟨rows, row ++ [c], rfl, ?_⟩, hfit⟩
    rw [length_append, hrow]
    rfl
  case isFalse => exact hput.newline

theorem putchar_regular {c : UInt8} (hc : Regular c) (p : Paper) : p.putchar c = p.putRegular c := by
  obtain ⟨hnewline, hreturn, htab, hback⟩ := hc
  rw [Paper.putchar, if_neg hnewline, if_neg hreturn, if_neg htab, if_neg hback]

/-- What keeps its size and its colours while text is written. -/
structure Sheet (p q : Paper) : Prop where
  cols : q.cols = p.cols
  rows : q.rows = p.rows
  signed : q.signed = p.signed
  color : q.color = p.color

theorem sheet_newline (p : Paper) : Sheet p p.newline := by
  unfold Paper.newline
  split <;> exact ⟨rfl, rfl, rfl, rfl⟩

theorem Sheet.trans {p q r : Paper} (h : Sheet p q) (h' : Sheet q r) : Sheet p r :=
  ⟨h'.cols.trans h.cols, h'.rows.trans h.rows, h'.signed.trans h.signed, h'.color.trans h.color⟩

theorem sheet_putRegular (p : Paper) (c : UInt8) : Sheet p (p.putRegular c) := by
  unfold Paper.putRegular Paper.advance
  split
  · exact ⟨rfl, rfl, rfl, rfl⟩
  · exact Sheet.trans (q := p.put c) ⟨rfl, rfl, rfl, rfl⟩ (sheet_newline _)

theorem Typed.line_of_text (h : Typed p (rows ++ [[]])) {l : List UInt8} (hl : ∀ c ∈ l, Regular c) :
    Typed (l.foldl Paper.putchar p) (rows ++ lineRows p.cols l) ∧ Sheet p (l.foldl Paper.putchar p) := by
  induction l using List.reverseRecOn with
  | nil => exact ⟨by rw [lineRows_nil]; exact h, ⟨rfl, rfl, rfl, rfl⟩⟩
  | append_singleton l c ih =>
    obtain ⟨htyped, hsheet⟩ := ih fun a ha => hl a (mem_append_left _ ha)
    have hc := hl c (mem_append_right _ mem_cons_self)
    rw [foldl_append, foldl_cons, foldl_nil, putchar_regular hc]
    refine ⟨?_, hsheet.trans (sheet_putRegular _ c)⟩
    obtain ⟨first, last, hrows, hlast, happend⟩ := lineRows_append h.cols l c
    rw [hrows, ← append_assoc] at htyped
    have hput := htyped.put c
    rw [hsheet.cols] at hput
    rw [happend]
    split
    case isTrue hfit => rwa [if_pos hfit, append_assoc] at hput
    case isFalse hfull => rwa [if_neg hfull, append_assoc, append_assoc, ← append_assoc first] at hput

theorem Typed.lines (h : Typed p (rows ++ [[]])) {lines : List (List UInt8)} (hne : lines ≠ [])
    (hlines : ∀ l ∈ lines, ∀ c ∈ l, Regular c) :
    Typed (([0x0A].intercalate lines).foldl Paper.putchar p) (rows ++ textRows p.cols lines) ∧
      Sheet p (([0x0A].intercalate lines).foldl Paper.putchar p) := by
  induction lines generalizing p rows with
  | nil => exact absurd rfl hne
  | cons l lines ih =>
    obtain ⟨htyped, hsheet⟩ := h.line_of_text (hlines l mem_cons_self)
    cases lines with
    | nil => simpa [textRows] using ⟨htyped, hsheet⟩
    | cons l' lines =>
      have hnext := htyped.toWritten.newline
      have hsheet' := hsheet.trans (sheet_newline _)
      obtain ⟨hrest, hkept⟩ := ih hnext (by simp) fun a ha => hlines a (mem_cons_of_mem _ ha)
      rw [intercalate_cons_cons, foldl_append, foldl_append, foldl_cons, foldl_nil]
      have hbreak : (l.foldl Paper.putchar p).putchar 0x0A = (l.foldl Paper.putchar p).newline := if_pos rfl
      rw [hbreak]
      refine ⟨?_, hsheet'.trans hkept⟩
      rw [hsheet'.cols, append_assoc] at hrest
      exact hrest

/-! ## The screen -/

theorem typed_blank (t : Tty) (hx : 0 < max_x t) (hy : 0 < max_y t) : Typed (blank t) ([] ++ [[]]) := by
  refine ⟨⟨hx, hy, rfl, Or.inl rfl, fun k x => ?_⟩, ⟨[], [], rfl, rfl⟩, hx⟩
  rw [textCell_append_nil]
  rfl

theorem Shows.print {t : Tty} (h : Shows t p) (str : List UInt8) : Shows (tty_print t str)
    (str.foldl Paper.putchar p) := by
  induction str generalizing t p with
  | nil => exact h
  | cons c str ih => exact ih (h.putchar c)

theorem mem_line {text l : List UInt8} (hl : l ∈ text.splitOn 0x0A) {c : UInt8} (hc : c ∈ l) : c ∈ text ∧ c ≠ 0x0A := by
  induction text generalizing l with
  | nil =>
    rw [splitOn_nil, mem_singleton] at hl
    rw [hl] at hc
    exact absurd hc not_mem_nil
  | cons a text ih =>
    rw [splitOn_cons_eq_if_modifyHead] at hl
    split at hl
    case isTrue =>
      rcases List.mem_cons.mp hl with rfl | hl
      · exact absurd hc not_mem_nil
      · exact ⟨mem_cons_of_mem _ (ih hl hc).1, (ih hl hc).2⟩
    case isFalse ha =>
      obtain ⟨head, tail, hsplit⟩ := exists_cons_of_ne_nil (splitOn_ne_nil 0x0A text)
      rw [hsplit, modifyHead_cons, mem_cons] at hl
      rcases hl with rfl | hl
      · rcases List.mem_cons.mp hc with rfl | hc
        · exact ⟨mem_cons_self, by simpa using ha⟩
        · have hhead := ih (by rw [hsplit]; exact mem_cons_self) hc
          exact ⟨mem_cons_of_mem _ hhead.1, hhead.2⟩
      · have htail := ih (by rw [hsplit]; exact mem_cons_of_mem _ hl) hc
        exact ⟨mem_cons_of_mem _ htail.1, htail.2⟩

/-- A text of regular characters and newlines, written to a clear screen: the screen shows the last of its rows, from
the top on, and the cursor is behind its last character. -/
theorem terminal_wraps_text (t : Tty) (hx : 0 < max_x t) (hy : 0 < max_y t) (text : List UInt8)
    (htext : ∀ c ∈ text, c = 0x0A ∨ Regular c) :
    let rows := textRows (max_x t) (text.splitOn 0x0A)
    let screen := tty_print (tty_clear t) text
    (∀ y < max_y t, ∀ x < max_x t, shown screen y x = (blank t).textCell rows (rows.length - max_y t + y) x) ∧
      screen.cursor_y + 1 = min rows.length (max_y t) ∧
      ∃ first last, rows = first ++ [last] ∧ screen.cursor_x = last.length ∧ last.length < max_x t := by
  have hlines : ∀ l ∈ text.splitOn 0x0A, ∀ c ∈ l, Regular c := by
    intro l hl c hc
    obtain ⟨hmem, hne⟩ := mem_line hl hc
    exact (htext c hmem).resolve_left hne
  obtain ⟨htyped, hsheet⟩ := (typed_blank t hx hy).lines (splitOn_ne_nil 0x0A text) hlines
  rw [intercalate_splitOn, nil_append] at htyped
  rw [intercalate_splitOn] at hsheet
  have hshows := (shows_clear t hx hy).print text
  generalize text.foldl Paper.putchar (blank t) = p at htyped hsheet hshows
  have hcols : max_x t = max_x (tty_print (tty_clear t) text) := hsheet.cols.symm.trans hshows.cols
  have hrows : p.rows = max_y t := hsheet.rows
  have hheight : max_y t = max_y (tty_print (tty_clear t) text) := hsheet.rows.symm.trans hshows.rows
  have hlength := htyped.length
  have hy' := htyped.y_lt
  have hcursor := hshows.y
  obtain ⟨first, last, heq, hlast⟩ := htyped.last
  refine ⟨fun y hrow x hcol => ?_, ?_, first, last, heq, hshows.x.symm.trans hlast.symm, ?_⟩
  · have htop : (textRows (blank t).cols (text.splitOn 0x0A)).length - max_y t = p.top := by
      rcases htyped.bottom with hzero | hbottom <;> omega
    have hcell := hshows.cell y (by omega) x (by omega)
    rw [htyped.line] at hcell
    rw [hcell]
    change _ = (blank t).textCell _ ((textRows (blank t).cols (text.splitOn 0x0A)).length - max_y t + y) x
    rw [htop]
    unfold Paper.textCell Paper.shade
    rw [hsheet.signed, hsheet.color]
    rfl
  · change _ = min (textRows (blank t).cols (text.splitOn 0x0A)).length (max_y t)
    rcases htyped.bottom with hzero | hbottom <;> omega
  · have hwide := htyped.x_lt
    rw [hlast]
    exact hwide.trans_eq hsheet.cols

/-- A line of a hundred characters fills a row of the text screen and goes on in the next one. -/
theorem terminal_wraps_long_line :
    let text := List.replicate 100 0x41 ++ [0x0A, 0x42]
    let rows := textRows (max_x tty_static) (text.splitOn 0x0A)
    let screen := tty_print (tty_clear tty_static) text
    rows.map List.length = [80, 20, 1] ∧
    (∀ y < max_y tty_static, ∀ x < max_x tty_static,
      shown screen y x = (blank tty_static).textCell rows (rows.length - max_y tty_static + y) x) ∧
      screen.cursor_y + 1 = min rows.length (max_y tty_static) ∧
      ∃ first last, rows = first ++ [last] ∧ screen.cursor_x = last.length ∧ last.length < max_x tty_static :=
  ⟨by decide +kernel, terminal_wraps_text tty_static (by decide) (by decide) (List.replicate 100 0x41 ++ [0x0A, 0x42])
    (by simp [Regular])⟩

end graceos.video.tty
