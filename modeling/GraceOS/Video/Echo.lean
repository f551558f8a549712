import GraceOS.Video.Readline

/-!
# The line on the screen

While a line fits into the row that it was begun in, the row shows it, with blanks behind it, and the cursor is behind
its last character. The arrow keys clear the old line before they show another one.
-/

namespace graceos.video.tty

open List

variable {p : Paper} {W sx sy : Nat} {row : List UInt8}

/-! ## The row of the paper -/

theorem putRegular_of_room (hroom : p.x + 1 < p.cols) (c : UInt8) :
    p.putRegular c = { p.put c with x := p.x + 1 } := by
  rw [Paper.putRegular, Paper.advance]
  exact if_pos hroom

/-- A text that ends before the last column. -/
theorem type_row {l : List UInt8} (hl : ∀ c ∈ l, Regular c) (hfit : p.x + l.length < p.cols) :
    let q := l.foldl Paper.putchar p
    q.cols = p.cols ∧ q.rows = p.rows ∧ q.x = p.x + l.length ∧ q.y = p.y ∧ q.top = p.top ∧
      ∀ x, (q.line (p.top + p.y) x).char =
        if p.x ≤ x ∧ x < p.x + l.length then (l[x - p.x]?).getD 0x20 else (p.line (p.top + p.y) x).char := by
  induction l generalizing p with
  | nil => exact ⟨rfl, rfl, rfl, rfl, rfl, fun x => (if_neg (by simp)).symm⟩
  | cons c l ih =>
    rw [length_cons] at hfit
    have hput := putRegular_of_room (p := p) (by omega) c
    rw [foldl_cons, putchar_regular (hl c mem_cons_self), hput]
    obtain ⟨hcols, hrows, hx, hy, htop, hcell⟩ :=
      ih (p := { p.put c with x := p.x + 1 }) (fun a ha => hl a (mem_cons_of_mem _ ha)) (by
        change p.x + 1 + l.length < p.cols
        omega)
    refine ⟨hcols, hrows, ?_, hy, htop, fun x => ?_⟩
    · rw [hx, length_cons]
      change p.x + 1 + l.length = p.x + (l.length + 1)
      omega
    · refine (hcell x).trans ?_
      change (if p.x + 1 ≤ x ∧ x < p.x + 1 + l.length then (l[x - (p.x + 1)]?).getD 0x20
        else (set p.line (p.top + p.y) p.x ⟨c, p.shade c⟩ (p.top + p.y) x).char) = _
      rw [set_apply, length_cons]
      by_cases hin : p.x + 1 ≤ x ∧ x < p.x + 1 + l.length
      · rw [if_pos hin, if_pos (by omega), show x - p.x = (x - (p.x + 1)) + 1 by omega, List.getElem?_cons_succ]
      · rw [if_neg hin]
        by_cases hat : x = p.x
        · rw [if_pos ⟨rfl, hat⟩, if_pos (by omega), hat, Nat.sub_self, List.getElem?_cons_zero]
          rfl
        · rw [if_neg (fun h => hat h.2), if_neg (by omega)]

/-- Row `sy` shows the text from column `sx` on, with the cursor behind it. -/
structure RowShows (p : Paper) (W sx sy : Nat) (row : List UInt8) : Prop where
  cols : p.cols = W
  y : p.y = sy
  x : p.x = sx + row.length
  x_lt : p.x < p.cols
  y_lt : p.y < p.rows
  cell : ∀ x, sx ≤ x → x < p.cols → (p.line (p.top + p.y) x).char = (row[x - sx]?).getD 0x20

theorem regular_of_printable {c : UInt8} (h : 32 ≤ c.toNat) : Regular c := by
  refine ⟨?_, ?_, ?_, ?_⟩ <;> rintro rfl <;> exact absurd h (by decide)

theorem RowShows.type (h : RowShows p W sx sy row) {l : List UInt8} (hl : ∀ c ∈ l, Regular c)
    (hfit : sx + (row ++ l).length < W) : RowShows (l.foldl Paper.putchar p) W sx sy (row ++ l) := by
  rw [length_append, ← h.cols] at hfit
  have hx := h.x
  obtain ⟨hcols, hrows, hx', hy, htop, hcell⟩ := type_row hl (p := p) (by omega)
  refine ⟨hcols.trans h.cols, hy.trans h.y, ?_, by omega, by rw [hy, hrows]; exact h.y_lt, fun x hlow hhigh => ?_⟩
  · rw [hx', length_append]
    omega
  · rw [hcols] at hhigh
    rw [htop, hy, hcell]
    by_cases hin : p.x ≤ x ∧ x < p.x + l.length
    · rw [if_pos hin, List.getElem?_append_right (by omega)]
      congr 2
      omega
    · rw [if_neg hin, h.cell x hlow hhigh]
      by_cases hold : x - sx < row.length
      · rw [List.getElem?_append_left hold]
      · rw [List.getElem?_eq_none (by omega), List.getElem?_eq_none (by rw [length_append]; omega)]

theorem moveTo_start (h : RowShows p W sx sy row) : p.moveTo sx sy = { p with x := sx } := by
  have hx := h.x
  have hlt := h.x_lt
  rw [← h.y, Paper.moveTo, if_pos (by omega), if_pos h.y_lt]

/-- `clear_input_line` leaves an empty line. -/
theorem RowShows.clear (h : RowShows p W sx sy row) :
    RowShows (((List.replicate row.length 0x20).foldl Paper.putchar (p.moveTo sx sy)).moveTo sx sy) W sx sy [] := by
  have hx := h.x
  have hlt := h.x_lt
  rw [moveTo_start h]
  have hspace : ∀ c ∈ List.replicate row.length (0x20 : UInt8), Regular c := by
    intro c hc
    rw [(List.mem_replicate.mp hc).2]
    exact regular_of_printable (by decide)
  obtain ⟨hcols, hrows, hx', hy, htop, hcell⟩ := type_row hspace (p := { p with x := sx }) (by
    rw [length_replicate]
    change sx + row.length < p.cols
    omega)
  rw [length_replicate] at hx' hcell
  generalize (List.replicate row.length (0x20 : UInt8)).foldl Paper.putchar { p with x := sx } = q at *
  have hrow : RowShows q W sx sy (List.replicate row.length 0x20) := by
    refine ⟨hcols.trans h.cols, hy.trans h.y, by rw [hx', length_replicate], ?_, ?_, fun x hlow hhigh => ?_⟩
    · rw [hx', hcols]
      change sx + row.length < p.cols
      omega
    · rw [hy, hrows]
      exact h.y_lt
    · rw [hcols] at hhigh
      rw [htop, hy]
      refine (hcell x).trans ?_
      by_cases hin : sx ≤ x ∧ x < sx + row.length
      · rw [if_pos hin]
      · rw [if_neg hin, List.getElem?_eq_none (by rw [length_replicate]; omega)]
        refine (h.cell x hlow hhigh).trans ?_
        rw [List.getElem?_eq_none (by omega)]
  rw [moveTo_start hrow]
  refine ⟨hrow.cols, hrow.y, rfl, ?_, hrow.y_lt, fun x hlow hhigh => ?_⟩
  · change sx < q.cols
    rw [hcols]
    change sx < p.cols
    omega
  · refine (hrow.cell x hlow hhigh).trans ?_
    rw [List.getElem?_nil, List.getElem?_replicate]
    split <;> rfl

theorem RowShows.back (h : RowShows p W sx sy row) (hne : row ≠ []) : RowShows
    (p.putchar 0x08) W sx sy row.dropLast := by
  have hpos := List.length_pos_iff.mpr hne
  have hx := h.x
  have hlt := h.x_lt
  have hput : p.putchar 0x08 = { p with x := p.x - 1 }.put 0x20 := by
    rw [Paper.putchar, if_neg (by decide), if_neg (by decide), if_neg (by decide), if_pos rfl, if_pos (by omega)]
  rw [hput]
  refine ⟨h.cols, h.y, ?_, ?_, h.y_lt, fun x hlow hhigh => ?_⟩
  · change p.x - 1 = _
    rw [length_dropLast]
    omega
  · change p.x - 1 < p.cols
    omega
  · change (set p.line (p.top + p.y) (p.x - 1) _ (p.top + p.y) x).char = _
    rw [set_apply]
    by_cases hat : x = p.x - 1
    · rw [if_pos ⟨rfl, hat⟩, List.getElem?_eq_none (by rw [length_dropLast]; omega)]
      rfl
    · rw [if_neg (fun hin => hat hin.2), h.cell x hlow hhigh, List.getElem?_dropLast]
      split
      · rfl
      · rw [List.getElem?_eq_none (by omega)]

/-! ## The reader -/

variable {max_len : Nat} {r : Reader}

/-- The texts that the arrow keys bring back have no control characters. -/
structure Clean (r : Reader) : Prop where
  history : ∀ i, ∀ c ∈ r.kept.history i, Regular c
  temp : ∀ c ∈ r.temp_buffer, Regular c
  buffer : ∀ c ∈ r.buffer, Regular c

/-- The screen shows the buffer in its row. -/
def Echoes (r : Reader) : Prop :=
  ∃ p, Shows r.screen p ∧ RowShows p (max_x r.screen) r.start_x r.start_y r.buffer

theorem each_putchar (t : Tty) (c : UInt8) (n : Nat) :
    each n (fun _ t => tty_putchar t c) t = (List.replicate n c).foldl tty_putchar t := by
  induction n with
  | zero => rfl
  | succ n ih => rw [each, ih, replicate_succ', foldl_append, foldl_cons, foldl_nil]

theorem echoes_of_row (r : Reader) {p : Paper} (hshows : Shows r.screen p)
    (hrow : RowShows p W r.start_x r.start_y r.buffer) : Echoes r :=
  ⟨p, hshows, by rw [← hshows.cols, hrow.cols]; exact hrow⟩

theorem Echoes.redrawn (h : Echoes r) {screen : Tty} (hdrawn : Redrawn r.screen screen) :
    Echoes { r with screen := screen } := by
  obtain ⟨p, hshows, hrow⟩ := h
  exact echoes_of_row { r with screen := screen } (hshows.redrawn hdrawn) hrow

theorem Echoes.load (h : Echoes r) {text : List UInt8} (htext : ∀ c ∈ text, Regular c)
    (hfit : r.start_x + (text.take (max_len - 1)).length < max_x r.screen) : Echoes (load max_len r text) := by
  obtain ⟨p, hshows, hrow⟩ := h
  have hclear : Shows (clear_input_line r.screen r.start_x r.start_y r.buffer.length)
      (((List.replicate r.buffer.length 0x20).foldl Paper.putchar (p.moveTo r.start_x r.start_y)).moveTo r.start_x
        r.start_y) := by
    unfold clear_input_line
    dsimp only
    rw [each_putchar]
    exact ((hshows.moveTo _ _).print _).moveTo _ _
  have htake : ∀ c ∈ text.take (max_len - 1), Regular c := fun c hc => htext c (mem_of_mem_take hc)
  exact echoes_of_row (tty.load max_len r text) (hclear.print _) (hrow.clear.type htake hfit)

/-- The line after a key fits into the row. -/
def Fits_row (max_len : Nat) (r : Reader) (k : Key) : Prop :=
  r.start_x + (readline_step max_len r k).buffer.length < max_x r.screen

theorem save_current_frame (r : Reader) :
    (save_current r).screen = r.screen ∧ (save_current r).kept = r.kept ∧ (save_current r).buffer = r.buffer ∧
      (save_current r).start_x = r.start_x ∧ (save_current r).start_y = r.start_y ∧
      ((save_current r).temp_buffer = r.temp_buffer ∨ (save_current r).temp_buffer =
          r.buffer.take (HISTORY_LINE_LEN - 1)) := by
  unfold save_current
  split
  · exact ⟨rfl, rfl, rfl, rfl, rfl, Or.inl rfl⟩
  · exact ⟨rfl, rfl, rfl, rfl, rfl, Or.inr rfl⟩

theorem Clean.save (h : Clean r) : Clean (save_current r) := by
  obtain ⟨-, hrecall, hbuffer, -, -, htemp⟩ := save_current_frame r
  refine ⟨by rw [hrecall]; exact h.history, fun c hc => ?_, by rw [hbuffer]; exact h.buffer⟩
  rcases htemp with htemp | htemp <;> rw [htemp] at hc
  · exact h.temp c hc
  · exact h.buffer c (mem_of_mem_take hc)

theorem Echoes.save (h : Echoes r) : Echoes (save_current r) := by
  obtain ⟨hscreen, -, hbuffer, hx, hy, -⟩ := save_current_frame r
  unfold Echoes
  rw [hscreen, hbuffer, hx, hy]
  exact h

theorem Clean.load (h : Clean r) {text : List UInt8} (htext : ∀ c ∈ text, Regular c) : Clean (load max_len r text) :=
  ⟨h.history, h.temp, fun c hc => htext c (mem_of_mem_take hc)⟩

/-- The row and the texts, while the line is read. -/
def Good (r : Reader) : Prop := Clean r ∧ (r.returned = false → Echoes r)

theorem key_up_good (hclean : Clean r) (hechoes : Echoes r)
    (hfit : r.start_x + (key_up max_len r).buffer.length < max_x r.screen) :
    Clean (key_up max_len r) ∧ Echoes (key_up max_len r) := by
  obtain ⟨hscreen, hrecall, -, hx, -, -⟩ := save_current_frame r
  unfold key_up at hfit ⊢
  split
  case isFalse => exact ⟨hclean, hechoes⟩
  case isTrue hsome =>
    rw [if_pos hsome] at hfit
    dsimp only at hfit ⊢
    have hsaved := hclean.save
    have hshown := hechoes.save
    rw [← hx, ← hscreen] at hfit
    generalize save_current r = r1 at hsaved hshown hfit
    split
    case isTrue hmore =>
      rw [if_pos hmore] at hfit
      have hclean' : ∀ idx, Clean { r1 with kept := { r1.kept with history_browse_idx := idx } } := fun _ =>
        ⟨hsaved.history, hsaved.temp, hsaved.buffer⟩
      have hshown' : ∀ idx, Echoes { r1 with kept := { r1.kept with history_browse_idx := idx } } := fun _ => hshown
      exact ⟨(hclean' _).load (hsaved.history _), (hshown' _).load (hsaved.history _) hfit⟩
    case isFalse => exact ⟨hsaved, hshown⟩

theorem key_down_good (hclean : Clean r) (hechoes : Echoes r)
    (hfit : r.start_x + (key_down max_len r).buffer.length < max_x r.screen) :
    Clean (key_down max_len r) ∧ Echoes (key_down max_len r) := by
  unfold key_down at hfit ⊢
  split
  case isFalse => exact ⟨hclean, hechoes⟩
  case isTrue hsaved =>
  split
  case isFalse => exact ⟨hclean, hechoes⟩
  case isTrue hmoves =>
    rw [if_pos hsaved, if_pos hmoves] at hfit
    dsimp only at hfit ⊢
    have hclean' : Clean { r with kept := { r.kept with
        history_browse_idx := (r.kept.history_browse_idx + 1) % HISTORY_SIZE } } :=
      ⟨hclean.history, hclean.temp, hclean.buffer⟩
    split
    case isTrue hlast =>
      rw [if_pos hlast] at hfit
      have hloaded : Clean (load max_len { r with kept := { r.kept with
        history_browse_idx := (r.kept.history_browse_idx + 1) % HISTORY_SIZE } } _) := hclean'.load hclean.temp
      refine ⟨⟨hloaded.history, hloaded.temp, hloaded.buffer⟩, ?_⟩
      exact Echoes.load (r := { r with kept := { r.kept with
        history_browse_idx := (r.kept.history_browse_idx + 1) % HISTORY_SIZE } }) hechoes hclean.temp hfit
    case isFalse hlast =>
      rw [if_neg hlast] at hfit
      exact ⟨hclean'.load (hclean.history _), Echoes.load (r := { r with kept := { r.kept with
        history_browse_idx := (r.kept.history_browse_idx + 1) % HISTORY_SIZE } }) hechoes (hclean.history _) hfit⟩

theorem history_add_clean {s : Recall} (hs : ∀ i, ∀ c ∈ s.history i, Regular c) {cmd : List UInt8}
    (hcmd : ∀ c ∈ cmd, Regular c)
    (i : Nat) : ∀ c ∈ (history_add s cmd).history i, Regular c := by
  unfold history_add
  split
  · exact hs i
  split
  · exact hs i
  · intro c hc
    dsimp only at hc
    rw [Function.update_apply] at hc
    split at hc
    · exact hcmd c (mem_of_mem_take hc)
    · exact hs i c hc

/-- One key, as long as the line fits into the row. -/
theorem Good.step (h : Good r) (k : Key) (hfit : Fits_row max_len r k) : Good (readline_step max_len r k) := by
  unfold Fits_row at hfit
  unfold readline_step at hfit ⊢
  by_cases hreturned : r.returned
  · rw [if_pos hreturned]
    exact h
  have hfalse : r.returned = false := by simpa using hreturned
  obtain ⟨hclean, hechoes⟩ := h
  have hechoes := hechoes hfalse
  rw [if_neg hreturned] at hfit ⊢
  dsimp only at hfit ⊢
  by_cases hidle : k.c = 0
  · rw [if_pos hidle]
    exact ⟨⟨hclean.history, hclean.temp, hclean.buffer⟩, fun _ => hechoes.redrawn (redrawn_blink _ _)⟩
  have hdrawn : Redrawn r.screen (tty_cursor_activity (tty_cursor_blink_tick r.screen k.elapsed)) :=
    (redrawn_blink _ _).trans (redrawn_activity _)
  rw [if_neg hidle] at hfit ⊢
  rw [← max_x_redrawn hdrawn] at hfit
  have hready := hechoes.redrawn hdrawn
  generalize tty_cursor_activity (tty_cursor_blink_tick r.screen k.elapsed) = screen at hfit hready
  have hclean' : Clean { r with screen := screen } := ⟨hclean.history, hclean.temp, hclean.buffer⟩
  by_cases hctrl : k.c = 0x03
  · rw [if_pos hctrl]
    exact ⟨⟨hclean.history, hclean.temp, fun c hc => absurd hc not_mem_nil⟩, fun hr => by cases hr⟩
  rw [if_neg hctrl] at hfit ⊢
  by_cases henter : k.c = 0x0A
  · rw [if_pos henter]
    refine ⟨⟨?_, hclean.temp, hclean.buffer⟩, fun hr => by cases hr⟩
    dsimp only
    split
    · exact history_add_clean hclean.history hclean.buffer
    · exact hclean.history
  rw [if_neg henter] at hfit ⊢
  by_cases hback : k.c = 0x08
  · rw [if_pos hback]
    split
    case isTrue hpos =>
      refine ⟨⟨hclean.history, hclean.temp, fun c hc => hclean.buffer c ((dropLast_sublist r.buffer).subset hc)⟩,
        fun _ => ?_⟩
      obtain ⟨p, hshows, hrow⟩ := hready
      exact echoes_of_row { r with screen := tty_putchar screen 0x08, buffer := r.buffer.dropLast }
        (hshows.putchar 0x08)
        (hrow.back (List.length_pos_iff.mp hpos))
    case isFalse => exact ⟨hclean', fun _ => hready⟩
  rw [if_neg hback] at hfit ⊢
  by_cases hup : k.c = KEY_SPECIAL_UP
  · rw [if_pos hup] at hfit ⊢
    have hgood := key_up_good hclean' hready hfit
    exact ⟨hgood.1, fun _ => hgood.2⟩
  rw [if_neg hup] at hfit ⊢
  by_cases hdown : k.c = KEY_SPECIAL_DOWN
  · rw [if_pos hdown] at hfit ⊢
    have hgood := key_down_good hclean' hready hfit
    exact ⟨hgood.1, fun _ => hgood.2⟩
  rw [if_neg hdown] at hfit ⊢
  by_cases hprint : 32 ≤ k.c.toNat ∧ k.c.toNat < 127
  · rw [if_pos hprint] at hfit ⊢
    split
    case isTrue hroom =>
      rw [if_pos hroom] at hfit
      have hregular : ∀ c ∈ [k.c], Regular c := by
        intro c hc
        rw [List.mem_singleton.mp hc]
        exact regular_of_printable hprint.1
      refine ⟨⟨hclean.history, hclean.temp, fun c hc => ?_⟩, fun _ => ?_⟩
      · rcases List.mem_append.mp hc with hc | hc
        · exact hclean.buffer c hc
        · exact hregular c hc
      · obtain ⟨p, hshows, hrow⟩ := hready
        exact echoes_of_row { r with screen := tty_putchar screen k.c, buffer := r.buffer ++ [k.c] }
          (hshows.putchar k.c)
          (hrow.type hregular hfit)
    case isFalse => exact ⟨hclean', fun _ => hready⟩
  · rw [if_neg hprint]
    exact ⟨hclean', fun _ => hready⟩

theorem shows_itself (t : Tty) (hx : t.cursor_x < max_x t) (hy : t.cursor_y < max_y t) :
    Shows t { cols := max_x t, rows := max_y t, signed := !t.use_fb, line := shown t, top := 0, x := t.cursor_x
              y := t.cursor_y, color := t.cur_color } :=
  ⟨rfl, rfl, rfl, rfl, rfl, rfl, hx, hy, fun y _ x _ => by rw [Nat.zero_add]⟩

/-- While a line is read that was begun in front of blanks and always fits into its row, the row shows the line with
blanks behind it, and the cursor is behind its last character; the kept lines stay without control characters. -/
theorem readline_echoes (max_len : Nat) (t : Tty) (s : Recall) (keys : List Key)
    (hx : t.cursor_x < max_x t) (hy : t.cursor_y < max_y t)
    (hblank : ∀ x, t.cursor_x ≤ x → x < max_x t → (shown t t.cursor_y x).char = 0x20)
    (hclean : ∀ i, ∀ c ∈ s.history i, Regular c)
    (hfit : machine.Along (readline_step max_len) (Fits_row max_len) (readline_start t s) keys) :
    let r := tty_readline max_len t s keys
    (∀ i, ∀ c ∈ r.kept.history i, Regular c) ∧
      (r.returned = false → r.screen.cursor_x = r.start_x + r.buffer.length ∧ r.screen.cursor_y = r.start_y ∧
        ∀ x, r.start_x ≤ x → x < max_x r.screen →
          (shown r.screen r.start_y x).char = (r.buffer[x - r.start_x]?).getD 0x20) := by
  have hstart : Good (readline_start t s) := by
    refine ⟨⟨hclean, fun c hc => absurd hc not_mem_nil, fun c hc => absurd hc not_mem_nil⟩, fun _ => ?_⟩
    refine ⟨_, shows_itself t hx hy, rfl, rfl, rfl, hx, hy, fun x hlow hhigh => ?_⟩
    exact (congrArg (fun k => (shown t k x).char) (Nat.zero_add t.cursor_y)).trans (hblank x hlow hhigh)
  have hgood : Good (tty_readline max_len t s keys) := hfit.invariant (fun _ k h hk => h.step k hk) hstart
  intro r
  refine ⟨hgood.1.history, fun hreturned => ?_⟩
  obtain ⟨p, hshows, hrow⟩ := hgood.2 hreturned
  refine ⟨hshows.x.symm.trans hrow.x, hshows.y.symm.trans hrow.y, fun x hlow hhigh => ?_⟩
  have hcell := hshows.cell r.start_y (by rw [← hrow.y, ← hshows.rows]; exact hrow.y_lt) x hhigh
  have hline := hrow.cell x hlow (by rw [hrow.cols]; exact hhigh)
  rw [hrow.y] at hline
  rw [hcell]
  exact hline

/-- Two keys on a clear text screen. -/
theorem readline_echoes_two_keys :
    let r := tty_readline 256 (tty_clear tty_static) recall_static [⟨false, 0x61⟩, ⟨false, 0x08⟩]
    (∀ i, ∀ c ∈ r.kept.history i, Regular c) ∧
      (r.returned = false → r.screen.cursor_x = r.start_x + r.buffer.length ∧ r.screen.cursor_y = r.start_y ∧
        ∀ x, r.start_x ≤ x → x < max_x r.screen →
          (shown r.screen r.start_y x).char = (r.buffer[x - r.start_x]?).getD 0x20) := by
  have hclear := shows_clear tty_static (by decide) (by decide)
  refine readline_echoes 256 (tty_clear tty_static) recall_static [⟨false, 0x61⟩, ⟨false, 0x08⟩] hclear.x_lt hclear.y_lt
    (fun x _ hx => ?_) (fun _ c hc => absurd hc not_mem_nil) ⟨?_, ?_, trivial⟩
  · rw [hclear.cell _ hclear.y_lt x hx]
    rfl
  · unfold Fits_row
    decide
  · unfold Fits_row
    decide

end graceos.video.tty
