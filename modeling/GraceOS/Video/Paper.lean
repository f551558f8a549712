import GraceOS.Lib.Machine
import GraceOS.Video.Terminal

/-!
# The paper behind the terminal

What a terminal shows is a window on a roll of paper. Output writes on the roll and moves the window down when the
cursor leaves it, and what has left the window stays on the paper.
-/

namespace graceos.video.tty

open Function

structure Cell where
  char : UInt8
  color : UInt8
deriving DecidableEq

/-- The cell that the terminal shows, from the text memory that it writes to. -/
def shown (t : Tty) (y x : Nat) : Cell :=
  if t.use_fb then ⟨t.fb_text y x, t.fb_color_buf y x⟩
  else ⟨(t.vga_buffer (y * VGA_WIDTH + x)).toUInt8, (t.vga_buffer (y * VGA_WIDTH + x) >>> 8).toUInt8⟩

/-- A roll of paper, with a window of `rows` lines from line `top` on and a cursor in it. -/
structure Paper where
  cols : Nat
  rows : Nat
  /-- The colour of a character above 127 is lost. -/
  signed : Bool
  line : Nat → Nat → Cell
  top : Nat
  x : Nat
  y : Nat
  color : UInt8

namespace Paper

def shade (p : Paper) (c : UInt8) : UInt8 := if p.signed ∧ 128 ≤ c.toNat then 0xFF else p.color

def put (p : Paper) (c : UInt8) : Paper := { p with line := set p.line (p.top + p.y) p.x ⟨c, p.shade c⟩ }

def newline (p : Paper) : Paper :=
  if p.y + 1 < p.rows then { p with x := 0, y := p.y + 1 }
  else
    { p with x := 0, top := p.top + 1, line := update p.line (p.top + p.rows) fun _ => ⟨0x20, p.color⟩ }

def advance (p : Paper) : Paper := if p.x + 1 < p.cols then { p with x := p.x + 1 } else p.newline

def putRegular (p : Paper) (c : UInt8) : Paper := (p.put c).advance

def putchar (p : Paper) (c : UInt8) : Paper :=
  if c = 0x0A then p.newline
  else if c = 0x0D then { p with x := 0 }
  else if c = 0x09 then each 4 (fun _ p => p.putRegular 0x20) p
  else if c = 0x08 then if 0 < p.x then { p with x := p.x - 1 }.put 0x20 else p
  else p.putRegular c

def moveTo (p : Paper) (x y : Nat) : Paper :=
  { p with x := if x < p.cols then x else p.x, y := if y < p.rows then y else p.y }

/-- A new roll in the colour of the terminal. -/
def clear (p : Paper) : Paper := { p with line := fun _ _ => ⟨0x20, p.color⟩, top := 0, x := 0, y := 0 }

end Paper

/-- The calls of `tty.h`. -/
inductive Op where
  | putchar (c : UInt8)
  | set_color (fg bg : UInt8)
  | set_cursor (x y : Nat)
  | clear
  | show_cursor
  | hide_cursor
  | blink (elapsed : Bool)

def step (t : Tty) : Op → Tty
  | .putchar c => tty_putchar t c
  | .set_color fg bg => tty_set_color t fg bg
  | .set_cursor x y => tty_set_cursor t x y
  | .clear => tty_clear t
  | .show_cursor => tty_show_cursor t
  | .hide_cursor => tty_hide_cursor t
  | .blink elapsed => tty_cursor_blink_tick t elapsed

def Paper.step (p : Paper) : Op → Paper
  | .putchar c => p.putchar c
  | .set_color fg bg => { p with color := make_color (fg &&& 0x0F) (bg &&& 0x0F) }
  | .set_cursor x y => p.moveTo x y
  | .clear => p.clear
  | .show_cursor | .hide_cursor | .blink _ => p

/-- The terminal shows the window of the paper, and its cursor is in it. -/
structure Shows (t : Tty) (p : Paper) : Prop where
  cols : p.cols = max_x t
  rows : p.rows = max_y t
  signed : p.signed = !t.use_fb
  color : p.color = t.cur_color
  x : p.x = t.cursor_x
  y : p.y = t.cursor_y
  x_lt : t.cursor_x < max_x t
  y_lt : t.cursor_y < max_y t
  cell : ∀ y < max_y t, ∀ x < max_x t, shown t y x = p.line (p.top + y) x

/-! ## Loops -/

section loops

variable {σ α : Type*}

theorem each_induction {P : Nat → σ → Prop} {n : Nat} {f : Nat → σ → σ} {s : σ} (hzero : P 0 s)
    (hsucc : ∀ k < n, ∀ s, P k s → P (k + 1) (f k s)) : P n (each n f s) := by
  induction n with
  | zero => exact hzero
  | succ n ih => exact hsucc n (by omega) _ (ih fun k hk => hsucc k (by omega))

theorem set_apply (cells : Nat → Nat → α) (y x : Nat) (v : α) (a b : Nat) :
    set cells y x v a b = if a = y ∧ b = x then v else cells a b := by
  by_cases ha : a = y
  · subst ha
    by_cases hb : b = x <;> simp [set, hb]
  · simp [set, ha]

theorem each_row (cells : Nat → Nat → α) (cols y : Nat) (v : α) (a b : Nat) :
    each cols (fun x cells => set cells y x v) cells a b = if a = y ∧ b < cols then v else cells a b := by
  refine each_induction (P := fun k (s : Nat → Nat → α) => s a b = if a = y ∧ b < k then v else cells a b) (by simp) ?_
  intro k _ s ih
  rw [set_apply, ih]
  grind

theorem each_rows (cells : Nat → Nat → α) (rows cols : Nat) (v : α) (a b : Nat) :
    each rows (fun y => each cols fun x cells => set cells y x v) cells a b =
      if a < rows ∧ b < cols then v else cells a b := by
  refine each_induction (P := fun k (s : Nat → Nat → α) => s a b = if a < k ∧
    b < cols then v else cells a b) (by simp) ?_
  intro k _ s ih
  rw [each_row, ih]
  grind

theorem each_up (cells : Nat → Nat → α) (rows cols a b : Nat) :
    each rows (fun y => each cols fun x cells => set cells y x (cells (y + 1) x)) cells a b =
      if a < rows ∧ b < cols then cells (a + 1) b else cells a b := by
  have hrow : ∀ (s : Nat → Nat → α) (y a b : Nat),
      each cols (fun x cells => set cells y x (cells (y + 1) x)) s a b = if a = y ∧ b < cols then s (a + 1) b
          else s a b := by
    intro s y a b
    have hinner := each_induction (P := fun k (s' : Nat → Nat → α) => ∀ a b, s' a b = if a = y ∧
        b < k then s (a + 1) b else s a b)
      (n := cols) (f := fun x cells => set cells y x (cells (y + 1) x)) (s := s) (by simp)
    refine hinner ?_ a b
    intro k _ s' ih a b
    rw [set_apply, ih, ih]
    grind
  have houter := each_induction
    (P := fun k (s' : Nat → Nat → α) => ∀ a b, s' a b = if a < k ∧ b < cols then cells (a + 1) b else cells a b)
    (n := rows) (f := fun y => each cols fun x cells => set cells y x (cells (y + 1) x)) (s := cells) (by simp)
  refine houter ?_ a b
  intro k _ s' ih a b
  rw [hrow, ih, ih]
  grind

/-! The same loops over a memory of rows of `W` cells. -/

variable {W : Nat}

theorem flat_index {a b y x : Nat} (hb : b < W) (hx : x < W) : a * W + b = y * W + x ↔ a = y ∧ b = x := by
  constructor
  · intro h
    have hrow : (a * W + b) / W = (y * W + x) / W := by rw [h]
    rw [Nat.mul_comm a, Nat.mul_comm y, Nat.mul_add_div (by omega), Nat.mul_add_div (by omega), Nat.div_eq_of_lt hb,
      Nat.div_eq_of_lt hx, Nat.add_zero, Nat.add_zero] at hrow
    subst hrow
    exact ⟨rfl, by omega⟩
  · rintro ⟨rfl, rfl⟩
    rfl

/-- The rows of a flat memory. -/
def rows (W : Nat) (memory : Nat → α) (y x : Nat) : α := memory (y * W + x)

theorem rows_update (memory : Nat → α) {y x : Nat} (hx : x < W) (v : α) (a : Nat) {b : Nat} (hb : b < W) :
    rows W (update memory (y * W + x) v) a b = set (rows W memory) y x v a b := by
  rw [rows, update_apply, set_apply, rows]
  simp only [flat_index hb hx]

theorem flat_row (memory : Nat → α) (y : Nat) (v : α) (a : Nat) {b : Nat} (hb : b < W) :
    rows W (each W (fun x memory => update memory (y * W + x) v) memory) a b =
      if a = y then v else rows W memory a b := by
  have hloop := each_induction (P := fun k (s : Nat → α) => rows W s a b = if a = y ∧
      b < k then v else rows W memory a b)
    (n := W) (f := fun x memory => update memory (y * W + x) v) (s := memory) (by simp)
  rw [hloop]
  · simp only [hb, and_true]
  · intro k hk s ih
    rw [rows_update s hk v a hb, set_apply, ih]
    grind

theorem flat_rows (memory : Nat → α) (n : Nat) (v : α) (a : Nat) {b : Nat} (hb : b < W) :
    rows W (each n (fun y => each W fun x memory => update memory (y * W + x) v) memory) a b =
      if a < n then v else rows W memory a b := by
  refine each_induction (P := fun k (s : Nat → α) => rows W s a b = if a < k then v else rows W memory a b) (by simp) ?_
  intro k _ s ih
  rw [flat_row s k v a hb, ih]
  grind

theorem flat_up (memory : Nat → α) (n : Nat) (a : Nat) {b : Nat} (hb : b < W) :
    rows W (each n (fun y => each W fun x memory =>
      update memory (y * W + x) (memory ((y + 1) * W + x))) memory) a b =
      if a < n then rows W memory (a + 1) b else rows W memory a b := by
  have hrow : ∀ (s : Nat → α) (y a b : Nat), b < W →
      rows W (each W (fun x memory => update memory (y * W + x) (memory ((y + 1) * W + x))) s) a b =
        if a = y then rows W s (a + 1) b else rows W s a b := by
    intro s y a b hb
    have hinner := each_induction
      (P := fun k (s' : Nat → α) => ∀ a b, b < W → rows W s' a b = if a = y ∧
        b < k then rows W s (a + 1) b else rows W s a b)
      (n := W) (f := fun x memory => update memory (y * W + x) (memory ((y + 1) * W + x))) (s := s)
      (by simp)
    rw [hinner _ a b hb]
    · simp only [hb, and_true]
    · intro k hk s' ih a b hb
      have hbelow : s' ((y + 1) * W + k) = rows W s' (y + 1) k := rfl
      rw [rows_update s' hk _ a hb, set_apply, hbelow, ih _ _ hk, ih _ _ hb]
      grind
  have houter := each_induction
    (P := fun k (s' : Nat → α) => ∀ a b, b < W →
      rows W s' a b = if a < k then rows W memory (a + 1) b else rows W memory a b)
    (n := n) (f := fun y => each W fun x memory =>
      update memory (y * W + x) (memory ((y + 1) * W + x))) (s := memory) (by simp)
  refine houter ?_ a b hb
  intro k _ s' ih a b hb
  rw [hrow s' k a b hb, ih _ _ hb, ih _ _ hb]
  grind

end loops

/-! ## The text of a cell -/

theorem make_entry_char (c color : UInt8) : (make_entry c color).toUInt8 = c := by
  rw [← UInt8.toBitVec_inj]
  ext i hi
  have hlow : i < 16 := by omega
  simp [make_entry, BitVec.getElem_signExtend, hlow, hi]

theorem make_entry_color (c color : UInt8) :
    (make_entry c color >>> 8).toUInt8 = if 128 ≤ c.toNat then 0xFF else color := by
  have hmsb : c.toBitVec.msb = decide (128 ≤ c.toNat) := by
    rw [BitVec.msb_eq_decide]
    rfl
  rw [← UInt8.toBitVec_inj]
  ext i hi
  have hhigh : 8 + i < 16 := by omega
  have hlow : i < 16 := by omega
  have hbyte : ¬ 8 + i < 8 := by omega
  by_cases h : 128 ≤ c.toNat
  · have hones : ∀ k < 8, (255#8)[k]? = some true := by decide
    have hone := hones i hi
    rw [BitVec.getElem?_eq_getElem hi] at hone
    simpa [make_entry, BitVec.getElem_signExtend, h, hmsb, hhigh, hbyte] using hone
  · simp [make_entry, BitVec.getElem_signExtend, h, hmsb, hhigh, hlow, hbyte, hi]

/-- A call that only draws. -/
def Redrawn (t t' : Tty) : Prop :=
  ∃ fb drawn x y visible blink, t' = { t with
    fb := fb, fb_cursor_drawn := drawn, fb_cursor_drawn_x := x, fb_cursor_drawn_y := y, cursor_visible := visible
    cursor_blink_on := blink }

theorem Redrawn.refl (t : Tty) : Redrawn t t := ⟨_, _, _, _, _, _, rfl⟩

theorem Redrawn.trans {t t' t'' : Tty} (h : Redrawn t t') (h' : Redrawn t' t'') : Redrawn t t'' := by
  obtain ⟨_, _, _, _, _, _, rfl⟩ := h
  obtain ⟨_, _, _, _, _, _, rfl⟩ := h'
  exact ⟨_, _, _, _, _, _, rfl⟩

theorem redrawn_render (t : Tty) (x y : Nat) : Redrawn t (fb_render_cell t x y) := by
  unfold fb_render_cell
  split
  · exact Redrawn.refl t
  · exact ⟨_, _, _, _, _, _, rfl⟩

theorem redrawn_render_cursor (t : Tty) (x y : Nat) : Redrawn t (fb_render_cursor_cell t x y) := by
  unfold fb_render_cursor_cell
  split
  · exact Redrawn.refl t
  · exact ⟨_, _, _, _, _, _, rfl⟩

theorem redrawn_erase (t : Tty) : Redrawn t (tty_cursor_erase_fb t) := by
  unfold tty_cursor_erase_fb
  split
  · exact Redrawn.refl t
  · exact (redrawn_render t _ _).trans ⟨_, _, _, _, _, _, rfl⟩

theorem redrawn_refresh (t : Tty) : Redrawn t (tty_cursor_refresh t) := by
  unfold tty_cursor_refresh
  split
  · refine (redrawn_erase t).trans ?_
    dsimp only
    split
    · exact (redrawn_render_cursor _ _ _).trans ⟨_, _, _, _, _, _, rfl⟩
    · exact Redrawn.refl _
  · exact Redrawn.refl t

theorem redrawn_activity (t : Tty) : Redrawn t (tty_cursor_activity t) :=
  Redrawn.trans ⟨_, _, _, _, _, _, rfl⟩ (redrawn_refresh _)

theorem redrawn_blink (t : Tty) (elapsed : Bool) : Redrawn t (tty_cursor_blink_tick t elapsed) := by
  unfold tty_cursor_blink_tick
  split
  · exact Redrawn.refl t
  · split
    · exact Redrawn.trans ⟨_, _, _, _, _, _, rfl⟩ (redrawn_refresh _)
    · exact Redrawn.refl t

theorem redrawn_show_cursor (t : Tty) : Redrawn t (tty_show_cursor t) :=
  Redrawn.trans ⟨_, _, _, _, _, _, rfl⟩ (redrawn_refresh _)

theorem redrawn_hide_cursor (t : Tty) : Redrawn t (tty_hide_cursor t) :=
  (redrawn_erase t).trans ⟨_, _, _, _, _, _, rfl⟩

/-! ## The calls and the paper -/

variable {t t' : Tty} {p : Paper}

theorem Shows.redrawn (h : Shows t p) (hdrawn : Redrawn t t') : Shows t' p := by
  obtain ⟨_, _, _, _, _, _, rfl⟩ := hdrawn
  exact ⟨h.cols, h.rows, h.signed, h.color, h.x, h.y, h.x_lt, h.y_lt, h.cell⟩

theorem max_x_redrawn (hdrawn : Redrawn t t') : max_x t' = max_x t := by
  obtain ⟨_, _, _, _, _, _, rfl⟩ := hdrawn
  rfl

theorem Shows.move (h : Shows t p) {x y : Nat} (hx : x < max_x t) (hy : y < max_y t) :
    Shows { t with cursor_x := x, cursor_y := y } { p with x := x, y := y } :=
  ⟨h.cols, h.rows, h.signed, h.color, rfl, rfl, hx, hy, h.cell⟩

theorem Shows.column (h : Shows t p) {x k : Nat} (hx : x < max_x t) (heq : k = x) :
    Shows { t with cursor_x := x } { p with x := k } :=
  ⟨h.cols, h.rows, h.signed, h.color, heq, h.y, hx, h.y_lt, h.cell⟩

theorem shown_put_cell (t : Tty) (c : UInt8) (hx : t.cursor_x < max_x t) {y x : Nat} (hcol : x < max_x t) :
    shown (put_cell t c) y x = if y = t.cursor_y ∧ x = t.cursor_x then
      ⟨c, if t.use_fb = false ∧ 128 ≤ c.toNat then 0xFF else t.cur_color⟩ else shown t y x := by
  by_cases hfb : t.use_fb
  · obtain ⟨_, _, _, _, _, _, hdrawn⟩ := redrawn_render { t with
      fb_text := set t.fb_text t.cursor_y t.cursor_x c
      fb_color_buf := set t.fb_color_buf t.cursor_y t.cursor_x t.cur_color } t.cursor_x t.cursor_y
    simp only [put_cell, hfb, if_true, Bool.true_eq_false, false_and, if_false] at hdrawn ⊢
    rw [hdrawn]
    simp only [shown, hfb, if_true, set_apply]
    split <;> rfl
  · have hx' : t.cursor_x < VGA_WIDTH := by simpa [max_x, hfb] using hx
    have hcol' : x < VGA_WIDTH := by simpa [max_x, hfb] using hcol
    have hcell := rows_update t.vga_buffer hx' (y := t.cursor_y) (make_entry c t.cur_color) y hcol'
    rw [set_apply] at hcell
    simp only [rows] at hcell
    simp only [put_cell, hfb, shown, hcell, Bool.false_eq_true, if_false]
    split
    · simp only [make_entry_char, make_entry_color, true_and]
    · rfl

theorem put_cell_frame (t : Tty) (c : UInt8) :
    max_x (put_cell t c) = max_x t ∧ max_y (put_cell t c) = max_y t ∧ (put_cell t c).use_fb = t.use_fb ∧
      (put_cell t c).cur_color = t.cur_color ∧ (put_cell t c).cursor_x = t.cursor_x ∧
      (put_cell t c).cursor_y = t.cursor_y := by
  by_cases hfb : t.use_fb
  · obtain ⟨_, _, _, _, _, _, hdrawn⟩ := redrawn_render { t with
      fb_text := set t.fb_text t.cursor_y t.cursor_x c
      fb_color_buf := set t.fb_color_buf t.cursor_y t.cursor_x t.cur_color } t.cursor_x t.cursor_y
    rw [put_cell, if_pos hfb, hdrawn]
    exact ⟨rfl, rfl, rfl, rfl, rfl, rfl⟩
  · rw [put_cell, if_neg hfb]
    exact ⟨rfl, rfl, rfl, rfl, rfl, rfl⟩

theorem Shows.put (h : Shows t p) (c : UInt8) : Shows (put_cell t c) (p.put c) := by
  have hcell : ∀ y < max_y t, ∀ x < max_x t, shown (put_cell t c) y x = (p.put c).line (p.top + y) x := by
    intro y hy x hx
    rw [shown_put_cell t c h.x_lt hx]
    simp only [Paper.put]
    rw [set_apply, h.x, h.y, Paper.shade, h.signed, h.color, h.cell y hy x hx]
    by_cases hfb : t.use_fb <;> simp [hfb]
  obtain ⟨hwide, hhigh, hfb, hcolor, hx, hy⟩ := put_cell_frame t c
  exact ⟨h.cols.trans hwide.symm, h.rows.trans hhigh.symm, by rw [hfb]; exact h.signed, h.color.trans hcolor.symm,
    h.x.trans hx.symm, h.y.trans hy.symm, by rw [hx, hwide]; exact h.x_lt, by rw [hy, hhigh]; exact h.y_lt,
    by rw [hwide, hhigh]; exact hcell⟩

theorem shown_scroll (t : Tty) {y x : Nat} (hy : y < max_y t) (hx : x < max_x t) :
    shown (tty_scroll t) y x = if y + 1 < max_y t then shown t (y + 1) x else ⟨0x20, t.cur_color⟩ := by
  by_cases hfb : t.use_fb
  · have hrow : y < t.fb_rows := by simpa [max_y, hfb] using hy
    have hcol : x < t.fb_cols := by simpa [max_x, hfb] using hx
    simp only [tty_scroll, hfb, if_true, shown, each_row, each_up, hcol, and_true, max_y]
    grind
  · have hrow : y < VGA_HEIGHT := by simpa [max_y, hfb] using hy
    have hcol : x < VGA_WIDTH := by simpa [max_x, hfb] using hx
    have hup := flat_up t.vga_buffer (VGA_HEIGHT - 1) y hcol
    have hblank := flat_row (each (VGA_HEIGHT - 1) (fun y => each VGA_WIDTH fun x memory =>
      update memory (y * VGA_WIDTH + x) (memory ((y + 1) * VGA_WIDTH + x))) t.vga_buffer) (VGA_HEIGHT - 1)
      (make_entry 0x20 t.cur_color) y hcol
    rw [hup] at hblank
    simp only [rows] at hblank
    simp only [tty_scroll, hfb, shown, hblank, max_y, Bool.false_eq_true, if_false]
    by_cases hlast : y + 1 < VGA_HEIGHT
    · rw [if_neg (by omega : ¬ y = VGA_HEIGHT - 1), if_pos (by omega : y < VGA_HEIGHT - 1), if_pos hlast]
    · rw [if_pos (by omega : y = VGA_HEIGHT - 1), if_neg hlast, make_entry_char, make_entry_color]
      rfl

theorem scroll_frame (t : Tty) :
    max_x (tty_scroll t) = max_x t ∧ max_y (tty_scroll t) = max_y t ∧ (tty_scroll t).use_fb = t.use_fb ∧
      (tty_scroll t).cur_color = t.cur_color ∧ (tty_scroll t).cursor_x = t.cursor_x ∧
      (tty_scroll t).cursor_y = max_y t - 1 := by
  by_cases hfb : t.use_fb
  · rw [tty_scroll, if_pos hfb]
    exact ⟨rfl, rfl, rfl, rfl, rfl, by simp [max_y, hfb]⟩
  · rw [tty_scroll, if_neg hfb]
    exact ⟨rfl, rfl, rfl, rfl, rfl, by simp [max_y, hfb]⟩

theorem Shows.scroll (h : Shows t p) (x y : Nat) (hx : x < max_x t) :
    Shows (tty_scroll { t with cursor_x := x, cursor_y := y }) { p with
      x := x, y := max_y t - 1, top := p.top + 1
      line := update p.line (p.top + p.rows) fun _ => ⟨0x20, p.color⟩ } := by
  have hcell : ∀ a < max_y t, ∀ b < max_x t, shown (tty_scroll { t with cursor_x := x, cursor_y := y }) a b =
      update p.line (p.top + p.rows) (fun _ => ⟨0x20, p.color⟩) (p.top + 1 + a) b := by
    intro a ha b hb
    rw [@shown_scroll { t with cursor_x := x, cursor_y := y } _ _ ha hb, update_apply, h.rows, h.color]
    by_cases hlast : a + 1 < max_y t
    · have hold := h.cell (a + 1) hlast b hb
      rw [if_neg (by omega : ¬ p.top + 1 + a = p.top + max_y t), Nat.add_assoc, Nat.add_comm 1 a, ← hold]
      exact if_pos hlast
    · rw [if_pos (by omega : p.top + 1 + a = p.top + max_y t)]
      exact if_neg hlast
  obtain ⟨hwide, hhigh, hfb, hcolor, hcol, hrow⟩ := scroll_frame { t with cursor_x := x, cursor_y := y }
  have hpos := h.y_lt
  exact ⟨h.cols.trans hwide.symm, h.rows.trans hhigh.symm, by rw [hfb]; exact h.signed, h.color.trans hcolor.symm,
    hcol.symm, hrow.symm, by rw [hcol, hwide]; exact hx, by
      rw [hrow, hhigh]
      change max_y t - 1 < max_y t
      omega, by rw [hwide, hhigh]; exact hcell⟩

/-- The column of the cursor, also one behind the last, is forgotten by the new line. -/
theorem Shows.newline (h : Shows t p) (x : Nat) : Shows (tty_newline { t with cursor_x := x }) p.newline := by
  obtain ⟨fb, drawn, dx, dy, visible, blink, herased⟩ := redrawn_erase { t with cursor_x := x }
  have hdrawn : Redrawn t { t with
      fb := fb, fb_cursor_drawn := drawn, fb_cursor_drawn_x := dx, fb_cursor_drawn_y := dy, cursor_visible := visible
      cursor_blink_on := blink } := ⟨_, _, _, _, _, _, rfl⟩
  refine Shows.redrawn ?_ (redrawn_activity _)
  rw [herased]
  have hshows := h.redrawn hdrawn
  have hx := h.x_lt
  have hy := h.y_lt
  have hrows := h.rows
  have hline := h.y
  by_cases hlast : p.y + 1 < p.rows
  · have hmoved := hshows.move (x := 0) (y := t.cursor_y + 1) (by change 0 < max_x t; omega)
      (by change t.cursor_y + 1 < max_y t; omega)
    rw [Paper.newline, if_pos hlast, hline, if_neg]
    · exact hmoved
    · change ¬ t.cursor_y + 1 ≥ max_y t
      omega
  · have hscrolled := hshows.scroll 0 (t.cursor_y + 1) (by change 0 < max_x t; omega)
    have hbottom : max_y t - 1 = p.y := by omega
    rw [Paper.newline, if_neg hlast, if_pos]
    · change Shows _ { p with
        x := 0, y := max_y t - 1, top := p.top + 1, line := update p.line (p.top + p.rows) fun _ => ⟨0x20, p.color⟩ }
        at hscrolled
      rw [hbottom] at hscrolled
      exact hscrolled
    · change t.cursor_y + 1 ≥ max_y t
      omega

theorem Shows.putRegular (h : Shows t p) (c : UInt8) : Shows (put_regular t c) (p.putRegular c) := by
  have hput := (h.redrawn (redrawn_erase t)).put c
  simp only [put_regular, Paper.putRegular]
  generalize put_cell (tty_cursor_erase_fb t) c = t1 at hput
  generalize p.put c = p1 at hput
  have hx := hput.x
  have hcols := hput.cols
  by_cases hfit : p1.x + 1 < p1.cols
  · rw [Paper.advance, if_pos hfit, if_neg]
    · refine Shows.redrawn ?_ (redrawn_activity _)
      exact hput.column (x := t1.cursor_x + 1) (by omega) (by omega)
    · change ¬ t1.cursor_x + 1 ≥ max_x t1
      omega
  · rw [Paper.advance, if_neg hfit, if_pos]
    · exact hput.newline _
    · change t1.cursor_x + 1 ≥ max_x t1
      omega

theorem Shows.each {n : Nat} {c : UInt8} (h : Shows t p) :
    Shows (each n (fun _ t => put_regular t c) t) (each n (fun _ p => p.putRegular c) p) := by
  induction n with
  | zero => exact h
  | succ n ih => exact ih.putRegular c

theorem Shows.putchar (h : Shows t p) (c : UInt8) : Shows (tty_putchar t c) (p.putchar c) := by
  have herased := h.redrawn (redrawn_erase t)
  have hx := herased.x
  have hxlt := herased.x_lt
  unfold tty_putchar Paper.putchar
  split
  · exact herased.newline _
  split
  · exact (herased.column (x := 0) (by omega) rfl).redrawn (redrawn_activity _)
  split
  · exact herased.each
  split
  · dsimp only
    by_cases hpos : 0 < p.x
    · rw [if_pos hpos, if_pos (by omega)]
      have hback := herased.column (x := (tty_cursor_erase_fb t).cursor_x - 1) (k := p.x - 1) (by omega) (by omega)
      exact (hback.put 0x20).redrawn (redrawn_activity _)
    · rw [if_neg hpos, if_neg (by omega)]
      exact herased
  · exact h.putRegular c

theorem Shows.moveTo (h : Shows t p) (x y : Nat) : Shows (tty_set_cursor t x y) (p.moveTo x y) := by
  refine Shows.redrawn ?_ (redrawn_activity _)
  have hcols := h.cols
  have hrows := h.rows
  have hline : ∀ {t : Tty} {p : Paper}, Shows t p →
      Shows (if y < max_y t then { t with cursor_y := y } else t) { p with y := if y < p.rows then y else p.y } := by
    intro t p h
    have hrows := h.rows
    by_cases hy : y < max_y t
    · rw [if_pos hy, if_pos (by omega)]
      exact ⟨h.cols, h.rows, h.signed, h.color, h.x, rfl, h.x_lt, hy, h.cell⟩
    · rw [if_neg hy, if_neg (by omega)]
      exact h
  by_cases hx : x < max_x t
  · rw [if_pos hx]
    exact hline (h.column hx (if_pos (by omega)))
  · rw [if_neg hx, Paper.moveTo, if_neg (by omega : ¬ x < p.cols)]
    exact hline h

theorem Shows.recolor (h : Shows t p) (fg bg : UInt8) :
    Shows (tty_set_color t fg bg) { p with color := make_color (fg &&& 0x0F) (bg &&& 0x0F) } :=
  ⟨h.cols, h.rows, h.signed, rfl, h.x, h.y, h.x_lt, h.y_lt, h.cell⟩

/-- The paper of a terminal with a clear screen. -/
def blank (t : Tty) : Paper :=
  { cols := max_x t, rows := max_y t, signed := !t.use_fb, line := fun _ _ => ⟨0x20, t.cur_color⟩, top := 0, x := 0
    y := 0, color := t.cur_color }

theorem shows_clear (t : Tty) (hx : 0 < max_x t) (hy : 0 < max_y t) : Shows (tty_clear t) (blank t) := by
  by_cases hfb : t.use_fb
  · rw [tty_clear, if_pos (by exact hfb)]
    refine Shows.mk rfl rfl rfl rfl rfl rfl hx hy fun y hrow x hcol => ?_
    have hrow' : y < t.fb_rows := by simpa [max_y, hfb] using hrow
    have hcol' : x < t.fb_cols := by simpa [max_x, hfb] using hcol
    simp only [shown, hfb, if_true, each_rows, hrow', hcol', and_self, blank]
  · rw [tty_clear, if_neg (by exact hfb)]
    refine Shows.redrawn ?_ (redrawn_refresh _)
    refine Shows.mk rfl rfl rfl rfl rfl rfl hx hy fun y hrow x hcol => ?_
    have hrow' : y < VGA_HEIGHT := by simpa [max_y, hfb] using hrow
    have hcol' : x < VGA_WIDTH := by simpa [max_x, hfb] using hcol
    have hfill := flat_rows t.vga_buffer VGA_HEIGHT (make_entry 0x20 t.cur_color) y hcol'
    rw [if_pos hrow', rows] at hfill
    simp only [shown, hfb, Bool.false_eq_true, if_false, hfill, make_entry_char, make_entry_color, blank]
    rfl

theorem Shows.clear (h : Shows t p) : Shows (tty_clear t) p.clear := by
  have hx := h.x_lt
  have hy := h.y_lt
  have hclear := shows_clear t (by omega) (by omega)
  rw [blank, ← h.cols, ← h.rows, ← h.signed, ← h.color] at hclear
  exact hclear

theorem Shows.step (h : Shows t p) (op : Op) : Shows (step t op) (p.step op) := by
  cases op with
  | putchar c => exact h.putchar c
  | set_color fg bg => exact h.recolor fg bg
  | set_cursor x y => exact h.moveTo x y
  | clear => exact h.clear
  | show_cursor => exact h.redrawn (redrawn_show_cursor t)
  | hide_cursor => exact h.redrawn (redrawn_hide_cursor t)
  | blink elapsed => exact h.redrawn (redrawn_blink t elapsed)

theorem Shows.run (h : Shows t p) (ops : List Op) :
    Shows (machine.run tty.step t ops) (machine.run Paper.step p ops) := by
  induction ops generalizing t p with
  | nil => exact h
  | cons op ops ih => exact ih (h.step op)

/-- After any calls behind a `tty_clear`, the screen is the window on the paper that the same calls write, and the
cursor is on the screen. -/
theorem terminal_shows_paper (t : Tty) (hx : 0 < max_x t) (hy : 0 < max_y t) (ops : List Op) :
    Shows (machine.run step (tty_clear t) ops) (machine.run Paper.step (blank t) ops) :=
  (shows_clear t hx hy).run ops

/-- A letter in the second row of the text screen. -/
theorem terminal_shows_paper_letter :
    Shows (machine.run step (tty_clear tty_static) [.set_cursor 0 1, .putchar 0x41])
      (machine.run Paper.step (blank tty_static) [.set_cursor 0 1, .putchar 0x41]) :=
  terminal_shows_paper tty_static (by decide) (by decide) _

end graceos.video.tty
