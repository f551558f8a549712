import GraceOS.Video.Drawing
import GraceOS.Video.Paper

/-!
# The glyphs of the terminal

On a frame buffer the terminal draws a cell when its text changes, and a scroll moves the pixels instead of drawing the
cells again. The pixels below the last row of cells come into the picture with a scroll.
-/

namespace graceos.video.tty

variable {t : Tty}

/-! ## The pixels of a cell -/

/-- The pixels in rows of the pitch. -/
def picture (fb : Fb) : Nat → Nat → UInt32 := rows (pitch_pixels fb) fb.backbuffer

/-- Pixel `(i, j)` of a cell, in the colours of the cell or with the two exchanged. -/
def pixelOf (t : Tty) (y x : Nat) (reversed : Bool) (i j : Nat) : UInt32 :=
  let color := t.fb_color_buf y x
  let fg := tty_palette (color &&& 0x0F)
  let bg := tty_palette ((color >>> 4) &&& 0x0F)
  if t.tty_font.glyph (t.fb_text y x) (j / t.font_scale.toNat) &&& UInt8.ofNat (0x80 >>> (i / t.font_scale.toNat)) ≠ 0
  then if reversed then bg else fg
  else if reversed then fg else bg

/-- The background of a colour. -/
def background (color : UInt8) : UInt32 := tty_palette ((color >>> 4) &&& 0x0F)

/-- The frame buffer holds the cells, neither pixels nor words are too many for their types, and a space is blank. -/
structure Fits (t : Tty) : Prop where
  fb : t.use_fb = true
  scale : t.font_scale = 1 ∨ t.font_scale = 2
  font : t.tty_font.width.toNat ≤ 32 ∧ t.tty_font.height.toNat ≤ 32
  pitch : 4 * t.fb.width.toNat ≤ t.fb.pitch.toNat
  size : t.fb.width.toNat < 2 ^ 31 ∧ t.fb.height.toNat < 2 ^ 31
  words : t.fb.pitch.toNat / 4 * t.fb.height.toNat < 2 ^ 32
  rows : 0 < t.fb_rows
  wide : t.fb_cols * char_width t ≤ t.fb.width.toNat
  high : t.fb_rows * char_height t ≤ t.fb.height.toNat
  space : ∀ row, t.tty_font.glyph 0x20 row = 0

theorem char_width_eq (h : Fits t) : char_width t = t.tty_font.width.toNat * t.font_scale.toNat := by
  have hfont := h.font.1
  rw [char_width, UInt32.toNat_mul]
  refine Nat.mod_eq_of_lt ?_
  rcases h.scale with hs | hs <;> rw [hs]
  · change _ * 1 < _
    omega
  · change _ * 2 < _
    omega

theorem char_height_eq (h : Fits t) : char_height t = t.tty_font.height.toNat * t.font_scale.toNat := by
  have hfont := h.font.2
  rw [char_height, UInt32.toNat_mul]
  refine Nat.mod_eq_of_lt ?_
  rcases h.scale with hs | hs <;> rw [hs]
  · change _ * 1 < _
    omega
  · change _ * 2 < _
    omega

/-! ## Drawing a glyph -/

theorem fb_put_pixel_at {fb : Fb} (hw : fb.width.toNat < 2 ^ 31) (hh : fb.height.toNat < 2 ^ 31) {x y : Nat}
    (hx : x < fb.width.toNat) (hy : y < fb.height.toNat) (memory : Pixels) (color : UInt32) :
    fb_put_pixel { fb with backbuffer := memory } (int x) (int y) color =
      { fb with backbuffer := Function.update memory (y * pitch_pixels fb + x) color } := by
  have hix : int x = x := int_eq ⟨by omega, by omega⟩
  have hiy : int y = y := int_eq ⟨by omega, by omega⟩
  rw [hix, hiy, fb_put_pixel, if_neg (by omega), if_neg]
  · rfl
  · unfold uint32
    dsimp only
    omega

theorem rows_square (W : Nat) (memory : Pixels) {s x y : Nat} (hs : s = 1 ∨ s = 2) (hW : x + s ≤ W) (color : UInt32) :
    ∃ memory', (s = 1 → memory' = Function.update memory (y * W + x) color) ∧
      (s = 2 → memory' = Function.update (Function.update (Function.update (Function.update memory (y * W + x) color)
        (y * W + (x + 1)) color) ((y + 1) * W + x) color) ((y + 1) * W + (x + 1)) color) ∧
      ∀ a b, b < W → rows W memory' a b =
        if (y ≤ a ∧ a < y + s) ∧ x ≤ b ∧ b < x + s then color else rows W memory a b := by
  rcases hs with rfl | rfl
  · refine ⟨_, fun _ => rfl, fun h => by omega, fun a b hb => ?_⟩
    rw [rows_update _ (by omega) _ _ hb, set_apply]
    refine if_congr ?_ rfl rfl
    omega
  · refine ⟨_, fun h => by omega, fun _ => rfl, fun a b hb => ?_⟩
    rw [rows_update _ (by omega) _ _ hb, set_apply, rows_update _ (by omega) _ _ hb, set_apply,
      rows_update _ (by omega) _ _ hb, set_apply, rows_update _ (by omega) _ _ hb, set_apply]
    generalize rows W memory a b = old
    by_cases hin : (y ≤ a ∧ a < y + 2) ∧ x ≤ b ∧ b < x + 2
    · rw [if_pos hin]
      grind
    · rw [if_neg hin]
      grind

section draw

variable {x y : Nat}

/-- One square of the glyph, drawn as the loops of `fb_draw_glyph` do. -/
def draw_square (t : Tty) (px py : Int) (v : UInt32) (x y : Nat) (fb : Fb) : Fb :=
  if t.font_scale = 1 then fb_put_pixel fb (int (px + x)) (int (py + y)) v
  else
    let fb := fb_put_pixel fb (int (px + (x * 2 : Nat))) (int (py + (y * 2 : Nat))) v
    let fb := fb_put_pixel fb (int (px + (x * 2 : Nat) + 1)) (int (py + (y * 2 : Nat))) v
    let fb := fb_put_pixel fb (int (px + (x * 2 : Nat))) (int (py + (y * 2 : Nat) + 1)) v
    fb_put_pixel fb (int (px + (x * 2 : Nat) + 1)) (int (py + (y * 2 : Nat) + 1)) v

/-- The colour of the square `(x, y)` of a glyph. -/
def glyph_color (glyph : Nat → UInt8) (fg bg : UInt32) (y x : Nat) : UInt32 :=
  if glyph y &&& UInt8.ofNat (0x80 >>> x) ≠ 0 then fg else bg

theorem fb_draw_glyph_eq (t : Tty) (px py : Int) (glyph : Nat → UInt8) (fg bg : UInt32) :
    fb_draw_glyph t px py glyph fg bg = each t.tty_font.height.toNat (fun y => each t.tty_font.width.toNat fun x fb =>
      draw_square t px py (glyph_color glyph fg bg y x) x y fb) t.fb := by
  unfold fb_draw_glyph draw_square
  by_cases hs : t.font_scale = 1
  · simp only [hs, if_true]
    rfl
  · simp only [hs, if_false]
    rfl

/-- `px + x` columns and `py + y` rows of squares are on the screen. -/
theorem draw_square_at (h : Fits t) {px py : Nat} (hx : px + (x + 1) * t.font_scale.toNat ≤ t.fb.width.toNat)
    (hy : py + (y + 1) * t.font_scale.toNat ≤ t.fb.height.toNat) (memory : Pixels) (v : UInt32) :
    ∃ memory', draw_square t (px : Int) (py : Int) v x y { t.fb with backbuffer := memory } =
        { t.fb with backbuffer := memory' } ∧
      ∀ a b, b < pitch_pixels t.fb → rows (pitch_pixels t.fb) memory' a b =
        if (py + y * t.font_scale.toNat ≤ a ∧ a < py + (y + 1) * t.font_scale.toNat) ∧
          px + x * t.font_scale.toNat ≤ b ∧ b < px + (x + 1) * t.font_scale.toNat then v
        else rows (pitch_pixels t.fb) memory a b := by
  have hpitch := h.pitch
  have hput := fun {x y : Nat} => @fb_put_pixel_at t.fb h.size.1 h.size.2 x y
  have hwords : t.fb.width.toNat ≤ pitch_pixels t.fb := by
    unfold pitch_pixels
    omega
  rcases h.scale with hs | hs
  · have hone : t.font_scale.toNat = 1 := by rw [hs]; rfl
    rw [hone] at hx hy ⊢
    obtain ⟨memory', hmemory, -, hrows⟩ :=
      rows_square (pitch_pixels t.fb) memory (s := 1) (x := px + x) (y := py + y) (Or.inl rfl) (by omega) v
    refine ⟨memory', ?_, fun a b hb => ?_⟩
    · rw [draw_square, if_pos hs, hmemory rfl]
      exact_mod_cast hput (x := px + x) (y := py + y) (by omega) (by omega) memory v
    · rw [hrows a b hb]
      refine if_congr ?_ rfl rfl
      omega
  · have htwo : t.font_scale.toNat = 2 := by rw [hs]; rfl
    rw [htwo] at hx hy ⊢
    obtain ⟨memory', -, hmemory, hrows⟩ :=
      rows_square (pitch_pixels t.fb) memory (s := 2) (x := px + x * 2) (y := py + y * 2) (Or.inr rfl) (by omega) v
    refine ⟨memory', ?_, fun a b hb => ?_⟩
    · have h1 := hput (x := px + x * 2) (y := py + y * 2) (by omega) (by omega) memory v
      have h2 := fun m => hput (x := px + x * 2 + 1) (y := py + y * 2) (by omega) (by omega) m v
      have h3 := fun m => hput (x := px + x * 2) (y := py + y * 2 + 1) (by omega) (by omega) m v
      have h4 := fun m => hput (x := px + x * 2 + 1) (y := py + y * 2 + 1) (by omega) (by omega) m v
      push_cast at h1 h2 h3 h4
      rw [draw_square, if_neg (by rw [hs]; decide), hmemory rfl]
      push_cast
      simp only [h1, h2, h3, h4]
    · rw [hrows a b hb]
      refine if_congr ?_ rfl rfl
      omega

theorem scale_cases (h : Fits t) : t.font_scale.toNat = 1 ∨ t.font_scale.toNat = 2 := by
  rcases h.scale with hs | hs <;> rw [hs]
  · exact Or.inl rfl
  · exact Or.inr rfl

/-- One row of squares. -/
theorem draw_squares (h : Fits t) {px py : Nat} {n : Nat} (color : Nat → UInt32)
    (hx : px + n * t.font_scale.toNat ≤ t.fb.width.toNat) (hy : py + (y + 1) * t.font_scale.toNat ≤ t.fb.height.toNat)
    (memory : Pixels) :
    ∃ memory', each n (fun x fb => draw_square t (px : Int) (py : Int) (color x) x y fb)
        { t.fb with backbuffer := memory } = { t.fb with backbuffer := memory' } ∧
      ∀ a b, b < pitch_pixels t.fb → rows (pitch_pixels t.fb) memory' a b =
        if (py + y * t.font_scale.toNat ≤ a ∧ a < py + (y + 1) * t.font_scale.toNat) ∧
          px ≤ b ∧ b < px + n * t.font_scale.toNat then color ((b - px) / t.font_scale.toNat)
        else rows (pitch_pixels t.fb) memory a b := by
  induction n with
  | zero => exact ⟨memory, rfl, fun a b hb => (if_neg (by omega)).symm⟩
  | succ n ih =>
    have hle : n * t.font_scale.toNat ≤ (n + 1) * t.font_scale.toNat := Nat.mul_le_mul_right _ (Nat.le_succ n)
    obtain ⟨memory', hmemory, hrows⟩ := ih (by omega)
    obtain ⟨memory'', hsquare, hcell⟩ := draw_square_at h (x := n) hx hy memory' (color n)
    refine ⟨memory'', by rw [each, hmemory, hsquare], fun a b hb => ?_⟩
    rw [hcell a b hb, hrows a b hb]
    generalize rows (pitch_pixels t.fb) memory a b = old
    by_cases hrow : py + y * t.font_scale.toNat ≤ a ∧ a < py + (y + 1) * t.font_scale.toNat
    · simp only [hrow, true_and]
      have hs := scale_cases h
      generalize t.font_scale.toNat = s at hs
      by_cases hlast : px + n * s ≤ b ∧ b < px + (n + 1) * s
      · have hcol : (b - px) / s = n := by rcases hs with rfl | rfl <;> omega
        rw [if_pos hlast, if_pos (by rcases hs with rfl | rfl <;> omega), hcol]
      · rw [if_neg hlast]
        refine if_congr ?_ rfl rfl
        rcases hs with rfl | rfl <;> omega
    · simp only [hrow, false_and, if_false]

theorem draw_rows_of_squares (h : Fits t) {px py : Nat} {n : Nat} (color : Nat → Nat → UInt32)
    (hx : px + char_width t ≤ t.fb.width.toNat) (hy : py + n * t.font_scale.toNat ≤ t.fb.height.toNat) :
    ∃ memory, each n (fun y => each t.tty_font.width.toNat fun x fb =>
        draw_square t (px : Int) (py : Int) (color y x) x y fb) t.fb = { t.fb with backbuffer := memory } ∧
      ∀ a b, b < pitch_pixels t.fb → rows (pitch_pixels t.fb) memory a b =
        if (py ≤ a ∧ a < py + n * t.font_scale.toNat) ∧ px ≤ b ∧ b < px + char_width t then
          color ((a - py) / t.font_scale.toNat) ((b - px) / t.font_scale.toNat)
        else picture t.fb a b := by
  rw [char_width_eq h] at hx ⊢
  induction n with
  | zero => exact ⟨t.fb.backbuffer, rfl, fun a b hb => (if_neg (by omega)).symm⟩
  | succ n ih =>
    have hle : n * t.font_scale.toNat ≤ (n + 1) * t.font_scale.toNat := Nat.mul_le_mul_right _ (Nat.le_succ n)
    obtain ⟨memory, hmemory, hrows⟩ := ih (by omega)
    obtain ⟨memory', hsquares, hcell⟩ := draw_squares h (y := n) (color n) hx hy memory
    refine ⟨memory', by rw [each, hmemory, hsquares], fun a b hb => ?_⟩
    rw [hcell a b hb, hrows a b hb]
    generalize picture t.fb a b = old
    by_cases hcol : px ≤ b ∧ b < px + t.tty_font.width.toNat * t.font_scale.toNat
    · simp only [hcol, and_true, and_self]
      have hs := scale_cases h
      generalize t.font_scale.toNat = s at hs
      by_cases hlast : py + n * s ≤ a ∧ a < py + (n + 1) * s
      · have hrow : (a - py) / s = n := by rcases hs with rfl | rfl <;> omega
        rw [if_pos hlast, if_pos (by rcases hs with rfl | rfl <;> omega), hrow]
      · rw [if_neg hlast]
        refine if_congr ?_ rfl rfl
        rcases hs with rfl | rfl <;> omega
    · simp only [hcol, and_false, if_false]

theorem fb_draw_glyph_at (h : Fits t) {px py : Nat} (hx : px + char_width t ≤ t.fb.width.toNat)
    (hy : py + char_height t ≤ t.fb.height.toNat) (glyph : Nat → UInt8) (fg bg : UInt32) :
    ∃ memory, fb_draw_glyph t (int px) (int py) glyph fg bg = { t.fb with backbuffer := memory } ∧
      ∀ a b, b < pitch_pixels t.fb → rows (pitch_pixels t.fb) memory a b =
        if (py ≤ a ∧ a < py + char_height t) ∧ px ≤ b ∧ b < px + char_width t then
          glyph_color glyph fg bg ((a - py) / t.font_scale.toNat) ((b - px) / t.font_scale.toNat)
        else picture t.fb a b := by
  have hw := h.size
  rw [int_eq ⟨by omega, by omega⟩, int_eq ⟨by omega, by omega⟩, fb_draw_glyph_eq]
  rw [char_height_eq h] at hy ⊢
  exact draw_rows_of_squares h (fun y x => glyph_color glyph fg bg y x) hx hy

end draw

/-! ## The picture of the text -/

theorem cell_bound {k n size limit : Nat} (hk : k < n) (hfit : n * size ≤ limit) : k * size + size ≤ limit := by
  have hle := Nat.mul_le_mul_right size (Nat.succ_le_of_lt hk)
  rw [Nat.succ_mul] at hle
  omega

theorem cell_unique {k k' i size : Nat} (hi : i < size) : k * size ≤ k' * size + i ∧ k' * size + i < k * size + size ↔
    k' = k := by
  constructor
  · rintro ⟨hlow, hhigh⟩
    rcases lt_trichotomy k' k with hlt | heq | hgt
    · have hle := Nat.mul_le_mul_right size (Nat.succ_le_of_lt hlt)
      rw [Nat.succ_mul] at hle
      omega
    · exact heq
    · have hle := Nat.mul_le_mul_right size (Nat.succ_le_of_lt hgt)
      rw [Nat.succ_mul] at hle
      omega
  · rintro rfl
    omega

/-- The cell shows its character. -/
def ShowsCell (t : Tty) (y x : Nat) (reversed : Bool) : Prop :=
  ∀ j < char_height t, ∀ i < char_width t,
    picture t.fb (y * char_height t + j) (x * char_width t + i) = pixelOf t y x reversed i j

/-- `t'` has drawn a cell of the text that both have. -/
structure CellDrawn (t t' : Tty) (y x : Nat) (reversed : Bool) : Prop where
  memory : ∃ memory, t' = { t with fb := { t.fb with backbuffer := memory } }
  shows : ShowsCell t' y x reversed
  others : ∀ a b, b < pitch_pixels t.fb →
    ¬ ((y * char_height t ≤ a ∧ a < y * char_height t + char_height t) ∧
      x * char_width t ≤ b ∧ b < x * char_width t + char_width t) → picture t'.fb a b = picture t.fb a b

theorem width_le_pitch (h : Fits t) : t.fb.width.toNat ≤ pitch_pixels t.fb := by
  have hpitch := h.pitch
  unfold pitch_pixels
  omega

theorem cell_drawn (h : Fits t) {y x : Nat} (hx : x < t.fb_cols) (hy : y < t.fb_rows) (reversed : Bool) {fg bg : UInt32}
    (hfg : fg = tty_palette (if reversed then (t.fb_color_buf y x >>> 4) &&& 0x0F else t.fb_color_buf y x &&& 0x0F))
    (hbg : bg = tty_palette (if reversed then t.fb_color_buf y x &&& 0x0F else (t.fb_color_buf y x >>> 4) &&& 0x0F)) :
    CellDrawn t { t with
      fb := fb_draw_glyph t (int (x * char_width t : Nat)) (int (y * char_height t : Nat))
        (t.tty_font.glyph (t.fb_text y x)) fg bg } y x reversed := by
  have hright := cell_bound hx h.wide
  have hlow := cell_bound hy h.high
  have hpitch := width_le_pitch h
  obtain ⟨memory, hdraw, hrows⟩ := fb_draw_glyph_at h hright hlow (t.tty_font.glyph (t.fb_text y x)) fg bg
  rw [hdraw]
  refine ⟨⟨memory, rfl⟩, fun j hj i hi => ?_, fun a b hb hout => ?_⟩
  · change j < char_height t at hj
    change i < char_width t at hi
    refine (hrows (y * char_height t + j) (x * char_width t + i) (by omega)).trans ?_
    rw [if_pos ⟨(cell_unique hj).mpr rfl, (cell_unique hi).mpr rfl⟩, Nat.add_sub_cancel_left, Nat.add_sub_cancel_left,
      hfg, hbg]
    cases reversed <;> rfl
  · exact (hrows a b hb).trans (if_neg hout)

theorem render_cell (h : Fits t) {y x : Nat} (hx : x < t.fb_cols) (hy : y < t.fb_rows) :
    CellDrawn t (fb_render_cell t x y) y x false := by
  rw [fb_render_cell, if_neg]
  · exact cell_drawn h hx hy false rfl rfl
  · simp only [h.fb, Bool.not_true, Bool.false_eq_true, false_or]
    omega

theorem render_cursor_cell (h : Fits t) {y x : Nat} (hx : x < t.fb_cols) (hy : y < t.fb_rows) :
    CellDrawn t (fb_render_cursor_cell t x y) y x true := by
  rw [fb_render_cursor_cell, if_neg]
  · exact cell_drawn h hx hy true rfl rfl
  · simp only [h.fb, Bool.not_true, Bool.false_eq_true, false_or]
    omega

variable {t' : Tty} {x y : Nat} {reversed : Bool}

theorem CellDrawn.other (h : CellDrawn t t' y x reversed) (hfits : Fits t) {b a : Nat} {r : Bool} (hx : a < t.fb_cols)
    (hne : ¬ (b = y ∧ a = x)) (hcell : ShowsCell t b a r) : ShowsCell t' b a r := by
  obtain ⟨memory, rfl⟩ := h.memory
  intro j hj i hi
  have hright := cell_bound hx hfits.wide
  have hpitch := width_le_pitch hfits
  change j < char_height t at hj
  change i < char_width t at hi
  refine (h.others (b * char_height t + j) (a * char_width t + i) (by omega) ?_).trans (hcell j hj i hi)
  rw [cell_unique hj, cell_unique hi]
  exact hne

theorem Fits.same {t t' : Tty} (h : Fits t) (hfb : t'.use_fb = t.use_fb) (hscale : t'.font_scale = t.font_scale)
    (hfont : t'.tty_font = t.tty_font)
    (hsize : t'.fb.width = t.fb.width ∧ t'.fb.height = t.fb.height ∧ t'.fb.pitch = t.fb.pitch)
    (hrows : t'.fb_rows = t.fb_rows) (hcols : t'.fb_cols = t.fb_cols) : Fits t' := by
  obtain ⟨hwidth, hheight, hpitch⟩ := hsize
  have hwide : char_width t' = char_width t := by rw [char_width, char_width, hfont, hscale]
  have hhigh : char_height t' = char_height t := by rw [char_height, char_height, hfont, hscale]
  constructor
  all_goals simp only [hfb, hscale, hfont, hwidth, hheight, hpitch, hrows, hcols, hwide, hhigh]
  exacts [h.fb, h.scale, h.font, h.pitch, h.size, h.words, h.rows, h.wide, h.high, h.space]

theorem CellDrawn.fits (h : CellDrawn t t' y x reversed) (hfits : Fits t) : Fits t' := by
  obtain ⟨memory, rfl⟩ := h.memory
  exact hfits.same rfl rfl rfl ⟨rfl, rfl, rfl⟩ rfl rfl

/-- The pixels below the last row of cells have the background of the terminal. -/
def Margin (t : Tty) : Prop :=
  ∀ a, t.fb_rows * char_height t ≤ a → a < t.fb.height.toNat → ∀ b < t.fb_cols * char_width t,
    picture t.fb a b = background t.cur_color

theorem CellDrawn.margin (h : CellDrawn t t' y x reversed) (hfits : Fits t) (hy : y < t.fb_rows) (hmargin : Margin t) :
    Margin t' := by
  obtain ⟨memory, rfl⟩ := h.memory
  intro a hlow hhigh b hb
  have hwide := hfits.wide
  have hpitch := width_le_pitch hfits
  have hbottom := cell_bound hy (le_refl (t.fb_rows * char_height t))
  change t.fb_rows * char_height t ≤ a at hlow
  change b < t.fb_cols * char_width t at hb
  refine (h.others a b (by omega) ?_).trans (hmargin a hlow hhigh b hb)
  omega

/-- No cursor is drawn, and every cell shows its character. -/
structure Plain (t : Tty) : Prop where
  fits : Fits t
  margin : Margin t
  drawn : t.fb_cursor_drawn = false
  cell : ∀ y < t.fb_rows, ∀ x < t.fb_cols, ShowsCell t y x false

/-- Every cell shows its character, the one with the cursor perhaps with its colours exchanged. -/
structure Rendered (t : Tty) : Prop where
  fits : Fits t
  margin : Margin t
  cell : ∀ y < t.fb_rows, ∀ x < t.fb_cols, ∃ reversed, ShowsCell t y x reversed ∧
    (reversed = true → t.fb_cursor_drawn = true ∧ t.fb_cursor_drawn_x = x ∧ t.fb_cursor_drawn_y = y)

theorem Plain.rendered (h : Plain t) : Rendered t :=
  ⟨h.fits, h.margin, fun y hy x hx => ⟨false, h.cell y hy x hx, fun hr => by cases hr⟩⟩

theorem Plain.move (h : Plain t) (x y : Nat) (blink visible : Bool) :
    Plain { t with cursor_x := x, cursor_y := y, cursor_blink_on := blink, cursor_visible := visible } :=
  ⟨h.fits.same rfl rfl rfl ⟨rfl, rfl, rfl⟩ rfl rfl, h.margin, h.drawn, h.cell⟩

theorem Rendered.move (h : Rendered t) (x y : Nat) (blink visible : Bool) :
    Rendered { t with cursor_x := x, cursor_y := y, cursor_blink_on := blink, cursor_visible := visible } :=
  ⟨h.fits.same rfl rfl rfl ⟨rfl, rfl, rfl⟩ rfl rfl, h.margin, h.cell⟩

theorem plain_render (hfits : Fits t) (hmargin : Margin t) (hdrawn : t.fb_cursor_drawn = false) (x y : Nat)
    (hcells : ∀ y' < t.fb_rows, ∀ x' < t.fb_cols, ¬ (y' = y ∧ x' = x) → ShowsCell t y' x' false) :
    Plain (fb_render_cell t x y) := by
  by_cases hin : x < t.fb_cols ∧ y < t.fb_rows
  · have hdone := render_cell hfits hin.1 hin.2
    have hmargin' := hdone.margin hfits hin.2 hmargin
    have hfits' := hdone.fits hfits
    have hshows := hdone.shows
    have hother := fun y' x' hx' hne hcell => hdone.other hfits (b := y') (a := x') (r := false) hx' hne hcell
    obtain ⟨memory, hmemory⟩ := hdone.memory
    rw [hmemory] at hmargin' hfits' hshows hother ⊢
    refine ⟨hfits', hmargin', hdrawn, fun y' hy' x' hx' => ?_⟩
    by_cases hsame : y' = y ∧ x' = x
    · rw [hsame.1, hsame.2]
      exact hshows
    · exact hother y' x' hx' hsame (hcells y' hy' x' hx' hsame)
  · rw [fb_render_cell, if_pos]
    · exact ⟨hfits, hmargin, hdrawn, fun y' hy' x' hx' => hcells y' hy' x' hx' (by omega)⟩
    · simp only [hfits.fb, Bool.not_true, Bool.false_eq_true, false_or]
      omega

theorem Rendered.erase (h : Rendered t) : Plain (tty_cursor_erase_fb t) := by
  unfold tty_cursor_erase_fb
  split
  case isTrue hnot =>
    have hdrawn : t.fb_cursor_drawn = false := by simpa [h.fits.fb] using hnot
    refine ⟨h.fits, h.margin, hdrawn, fun y hy x hx => ?_⟩
    obtain ⟨reversed, hcell, hcursor⟩ := h.cell y hy x hx
    cases reversed with
    | false => exact hcell
    | true =>
      rw [hdrawn] at hcursor
      cases (hcursor rfl).1
  case isFalse =>
    have hsame : { fb_render_cell t t.fb_cursor_drawn_x t.fb_cursor_drawn_y with fb_cursor_drawn := false } =
        fb_render_cell { t with fb_cursor_drawn := false } t.fb_cursor_drawn_x t.fb_cursor_drawn_y := by
      unfold fb_render_cell
      dsimp only
      split <;> rfl
    rw [hsame]
    refine plain_render (t := { t with fb_cursor_drawn := false }) ?_ h.margin rfl _ _ fun y hy x hx hne => ?_
    · exact h.fits.same rfl rfl rfl ⟨rfl, rfl, rfl⟩ rfl rfl
    · obtain ⟨reversed, hcell, hcursor⟩ := h.cell y hy x hx
      cases reversed with
      | false => exact hcell
      | true => exact absurd ⟨(hcursor rfl).2.2.symm, (hcursor rfl).2.1.symm⟩ hne

theorem Rendered.refresh (h : Rendered t) : Rendered (tty_cursor_refresh t) := by
  have hplain := h.erase
  rw [tty_cursor_refresh, if_pos h.fits.fb]
  generalize tty_cursor_erase_fb t = t1 at hplain
  dsimp only
  split
  case isTrue hcursor =>
    have hdone := render_cursor_cell hplain.fits hcursor.2.2.1 hcursor.2.2.2
    have hmargin := hdone.margin hplain.fits hcursor.2.2.2 hplain.margin
    have hfits := hdone.fits hplain.fits
    have hshows := hdone.shows
    have hother := fun y x hx hne hcell => hdone.other hplain.fits (b := y) (a := x) (r := false) hx hne hcell
    obtain ⟨memory, hmemory⟩ := hdone.memory
    rw [hmemory] at hmargin hfits hshows hother ⊢
    refine ⟨?_, hmargin, fun y hy x hx => ?_⟩
    · exact hfits.same rfl rfl rfl ⟨rfl, rfl, rfl⟩ rfl rfl
    · by_cases hsame : y = t1.cursor_y ∧ x = t1.cursor_x
      · rw [hsame.1, hsame.2]
        exact ⟨true, hshows, fun _ => ⟨rfl, rfl, rfl⟩⟩
      · exact ⟨false, hother y x hx hsame (hplain.cell y hy x hx), fun hr => by cases hr⟩
  case isFalse => exact hplain.rendered

theorem Rendered.activity (h : Rendered t) : Rendered (tty_cursor_activity t) :=
  (h.move t.cursor_x t.cursor_y true t.cursor_visible).refresh

/-! ## Output -/

theorem Plain.put_cell (h : Plain t) (c : UInt8) : Plain (put_cell t c) := by
  rw [tty.put_cell, if_pos h.fits.fb]
  refine plain_render (t := { t with
    fb_text := set t.fb_text t.cursor_y t.cursor_x c
    fb_color_buf := set t.fb_color_buf t.cursor_y t.cursor_x t.cur_color }) ?_ h.margin h.drawn _ _
    fun y hy x hx hne j hj i hi => ?_
  · exact h.fits.same rfl rfl rfl ⟨rfl, rfl, rfl⟩ rfl rfl
  · refine (h.cell y hy x hx j hj i hi).trans ?_
    simp only [pixelOf, set_apply, if_neg hne]

theorem pixelOf_space (h : Fits t) (htext : t.fb_text y x = 0x20) (i j : Nat) :
    pixelOf t y x false i j = background (t.fb_color_buf y x) := by
  simp only [pixelOf, htext, h.space, UInt8.zero_and, ne_eq, not_true, if_false, Bool.false_eq_true]
  rfl

/-- The rows of the picture that a scroll leaves. -/
theorem picture_scroll (h : Fits t) {a b : Nat} (hb : b < pitch_pixels t.fb) :
    picture (scroll_pixels t) a b = if a < t.fb.height.toNat - char_height t then picture t.fb (a + char_height t) b
      else if a < t.fb.height.toNat then background t.cur_color else picture t.fb a b := by
  have hhigh := cell_bound (k := 0) h.rows h.high
  have hline : (t.tty_font.height * t.font_scale).toNat = char_height t := rfl
  have hpitch : (t.fb.pitch / 4).toNat = pitch_pixels t.fb := rfl
  have hwords : pitch_pixels t.fb * t.fb.height.toNat < 2 ^ 32 := h.words
  have hmul : ∀ n ≤ t.fb.height.toNat, n * pitch_pixels t.fb < 2 ^ 32 := by
    intro n hn
    rw [Nat.mul_comm]
    exact (Nat.mul_le_mul_left _ hn).trans_lt hwords
  have hscroll : (t.tty_font.height * t.font_scale * (t.fb.pitch / 4)).toNat = char_height t * pitch_pixels t.fb := by
    rw [UInt32.toNat_mul, hline, hpitch, Nat.mod_eq_of_lt (hmul _ (by omega))]
  have hrest : (t.fb.height - t.tty_font.height * t.font_scale).toNat = t.fb.height.toNat - char_height t := by
    rw [UInt32.toNat_sub_of_le _ _ (by rw [UInt32.le_iff_toNat_le, hline]; omega), hline]
  have htotal : ((t.fb.height - t.tty_font.height * t.font_scale) * (t.fb.pitch / 4)).toNat =
      (t.fb.height.toNat - char_height t) * pitch_pixels t.fb := by
    rw [UInt32.toNat_mul, hrest, hpitch, Nat.mod_eq_of_lt (hmul _ (by omega))]
  -- a word lies before a row exactly when its own row does
  have hbefore : ∀ n, a * pitch_pixels t.fb + b < n * pitch_pixels t.fb ↔ a < n := by
    intro n
    constructor
    · intro hlt
      by_contra hge
      have hle := Nat.mul_le_mul_right (pitch_pixels t.fb) (not_lt.mp hge)
      omega
    · intro hlt
      have hle := Nat.mul_le_mul_right (pitch_pixels t.fb) (Nat.succ_le_of_lt hlt)
      rw [Nat.succ_mul] at hle
      omega
  have hend : (t.fb.height.toNat - char_height t) * pitch_pixels t.fb + char_height t * pitch_pixels t.fb =
      t.fb.height.toNat * pitch_pixels t.fb := by
    rw [← Nat.add_mul, Nat.sub_add_cancel (by omega)]
  have hfill := draw_row_at (fun _ _ => background t.cur_color)
      ((t.fb.height.toNat - char_height t) * pitch_pixels t.fb)
    (char_height t * pitch_pixels t.fb)
    (fun i => if i < (t.fb.height.toNat - char_height t) * pitch_pixels t.fb then
      t.fb.backbuffer (i + char_height t * pitch_pixels t.fb) else t.fb.backbuffer i) (a * pitch_pixels t.fb + b)
  have hfrom : ∀ n, n * pitch_pixels t.fb ≤ a * pitch_pixels t.fb + b ↔ ¬ a < n := fun n => by rw [← hbefore, not_lt]
  rw [hend] at hfill
  simp only [hbefore, hfrom] at hfill
  simp only [picture, rows, scroll_pixels, hscroll, htotal]
  refine hfill.trans ?_
  by_cases hup : a < t.fb.height.toNat - char_height t
  · rw [if_neg (fun hin => hin.1 hup), if_pos hup, if_pos hup, Nat.add_mul, Nat.add_right_comm]
  · rw [if_neg hup, if_neg hup]
    refine if_congr ?_ rfl rfl
    simp only [hup, not_false_eq_true, true_and]

theorem Plain.scroll (h : Plain t) : Plain (tty_scroll t) := by
  rw [tty_scroll, if_pos h.fits.fb]
  have hpitch := width_le_pitch h.fits
  have hwide := h.fits.wide
  have hhigh := h.fits.high
  have hpicture := fun {a b : Nat} (hb : b < pitch_pixels t.fb) => picture_scroll h.fits (a := a) hb
  have hmargin : ∀ a, t.fb_rows * char_height t ≤ a + char_height t → a < t.fb.height.toNat →
      ∀ b < t.fb_cols * char_width t, picture (scroll_pixels t) a b = background t.cur_color := by
    intro a hlow ha b hb
    rw [hpicture (by omega)]
    by_cases hup : a < t.fb.height.toNat - char_height t
    · rw [if_pos hup]
      exact h.margin _ hlow (by omega) b hb
    · rw [if_neg hup, if_pos ha]
  refine ⟨?_, fun a hlow ha b hb => ?_, h.drawn, fun y hy x hx j hj i hi => ?_⟩
  · exact h.fits.same rfl rfl rfl ⟨rfl, rfl, rfl⟩ rfl rfl
  · change t.fb_rows * char_height t ≤ a at hlow
    exact hmargin a (by omega) ha b hb
  · change y < t.fb_rows at hy
    change x < t.fb_cols at hx
    change j < char_height t at hj
    change i < char_width t at hi
    have hright := cell_bound hx h.fits.wide
    have hlow := cell_bound hy h.fits.high
    change picture (scroll_pixels t) (y * char_height t + j) (x * char_width t + i) = _
    by_cases hlast : y + 1 < t.fb_rows
    · have hnext := cell_bound hlast h.fits.high
      rw [hpicture (by omega), if_pos (by rw [Nat.succ_mul] at hnext; omega)]
      have hold := h.cell (y + 1) hlast x hx j hj i hi
      rw [Nat.succ_mul, Nat.add_right_comm] at hold
      rw [hold]
      simp only [pixelOf, each_row, each_up, hx, and_true]
      rw [if_neg (by omega : ¬ y = t.fb_rows - 1), if_pos (by omega : y < t.fb_rows - 1),
        if_neg (by omega : ¬ y = t.fb_rows - 1), if_pos (by omega : y < t.fb_rows - 1)]
    · have hbottom : y + 1 = t.fb_rows := by omega
      rw [hmargin _ ?_ (by omega) _ ?_]
      · refine Eq.trans ?_ (pixelOf_space ?_ ?_ i j).symm
        · simp only [each_row, hx, and_true]
          rw [if_pos (by omega : y = t.fb_rows - 1)]
        · exact h.fits.same rfl rfl rfl ⟨rfl, rfl, rfl⟩ rfl rfl
        · simp only [each_row, hx, and_true]
          rw [if_pos (by omega : y = t.fb_rows - 1)]
      · rw [← hbottom, Nat.succ_mul]
        omega
      · have hcol := cell_bound hx (le_refl (t.fb_cols * char_width t))
        omega

theorem Rendered.newline (h : Rendered t) : Rendered (tty_newline t) := by
  have hplain := h.erase
  unfold tty_newline
  generalize tty_cursor_erase_fb t = t1 at hplain
  refine Rendered.activity ?_
  have hmoved := hplain.move 0 (t1.cursor_y + 1) t1.cursor_blink_on t1.cursor_visible
  split
  · exact hmoved.scroll.rendered
  · exact hmoved.rendered

theorem Rendered.put_regular (h : Rendered t) (c : UInt8) : Rendered (put_regular t c) := by
  have hput := h.erase.put_cell c
  unfold tty.put_regular
  generalize tty.put_cell (tty_cursor_erase_fb t) c = t1 at hput
  have hmoved := (hput.move (t1.cursor_x + 1) t1.cursor_y t1.cursor_blink_on t1.cursor_visible).rendered
  dsimp only
  split
  · exact hmoved.newline
  · exact hmoved.activity

theorem Rendered.putchar (h : Rendered t) (c : UInt8) : Rendered (tty_putchar t c) := by
  have hplain := h.erase
  unfold tty_putchar
  split
  · exact hplain.rendered.newline
  split
  · exact (hplain.rendered.move 0 _ _ _).activity
  split
  · exact each_induction (P := fun _ s => Rendered s) hplain.rendered fun _ _ s hs => hs.put_regular 0x20
  split
  · dsimp only
    split
    · exact ((hplain.move _ _ _ _).put_cell 0x20).rendered.activity
    · exact hplain.rendered
  · exact h.put_regular c

/-- A clear picture shows the blanks of the text, also where the cursor was drawn before. -/
theorem rendered_clear (hfits : Fits t) : Rendered (tty_clear t) := by
  rw [tty_clear, if_pos (by exact hfits.fb)]
  have hpitch := width_le_pitch hfits
  have hpicture : ∀ a b, a < t.fb.height.toNat → b < pitch_pixels t.fb →
      picture (fb_clear t.fb (background t.cur_color)) a b = background t.cur_color := by
    intro a b ha hb
    have hle := Nat.mul_le_mul_right (pitch_pixels t.fb) (Nat.succ_le_of_lt ha)
    rw [Nat.succ_mul] at hle
    refine (draw_row_at (fun _ _ => background t.cur_color) 0 (pitch_pixels t.fb * t.fb.height.toNat) t.fb.backbuffer
      (a * pitch_pixels t.fb + b)).trans (if_pos ⟨Nat.zero_le _, ?_⟩)
    rw [Nat.mul_comm (pitch_pixels t.fb)]
    omega
  refine ⟨?_, fun a hlow ha b hb => ?_, fun y hy x hx => ⟨false, fun j hj i hi => ?_, fun hr => by cases hr⟩⟩
  · exact hfits.same rfl rfl rfl ⟨rfl, rfl, rfl⟩ rfl rfl
  · have hwide := hfits.wide
    change b < t.fb_cols * char_width t at hb
    exact hpicture a b ha (by omega)
  · change y < t.fb_rows at hy
    change x < t.fb_cols at hx
    change j < char_height t at hj
    change i < char_width t at hi
    have hright := cell_bound hx hfits.wide
    have hlow := cell_bound hy hfits.high
    refine (hpicture (y * char_height t + j) (x * char_width t + i) (by omega) (by omega)).trans ?_
    refine Eq.trans ?_ (pixelOf_space ?_ ?_ i j).symm
    · simp only [each_rows, hx, hy, and_self, if_true]
    · exact hfits.same rfl rfl rfl ⟨rfl, rfl, rfl⟩ rfl rfl
    · simp only [each_rows, hx, hy, and_self, if_true]

/-- The pixels below the cells are none, or the call keeps their colour the background. -/
def KeepsBackground (t : Tty) : Op → Prop
  | .set_color fg bg => t.fb_rows * char_height t = t.fb.height.toNat ∨
      background (make_color (fg &&& 0x0F) (bg &&& 0x0F)) = background t.cur_color
  | _ => True

theorem Rendered.set_color (h : Rendered t) {fg bg : UInt8} (hkeeps : KeepsBackground t (.set_color fg bg)) :
    Rendered (tty_set_color t fg bg) := by
  refine ⟨h.fits.same rfl rfl rfl ⟨rfl, rfl, rfl⟩ rfl rfl, fun a hlow ha b hb => ?_, h.cell⟩
  rcases hkeeps with hnone | hsame
  · change t.fb_rows * char_height t ≤ a at hlow
    change a < t.fb.height.toNat at ha
    omega
  · exact (h.margin a hlow ha b hb).trans hsame.symm

theorem Rendered.step (h : Rendered t) (op : Op) (hkeeps : KeepsBackground t op) : Rendered (step t op) := by
  cases op with
  | putchar c => exact h.putchar c
  | set_color fg bg => exact h.set_color hkeeps
  | set_cursor x y =>
    refine Rendered.activity ?_
    split <;> split <;> first | exact h | exact h.move _ _ _ _
  | clear => exact rendered_clear h.fits
  | show_cursor => exact (h.move t.cursor_x t.cursor_y true true).refresh
  | hide_cursor =>
    have hplain := h.erase
    exact (hplain.move _ _ (tty_cursor_erase_fb t).cursor_blink_on false).rendered
  | blink elapsed =>
    change Rendered (tty_cursor_blink_tick t elapsed)
    unfold tty_cursor_blink_tick
    split
    · exact h
    split
    · exact (h.move t.cursor_x t.cursor_y _ t.cursor_visible).refresh
    · exact h

/-- In every run of calls behind a `tty_clear` that keeps the background of the margin, each cell shows the glyph of its
character in its colours, and the cell of the drawn cursor perhaps in the exchanged ones. -/
theorem terminal_shows_glyphs (hfits : Fits t) (ops : List Op)
    (hkeeps : machine.Along step KeepsBackground (tty_clear t) ops) :
    let screen := machine.run step (tty_clear t) ops
    ∀ y < screen.fb_rows, ∀ x < screen.fb_cols, ∃ reversed, ShowsCell screen y x reversed ∧
      (reversed = true → screen.fb_cursor_drawn = true ∧ screen.fb_cursor_drawn_x = x ∧ screen.fb_cursor_drawn_y = y) :=
  (hkeeps.invariant (fun _ op h hop => h.step op hop) (rendered_clear hfits)).cell

/-- `tty_init` takes the cells from the sizes of the screen and of the font. -/
theorem tty_init_fits {font : Font} {fb : Fb} (hfont : 0 < font.width.toNat ∧ font.width.toNat ≤ 32)
    (hline : 0 < font.height.toNat ∧ font.height.toNat ≤ 32) (hspace : ∀ row, font.glyph 0x20 row = 0)
    (hpitch : 4 * fb.width.toNat ≤ fb.pitch.toNat) (hsize : fb.width.toNat < 2 ^ 31 ∧ fb.height.toNat < 2 ^ 31)
    (hwords : fb.pitch.toNat / 4 * fb.height.toNat < 2 ^ 32) (hrow : 64 ≤ fb.height.toNat) (t : Tty) :
    Fits (tty_init t font (some fb)) := by
  have hscale : ∃ scale : UInt32, (if fb.width ≥ 1280 ∧ fb.height ≥ 720 then (2 : UInt32) else 1) = scale ∧
      (scale = 1 ∨ scale = 2) := by
    refine ⟨_, rfl, ?_⟩
    split
    · exact Or.inr rfl
    · exact Or.inl rfl
  obtain ⟨scale, hs, hcases⟩ := hscale
  have hheight : 0 < (font.height * scale).toNat ∧ (font.height * scale).toNat ≤ 64 := by
    rw [UInt32.toNat_mul]
    rcases hcases with rfl | rfl
    · change 0 < font.height.toNat * 1 % _ ∧ font.height.toNat * 1 % _ ≤ 64
      omega
    · change 0 < font.height.toNat * 2 % _ ∧ font.height.toNat * 2 % _ ≤ 64
      omega
  have hcells : ∀ size char_size limit, tty_init_cells size char_size limit * char_size ≤ size := by
    intro size char_size limit
    exact (Nat.mul_le_mul_right _ (Nat.min_le_left _ _)).trans (Nat.div_mul_le_self _ _)
  unfold tty_init
  simp only [hs, tty_clear, if_true]
  refine ⟨rfl, hcases, ⟨hfont.2, hline.2⟩, hpitch, hsize, hwords, ?_, hcells _ _ _, hcells _ _ _, hspace⟩
  exact lt_min (Nat.div_pos (hheight.2.trans hrow) hheight.1) (by decide)

/-- A font of full blocks. -/
def block_font : Font := ⟨8, 16, fun c _ => if c = 0x20 then 0 else 0xFF⟩

/-- A screen with a margin of eight rows of pixels. -/
def screen_800x600 : Fb := ⟨800, 600, 3200, fun _ => 0⟩

theorem terminal_shows_glyphs_800x600 :
    let screen := machine.run step (tty_clear (tty_init tty_static block_font (some screen_800x600)))
      [.putchar 0x41, .putchar 0x0A, .hide_cursor]
    ∀ y < screen.fb_rows, ∀ x < screen.fb_cols, ∃ reversed, ShowsCell screen y x reversed ∧
      (reversed = true → screen.fb_cursor_drawn = true ∧ screen.fb_cursor_drawn_x = x ∧ screen.fb_cursor_drawn_y = y) :=
  terminal_shows_glyphs
    (tty_init_fits (by decide) (by decide) (fun _ => rfl) (by decide) (by decide) (by decide) (by decide) tty_static)
    [.putchar 0x41, .putchar 0x0A, .hide_cursor] ⟨trivial, trivial, trivial, trivial⟩

end graceos.video.tty
