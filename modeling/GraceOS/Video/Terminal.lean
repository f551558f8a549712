import GraceOS.Video.Framebuffer

/-!
# The terminal

The output half of `tty.c`. A terminal writes to the text memory of the VGA card, or it keeps its text in arrays of its
own and draws every cell into the back buffer. The clock of the blinking cursor is left to the callers, as is the copy
of the back buffer to the screen.
-/

namespace graceos.video.tty

def VGA_WIDTH : Nat := 80

def VGA_HEIGHT : Nat := 25

def FB_TEXT_MAX_COLS : Nat := 128

def FB_TEXT_MAX_ROWS : Nat := 64

/-- `struct font`, with the rows of `font_get_glyph` for a `char`. -/
structure Font where
  width : UInt32
  height : UInt32
  glyph : UInt8 → Nat → UInt8

def tty_palette (color : UInt8) : UInt32 :=
  match color.toNat with
  | 0 => 0xFF000000
  | 1 => 0xFF0000AA
  | 2 => 0xFF00AA00
  | 3 => 0xFF00AAAA
  | 4 => 0xFFAA0000
  | 5 => 0xFFAA00AA
  | 6 => 0xFFAA5500
  | 7 => 0xFFAAAAAA
  | 8 => 0xFF555555
  | 9 => 0xFF5555FF
  | 10 => 0xFF55FF55
  | 11 => 0xFF55FFFF
  | 12 => 0xFFFF5555
  | 13 => 0xFFFF55FF
  | 14 => 0xFFFFFF55
  | _ => 0xFFFFFFFF

/-- The state of `tty.c`. -/
structure Tty where
  use_fb : Bool
  fb_cols : Nat
  fb_rows : Nat
  tty_font : Font
  font_scale : UInt32
  fb : Fb
  fb_text : Nat → Nat → UInt8
  fb_color_buf : Nat → Nat → UInt8
  vga_buffer : Nat → UInt16
  cursor_x : Nat
  cursor_y : Nat
  cur_fg : UInt8
  cur_bg : UInt8
  cur_color : UInt8
  cursor_visible : Bool
  cursor_blink_on : Bool
  fb_cursor_drawn : Bool
  fb_cursor_drawn_x : Nat
  fb_cursor_drawn_y : Nat

/-- The state before `tty_init`. -/
def tty_static : Tty where
  use_fb := false
  fb_cols := 80
  fb_rows := 25
  tty_font := ⟨0, 0, fun _ _ => 0⟩
  font_scale := 1
  fb := ⟨0, 0, 0, fun _ => 0⟩
  fb_text _ _ := 0
  fb_color_buf _ _ := 0
  vga_buffer _ := 0
  cursor_x := 0
  cursor_y := 0
  cur_fg := 7
  cur_bg := 0
  cur_color := 0x07
  cursor_visible := true
  cursor_blink_on := true
  fb_cursor_drawn := false
  fb_cursor_drawn_x := 0
  fb_cursor_drawn_y := 0

/-- `for (i = 0; i < n; i++)`. -/
def each {σ : Type*} (n : Nat) (body : Nat → σ → σ) (s : σ) : σ :=
  match n with
  | 0 => s
  | n + 1 => body n (each n body s)

/-- `cells[y][x] = v`. -/
def set {α : Type*} (cells : Nat → Nat → α) (y x : Nat) (v : α) : Nat → Nat → α :=
  Function.update cells y (Function.update (cells y) x v)

def make_color (fg bg : UInt8) : UInt8 := fg ||| (bg <<< 4)

/-- The character is a `char`, which is extended with its sign. -/
def make_entry (c color : UInt8) : UInt16 := c.toInt8.toInt16.toUInt16 ||| (color.toUInt16 <<< 8)

def max_x (t : Tty) : Nat := if t.use_fb then t.fb_cols else VGA_WIDTH

def max_y (t : Tty) : Nat := if t.use_fb then t.fb_rows else VGA_HEIGHT

/-! ## Drawing -/

def fb_draw_glyph (t : Tty) (px py : Int) (glyph : Nat → UInt8) (fg bg : UInt32) : Fb :=
  let base_w := t.tty_font.width.toNat
  let base_h := t.tty_font.height.toNat
  let col (y x : Nat) := if glyph y &&& UInt8.ofNat (0x80 >>> x) ≠ 0 then fg else bg
  if t.font_scale = 1 then
    each base_h (fun y => each base_w fun x fb => fb_put_pixel fb (int (px + x)) (int (py + y)) (col y x)) t.fb
  else
    each base_h (fun y => each base_w fun x fb =>
      let fb := fb_put_pixel fb (int (px + (x * 2 : Nat))) (int (py + (y * 2 : Nat))) (col y x)
      let fb := fb_put_pixel fb (int (px + (x * 2 : Nat) + 1)) (int (py + (y * 2 : Nat))) (col y x)
      let fb := fb_put_pixel fb (int (px + (x * 2 : Nat))) (int (py + (y * 2 : Nat) + 1)) (col y x)
      fb_put_pixel fb (int (px + (x * 2 : Nat) + 1)) (int (py + (y * 2 : Nat) + 1)) (col y x)) t.fb

def char_width (t : Tty) : Nat := (t.tty_font.width * t.font_scale).toNat

def char_height (t : Tty) : Nat := (t.tty_font.height * t.font_scale).toNat

def fb_render_cell (t : Tty) (x y : Nat) : Tty :=
  if !t.use_fb ∨ x ≥ t.fb_cols ∨ y ≥ t.fb_rows then t
  else
    let color := t.fb_color_buf y x
    let fg := tty_palette (color &&& 0x0F)
    let bg := tty_palette ((color >>> 4) &&& 0x0F)
    let px := int (x * char_width t : Nat)
    let py := int (y * char_height t : Nat)
    { t with fb := fb_draw_glyph t px py (t.tty_font.glyph (t.fb_text y x)) fg bg }

def fb_render_cursor_cell (t : Tty) (x y : Nat) : Tty :=
  if !t.use_fb ∨ x ≥ t.fb_cols ∨ y ≥ t.fb_rows then t
  else
    let color := t.fb_color_buf y x
    let fg := tty_palette ((color >>> 4) &&& 0x0F)
    let bg := tty_palette (color &&& 0x0F)
    let px := int (x * char_width t : Nat)
    let py := int (y * char_height t : Nat)
    { t with fb := fb_draw_glyph t px py (t.tty_font.glyph (t.fb_text y x)) fg bg }

def fb_clear (fb : Fb) (color : UInt32) : Fb :=
  { fb with backbuffer := fb_fill32 0 color (pitch_pixels fb * fb.height.toNat) fb.backbuffer }

/-! ## The cursor -/

def tty_cursor_erase_fb (t : Tty) : Tty :=
  if !t.use_fb ∨ !t.fb_cursor_drawn then t
  else { fb_render_cell t t.fb_cursor_drawn_x t.fb_cursor_drawn_y with fb_cursor_drawn := false }

def tty_cursor_refresh (t : Tty) : Tty :=
  if t.use_fb then
    let t := tty_cursor_erase_fb t
    if t.cursor_visible ∧ t.cursor_blink_on ∧ t.cursor_x < t.fb_cols ∧ t.cursor_y < t.fb_rows then
      { fb_render_cursor_cell t t.cursor_x t.cursor_y with
        fb_cursor_drawn := true, fb_cursor_drawn_x := t.cursor_x, fb_cursor_drawn_y := t.cursor_y }
    else t
  else t

def tty_cursor_activity (t : Tty) : Tty := tty_cursor_refresh { t with cursor_blink_on := true }

/-- `elapsed` says that `CURSOR_BLINK_MS` have gone by. -/
def tty_cursor_blink_tick (t : Tty) (elapsed : Bool) : Tty :=
  if !t.cursor_visible then t
  else if elapsed then tty_cursor_refresh { t with cursor_blink_on := !t.cursor_blink_on }
  else t

def tty_show_cursor (t : Tty) : Tty := tty_cursor_refresh { t with cursor_visible := true, cursor_blink_on := true }

def tty_hide_cursor (t : Tty) : Tty := { tty_cursor_erase_fb t with cursor_visible := false }

def tty_set_cursor (t : Tty) (x y : Nat) : Tty :=
  let t := if x < max_x t then { t with cursor_x := x } else t
  let t := if y < max_y t then { t with cursor_y := y } else t
  tty_cursor_activity t

/-! ## Output -/

def tty_set_color (t : Tty) (fg bg : UInt8) : Tty :=
  { t with cur_fg := fg &&& 0x0F, cur_bg := bg &&& 0x0F, cur_color := make_color (fg &&& 0x0F) (bg &&& 0x0F) }

def tty_clear (t : Tty) : Tty :=
  let t := { t with cursor_x := 0, cursor_y := 0, cursor_blink_on := true }
  if t.use_fb then
    { t with
      fb_text := each t.fb_rows (fun y => each t.fb_cols fun x text => set text y x 0x20) t.fb_text
      fb_color_buf := each t.fb_rows (fun y => each t.fb_cols fun x colors => set colors y x t.cur_color) t.fb_color_buf
      fb := fb_clear t.fb (tty_palette ((t.cur_color >>> 4) &&& 0x0F)) }
  else
    tty_cursor_refresh { t with
      vga_buffer := each VGA_HEIGHT (fun y => each VGA_WIDTH fun x buffer =>
        Function.update buffer (y * VGA_WIDTH + x) (make_entry 0x20 t.cur_color)) t.vga_buffer }

/-- The back buffer after the `memmove` and the loop over the bottom line. -/
def scroll_pixels (t : Tty) : Fb :=
  let pitch_pixels := t.fb.pitch / 4
  let line_height := t.tty_font.height * t.font_scale
  let scroll := line_height * pitch_pixels
  let total := (t.fb.height - line_height) * pitch_pixels
  let moved : Pixels := fun i => if i < total.toNat then t.fb.backbuffer (i + scroll.toNat) else t.fb.backbuffer i
  let bg_color := tty_palette ((t.cur_color >>> 4) &&& 0x0F)
  { t.fb with backbuffer := fb_fill32 total.toNat bg_color scroll.toNat moved }

def tty_scroll (t : Tty) : Tty :=
  if t.use_fb then
    let max_y := t.fb_rows - 1
    let text := each (t.fb_rows - 1) (fun y => each t.fb_cols fun x text => set text y x (text (y + 1) x)) t.fb_text
    let colors := each (t.fb_rows - 1) (fun y => each t.fb_cols fun x colors => set colors y x (colors (y + 1) x))
      t.fb_color_buf
    { t with
      fb_text := each t.fb_cols (fun x text => set text max_y x 0x20) text
      fb_color_buf := each t.fb_cols (fun x colors => set colors max_y x t.cur_color) colors
      cursor_y := max_y
      fb := scroll_pixels t }
  else
    let buffer := each (VGA_HEIGHT - 1) (fun y => each VGA_WIDTH fun x buffer =>
      Function.update buffer (y * VGA_WIDTH + x) (buffer ((y + 1) * VGA_WIDTH + x))) t.vga_buffer
    { t with
      vga_buffer := each VGA_WIDTH (fun x buffer =>
        Function.update buffer ((VGA_HEIGHT - 1) * VGA_WIDTH + x) (make_entry 0x20 t.cur_color)) buffer
      cursor_y := VGA_HEIGHT - 1 }

def tty_newline (t : Tty) : Tty :=
  let t := tty_cursor_erase_fb t
  let t := { t with cursor_x := 0, cursor_y := t.cursor_y + 1 }
  tty_cursor_activity (if t.cursor_y ≥ max_y t then tty_scroll t else t)

/-- The character in the cell of the cursor. -/
def put_cell (t : Tty) (c : UInt8) : Tty :=
  if t.use_fb then
    fb_render_cell { t with
      fb_text := set t.fb_text t.cursor_y t.cursor_x c
      fb_color_buf := set t.fb_color_buf t.cursor_y t.cursor_x t.cur_color } t.cursor_x t.cursor_y
  else
    { t with
      vga_buffer := Function.update t.vga_buffer (t.cursor_y * VGA_WIDTH + t.cursor_x) (make_entry c t.cur_color) }

/-- The code of `tty_putchar` behind its `switch`. -/
def put_regular (t : Tty) (c : UInt8) : Tty :=
  let t := put_cell (tty_cursor_erase_fb t) c
  let t := { t with cursor_x := t.cursor_x + 1 }
  if t.cursor_x ≥ max_x t then tty_newline t else tty_cursor_activity t

def tty_putchar (t : Tty) (c : UInt8) : Tty :=
  if c = 0x0A then tty_newline (tty_cursor_erase_fb t)
  else if c = 0x0D then tty_cursor_activity { tty_cursor_erase_fb t with cursor_x := 0 }
  else if c = 0x09 then each 4 (fun _ t => put_regular t 0x20) (tty_cursor_erase_fb t)
  else if c = 0x08 then
    let t := tty_cursor_erase_fb t
    if t.cursor_x > 0 then tty_cursor_activity (put_cell { t with cursor_x := t.cursor_x - 1 } 0x20) else t
  else put_regular t c

/-- `str` is the string before its terminator. -/
def tty_print (t : Tty) (str : List UInt8) : Tty := str.foldl tty_putchar t

/-- The number of columns or rows of `size` pixels, for a font that was read. -/
def tty_init_cells (size char_size limit : Nat) : Nat := min (size / char_size) limit

/-- `fb` is the frame buffer once `fb_init` has accepted it. -/
def tty_init (t : Tty) (font : Font) (fb : Option Fb) : Tty :=
  let t := { t with
    cur_fg := 7, cur_bg := 0, cur_color := make_color 7 0, cursor_x := 0, cursor_y := 0, cursor_visible := true
    cursor_blink_on := true, fb_cursor_drawn := false, tty_font := font }
  match fb with
  | some fb =>
    let scale : UInt32 := if fb.width ≥ 1280 ∧ fb.height ≥ 720 then 2 else 1
    tty_clear { t with
      use_fb := true, fb := fb, font_scale := scale
      fb_cols := tty_init_cells fb.width.toNat (font.width * scale).toNat FB_TEXT_MAX_COLS
      fb_rows := tty_init_cells fb.height.toNat (font.height * scale).toNat FB_TEXT_MAX_ROWS }
  | none => tty_show_cursor (tty_clear { t with use_fb := false })

end graceos.video.tty
