import Mathlib.Algebra.Order.Ring.Int
import Mathlib.Data.List.Basic
import Mathlib.Logic.Function.Basic

/-!
# Drawing

The back buffer of `fb.c` and the drawing calls of `syscall.c`. The helpers of `fb.c` step from row to row by the
pitch and the blended paths of the calls by the width.
-/

namespace graceos.video

/-- The words of memory from the back buffer on. -/
abbrev Pixels := Nat → UInt32

/-- `struct fb_state` once `fb.ready` is set. -/
structure Fb where
  width : UInt32
  height : UInt32
  pitch : UInt32
  backbuffer : Pixels

/-- The geometry checks of `fb_init`. -/
def fb_init_accepts (width height pitch : UInt32) : Bool :=
  !(width == 0 || height == 0 || pitch == 0) && !(pitch < width * 4)

/-- The value of a 32-bit `int`. -/
def int (v : Int) : Int := (v + 2 ^ 31) % 2 ^ 32 - 2 ^ 31

/-- The value as a `uint32_t`. -/
def uint32 (v : Int) : Int := v % 2 ^ 32

def put (pixels : Pixels) (i : Nat) (color : UInt32) : Pixels := Function.update pixels i color

/-- `for (i = 0; i < n; i++)`. -/
def loop (body : Nat → Pixels → Pixels) : Nat → Pixels → Pixels
  | 0, pixels => pixels
  | n + 1, pixels => body n (loop body n pixels)

/-! ## The helpers of `fb.c` -/

/-- `pitch_pixels` of the matrix that `fb_matrix_get` gives. -/
def pitch_pixels (fb : Fb) : Nat := fb.pitch.toNat / 4

def fb_fill32 (dst : Nat) (color : UInt32) (count : Nat) (pixels : Pixels) : Pixels :=
  loop (fun i pixels => put pixels (dst + i) color) count pixels

def fb_put_pixel (fb : Fb) (x y : Int) (color : UInt32) : Fb :=
  if x < 0 ∨ y < 0 then fb
  else if uint32 x ≥ fb.width.toNat ∨ uint32 y ≥ fb.height.toNat then fb
  else { fb with backbuffer := put fb.backbuffer (y.toNat * pitch_pixels fb + x.toNat) color }

def fb_fill_rect (fb : Fb) (x y w h : Int) (color : UInt32) : Fb :=
  let w := if x < 0 then int (w + x) else w
  let x := if x < 0 then 0 else x
  let h := if y < 0 then int (h + y) else h
  let y := if y < 0 then 0 else y
  let w := if int (x + w) > int fb.width.toNat then int (int fb.width.toNat - x) else w
  let h := if int (y + h) > int fb.height.toNat then int (int fb.height.toNat - y) else h
  if w ≤ 0 ∨ h ≤ 0 then fb
  else
    let fill := fun (row : Nat) => fb_fill32 ((int (y + row) % 2 ^ 64).toNat * pitch_pixels fb + x.toNat) color w.toNat
    { fb with backbuffer := loop fill h.toNat fb.backbuffer }

/-! ## The calls -/

def alpha (color : UInt32) : UInt32 := (color >>> 24) &&& 0xFF

/-- A component of a blended colour. -/
def blend (src dst a : UInt32) : UInt32 := ((src * a + dst * (255 - a)) / 255) &&& 0xFF

def alpha_blend (dst src : UInt32) : UInt32 :=
  let a := alpha src
  if a = 255 then src
  else if a = 0 then dst
  else
    let out_r := blend ((src >>> 16) &&& 0xFF) ((dst >>> 16) &&& 0xFF) a
    let out_g := blend ((src >>> 8) &&& 0xFF) ((dst >>> 8) &&& 0xFF) a
    let out_b := blend (src &&& 0xFF) (dst &&& 0xFF) a
    ((0xFF : UInt32) <<< 24) ||| (out_r <<< 16) ||| (out_g <<< 8) ||| out_b

/-- `y * fb->width + x` in `uint32_t`. -/
def backbuffer_index (fb : Fb) (x y : Int) : Nat := (uint32 (y * fb.width.toNat + x)).toNat

def get_backbuffer_pixel (fb : Fb) (x y : Int) : UInt32 :=
  if x < 0 ∨ uint32 x ≥ fb.width.toNat ∨ y < 0 ∨ uint32 y ≥ fb.height.toNat then 0
  else fb.backbuffer (backbuffer_index fb x y)

def sys_fb_pixel (fb : Fb) (x y : Int) (color : UInt32) : Fb :=
  if alpha color = 255 then fb_put_pixel fb x y color
  else if alpha color > 0 then fb_put_pixel fb x y (alpha_blend (get_backbuffer_pixel fb x y) color)
  else fb

def sys_fb_rect (fb : Fb) (x y w h : Int) (color : UInt32) : Fb :=
  if alpha color = 255 then fb_fill_rect fb x y w h color
  else if alpha color > 0 then
    let x2 := int (x + w)
    let y2 := int (y + h)
    let x1 := if x < 0 then 0 else x
    let y1 := if y < 0 then 0 else y
    let x2 := if uint32 x2 > fb.width.toNat then int fb.width.toNat else x2
    let y2 := if uint32 y2 > fb.height.toNat then int fb.height.toNat else y2
    let draw := fun (row : Nat) => loop (fun (col : Nat) pixels =>
      let i := backbuffer_index fb (x1 + col) (y1 + row)
      put pixels i (alpha_blend (pixels i) color)) (x2 - x1).toNat
    { fb with backbuffer := loop draw (y2 - y1).toNat fb.backbuffer }
  else fb

/-- `src` is the memory from the source buffer on. -/
def sys_fb_blit (fb : Fb) (src : Int → UInt32) (x y w h : Int) : Fb :=
  if w ≤ 0 ∨ h ≤ 0 then fb
  else
    let src_x_offset := if x < 0 then int (-x) else 0
    let iw := if x < 0 then int (w + x) else w
    let ix := if x < 0 then 0 else x
    let src_y_offset := if y < 0 then int (-y) else 0
    let ih := if y < 0 then int (h + y) else h
    let iy := if y < 0 then 0 else y
    let iw := if int (ix + iw) > int fb.width.toNat then int (int fb.width.toNat - ix) else iw
    let ih := if int (iy + ih) > int fb.height.toNat then int (int fb.height.toNat - iy) else ih
    if iw ≤ 0 ∨ ih ≤ 0 then fb
    else
      let draw := fun (row : Nat) => loop (fun (col : Nat) pixels =>
        let src_pixel := src (int (int (src_y_offset + row) * w + int (src_x_offset + col)))
        let i := backbuffer_index fb (int (ix + col)) (int (iy + row))
        if alpha src_pixel = 255 then put pixels i src_pixel
        else if alpha src_pixel > 0 then put pixels i (alpha_blend (pixels i) src_pixel)
        else pixels) iw.toNat
      { fb with backbuffer := loop draw ih.toNat fb.backbuffer }

end graceos.video
