import GraceOS.Video.Drawing

/-!
# Opaque and blended drawing

`sys_fb_rect`, `sys_fb_pixel` and `sys_fb_blit`, each with the condition on the screen and its arguments under which it
changes what it should, whatever the back buffer holds. Away from row 0 the blended paths need rows without padding.
-/

namespace graceos.video

open Function

variable {fb : Fb}

/-! ## The calls -/

/-- The part of a rectangle that is on the screen. -/
def visible_from (x : Int) : Nat := (clip_at x).toNat

def visible (x w S : Int) : Nat := (min (x + w) S - clip_at x).toNat

theorem visible_pos_iff {x w S : Int} : 0 < visible x w S ↔ Shown x w S := by
  unfold visible Shown
  rw [clip_at_eq]
  omega

theorem visible_end {x w : Int} {S : Nat} (h : 0 < visible x w S) : visible_from x + visible x w S ≤ S := by
  unfold visible visible_from at *
  rw [clip_at_eq] at *
  omega

theorem fb_fill_rect_sweep (fb : Fb) (x y w h : Int) (color : UInt32) (pixels : Pixels) :
    fb_fill_rect (fb.holding pixels) x y w h color = fb.holding (sweep
      (fun row col => (int (clip_at y + row) % 2 ^ 64).toNat * pitch_pixels fb + visible_from x + col)
        (fun _ _ _ => color)
      (clip_extent x w fb.width.toNat).toNat (clip_extent y h fb.height.toNat).toNat pixels) := by
  have heq : fb_fill_rect (fb.holding pixels) x y w h color =
      if clip_extent x w fb.width.toNat ≤ 0 ∨ clip_extent y h fb.height.toNat ≤ 0 then fb.holding pixels
      else fb.holding (loop (fun row : Nat => fb_fill32 ((int (clip_at y + row) % 2 ^ 64).toNat * pitch_pixels fb +
        (clip_at x).toNat) color (clip_extent x w fb.width.toNat).toNat) (clip_extent y h fb.height.toNat).toNat
          pixels) := rfl
  rw [heq]
  split
  · rw [sweep_empty (by omega)]
  · rfl

theorem sys_fb_rect_sweep (fb : Fb) (x y w h : Int) {color : UInt32} (hclear : alpha color ≠ 0)
    (hsolid : alpha color ≠ 255) (pixels : Pixels) : sys_fb_rect (fb.holding pixels) x y w h color = fb.holding (sweep
      (width_words fb.width.toNat (visible_from x) (visible_from y)) (fun _ _ old => alpha_blend old color)
      (blend_extent x w fb.width.toNat).toNat (blend_extent y h fb.height.toNat).toNat pixels) := by
  have hidx : (fun row col : Nat => backbuffer_index fb (clip_at x + col) (clip_at y + row)) =
      width_words fb.width.toNat (visible_from x) (visible_from y) := by
    funext row col
    have hx := clip_at_eq x
    have hy := clip_at_eq y
    unfold visible_from
    refine backbuffer_index_width ?_ ?_
    · rw [show clip_at x + (col : Int) = ((clip_at x).toNat + col : Nat) by omega]
    · rw [show clip_at y + (row : Int) = ((clip_at y).toNat + row : Nat) by omega]
  unfold sys_fb_rect
  rw [if_neg hsolid, if_pos (UInt32.pos_iff_ne_zero.mpr hclear), ← hidx]
  rfl

/-- The pixel of the image that belongs to pixel `(col, row)` of the region. -/
def source (x y w : Int) (row col : Nat) : Int := (visible_from y + row - y) * w + (visible_from x + col - x)

theorem sys_fb_blit_sweep (fb : Fb) (src : Int → UInt32) {x y w h : Int} (hw : 0 < w) (hh : 0 < h) (pixels : Pixels) :
    sys_fb_blit (fb.holding pixels) src x y w h = fb.holding (sweep
      (width_words fb.width.toNat (visible_from x) (visible_from y))
      (fun row col old => alpha_blend old (src (int (source x y w row col))))
      (clip_extent x w fb.width.toNat).toNat (clip_extent y h fb.height.toNat).toNat pixels) := by
  have hx := clip_at_eq x
  have hy := clip_at_eq y
  have hleftx : (visible_from x : Int) = clip_at x := by unfold visible_from; omega
  have hlefty : (visible_from y : Int) = clip_at y := by unfold visible_from; omega
  have hblend (pixels : Pixels) (i : Nat) (p : UInt32) :
      (if alpha p = 255 then put pixels i p
        else if alpha p > 0 then put pixels i (alpha_blend (pixels i) p) else pixels) =
        put pixels i (alpha_blend (pixels i) p) := by
    split
    · next hsolid => rw [alpha_blend_full hsolid]
    split
    · rfl
    · next hblend =>
      rw [alpha_blend_clear (alpha_clear hblend)]
      exact (update_eq_self i pixels).symm
  have hidx (row col : Nat) : backbuffer_index fb (int (clip_at x + col)) (int (clip_at y + row)) =
      width_words fb.width.toNat (visible_from x) (visible_from y) row col := by
    refine backbuffer_index_width ?_ ?_
    · rw [Int.natCast_add, hleftx]
      exact int_modEq _
    · rw [Int.natCast_add, hlefty]
      exact int_modEq _
  have hoffset (v : Int) (k : Nat) : int ((if v < 0 then int (-v) else 0) + k) ≡ clip_at v + k - v [ZMOD 2 ^ 32] := by
    refine (int_modEq _).trans ?_
    unfold clip_at
    split
    · rw [show (0 : Int) + k - v = -v + k by omega]
      exact (int_modEq _).add_right _
    · rw [show v + (k : Int) - v = 0 + k by omega]
  have hsource (row col : Nat) : int (int ((if y < 0 then int (-y) else 0) + row) * w +
      int ((if x < 0 then int (-x) else 0) + col)) = int (source x y w row col) := by
    unfold source
    rw [hleftx, hlefty]
    exact int_congr (((hoffset y row).mul_right _).add (hoffset x col))
  unfold sys_fb_blit
  rw [if_neg (by omega)]
  change (if clip_extent x w fb.width.toNat ≤ 0 ∨ clip_extent y h fb.height.toNat ≤ 0 then fb.holding pixels
    else fb.holding (loop (fun row : Nat => loop (fun (col : Nat) pixels =>
      let src_pixel := src (int (int ((if y < 0 then int (-y) else 0) + row) * w +
        int ((if x < 0 then int (-x) else 0) + col)))
      let i := backbuffer_index fb (int (clip_at x + col)) (int (clip_at y + row))
      if alpha src_pixel = 255 then put pixels i src_pixel
      else if alpha src_pixel > 0 then put pixels i (alpha_blend (pixels i) src_pixel)
      else pixels) (clip_extent x w fb.width.toNat).toNat) (clip_extent y h fb.height.toNat).toNat pixels)) = _
  simp only [hblend, hsource, hidx]
  split
  · rw [sweep_empty (by omega)]
  · rfl

/-! ## When they are right -/

/-- Some pixel of the screen lies in the rectangle. -/
def InView (fb : Fb) (x y w h : Int) : Prop := Shown x w fb.width.toNat ∧ Shown y h fb.height.toNat
deriving Decidable

/-- When an opaque rectangle is drawn as it should be. -/
def OpaqueMet (fb : Fb) (x y w h : Int) : Prop :=
  (InView fb x y w h ∧ x + w < 2 ^ 31 ∧ Keeps y h fb.height.toNat ∧ min (y + h) fb.height.toNat ≤ 2 ^ 31) ∨
    (¬ InView fb x y w h ∧ (Drops x w fb.width.toNat ∨ Drops y h fb.height.toNat))
deriving Decidable

/-- When a translucent rectangle is drawn as it should be. -/
def BlendMet (fb : Fb) (x y w h : Int) : Prop :=
  (InView fb x y w h ∧ min (y + h) fb.height.toNat < 2 ^ 31 ∧
      Placed fb (min (x + w) fb.width.toNat - 1) (min (y + h) fb.height.toNat - 1)) ∨
    (¬ InView fb x y w h ∧ (BlendDrops x w fb.width.toNat ∨ BlendDrops y h fb.height.toNat))
deriving Decidable

/-- When a rectangle is drawn as it should be. -/
def RectMet (fb : Fb) (x y w h : Int) (color : UInt32) : Prop :=
  alpha color = 0 ∨ (alpha color = 255 ∧ OpaqueMet fb x y w h) ∨ (alpha color ≠ 255 ∧ BlendMet fb x y w h)
deriving Decidable

/-- When a pixel is drawn as it should be. -/
def PixelMet (fb : Fb) (x y : Int) (color : UInt32) : Prop :=
  alpha color = 0 ∨ alpha color = 255 ∨ ¬ ((0 ≤ x ∧ x < fb.width.toNat) ∧ 0 ≤ y ∧ y < fb.height.toNat) ∨ Placed fb x y
deriving Decidable

/-- When an image is drawn as it should be, whatever it shows. -/
def BlitMet (fb : Fb) (x y w h : Int) : Prop :=
  w ≤ 0 ∨ h ≤ 0 ∨
    (InView fb x y w h ∧ (x + w < 2 ^ 31 ∧ Keeps y h fb.height.toNat) ∧
      Placed fb (min (x + w) fb.width.toNat - 1) (min (y + h) fb.height.toNat - 1) ∧
      (min (y + h) fb.height.toNat - 1 - y) * w + (min (x + w) fb.width.toNat - 1 - x) < 2 ^ 31) ∨
    (¬ InView fb x y w h ∧ (Drops x w fb.width.toNat ∨ Drops y h fb.height.toNat))
deriving Decidable

section
variable {x y w h : Int}

theorem inView_iff : InView fb x y w h ↔ 0 < visible x w fb.width.toNat ∧ 0 < visible y h fb.height.toNat :=
  (and_congr visible_pos_iff visible_pos_iff).symm

theorem not_inRect_of_not_inView (hview : ¬ InView fb x y w h) {col row : Nat} (hcol : col < fb.width.toNat)
    (hrow : row < fb.height.toNat) : ¬ InRect x y w h col row := by
  unfold InView Shown at hview
  unfold InRect
  omega

variable (hx : IsInt x) (hy : IsInt y) (hw : IsInt w) (hh : IsInt h)

theorem clip_extent_toNat {x w : Int} {S : Nat} (hS : S < 2 ^ 32) (hx : IsInt x) (hw : IsInt w) (hshown : Shown x w S)
    (hkeeps : Keeps x w S) : (clip_extent x w S).toNat = visible x w S := by
  have := clip_extent_of_keeps (S := (S : Int)) (by omega) hx hw hshown hkeeps
  unfold visible
  rw [clip_at_eq, this]

theorem keeps_iff {x w : Int} {S : Nat} (hS : S < 2 ^ 30) : Keeps x w S ↔ x + w < 2 ^ 31 := by
  unfold Keeps
  omega

/-- A side whose end is no `int` is drawn in its whole length. -/
theorem overflowing_side {x w : Int} {S : Nat} (hS : S < 2 ^ 30) (hx : IsInt x) (hw : IsInt w) (hshown : Shown x w S)
    (hsum : ¬ x + w < 2 ^ 31) (hpos : 0 < clip_extent x w S) :
    0 < x ∧ 2 ^ 31 ≤ x + w ∧ clip_extent x w S = w ∧ visible_from x = x.toNat := by
  obtain ⟨hleft, -, -, hover⟩ := clip_extent_of_not_keeps (by omega) hx hw hshown (mt (keeps_iff hS).mp hsum) hpos
  obtain ⟨hlarge, hwhole⟩ := hover (by omega)
  exact ⟨hleft, hlarge, hwhole, by rw [visible_from, clip_at_eq, max_eq_left hleft.le]⟩

theorem blend_extent_toNat {x w : Int} {S : Nat} (hS : S < 2 ^ 32) (hx : IsInt x) (hw : IsInt w) (hshown : Shown x w S)
    (hlast : min (x + w) S < 2 ^ 31) : (blend_extent x w S).toNat = visible x w S := by
  obtain ⟨hpos, heq⟩ := blend_extent_eq (S := (S : Int)) (by omega) hx hw hshown
  unfold visible
  rw [clip_at_eq, heq (hpos.mpr hlast)]

theorem last_eq {x w S : Int} (h : 0 < visible x w S) : min (x + w) S - 1 = visible_from x + visible x w S - 1 := by
  have := clip_at_eq x
  unfold visible visible_from at *
  omega

theorem source_le (x y : Int) {w : Int} (hw0 : 0 < w) {m n row col : Nat}
    (hrow : row < n) (hcol : col < m) :
    source x y w row col ≤ (visible_from y + n - 1 - y) * w + (visible_from x + m - 1 - x) ∧
        0 ≤ source x y w row col := by
  have hcx := clip_at_eq x
  have hcy := clip_at_eq y
  have hx0 : 0 ≤ visible_from x - x := by unfold visible_from; omega
  have hy0 : 0 ≤ visible_from y - y := by unfold visible_from; omega
  unfold source
  have hrows : (visible_from y + row - y) * w ≤ (visible_from y + n - 1 - y) * w :=
      Int.mul_le_mul_of_nonneg_right (by omega) (by omega)
  have hzero : 0 ≤ (visible_from y + row - y) * w := Int.mul_nonneg (by omega) (by omega)
  omega

theorem get_backbuffer_pixel_eq {col row : Nat} (hcol : col < fb.width.toNat) (hrow : row < fb.height.toNat)
    (pixels : Pixels) :
    get_backbuffer_pixel (fb.holding pixels) col row = pixels (backbuffer_index fb col row) := by
  have hwidth := fb.width.toNat_lt
  have hheight := fb.height.toNat_lt
  unfold get_backbuffer_pixel
  rw [if_neg]
  · rfl
  · change ¬ ((col : Int) < 0 ∨ uint32 col ≥ fb.width.toNat ∨ (row : Int) < 0 ∨ uint32 row ≥ fb.height.toNat)
    unfold uint32
    omega

variable (hpitch : 4 * fb.width.toNat ≤ fb.pitch.toNat)
include hx hy hw hh hpitch

theorem fb_fill_rect_draws (color : UInt32) (hmet : OpaqueMet fb x y w h) (pixels : Pixels) :
    Draws (fb.holding pixels) (fb_fill_rect (fb.holding pixels) x y w h color) (InRect x y w h) fun _ _ _ => color := by
  obtain ⟨hpixels, hwidth, -⟩ := pitch_le hpitch
  have hheight := fb.height.toNat_lt
  rw [fb_fill_rect_sweep]
  rcases hmet with ⟨hview, hsum, hkeeps, hlast⟩ | ⟨hview, hdrops⟩
  · rw [clip_extent_toNat (by omega) hx hw hview.1 ((keeps_iff hwidth).mpr hsum),
      clip_extent_toNat (by omega) hy hh hview.2 hkeeps]
    refine draws_sweep (f := fun _ _ _ => color) hpixels visible_end visible_end
      (fun col row hcol hrow => inRect_clip x y w h hcol hrow)
      (fun row hrow col hcol => ?_) (fun _ _ _ _ _ => rfl) pixels
    have hcy := clip_at_eq y
    have hrows : (int (clip_at y + row) % 2 ^ 64).toNat = visible_from y + row := by
      unfold visible at hrow
      unfold visible_from
      rw [int_eq (by unfold IsInt; omega)]
      omega
    rw [hrows, Nat.add_assoc]
  · rw [← drops_iff (by omega) hx hw, ← drops_iff (by omega) hy hh] at hdrops
    rw [sweep_empty (by omega)]
    exact draws_nothing fun col row hcol hrow => not_inRect_of_not_inView hview hcol hrow

theorem opaqueMet_of_draws {color : UInt32} (hcolor : color ≠ 0)
    (hdraws : ∀ pixels, Draws (fb.holding pixels) (fb_fill_rect (fb.holding pixels) x y w h color) (InRect x y w h)
      fun _ _ _ => color) : OpaqueMet fb x y w h := by
  obtain ⟨hpixels, hwidth, hwords⟩ := pitch_le hpitch
  have hheight := fb.height.toNat_lt
  have hzero := hdraws fun _ => 0
  rw [fb_fill_rect_sweep] at hzero
  have hcovers := hzero.covers visible_end visible_end
    (fun col row hcol hrow => inRect_clip x y w h hcol hrow) (fun _ _ _ => hcolor) (fun _ _ _ => hcolor)
  have hsome := hcovers.nonempty_iff
  rw [← inView_iff] at hsome
  by_cases hview : InView fb x y w h
  · obtain ⟨hm, hn⟩ := hsome.mpr hview
    obtain ⟨hm', hn'⟩ := inView_iff.mp hview
    have hax := visible_end hm'
    have hcx := clip_at_eq x
    have hcy := clip_at_eq y
    have hshown := hview.2
    unfold Shown at hshown
    -- the row of a word that is drawn is a row that is shown
    have hrows {row : Nat} (hrow : row < (clip_extent y h fb.height.toNat).toNat) :
        (int (clip_at y + row) % 2 ^ 64).toNat < visible_from y + visible y h fb.height.toNat := by
      obtain ⟨r, hr, c, hc, hword⟩ := hcovers.visited row hrow 0 hm
      have := place_inj (by omega) (by omega) ((Nat.add_assoc _ _ _).symm.trans hword)
      omega
    unfold visible visible_from at hrows
    have hkeeps : Keeps y h fb.height.toNat := by
      by_contra hnot
      obtain ⟨-, hlarger, hsmall, -⟩ := clip_extent_of_not_keeps (by omega) hy hh hview.2 hnot (by omega)
      have hlast := @hrows (min (y + h) fb.height.toNat - clip_at y).toNat (by omega)
      rw [int_eq (by unfold IsInt; omega)] at hlast
      omega
    refine Or.inl ⟨hview, ?_, hkeeps, ?_⟩
    · by_contra hsum
      obtain ⟨hpos, hlarge, hwhole, hleft⟩ := overflowing_side hwidth hx hw hview.1 hsum (by omega)
      unfold IsInt at hw
      obtain ⟨r, hr, c, hc, hword⟩ := hcovers.visited 0 hn (pitch_pixels fb - visible_from x) (by omega)
      rw [Nat.add_assoc, Nat.add_sub_cancel' (by omega), ← Nat.succ_mul] at hword
      have := @place_inj (pitch_pixels fb) _ _ 0 _ (by omega) (by omega) hword
      omega
    · by_contra hnot
      have hextent := clip_extent_toNat (by omega) hy hh hview.2 hkeeps
      unfold visible at hextent
      have hlast := @hrows (2 ^ 31 - clip_at y).toNat (by unfold IsInt at hy hh; omega)
      have hend : clip_at y + (((2 ^ 31 - clip_at y).toNat : Nat) : Int) = 2 ^ 31 := by
        unfold IsInt at hy
        omega
      rw [hend, show int (2 ^ 31) = -2 ^ 31 by decide] at hlast
      omega
  · refine Or.inr ⟨hview, ?_⟩
    rw [← drops_iff (by omega) hx hw, ← drops_iff (by omega) hy hh]
    have := mt hsome.mp hview
    omega

theorem sys_fb_rect_draws {color : UInt32} (hclear : alpha color ≠ 0) (hsolid : alpha color ≠ 255)
    (hmet : BlendMet fb x y w h) (pixels : Pixels) :
    Draws (fb.holding pixels) (sys_fb_rect (fb.holding pixels) x y w h color) (InRect x y w h)
      fun _ _ old => alpha_blend old color := by
  obtain ⟨hpixels, hwidth, -⟩ := pitch_le hpitch
  have hheight := fb.height.toNat_lt
  rw [sys_fb_rect_sweep fb x y w h hclear hsolid]
  rcases hmet with ⟨hview, hlast, hplaced⟩ | ⟨hview, hdrops⟩
  · obtain ⟨hm, hn⟩ := inView_iff.mp hview
    rw [blend_extent_toNat (by omega) hx hw hview.1 (by omega), blend_extent_toNat (by omega) hy hh hview.2 hlast]
    rw [last_eq hm, last_eq hn] at hplaced
    refine draws_sweep (f := fun _ _ old => alpha_blend old color) hpixels visible_end visible_end
      (fun col row hcol hrow => inRect_clip x y w h hcol hrow)
      (fun row hrow col hcol => ?_) (fun _ _ _ _ _ => rfl) pixels
    exact hplaced.word (visible_end hm) hwidth hrow hcol
  · rw [← blend_drops_iff (by omega) hx hw, ← blend_drops_iff (by omega) hy hh] at hdrops
    rw [sweep_empty (by omega)]
    exact draws_nothing fun col row hcol hrow => not_inRect_of_not_inView hview hcol hrow

theorem blendMet_of_draws {color : UInt32} (hclear : alpha color ≠ 0) (hsolid : alpha color ≠ 255)
    (hdraws : ∀ pixels, Draws (fb.holding pixels) (sys_fb_rect (fb.holding pixels) x y w h color) (InRect x y w h)
      fun _ _ old => alpha_blend old color) : BlendMet fb x y w h := by
  obtain ⟨hpixels, hwidth, -⟩ := pitch_le hpitch
  have hheight := fb.height.toNat_lt
  have hzero := hdraws fun _ => 0
  rw [sys_fb_rect_sweep fb x y w h hclear hsolid] at hzero
  have hcovers := hzero.covers visible_end visible_end (fun col row hcol hrow => inRect_clip x y w h hcol hrow)
    (fun _ _ => alpha_blend_ne_zero hclear) (fun _ _ => alpha_blend_ne_zero hclear)
  have hsome := hcovers.nonempty_iff
  rw [← inView_iff] at hsome
  by_cases hview : InView fb x y w h
  · obtain ⟨hm, hn⟩ := hsome.mpr hview
    obtain ⟨hm', hn'⟩ := inView_iff.mp hview
    have hlast := (blend_extent_eq (by omega) hy hh hview.2).1.mp (by omega)
    rw [blend_extent_toNat (by omega) hx hw hview.1 (by omega), blend_extent_toNat (by omega) hy hh hview.2 hlast]
      at hcovers
    refine Or.inl ⟨hview, hlast, ?_⟩
    rw [last_eq hm', last_eq hn']
    exact hcovers.placed hpixels hwidth hm' hn' (visible_end hm')
  · refine Or.inr ⟨hview, ?_⟩
    rw [← blend_drops_iff (by omega) hx hw, ← blend_drops_iff (by omega) hy hh]
    have := mt hsome.mp hview
    omega

/-- Source pixel `(i, j)` goes to `(x + i, y + j)`. -/
theorem sys_fb_blit_draws (hmet : BlitMet fb x y w h) (src : Int → UInt32) (pixels : Pixels) :
    Draws (fb.holding pixels) (sys_fb_blit (fb.holding pixels) src x y w h)
      (fun col row => 0 < w ∧ 0 < h ∧ InRect x y w h col row)
      fun col row old => alpha_blend old (src ((row - y) * w + (col - x))) := by
  obtain ⟨hpixels, hwidth, -⟩ := pitch_le hpitch
  have hheight := fb.height.toNat_lt
  by_cases hpos : 0 < w ∧ 0 < h
  · obtain ⟨hw0, hh0⟩ := hpos
    rw [sys_fb_blit_sweep fb src hw0 hh0]
    rcases hmet with hmet | hmet | ⟨hview, ⟨hsum, hkeeps⟩, hplaced, hlast⟩ | ⟨hview, hdrops⟩
    · omega
    · omega
    · obtain ⟨hm, hn⟩ := inView_iff.mp hview
      rw [clip_extent_toNat (by omega) hx hw hview.1 ((keeps_iff hwidth).mpr hsum),
        clip_extent_toNat (by omega) hy hh hview.2 hkeeps]
      rw [last_eq hm, last_eq hn] at hplaced hlast
      refine draws_sweep hpixels visible_end visible_end (fun col row hcol hrow => ?_)
        (fun row hrow col hcol => hplaced.word (visible_end hm) hwidth hrow hcol) (fun row hrow col hcol old => ?_)
        pixels
      · rw [and_iff_right hw0, and_iff_right hh0]
        exact inRect_clip x y w h hcol hrow
      · obtain ⟨hle, hnonneg⟩ := source_le x y hw0 hrow hcol
        rw [int_eq (by unfold IsInt; omega)]
        rfl
    · rw [← drops_iff (by omega) hx hw, ← drops_iff (by omega) hy hh] at hdrops
      rw [sweep_empty (by omega)]
      exact draws_nothing fun col row hcol hrow hin => not_inRect_of_not_inView hview hcol hrow hin.2.2
  · have hnone : sys_fb_blit (fb.holding pixels) src x y w h = fb.holding pixels := by
      unfold sys_fb_blit
      rw [if_pos (by omega)]
    rw [hnone]
    exact draws_nothing fun col row hcol hrow hin => hpos ⟨hin.1, hin.2.1⟩

theorem blitMet_of_draws (hdraws : ∀ src pixels, Draws (fb.holding pixels) (sys_fb_blit (fb.holding pixels) src x y w h)
      (fun col row => 0 < w ∧ 0 < h ∧ InRect x y w h col row)
      fun col row old => alpha_blend old (src ((row - y) * w + (col - x)))) : BlitMet fb x y w h := by
  obtain ⟨hpixels, hwidth, hwords⟩ := pitch_le hpitch
  have hheight := fb.height.toNat_lt
  by_cases hpos : 0 < w ∧ 0 < h
  swap
  · unfold BlitMet
    omega
  obtain ⟨hw0, hh0⟩ := hpos
  have hinside (col row : Nat) (hcol : col < fb.width.toNat) (hrow : row < fb.height.toNat) :
      (0 < w ∧ 0 < h ∧ InRect x y w h col row) ↔
        (visible_from x ≤ col ∧ col < visible_from x + visible x w fb.width.toNat) ∧
          visible_from y ≤ row ∧ row < visible_from y + visible y h fb.height.toNat := by
    rw [and_iff_right hw0, and_iff_right hh0]
    exact inRect_clip x y w h hcol hrow
  -- an image of one colour shows the words
  have hzero := hdraws (fun _ => 0xFF000000) fun _ => 0
  rw [sys_fb_blit_sweep fb _ hw0 hh0] at hzero
  have hcovers := hzero.covers visible_end visible_end hinside
    (fun _ _ => alpha_blend_ne_zero (by decide)) (fun _ _ => alpha_blend_ne_zero (by decide))
  have hsome := hcovers.nonempty_iff
  rw [← inView_iff] at hsome
  refine Or.inr (Or.inr ?_)
  by_cases hview : InView fb x y w h
  swap
  · refine Or.inr ⟨hview, ?_⟩
    rw [← drops_iff (by omega) hx hw, ← drops_iff (by omega) hy hh]
    have := mt hsome.mp hview
    omega
  obtain ⟨hm, hn⟩ := hsome.mpr hview
  obtain ⟨hm', hn'⟩ := inView_iff.mp hview
  have hax := visible_end hm'
  have hcx := clip_at_eq x
  have hcy := clip_at_eq y
  have hsum : x + w < 2 ^ 31 := by
    by_contra hsum
    obtain ⟨hpos, hlarge, hwhole, hleft⟩ := overflowing_side hwidth hx hw hview.1 hsum (by omega)
    have hfew := hcovers.columns_lt hn hm (by omega) (by omega)
    unfold IsInt at hw
    omega
  rw [clip_extent_toNat (by omega) hx hw hview.1 ((keeps_iff hwidth).mpr hsum)] at hcovers
  have hkeeps : Keeps y h fb.height.toNat := by
    by_contra hnot
    obtain ⟨hpos, hlarger, -, -⟩ := clip_extent_of_not_keeps (by omega) hy hh hview.2 hnot (by omega)
    have hfew := hcovers.rows_le hpixels hwidth hm' hn' hax (by unfold visible_from; omega)
    unfold visible at hfew
    omega
  rw [clip_extent_toNat (by omega) hy hh hview.2 hkeeps] at hcovers
  have hplaced := hcovers.placed hpixels hwidth hm' hn' hax
  refine Or.inl ⟨hview, ⟨hsum, hkeeps⟩, by rwa [last_eq hm', last_eq hn'], ?_⟩
  -- an image with one pixel of another colour shows which one is read
  by_contra hlarge
  rw [last_eq hm', last_eq hn'] at hlarge
  obtain ⟨n, hn⟩ : ∃ n, visible y h fb.height.toNat = n + 1 := ⟨_, (Nat.succ_pred_eq_of_pos hn').symm⟩
  obtain ⟨m, hm⟩ : ∃ m, visible x w fb.width.toNat = m + 1 := ⟨_, (Nat.succ_pred_eq_of_pos hm').symm⟩
  have hay := visible_end hn'
  have hsource : source x y w n m = ((visible_from y + n : Nat) - y) * w + ((visible_from x + m : Nat) - x) := by
    unfold source
    rw [Int.natCast_add, Int.natCast_add]
  have hother : int (source x y w n m) ≠ source x y w n m := by
    have hint := isInt_int (source x y w n m)
    unfold IsInt at hint
    rw [hn, hm, Int.natCast_succ, Int.natCast_succ, show (visible_from y : Int) + (n + 1) - 1 =
      (visible_from y + n : Nat) by omega,
      show (visible_from x : Int) + (m + 1) - 1 = (visible_from x + m : Nat) by omega, ← hsource] at hlarge
    omega
  have hdrawn := hdraws (fun i => if i = source x y w n m then 0xFF000001 else 0xFF000002) fun _ => 0
  rw [sys_fb_blit_sweep fb _ hw0 hh0, clip_extent_toNat (by omega) hx hw hview.1 ((keeps_iff hwidth).mpr hsum),
    clip_extent_toNat (by omega) hy hh hview.2 hkeeps] at hdrawn
  have hlast := hdrawn.drawn (visible_from x + m) (visible_from y + n) (show _ < fb.width.toNat by omega)
    (show _ < fb.height.toNat by omega)
    ((hinside _ _ (by omega) (by omega)).mpr ⟨⟨by omega, by omega⟩, by omega, by omega⟩)
  have hread := hplaced.sweep_at hax hpixels hwidth (fun row col old => alpha_blend old
    (if int (source x y w row col) = source x y w n m then 0xFF000001 else 0xFF000002)) (fun _ => 0)
      (show n < visible y h fb.height.toNat by omega) (show m < visible x w fb.width.toNat by omega)
  have hsame := hread.symm.trans hlast
  rw [if_neg hother, if_pos hsource.symm, alpha_blend_full (by decide), alpha_blend_full (by decide)] at hsame
  exact absurd hsame (by decide)

omit hw hh

theorem fb_put_pixel_draws {pixels : Pixels} {color : UInt32} {f : UInt32 → UInt32}
    (hcolor : ∀ col row : Nat, (col : Int) = x → (row : Int) = y → col < fb.width.toNat → row < fb.height.toNat →
      color = f (pixels (row * pitch_pixels fb + col))) :
    Draws (fb.holding pixels) (fb_put_pixel (fb.holding pixels) x y color) (fun col row => col = x ∧ row = y)
      fun _ _ old => f old := by
  obtain ⟨-, hwidth, -⟩ := pitch_le hpitch
  have hheight := fb.height.toNat_lt
  unfold IsInt at hx hy
  unfold fb_put_pixel
  split
  · apply draws_nothing
    rintro col row - - ⟨hcol, hrow⟩
    omega
  split
  · next hout =>
    apply draws_nothing
    rintro col row hlt hlt' ⟨hcol, hrow⟩
    unfold uint32 at hout
    omega
  next hneg hout =>
  have hin : x < fb.width.toNat ∧ y < fb.height.toNat := by
    change ¬ (uint32 x ≥ fb.width.toNat ∨ uint32 y ≥ fb.height.toNat) at hout
    unfold uint32 at hout
    omega
  refine ⟨⟨rfl, rfl, rfl⟩, ?_, ?_⟩
  · rintro col row hlt hlt' ⟨hcol, hrow⟩
    have hplace : y.toNat * pitch_pixels fb + x.toNat = row * pitch_pixels fb + col := by
      rw [← hcol, ← hrow]
      rfl
    change update pixels (y.toNat * pitch_pixels fb + x.toNat) color _ = _
    rw [hplace]
    exact (update_self _ _ _).trans (hcolor col row hcol hrow hlt hlt')
  · intro i hi
    have hne := hi x.toNat y.toNat (show _ < fb.width.toNat by omega) (show _ < fb.height.toNat by omega)
      ⟨by omega, by omega⟩
    exact update_of_ne hne _ _

/-- A pixel is drawn as it should be if and only if what it is blended with is what is below it. -/
theorem sys_fb_pixel_draws_iff (color : UInt32) :
    (∀ pixels, Draws (fb.holding pixels) (sys_fb_pixel (fb.holding pixels) x y color) (fun col row => col = x ∧ row = y)
      fun _ _ old => alpha_blend old color) ↔ PixelMet fb x y color := by
  obtain ⟨hpixels, -⟩ := pitch_le hpitch
  unfold sys_fb_pixel PixelMet
  by_cases hsolid : alpha color = 255
  · refine iff_of_true (fun pixels => ?_) (Or.inr (Or.inl hsolid))
    rw [if_pos hsolid]
    refine fb_put_pixel_draws hx hy hpitch fun col row _ _ _ _ => ?_
    rw [alpha_blend_full hsolid]
  by_cases hclear : alpha color = 0
  · refine iff_of_true (fun pixels => ?_) (Or.inl hclear)
    rw [if_neg hsolid, if_neg (by rw [hclear]; decide)]
    exact draws_clear hclear _
  rw [or_iff_right hclear, or_iff_right hsolid]
  simp only [if_neg hsolid, if_pos (show alpha color > 0 from UInt32.pos_iff_ne_zero.mpr hclear)]
  constructor
  · intro hdraws
    by_cases hscreen : (0 ≤ x ∧ x < fb.width.toNat) ∧ 0 ≤ y ∧ y < fb.height.toNat
    swap
    · exact Or.inl hscreen
    refine Or.inr ?_
    obtain ⟨col, rfl⟩ := Int.eq_ofNat_of_zero_le hscreen.1.1
    obtain ⟨row, rfl⟩ := Int.eq_ofNat_of_zero_le hscreen.2.1
    have hcol : col < fb.width.toNat := by omega
    have hrow : row < fb.height.toNat := by omega
    rw [← placed_iff hpixels hcol]
    by_contra hne
    -- a back buffer that is blue at the pixel only
    have hdrawn :=
      (hdraws (update (fun _ => 0) (row * pitch_pixels fb + col) 0xFF)).drawn col row hcol hrow ⟨rfl, rfl⟩
    have hwritten (p : Pixels) (c : UInt32) :
        (fb_put_pixel (fb.holding p) col row c).backbuffer (row * pitch_pixels fb + col) = c := by
      have hput := @fb_put_pixel_draws fb col row hx hy hpitch p c (fun _ => c) fun _ _ _ _ _ _ => rfl
      exact hput.drawn col row hcol hrow ⟨rfl, rfl⟩
    replace hdrawn := (hwritten _ _).symm.trans hdrawn
    rw [get_backbuffer_pixel_eq hcol hrow, update_of_ne hne] at hdrawn
    refine alpha_blend_below hclear hsolid (hdrawn.trans ?_)
    have hblue : update (fun _ => (0 : UInt32)) (row * pitch_pixels fb + col) 0xFF
        (row * pitch_pixels fb + col) = 0xFF := update_self _ _ _
    exact congrArg (fun old => alpha_blend old color) hblue
  · intro hmet pixels
    refine fb_put_pixel_draws hx hy hpitch fun col row hcol hrow hlt hlt' => ?_
    have hplaced : Placed fb col row := by
      rw [hcol, hrow]
      refine hmet.resolve_left fun hout => hout ⟨⟨by omega, by omega⟩, by omega, by omega⟩
    rw [← hcol, ← hrow, get_backbuffer_pixel_eq hlt hlt', (placed_iff hpixels hlt).mpr hplaced]

end

/-- The calls change the pixels that they should change, whatever the back buffer holds, if and only if their condition
is met. -/
theorem drawing_addresses_iff (fb : Fb) (hpitch : 4 * fb.width.toNat ≤ fb.pitch.toNat) {x y w h : Int} (hx : IsInt x)
    (hy : IsInt y) (hw : IsInt w) (hh : IsInt h) (color : UInt32) :
    ((∀ pixels, Draws (fb.holding pixels) (sys_fb_rect (fb.holding pixels) x y w h color) (InRect x y w h)
        fun _ _ old => alpha_blend old color) ↔ RectMet fb x y w h color) ∧
      ((∀ pixels, Draws (fb.holding pixels) (sys_fb_pixel (fb.holding pixels) x y color)
        (fun col row => col = x ∧ row = y) fun _ _ old => alpha_blend old color) ↔ PixelMet fb x y color) ∧
      ((∀ src pixels, Draws (fb.holding pixels) (sys_fb_blit (fb.holding pixels) src x y w h)
        (fun col row => 0 < w ∧ 0 < h ∧ InRect x y w h col row)
        fun col row old => alpha_blend old (src ((row - y) * w + (col - x)))) ↔ BlitMet fb x y w h) := by
  refine ⟨?_, sys_fb_pixel_draws_iff hx hy hpitch color,
    blitMet_of_draws hx hy hw hh hpitch, sys_fb_blit_draws hx hy hw hh hpitch⟩
  unfold RectMet
  by_cases hclear : alpha color = 0
  · refine iff_of_true (fun pixels => ?_) (Or.inl hclear)
    unfold sys_fb_rect
    rw [if_neg (by rw [hclear]; decide), if_neg (by rw [hclear]; decide)]
    exact draws_clear hclear _
  by_cases hsolid : alpha color = 255
  · have hfill (pixels : Pixels) : sys_fb_rect (fb.holding pixels) x y w h color =
        fb_fill_rect (fb.holding pixels) x y w h color := if_pos hsolid
    have hcolor : color ≠ 0 := fun h => hclear (by rw [h]; rfl)
    rw [or_iff_right hclear, or_iff_left fun h => h.1 hsolid, and_iff_right hsolid]
    simp only [hfill, alpha_blend_full hsolid]
    exact ⟨opaqueMet_of_draws hx hy hw hh hpitch hcolor, fb_fill_rect_draws hx hy hw hh hpitch color⟩
  · rw [or_iff_right hclear, or_iff_right fun h => hsolid h.1, and_iff_right hsolid]
    exact ⟨blendMet_of_draws hx hy hw hh hpitch hclear hsolid, sys_fb_rect_draws hx hy hw hh hpitch hclear hsolid⟩

/-- A screen of two by two pixels with a word of padding behind each row. -/
def padded : Fb := { width := 2, height := 2, pitch := 12, backbuffer := fun _ => 0xFF000000 }

/-- On the padded screen a translucent rectangle over both rows is misplaced and one over the first row is not. An image
that sticks out above and to the left shows its corner. -/
theorem drawing_addresses_padded :
    (¬ ∀ pixels, Draws (padded.holding pixels) (sys_fb_rect (padded.holding pixels) (-1) 0 3 2 0x80FFFFFF)
        (InRect (-1) 0 3 2) fun _ _ old => alpha_blend old 0x80FFFFFF) ∧
      (∀ pixels, Draws (padded.holding pixels) (sys_fb_rect (padded.holding pixels) (-1) (-4) 3 5 0x80FFFFFF)
        (InRect (-1) (-4) 3 5) fun _ _ old => alpha_blend old 0x80FFFFFF) ∧
      ∀ src pixels, Draws (padded.holding pixels) (sys_fb_blit (padded.holding pixels) src (-1) (-4) 3 5)
        (fun col row => (0 : Int) < 3 ∧ (0 : Int) < 5 ∧ InRect (-1) (-4) 3 5 col row)
        fun col row old => alpha_blend old (src ((row - (-4)) * 3 + (col - (-1)))) := by
  have hint {v : Int} (hv : -5 < v ∧ v < 6) : IsInt v := by
    unfold IsInt
    omega
  have hboth := drawing_addresses_iff padded (by decide) (@hint (-1) (by decide)) (@hint 0 (by decide))
    (@hint 3 (by decide)) (@hint 2 (by decide)) 0x80FFFFFF
  have hfirst := drawing_addresses_iff padded (by decide) (@hint (-1) (by decide)) (@hint (-4) (by decide))
    (@hint 3 (by decide)) (@hint 5 (by decide)) 0x80FFFFFF
  exact ⟨fun hdraws => absurd (hboth.1.mp hdraws) (by decide), hfirst.1.mpr (by decide), hfirst.2.2.mpr (by decide)⟩

/-- A translucent white pixel at `(0, 1)` of the padded screen goes to the padding of the row above. -/
theorem blended_rect_misplaced :
    fb_init_accepts padded.width padded.height padded.pitch = true ∧ 4 * padded.width.toNat ≤ padded.pitch.toNat ∧
      ¬ Draws padded (sys_fb_rect padded 0 1 1 1 0x80FFFFFF) (InRect 0 1 1 1)
        fun _ _ old => alpha_blend old 0x80FFFFFF := by
  refine ⟨by decide, by decide, ?_⟩
  intro hdraws
  have hpixel := hdraws.drawn 0 1 (by decide) (by decide) ⟨⟨by decide, by decide⟩, by decide, by decide⟩
  exact absurd hpixel (by decide +kernel)

end graceos.video
