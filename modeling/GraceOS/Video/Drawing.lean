import GraceOS.Video.Framebuffer
import Mathlib.Algebra.Order.Ring.Int
import Mathlib.Data.Int.ModEq
import Mathlib.Tactic.SplitIfs
import Mathlib.Tactic.Zify
import Mathlib.Tactic.Linarith

/-!
# Which pixels are drawn

A call should change the pixels inside of its rectangle and the screen, each in its own place. What a loop draws on an
empty back buffer shows which words it visits, and the words show whether its clipping and its stride are right.
-/

namespace graceos.video

open Function

/-- The call changed the pixels of the screen that lie inside, each by `f`, and nothing else. -/
structure Draws (fb fb' : Fb) (inside : Int → Int → Prop) (f : Int → Int → UInt32 → UInt32) : Prop where
  geometry : fb'.width = fb.width ∧ fb'.height = fb.height ∧ fb'.pitch = fb.pitch
  drawn : ∀ col row : Nat, col < fb.width.toNat → row < fb.height.toNat → inside col row →
    fb'.backbuffer (row * pitch_pixels fb + col) = f col row (fb.backbuffer (row * pitch_pixels fb + col))
  others : ∀ i, (∀ col row : Nat, col < fb.width.toNat → row < fb.height.toNat → inside col row →
    i ≠ row * pitch_pixels fb + col) → fb'.backbuffer i = fb.backbuffer i

/-- The screen with other contents of the back buffer. -/
def Fb.holding (fb : Fb) (pixels : Pixels) : Fb := { fb with backbuffer := pixels }

variable {fb : Fb} {pixels : Pixels}

/-! ## Loops -/

theorem loop_once {f : Nat → Pixels → Pixels} {P Q : Pixels → Prop} {n k : Nat} (hk : k < n) (hp : P pixels)
    (hbefore : ∀ j < k, ∀ pixels, P pixels → P (f j pixels)) (hat : ∀ pixels, P pixels → Q (f k pixels))
    (hafter : ∀ j < n, k < j → ∀ pixels, Q pixels → Q (f j pixels)) : Q (loop f n pixels) := by
  have hreach : ∀ j ≤ k, P (loop f j pixels) := by
    intro j hj
    induction j with
    | zero => exact hp
    | succ j ih => exact hbefore j (by omega) _ (ih (by omega))
  induction n with
  | zero => omega
  | succ n ih =>
    rw [loop]
    by_cases hlast : k = n
    · subst hlast
      exact hat _ (hreach k le_rfl)
    · exact hafter n (Nat.lt_succ_self n) (by omega) _ (ih (by omega) fun j hj => hafter j (by omega))

theorem loop_keeps {f : Nat → Pixels → Pixels} {P : Pixels → Prop} {n : Nat} (hp : P pixels)
    (h : ∀ j < n, ∀ pixels, P pixels → P (f j pixels)) : P (loop f n pixels) := by
  induction n with
  | zero => exact hp
  | succ n ih => exact h n (Nat.lt_succ_self n) _ (ih fun j hj => h j (by omega))

/-- Drawing a row of pixels from `base` on. -/
def draw_row (g : Nat → UInt32 → UInt32) (base : Nat) : Nat → Pixels → Pixels :=
  loop fun col pixels => put pixels (base + col) (g col (pixels (base + col)))

theorem draw_row_at (g : Nat → UInt32 → UInt32) (base n : Nat) (pixels : Pixels) (i : Nat) :
    draw_row g base n pixels i = if base ≤ i ∧ i < base + n then g (i - base) (pixels i) else pixels i := by
  induction n generalizing i with
  | zero =>
    rw [if_neg (by omega)]
    rfl
  | succ n ih =>
    change update (draw_row g base n pixels) (base + n) (g n (draw_row g base n pixels (base + n))) i = _
    by_cases hi : i = base + n
    · subst hi
      rw [update_self, ih, if_neg (by omega), if_pos (by omega), Nat.add_sub_cancel_left]
    · rw [update_of_ne hi, ih]
      by_cases hin : base ≤ i ∧ i < base + n
      · rw [if_pos hin, if_pos (by omega)]
      · rw [if_neg hin, if_neg (by omega)]

/-- Drawing `n` rows of `m` pixels. -/
def sweep (idx : Nat → Nat → Nat) (g : Nat → Nat → UInt32 → UInt32) (m : Nat) : Nat → Pixels → Pixels :=
  loop fun row => loop (fun col pixels => put pixels (idx row col) (g row col (pixels (idx row col)))) m

section
variable {idx : Nat → Nat → Nat} {g : Nat → Nat → UInt32 → UInt32} {m n : Nat}

theorem sweep_off {i : Nat} (h : ∀ row < n, ∀ col < m, i ≠ idx row col) : sweep idx g m n pixels i = pixels i := by
  refine loop_keeps (P := fun p => p i = pixels i) rfl fun row hrow p hp => ?_
  refine loop_keeps (P := fun p => p i = pixels i) hp fun col hcol p hp => ?_
  exact (update_of_ne (h row hrow col hcol) _ _).trans hp

theorem sweep_empty (h : m = 0 ∨ n = 0) : sweep idx g m n pixels = pixels := by
  funext i
  exact sweep_off fun row hrow col hcol => by omega

/-- A word that is visited once is changed once. -/
theorem sweep_at (pixels : Pixels) {row col : Nat} (hrow : row < n) (hcol : col < m)
    (honce : ∀ row' < n, ∀ col' < m, idx row' col' = idx row col → row' = row ∧ col' = col) :
    sweep idx g m n pixels (idx row col) = g row col (pixels (idx row col)) := by
  have hother {row' col' : Nat} (hrow' : row' < n) (hcol' : col' < m) (hne : row' ≠ row ∨ col' ≠ col) (p : Pixels)
      (c : UInt32) : put p (idx row' col') c (idx row col) = p (idx row col) := by
    refine update_of_ne (fun heq => ?_) _ _
    have := honce row' hrow' col' hcol' heq.symm
    omega
  refine loop_once (P := fun p => p (idx row col) = pixels (idx row col))
    (Q := fun p => p (idx row col) = g row col (pixels (idx row col))) hrow rfl ?_ ?_ ?_
  · intro row' hrow' p hp
    refine loop_keeps (P := fun p => p (idx row col) = _) hp fun col' hcol' p hp => ?_
    exact (hother (by omega) hcol' (by omega) _ _).trans hp
  · intro p hp
    refine loop_once (P := fun p => p (idx row col) = pixels (idx row col))
      (Q := fun p => p (idx row col) = g row col (pixels (idx row col))) hcol hp ?_ ?_ ?_
    · intro col' hcol' p hp
      exact (hother hrow (by omega) (by omega) _ _).trans hp
    · intro p hp
      change update p (idx row col) _ (idx row col) = _
      rw [update_self, hp]
    · intro col' hcol' hlt p hp
      exact (hother hrow hcol' (by omega) _ _).trans hp
  · intro row' hrow' hlt p hp
    refine loop_keeps (P := fun p => p (idx row col) = _) hp fun col' hcol' p hp => ?_
    exact (hother hrow' hcol' (by omega) _ _).trans hp

theorem sweep_ne_zero (hg : ∀ row col old, g row col old ≠ 0) (pixels : Pixels) {row col : Nat}
    (hrow : row < n) (hcol : col < m) : sweep idx g m n pixels (idx row col) ≠ 0 := by
  have hput (row' col' : Nat) (p : Pixels) (hp : p (idx row col) ≠ 0) :
      put p (idx row' col') (g row' col' (p (idx row' col'))) (idx row col) ≠ 0 := by
    by_cases heq : idx row col = idx row' col'
    · rw [heq]
      exact (update_self (idx row' col') _ p).trans_ne (hg _ _ _)
    · exact (update_of_ne heq _ p).trans_ne hp
  refine loop_once (P := fun _ => True) (Q := fun p => p (idx row col) ≠ 0) hrow trivial (fun _ _ _ _ => trivial) ?_ ?_
  · intro p _
    refine loop_once (P := fun _ => True) (Q := fun p => p (idx row col) ≠ 0) hcol trivial
      (fun _ _ _ _ => trivial) ?_ ?_
    · intro p _
      exact (update_self (idx row col) _ p).trans_ne (hg _ _ _)
    · intro col' _ _ p hp
      exact hput row col' p hp
  · intro row' _ _ p hp
    exact loop_keeps (P := fun p => p (idx row col) ≠ 0) hp fun col' _ p hp => hput row' col' p hp

/-! ## Words -/

theorem place_inj {P r r' c c' : Nat} (hc : c < P) (hc' : c' < P) (h : r * P + c = r' * P + c') : r = r' ∧ c = c' := by
  have hdiv := congrArg (· / P) h
  rw [Nat.mul_comm, Nat.mul_add_div (by omega), Nat.div_eq_of_lt hc, Nat.mul_comm, Nat.mul_add_div (by omega),
    Nat.div_eq_of_lt hc'] at hdiv
  obtain rfl : r = r' := by omega
  exact ⟨rfl, by omega⟩

theorem draws_sweep {a b : Nat} {inside : Int → Int → Prop} {f : Int → Int → UInt32 → UInt32}
    (hpitch : fb.width.toNat ≤ pitch_pixels fb) (hx : 0 < m → a + m ≤ fb.width.toNat)
    (hy : 0 < n → b + n ≤ fb.height.toNat)
    (hinside : ∀ col row : Nat, col < fb.width.toNat → row < fb.height.toNat →
      (inside col row ↔ (a ≤ col ∧ col < a + m) ∧ b ≤ row ∧ row < b + n))
    (hidx : ∀ row < n, ∀ col < m, idx row col = (b + row) * pitch_pixels fb + (a + col))
    (hfg : ∀ row < n, ∀ col < m, ∀ old, g row col old = f (a + col : Nat) (b + row : Nat) old) (pixels : Pixels) :
    Draws (fb.holding pixels) (fb.holding (sweep idx g m n pixels)) inside f where
  geometry := ⟨rfl, rfl, rfl⟩
  drawn col row hcol hrow hin := by
    obtain ⟨⟨ha, hm⟩, hb, hn⟩ := (hinside col row hcol hrow).mp hin
    have hplace := hidx (row - b) (by omega) (col - a) (by omega)
    have hat := @sweep_at idx g m n pixels (row - b) (col - a) (by omega) (by omega) fun row' hrow' col' hcol' heq => by
      rw [hidx row' hrow' col' hcol', hplace] at heq
      have := place_inj (by omega) (by omega) heq
      omega
    rw [hfg _ (by omega) _ (by omega), hplace, Nat.add_sub_cancel' ha, Nat.add_sub_cancel' hb] at hat
    exact hat
  others i hi := by
    refine sweep_off fun row hrow col hcol heq => ?_
    have hx' := hx (by omega)
    have hy' := hy (by omega)
    refine hi (a + col) (b + row) (show _ < fb.width.toNat by omega) (show _ < fb.height.toNat by omega) ?_
      (heq.trans (hidx row hrow col hcol))
    exact (hinside _ _ (by omega) (by omega)).mpr ⟨⟨by omega, by omega⟩, by omega, by omega⟩

/-- A loop visits the words of a region of `n'` rows of `m'` pixels, and no others. -/
structure Covers (P : Nat) (idx : Nat → Nat → Nat) (m n a b m' n' : Nat) : Prop where
  visited : ∀ row < n, ∀ col < m, ∃ r < n', ∃ c < m', idx row col = (b + r) * P + (a + c)
  shown : ∀ r < n', ∀ c < m', ∃ row < n, ∃ col < m, idx row col = (b + r) * P + (a + c)

theorem Draws.covers {a b m' n' : Nat} {inside : Int → Int → Prop} {f : Int → Int → UInt32 → UInt32}
    (hx : 0 < m' → a + m' ≤ fb.width.toNat) (hy : 0 < n' → b + n' ≤ fb.height.toNat)
    (hinside : ∀ col row : Nat, col < fb.width.toNat → row < fb.height.toNat →
      (inside col row ↔ (a ≤ col ∧ col < a + m') ∧ b ≤ row ∧ row < b + n'))
    (hg : ∀ row col old, g row col old ≠ 0) (hf : ∀ row col old, f row col old ≠ 0)
    (h : Draws (fb.holding fun _ => 0) (fb.holding (sweep idx g m n fun _ => 0)) inside f) :
    Covers (pitch_pixels fb) idx m n a b m' n' where
  visited row hrow col hcol := by
    by_contra hnone
    refine sweep_ne_zero hg (fun _ => 0) hrow hcol (h.others _ fun c r hc hr hin heq => hnone ?_)
    obtain ⟨⟨ha, hm⟩, hb, hn⟩ := (hinside c r hc hr).mp hin
    refine ⟨r - b, by omega, c - a, by omega, ?_⟩
    rw [Nat.add_sub_cancel' ha, Nat.add_sub_cancel' hb]
    exact heq
  shown r hr c hc := by
    have hx' := hx (by omega)
    have hy' := hy (by omega)
    by_contra hnone
    have hdrawn := h.drawn (a + c) (b + r) (show a + c < fb.width.toNat by omega)
      (show b + r < fb.height.toNat by omega)
      ((hinside _ _ (by omega) (by omega)).mpr ⟨⟨by omega, by omega⟩, by omega, by omega⟩)
    refine hf _ _ _ (hdrawn.symm.trans (sweep_off fun row hrow col hcol heq => hnone ⟨row, hrow, col, hcol, heq.symm⟩))

theorem Covers.nonempty_iff {P a b m' n' : Nat} (h : Covers P idx m n a b m' n') :
    (0 < m ∧ 0 < n) ↔ 0 < m' ∧ 0 < n' := by
  constructor
  · rintro ⟨hm, hn⟩
    obtain ⟨r, hr, c, hc, -⟩ := h.visited 0 hn 0 hm
    omega
  · rintro ⟨hm, hn⟩
    obtain ⟨row, hrow, col, hcol, -⟩ := h.shown 0 hn 0 hm
    omega

end

theorem draws_nothing {inside : Int → Int → Prop} {f : Int → Int → UInt32 → UInt32}
    (h : ∀ col row : Nat, col < fb.width.toNat → row < fb.height.toNat → ¬ inside col row) : Draws fb fb inside f where
  geometry := ⟨rfl, rfl, rfl⟩
  drawn col row hcol hrow hin := absurd hin (h col row hcol hrow)
  others _ _ := rfl

/-! ## Clipping -/

/-- The range of a 32-bit `int`. -/
def IsInt (v : Int) : Prop := -2 ^ 31 ≤ v ∧ v < 2 ^ 31

def clip_at (x : Int) : Int := if x < 0 then 0 else x

/-- The extent that the helpers leave of one side of a rectangle. -/
def clip_extent (x w W : Int) : Int :=
  if int (clip_at x + (if x < 0 then int (w + x) else w)) > int W then int (int W - clip_at x)
  else if x < 0 then int (w + x) else w

/-- The extent that the blended rectangle leaves of one side. -/
def blend_extent (x w W : Int) : Int := (if uint32 (int (x + w)) > W then int W else int (x + w)) - clip_at x

theorem int_eq {v : Int} (h : IsInt v) : int v = v := by
  unfold int
  unfold IsInt at h
  omega

theorem isInt_int (v : Int) : IsInt (int v) := by
  unfold IsInt int
  omega

theorem int_modEq (v : Int) : int v ≡ v [ZMOD 2 ^ 32] := by
  unfold int Int.ModEq
  omega

theorem int_congr {v v' : Int} (h : v ≡ v' [ZMOD 2 ^ 32]) : int v = int v' := by
  unfold int
  unfold Int.ModEq at h
  omega

theorem clip_extent_eq {x w W : Int} (hW : 0 ≤ W ∧ W < 2 ^ 31) (hx : IsInt x) (hw : IsInt w) (hsum : IsInt (x + w)) :
    clip_extent x w W = min (x + w) W - max x 0 := by
  unfold IsInt at hx hw hsum
  unfold clip_extent clip_at int
  split_ifs
  all_goals omega

theorem clip_at_eq (x : Int) : clip_at x = max x 0 := by
  unfold clip_at
  split
  · omega
  · omega

/-- Some position of the screen, which has `S` of them, lies on the side. -/
def Shown (x w S : Int) : Prop := max x 0 < min (x + w) S
deriving Decidable

/-- The clipping in `int` keeps of a side that is shown what is shown of it. -/
def Keeps (x w S : Int) : Prop := (S < 2 ^ 31 ∧ x + w < 2 ^ 31) ∨ (2 ^ 31 ≤ S ∧ 0 ≤ x ∧ 2 ^ 31 ≤ x + w)
deriving Decidable

/-- The clipping in `int` keeps nothing of a side. -/
def Drops (x w S : Int) : Prop :=
  (S < 2 ^ 31 ∧ x + w < 2 ^ 31 ∧ ¬ Shown x w S ∧ (-2 ^ 31 ≤ x + w ∨ S = 0 ∨ x + w = -2 ^ 32)) ∨
    (2 ^ 31 ≤ S ∧ (x < 0 ∨ x + w ≤ S - 2 ^ 32 ∨ (x + w < 2 ^ 31 ∧ 2 ^ 31 ≤ S - x)))
deriving Decidable

/-- The blended rectangle keeps nothing of a side. -/
def BlendDrops (x w S : Int) : Prop :=
  (0 ≤ x + w ∧ ¬ Shown x w S) ∨ (-2 ^ 31 ≤ x + w ∧ x + w < 0 ∧ S ≤ max x 0) ∨ (x + w < 0 ∧ S = 0) ∨
    x + w = -2 ^ 32 ∨ (2 ^ 31 ≤ S ∧ ((-2 ^ 31 ≤ x + w ∧ x + w < 0) ∨ 2 ^ 31 ≤ x + w))
deriving Decidable

section
variable {x w S : Int} (hS : 0 ≤ S ∧ S < 2 ^ 32) (hx : IsInt x) (hw : IsInt w)
include hS hx hw

theorem drops_iff : clip_extent x w S ≤ 0 ↔ Drops x w S := by
  unfold IsInt at hx hw
  unfold Drops Shown clip_extent clip_at int
  split_ifs
  all_goals omega

theorem clip_extent_of_keeps (hshown : Shown x w S) (hkeeps : Keeps x w S) :
    clip_extent x w S = min (x + w) S - max x 0 := by
  unfold IsInt at hx hw
  unfold Keeps at hkeeps
  unfold Shown at hshown
  unfold clip_extent clip_at int
  split_ifs at hkeeps ⊢
  all_goals omega

theorem clip_extent_of_not_keeps (hshown : Shown x w S) (hnot : ¬ Keeps x w S) (hpos : 0 < clip_extent x w S) :
    0 < x ∧ min (x + w) S - max x 0 < clip_extent x w S ∧ min (x + w) S < 2 ^ 31 ∧
      (S < 2 ^ 31 → 2 ^ 31 ≤ x + w ∧ clip_extent x w S = w) := by
  unfold IsInt at hx hw
  unfold Keeps at hnot
  unfold Shown at hshown
  unfold clip_extent clip_at int at *
  split_ifs at hnot hpos ⊢
  all_goals omega

theorem blend_drops_iff : blend_extent x w S ≤ 0 ↔ BlendDrops x w S := by
  unfold IsInt at hx hw
  unfold BlendDrops Shown blend_extent clip_at uint32 int
  split_ifs
  all_goals omega

theorem blend_extent_eq (hshown : Shown x w S) :
    (0 < blend_extent x w S ↔ min (x + w) S < 2 ^ 31) ∧
      (0 < blend_extent x w S → blend_extent x w S = min (x + w) S - max x 0) := by
  unfold IsInt at hx hw
  unfold Shown at hshown
  unfold blend_extent clip_at uint32 int
  split_ifs
  all_goals omega

end

theorem clipped_iff (x w : Int) {W col : Nat} (hcol : col < W) :
    (x ≤ col ∧ (col : Int) < x + w) ↔
      (clip_at x).toNat ≤ col ∧ col < (clip_at x).toNat + (min (x + w) W - clip_at x).toNat := by
  rw [clip_at_eq]
  omega

def InRect (x y w h col row : Int) : Prop := (x ≤ col ∧ col < x + w) ∧ y ≤ row ∧ row < y + h

theorem inRect_clip (x y w h : Int) {W H col row : Nat} (hcol : col < W) (hrow : row < H) :
    InRect x y w h col row ↔
      ((clip_at x).toNat ≤ col ∧ col < (clip_at x).toNat + (min (x + w) W - clip_at x).toNat) ∧
        (clip_at y).toNat ≤ row ∧ row < (clip_at y).toNat + (min (y + h) H - clip_at y).toNat :=
  and_congr (clipped_iff x w hcol) (clipped_iff y h hrow)

theorem pitch_le (hpitch : 4 * fb.width.toNat ≤ fb.pitch.toNat) :
    fb.width.toNat ≤ pitch_pixels fb ∧ fb.width.toNat < 2 ^ 30 ∧ pitch_pixels fb < 2 ^ 30 := by
  have := fb.pitch.toNat_lt
  unfold pitch_pixels
  omega

/-! ## Strides -/

/-- A pixel, and each one above or left of it, has one word by both strides. -/
def Placed (fb : Fb) (col row : Int) : Prop :=
  row = 0 ∨ (pitch_pixels fb = fb.width.toNat ∧ row * fb.width.toNat + col < 2 ^ 32)
deriving Decidable

/-- The words of the rows from `b` on in steps of the width. -/
def width_words (W a b row col : Nat) : Nat := ((b + row) * W + (a + col)) % 2 ^ 32

section
variable {P W a b m n m' n' : Nat}

theorem Covers.of_padded (h : Covers P (width_words W a b) m n a b m' n') (hpad : W < P) (hW : W < 2 ^ 30)
    (hm : 0 < m) (hn : 0 < n) (ham : a + m' ≤ W) : b = 0 ∧ n = 1 := by
  obtain ⟨r, hr, c, hc, hfirst⟩ := h.visited 0 hn 0 hm
  have hb : b = 0 := by
    by_contra hb
    have hrows : b * W + b ≤ (b + r) * P := by
      calc b * W + b = b * (W + 1) := by rw [Nat.mul_succ]
        _ ≤ (b + r) * P := Nat.mul_le_mul (by omega) hpad
    have hmod := Nat.mod_le (b * W + a) (2 ^ 32)
    unfold width_words at hfirst
    rw [Nat.add_zero, Nat.add_zero] at hfirst
    omega
  refine ⟨hb, ?_⟩
  by_contra hone
  -- row 1 starts in the padding of row 0
  obtain ⟨r, hr, c, hc, hsecond⟩ := h.visited 1 (by omega) 0 hm
  unfold width_words at hsecond
  subst hb
  rw [Nat.zero_add, Nat.one_mul, Nat.add_zero, Nat.mod_eq_of_lt (by omega), Nat.zero_add] at hsecond
  rcases Nat.eq_zero_or_pos r with rfl | hpos
  · omega
  · have hrow : 1 * P ≤ r * P := Nat.mul_le_mul_right P hpos
    omega

theorem Covers.last_lt (h : Covers W (width_words W a b) m n a b m' n') (hm' : 0 < m') (hn' : 0 < n') :
    (b + (n' - 1)) * W + (a + (m' - 1)) < 2 ^ 32 := by
  obtain ⟨row, hrow, col, hcol, hlast⟩ := h.shown (n' - 1) (by omega) (m' - 1) (by omega)
  rw [← hlast]
  exact Nat.mod_lt _ (by decide)

theorem Covers.rows_le (h : Covers P (width_words W a b) m n a b m n') (hWP : W ≤ P) (hW : W < 2 ^ 30) (hm : 0 < m)
    (hn' : 0 < n') (ham : a + m ≤ W) (hb : 0 < b) : n ≤ n' := by
  by_contra hlt
  rcases hWP.lt_or_eq with hpad | rfl
  · have := h.of_padded hpad hW hm (by omega) ham
    omega
  have hlast := h.last_lt hm hn'
  obtain ⟨r, hr, c, hc, hnext⟩ := h.visited n' (by omega) 0 hm
  have hrows : (b + n') * W = (b + (n' - 1)) * W + W := by
    rw [← Nat.succ_mul]
    congr 1
    omega
  have hfirst : 1 * W ≤ (b + r) * W := Nat.mul_le_mul_right W (by omega)
  unfold width_words at hnext
  rcases Nat.lt_or_ge ((b + n') * W + a) (2 ^ 32) with hsmall | hlarge
  · rw [Nat.add_zero, Nat.mod_eq_of_lt hsmall] at hnext
    have := place_inj (by omega) (by omega) hnext
    omega
  · omega

theorem Covers.columns_lt (h : Covers P (width_words W a b) m n a b m' n') (hn : 0 < n) (hm : 0 < m) (ham : a + m' ≤ P)
    (ha : 0 < a) : m < P := by
  by_contra hle
  obtain ⟨r, hr, c, hc, hfirst⟩ := h.visited 0 hn 0 hm
  unfold width_words at hfirst
  rw [Nat.add_zero, Nat.add_zero] at hfirst
  have hmod := Nat.mod_lt (b * W + a) (show 0 < 2 ^ 32 by decide)
  -- the first word behind the row, or word 0 if that is not one
  by_cases hwrap : (b * W + a) % 2 ^ 32 + (P - (a + c)) < 2 ^ 32
  · obtain ⟨r', hr', c', hc', hnext⟩ := h.visited 0 hn (P - (a + c)) (by omega)
    unfold width_words at hnext
    rw [Nat.add_zero] at hnext
    have hword : (b + r + 1) * P + 0 = (b + r') * P + (a + c') := by
      rw [Nat.succ_mul]
      omega
    have := place_inj (by omega) (by omega) hword
    omega
  · obtain ⟨r', hr', c', hc', hzero⟩ := h.visited 0 hn (2 ^ 32 - (b * W + a) % 2 ^ 32) (by omega)
    unfold width_words at hzero
    rw [Nat.add_zero] at hzero
    omega

end

theorem backbuffer_index_width {x y : Int} {a b row col : Nat} (hx : x ≡ (a + col : Nat) [ZMOD 2 ^ 32])
    (hy : y ≡ (b + row : Nat) [ZMOD 2 ^ 32]) :
    backbuffer_index fb x y = width_words fb.width.toNat a b row col := by
  have hmod : y * fb.width.toNat + x ≡ ((b + row) * fb.width.toNat + (a + col) : Nat) [ZMOD 2 ^ 32] := by
    rw [Int.natCast_add, Int.natCast_mul]
    exact (hy.mul_right _).add hx
  unfold backbuffer_index uint32 width_words
  unfold Int.ModEq at hmod
  omega

theorem Placed.word {a b m n row col : Nat} (h : Placed fb (a + m - 1) (b + n - 1)) (ham : a + m ≤ fb.width.toNat)
    (hW : fb.width.toNat < 2 ^ 30) (hrow : row < n) (hcol : col < m) :
    width_words fb.width.toNat a b row col = (b + row) * pitch_pixels fb + (a + col) := by
  unfold width_words
  rcases h with hzero | ⟨hpitch, hlast⟩
  · obtain rfl : b = 0 := by omega
    obtain rfl : row = 0 := by omega
    rw [Nat.zero_mul, Nat.zero_mul, Nat.mod_eq_of_lt (by omega)]
  · rw [hpitch]
    have hbelow : (b + row) * fb.width.toNat ≤ (b + (n - 1)) * fb.width.toNat := Nat.mul_le_mul_right _ (by omega)
    have hnat : (b + (n - 1)) * fb.width.toNat + (a + (m - 1)) < 2 ^ 32 := by
      zify [show 1 ≤ n by omega, show 1 ≤ m by omega]
      linarith
    exact Nat.mod_eq_of_lt (by omega)

theorem Covers.placed {a b m n : Nat} (h : Covers (pitch_pixels fb) (width_words fb.width.toNat a b) m n a b m n)
    (hpitch : fb.width.toNat ≤ pitch_pixels fb) (hW : fb.width.toNat < 2 ^ 30) (hm : 0 < m) (hn : 0 < n)
    (ham : a + m ≤ fb.width.toNat) : Placed fb (a + m - 1) (b + n - 1) := by
  rcases hpitch.lt_or_eq with hpad | hflat
  · obtain ⟨hb, hn1⟩ := h.of_padded hpad hW hm hn ham
    exact Or.inl (by omega)
  · rw [← hflat] at h
    have hlast := h.last_lt hm hn
    zify [show 1 ≤ n by omega, show 1 ≤ m by omega] at hlast
    exact Or.inr ⟨hflat.symm, by linarith⟩

theorem Placed.sweep_at {a b m n row col : Nat} (h : Placed fb (a + m - 1) (b + n - 1)) (ham : a + m ≤ fb.width.toNat)
    (hpitch : fb.width.toNat ≤ pitch_pixels fb) (hW : fb.width.toNat < 2 ^ 30) (g : Nat → Nat → UInt32 → UInt32)
    (pixels : Pixels) (hrow : row < n) (hcol : col < m) :
    sweep (width_words fb.width.toNat a b) g m n pixels ((b + row) * pitch_pixels fb + (a + col)) =
      g row col (pixels ((b + row) * pitch_pixels fb + (a + col))) := by
  have hword {row col : Nat} := @Placed.word fb a b m n row col h ham hW
  rw [← hword hrow hcol]
  refine graceos.video.sweep_at pixels hrow hcol fun row' hrow' col' hcol' heq => ?_
  rw [hword hrow hcol, hword hrow' hcol'] at heq
  have := place_inj (by omega) (by omega) heq
  omega

theorem placed_iff (hpixels : fb.width.toNat ≤ pitch_pixels fb) {col row : Nat} (hcol : col < fb.width.toNat) :
    backbuffer_index fb col row = row * pitch_pixels fb + col ↔ Placed fb col row := by
  have hwidth := fb.width.toNat_lt
  have hindex : backbuffer_index fb col row = (row * fb.width.toNat + col) % 2 ^ 32 := by
    have hword := @backbuffer_index_width fb col row col row 0 0 (Int.ModEq.refl _) (Int.ModEq.refl _)
    rwa [width_words] at hword
  rw [hindex]
  unfold Placed
  constructor
  · intro heq
    have hle := Nat.mod_le (row * fb.width.toNat + col) (2 ^ 32)
    have hlt := Nat.mod_lt (row * fb.width.toNat + col) (show 0 < 2 ^ 32 by decide)
    rcases hpixels.lt_or_eq with hpad | hflat
    · have hrows : row * fb.width.toNat + row ≤ row * pitch_pixels fb := by
        rw [← Nat.mul_succ]
        exact Nat.mul_le_mul_left row hpad
      exact Or.inl (by omega)
    · rw [← hflat] at heq
      refine Or.inr ⟨hflat.symm, ?_⟩
      exact_mod_cast (show row * fb.width.toNat + col < 2 ^ 32 by omega)
  · rintro (hzero | ⟨hflat, hlt⟩)
    · obtain rfl : row = 0 := by omega
      rw [Nat.zero_mul, Nat.zero_mul, Nat.mod_eq_of_lt (by omega)]
    · rw [hflat]
      exact Nat.mod_eq_of_lt (by exact_mod_cast hlt)

/-! ## Blending -/

theorem alpha_blend_full {color : UInt32} (h : alpha color = 255) (old : UInt32) : alpha_blend old color = color := by
  rw [alpha_blend]
  dsimp only
  rw [if_pos h]

theorem alpha_blend_clear {color : UInt32} (h : alpha color = 0) (old : UInt32) : alpha_blend old color = old := by
  rw [alpha_blend]
  dsimp only
  rw [h, if_neg (by decide), if_pos rfl]

theorem alpha_clear {color : UInt32} (h : ¬ alpha color > 0) : alpha color = 0 := by
  by_contra hne
  exact h (UInt32.pos_iff_ne_zero.mpr hne)

theorem draws_clear {color : UInt32} (h : alpha color = 0) (inside : Int → Int → Prop) :
    Draws fb fb inside fun _ _ old => alpha_blend old color where
  geometry := ⟨rfl, rfl, rfl⟩
  drawn _ _ _ _ _ := (alpha_blend_clear h _).symm
  others _ _ := rfl

theorem alpha_blend_ne_zero {color : UInt32} (h : alpha color ≠ 0) (old : UInt32) : alpha_blend old color ≠ 0 := by
  rw [alpha_blend]
  dsimp only
  split
  · rintro rfl
    exact h rfl
  intro hzero
  have hleft := (UInt32.or_eq_zero_iff.mp (UInt32.or_eq_zero_iff.mp (UInt32.or_eq_zero_iff.mp hzero).1).1).1
  exact absurd hleft (by decide)

theorem alpha_le (color : UInt32) : (alpha color).toNat ≤ 255 := by
  unfold alpha
  rw [UInt32.toNat_and]
  exact Nat.and_le_right

theorem blend_toNat (src dst : UInt32) {a : UInt32} (hsrc : src.toNat ≤ 255) (hdst : dst.toNat ≤ 255)
    (ha : a.toNat ≤ 255) :
    (blend src dst a).toNat = (src.toNat * a.toNat + dst.toNat * (255 - a.toNat)) / 255 := by
  have h1 : src.toNat * a.toNat ≤ 255 * a.toNat := Nat.mul_le_mul_right _ hsrc
  have h2 : dst.toNat * (255 - a.toNat) ≤ 255 * (255 - a.toNat) := Nat.mul_le_mul_right _ hdst
  have hsub : (255 - a).toNat = 255 - a.toNat := UInt32.toNat_sub_of_le _ _ ha
  unfold blend
  rw [UInt32.toNat_and, UInt32.toNat_div, UInt32.toNat_add, UInt32.toNat_mul, UInt32.toNat_mul, hsub]
  change _ &&& (2 ^ 8 - 1) = _
  rw [Nat.and_two_pow_sub_one_eq_mod]
  change (_ % 2 ^ 32 / 255) % 2 ^ 8 = _
  omega

theorem toNat_or_byte (u v w b : UInt32) (hb : b.toNat < 256) :
    (u <<< 24 ||| v <<< 16 ||| w <<< 8 ||| b).toNat % 2 ^ 8 = b.toNat := by
  have hshift (u : UInt32) (k : Nat) (hk : 8 ≤ k ∧ k < 32) : (u.toNat <<< k % 2 ^ 32) % 2 ^ 8 = 0 := by
    rw [Nat.shiftLeft_eq, Nat.mod_mod_of_dvd _ (by decide : 2 ^ 8 ∣ 2 ^ 32)]
    exact Nat.mod_eq_zero_of_dvd (Dvd.dvd.mul_left (pow_dvd_pow 2 hk.1) _)
  rw [UInt32.toNat_or, UInt32.toNat_or, UInt32.toNat_or, UInt32.toNat_shiftLeft, UInt32.toNat_shiftLeft,
    UInt32.toNat_shiftLeft, Nat.or_mod_two_pow, Nat.or_mod_two_pow, Nat.or_mod_two_pow]
  have h24 := hshift u 24 (by omega)
  have h16 := hshift v 16 (by omega)
  have h8 := hshift w 8 (by omega)
  rw [show (24 : UInt32).toNat % 32 = 24 from rfl, show (16 : UInt32).toNat % 32 = 16 from rfl,
    show (8 : UInt32).toNat % 32 = 8 from rfl]
  rw [h24, h16, h8, Nat.zero_or, Nat.zero_or, Nat.zero_or]
  omega

theorem alpha_blend_below {color : UInt32} (hclear : alpha color ≠ 0) (hsolid : alpha color ≠ 255) :
    alpha_blend 0 color ≠ alpha_blend 0xFF color := by
  intro heq
  have hbyte (dst : UInt32) (hdst : (dst &&& 0xFF).toNat ≤ 255) : (alpha_blend dst color).toNat % 2 ^ 8 =
      ((color &&& 0xFF).toNat * (alpha color).toNat + (dst &&& 0xFF).toNat * (255 - (alpha color).toNat)) / 255 := by
    have hsrc : (color &&& 0xFF).toNat ≤ 255 := by
      rw [UInt32.toNat_and]
      exact Nat.and_le_right
    have hblend := blend_toNat (color &&& 0xFF) (dst &&& 0xFF) hsrc hdst (alpha_le color)
    have hlt : (blend (color &&& 0xFF) (dst &&& 0xFF) (alpha color)).toNat < 256 := by
      have h1 := Nat.mul_le_mul_right (alpha color).toNat hsrc
      have h2 := Nat.mul_le_mul_right (255 - (alpha color).toNat) hdst
      have := alpha_le color
      omega
    rw [← hblend, alpha_blend]
    dsimp only
    rw [if_neg hsolid, if_neg hclear, toNat_or_byte _ _ _ _ hlt]
  have h0 := hbyte 0 (by decide)
  have h255 := hbyte 0xFF (by decide)
  rw [heq, h255] at h0
  have hle := alpha_le color
  have hne : (alpha color).toNat ≠ 255 := fun h => hsolid (UInt32.toNat_inj.mp h)
  rw [show ((0 : UInt32) &&& 0xFF).toNat = 0 from rfl, show ((0xFF : UInt32) &&& 0xFF).toNat = 255 from rfl] at h0
  omega

end graceos.video
