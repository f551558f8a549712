import GraceOS.Lib.Visit
import GraceOS.Video.Framebuffer
import Mathlib.Data.Int.GCD
import Mathlib.Tactic.Linarith
import Mathlib.Tactic.Ring

/-!
# Lines

`sys_fb_line` of `syscall.c`. The error term of the algorithm is below three times the longer side, but it is doubled in
an `int`.
-/

namespace graceos.video

open visit

/-- The variables that the loop leaves alone. -/
structure Line where
  ix2 : Int
  iy2 : Int
  dx : Int
  dy : Int
  sx : Int
  sy : Int

structure Cursor where
  x : Int
  y : Int
  err : Int

/-- The end of the loop body, behind the test for the end point. -/
def Line.step (v : Line) (c : Cursor) : Cursor :=
  let e2 := int (2 * c.err)
  let c := if e2 > int (-v.dy) then { c with err := int (c.err - v.dy), x := int (c.x + v.sx) } else c
  if e2 < v.dx then { c with err := int (c.err + v.dx), y := int (c.y + v.sy) } else c

def Line.done (v : Line) (c : Cursor) : Prop := c.x = v.ix2 ∧ c.y = v.iy2

instance (v : Line) : DecidablePred v.done := fun c => inferInstanceAs (Decidable (c.x = v.ix2 ∧ c.y = v.iy2))

/-- The loop, with the points that it draws; the body starts with the text of `sys_fb_pixel`. -/
def Line.loop (v : Line) (src : UInt32) : (fuel : Nat) → Fb → Cursor → Option (Fb × List (Int × Int))
  | 0, _, _ => none
  | fuel + 1, fb, c =>
    let fb := sys_fb_pixel fb c.x c.y src
    if v.done c then some (fb, [(c.x, c.y)])
    else (v.loop src fuel fb (v.step c)).map fun r => (r.1, (c.x, c.y) :: r.2)

def line_of (x1 y1 x2 y2 : Int) : Line :=
  let dx := int (int x2 - int x1)
  let dy := int (int y2 - int y1)
  { ix2 := int x2
    iy2 := int y2
    dx := if dx < 0 then int (-dx) else dx
    dy := if dy < 0 then int (-dy) else dy
    sx := if dx < 0 then -1 else 1
    sy := if dy < 0 then -1 else 1 }

def sys_fb_line (fuel : Nat) (fb : Fb) (x1 y1 x2 y2 : Int) (color : UInt32) : Option (Fb × List (Int × Int)) :=
  let v := line_of x1 y1 x2 y2
  v.loop color fuel fb ⟨int x1, int y1, int (v.dx - v.dy)⟩

/-- The points of a line: as many as the longer side needs, from end to end, each next to the one before, and none
farther than half a pixel from the line. -/
structure Accurate (x1 y1 x2 y2 : Int) (points : List (Int × Int)) : Prop where
  length : points.length = max (x2 - x1).natAbs (y2 - y1).natAbs + 1
  first : points.head? = some (x1, y1)
  last : points.getLast? = some (x2, y2)
  adjacent : points.IsChain fun p q => (q.1 - p.1).natAbs ≤ 1 ∧ (q.2 - p.2).natAbs ≤ 1
  near : ∀ p ∈ points, 2 * ((p.2 - y1) * (x2 - x1) - (p.1 - x1) * (y2 - y1)).natAbs ≤
    max (x2 - x1).natAbs (y2 - y1).natAbs

/-! ## Rounding -/

/-- At the step `i` of `M`, the shorter side is at `j` of `m`. -/
structure Rounds (M m i j : Int) : Prop where
  least : 2 * (j * M) - M < 2 * (i * m)
  most : 2 * (i * m) ≤ 2 * (j * M) + M

namespace Rounds

variable {M m i j k : Int}

theorem start (hM : 0 < M) : Rounds M m 0 0 := ⟨by omega, by omega⟩

theorem range (h : Rounds M m i j) (hM : 0 < M) (hm : 0 ≤ m) (hi : 0 ≤ i) (hiM : i ≤ M) : 0 ≤ j ∧ j ≤ m := by
  obtain ⟨hleast, hmost⟩ := h
  have hlow : 0 ≤ i * m := Int.mul_nonneg hi hm
  have hhigh : i * m ≤ M * m := Int.mul_le_mul_of_nonneg_right hiM hm
  constructor
  · by_contra hneg
    have hmul : j * M ≤ -1 * M := Int.mul_le_mul_of_nonneg_right (by omega) (by omega)
    omega
  · by_contra hbeyond
    have hmul : (m + 1) * M ≤ j * M := Int.mul_le_mul_of_nonneg_right (by omega) (by omega)
    rw [Int.add_mul, Int.one_mul, Int.mul_comm m M] at hmul
    omega

theorem finish (h : Rounds M m M j) (hM : 0 < M) : j = m := by
  obtain ⟨hleast, hmost⟩ := h
  rw [Int.mul_comm M m] at hleast hmost
  obtain hlt | heq | hgt := Int.lt_trichotomy j m
  · have hmul : (j + 1) * M ≤ m * M := Int.mul_le_mul_of_nonneg_right (by omega) (by omega)
    rw [Int.add_mul, Int.one_mul] at hmul
    omega
  · exact heq
  · have hmul : (m + 1) * M ≤ j * M := Int.mul_le_mul_of_nonneg_right (by omega) (by omega)
    rw [Int.add_mul, Int.one_mul] at hmul
    omega

theorem unique (h : Rounds M m i j) (h' : Rounds M m i k) (hM : 0 < M) : j = k := by
  obtain ⟨hleast, hmost⟩ := h
  obtain ⟨hleast', hmost'⟩ := h'
  obtain hlt | heq | hgt := Int.lt_trichotomy j k
  · have hmul : (j + 1) * M ≤ k * M := Int.mul_le_mul_of_nonneg_right (by omega) (by omega)
    rw [Int.add_mul, Int.one_mul] at hmul
    omega
  · exact heq
  · have hmul : (k + 1) * M ≤ j * M := Int.mul_le_mul_of_nonneg_right (by omega) (by omega)
    rw [Int.add_mul, Int.one_mul] at hmul
    omega

theorem step (h : Rounds M m i j) (hm : 0 ≤ m) (hle : m ≤ M) :
    (2 * (j * M) + M < 2 * (i * m) + 2 * m → Rounds M m (i + 1) (j + 1)) ∧
      (¬ 2 * (j * M) + M < 2 * (i * m) + 2 * m → Rounds M m (i + 1) j) := by
  obtain ⟨hleast, hmost⟩ := h
  have hi : (i + 1) * m = i * m + m := by ring
  have hj : (j + 1) * M = j * M + M := by ring
  exact ⟨fun hup => ⟨by omega, by omega⟩, fun hstay => ⟨by omega, by omega⟩⟩

theorem moves (h : Rounds M m i j) (hM : 0 < M) (hle : m ≤ M) : 2 * (i * m) + m < 2 * (j * M) + 2 * M := by
  obtain ⟨hleast, hmost⟩ := h
  obtain hlt | rfl := Int.lt_or_eq_of_le hle
  · omega
  · have hij : i ≤ j := by
      by_contra hgt
      have hmul : (j + 1) * m ≤ i * m := Int.mul_le_mul_of_nonneg_right (by omega) (by omega)
      rw [Int.add_mul, Int.one_mul] at hmul
      omega
    have hmul : i * m ≤ j * m := Int.mul_le_mul_of_nonneg_right hij (by omega)
    omega

end Rounds

/-- The largest multiple of `2 * gcd M m` below `M`. -/
def reach (M m : Int) : Int := 2 * (Int.gcd M m : Int) * ((M - 1) / (2 * (Int.gcd M m : Int)))

section
variable {M m : Int} (hM : 0 < M)
include hM

theorem gcd_pos : 0 < (Int.gcd M m : Int) := by
  have hpos := Int.gcd_pos_of_ne_zero_left m (by omega : M ≠ 0)
  omega

theorem reach_lt : 0 ≤ reach M m ∧ reach M m < M := by
  have hg := gcd_pos (m := m) hM
  have hle := Int.mul_ediv_self_le (x := M - 1) (k := 2 * (Int.gcd M m : Int)) (by omega)
  have hquot : 0 ≤ (M - 1) / (2 * (Int.gcd M m : Int)) := Int.ediv_nonneg (by omega) (by omega)
  rw [reach]
  exact ⟨Int.mul_nonneg (by omega) hquot, by omega⟩

theorem Rounds.le_reach {i j : Int} (h : Rounds M m i j) : 2 * (j * M) - 2 * (i * m) ≤ reach M m := by
  have hg := gcd_pos (m := m) hM
  obtain ⟨a, ha⟩ := Int.gcd_dvd_left M m
  obtain ⟨b, hb⟩ := Int.gcd_dvd_right M m
  have hdvd : 2 * (j * M) - 2 * (i * m) = (j * a - i * b) * (2 * (Int.gcd M m : Int)) := by
    rw [show j * M = j * (Int.gcd M m * a) by rw [← ha], show i * m = i * (Int.gcd M m * b) by rw [← hb]]
    ring
  have hle : j * a - i * b ≤ (M - 1) / (2 * (Int.gcd M m : Int)) := by
    rw [Int.le_ediv_iff_mul_le (by omega), ← hdvd]
    have hleast := h.least
    omega
  rw [hdvd, reach, Int.mul_comm]
  exact Int.mul_le_mul_of_nonneg_left hle (by omega)

theorem exists_rounds_reach : ∃ i j, 0 ≤ i ∧ i < M ∧ Rounds M m i j ∧ 2 * (j * M) - 2 * (i * m) = reach M m := by
  obtain ⟨hnonneg, hlt⟩ := reach_lt (m := m) hM
  have hbezout := Int.gcd_eq_gcd_ab M m
  have hsplit := Int.emod_add_mul_ediv (-((M - 1) / (2 * (Int.gcd M m : Int)) * Int.gcdB M m)) M
  generalize hq : (M - 1) / (2 * (Int.gcd M m : Int)) = q at *
  have hreach : reach M m = 2 * (Int.gcd M m * q) := by
    rw [reach, hq]
    ring
  refine ⟨-(q * Int.gcdB M m) % M, q * Int.gcdA M m - -(q * Int.gcdB M m) / M * m, Int.emod_nonneg _ (by omega),
    Int.emod_lt_of_pos _ hM, ?_⟩
  generalize -(q * Int.gcdB M m) % M = i at *
  generalize -(q * Int.gcdB M m) / M = d at *
  have hdiff : (q * Int.gcdA M m - d * m) * M - i * m = Int.gcd M m * q := by
    have hi : i = -(q * Int.gcdB M m) - M * d := by omega
    rw [hi, hbezout]
    ring
  exact ⟨⟨by omega, by omega⟩, by omega⟩

end

/-! ## Walks -/

theorem loop_eq_states (v : Line) (src : UInt32) (fuel : Nat) (fb : Fb) (c : Cursor) :
    v.loop src fuel fb c = (states v.step v.done fuel c).map fun l =>
      (l.foldl (fun fb c => sys_fb_pixel fb c.x c.y src) fb, l.map fun c => (c.x, c.y)) := by
  induction fuel generalizing fb c with
  | zero => rfl
  | succ fuel ih =>
    rw [Line.loop]
    by_cases hdone : v.done c
    · rw [if_pos hdone, states_stop hdone]
      rfl
    · rw [if_neg hdone, states_go hdone, ih, Option.map_map, Option.map_map]
      rfl

/-- Cursors next to each other. -/
def Adjacent (s t : Cursor) : Prop := (t.x - s.x).natAbs ≤ 1 ∧ (t.y - s.y).natAbs ≤ 1

/-- The walk of an octant: the cursor after `k` of `n` steps, and where the doubled error leaves the `int`, so that the
coordinate `c` of the longer side stands still. -/
structure Octant (v : Line) (start : Cursor) (good : Nat → Cursor → Prop) (n : Nat) (beyond : Cursor → Prop)
    (c : Cursor → Int) : Prop where
  start : good 0 start
  alone : ∀ k s t, good k s → good k t → s = t
  go : ∀ k < n, ∀ s, good k s → ¬ v.done s
  stop : ∀ s, good n s → v.done s
  step : ∀ k < n, ∀ s, good k s → ¬ beyond s → good (k + 1) (v.step s) ∧ Adjacent s (v.step s)
  stall : ∀ k < n, ∀ s, good k s → beyond s → c (v.step s) = c s

section
variable {v : Line} {start : Cursor} {good : Nat → Cursor → Prop} {n : Nat} {beyond : Cursor → Prop} {c : Cursor → Int}

theorem Octant.walks (h : Octant v start good n beyond c) (hfits : ∀ k < n, ∀ s, good k s → ¬ beyond s) :
    ∃ l, states v.step v.done (n + 1) start = some l ∧ l.length = n + 1 ∧
      (∃ last, l.getLast? = some last ∧ good n last) ∧
      (∀ t ∈ l, ∃ k ≤ n, good k t) ∧ l.IsChain Adjacent := by
  have hcourse : Course v.step v.done good n :=
    ⟨fun k hk s hs => ⟨h.go k hk s hs, (h.step k hk s hs (hfits k hk s hs)).1⟩, h.stop⟩
  obtain ⟨l, hl, hlength, hlast, hall, hchain⟩ := hcourse.visits (Nat.zero_add n) h.start
  refine ⟨l, hl, hlength, hlast, hall, hchain.imp fun s t hst => ?_⟩
  obtain ⟨rfl, k, hk, hs⟩ := hst
  exact (h.step k hk s hs (hfits k hk s hs)).2

theorem Octant.strays (h : Octant v start good n beyond c) (hbeyond : ∃ k, k < n ∧ ∃ s, good k s ∧ beyond s)
    (hc : ∀ s t, Adjacent s t → (c t - c s).natAbs ≤ 1) {fuel : Nat} {l : List Cursor}
    (hl : states v.step v.done fuel start = some l) (hchain : l.IsChain Adjacent) {last : Cursor}
    (hlast : l.getLast? = some last) : (c last - c start).natAbs + 1 < l.length := by
  classical
  obtain ⟨hk, s, hs, hsover⟩ := Nat.find_spec hbeyond
  refine stalls (c := c) (fun k (hlt : k < Nat.find hbeyond) t ht => ?_) (fun t ht => ?_) (Nat.zero_le _) h.start hl
    (hchain.imp hc) hlast
  · have hkn : k < n := hlt.trans hk
    refine ⟨h.go k hkn t ht, (h.step k hkn t ht fun htover => ?_).1⟩
    exact Nat.find_min hbeyond hlt ⟨hkn, t, ht, htover⟩
  · obtain rfl := h.alone _ s t hs ht
    exact ⟨h.go _ hk s hs, h.stall _ hk s hs hsover⟩

end

/-! ## The octants -/

/-- A line whose end points lie within the bounds. -/
structure Proper (v : Line) (x1 y1 : Int) : Prop where
  x : -2 ^ 29 < x1 ∧ x1 < 2 ^ 29
  y : -2 ^ 29 < y1 ∧ y1 < 2 ^ 29
  dx : 0 ≤ v.dx ∧ v.dx < 2 ^ 30
  dy : 0 ≤ v.dy ∧ v.dy < 2 ^ 30
  sx : v.sx = 1 ∨ v.sx = -1
  sy : v.sy = 1 ∨ v.sy = -1
  ix2 : v.ix2 = x1 + v.sx * v.dx
  iy2 : v.iy2 = y1 + v.sy * v.dy

/-- The cursor after `i` steps along `x` and `j` along `y`. -/
def Line.at (v : Line) (x1 y1 i j : Int) : Cursor := ⟨x1 + v.sx * i, y1 + v.sy * j, j * v.dx + v.dx - i * v.dy - v.dy⟩

theorem int_of_range {v : Int} (hleast : -2 ^ 31 ≤ v) (hlimit : v < 2 ^ 31) : int v = v := by
  rw [int]
  omega

theorem coordinate_step {s x i m : Int} (hs : s = 1 ∨ s = -1) (hx : -2 ^ 29 < x ∧ x < 2 ^ 29)
    (hm : m < 2 ^ 30) (hi : 0 ≤ i)
    (him : i + 1 ≤ m) : int (x + s * i + s) = x + s * (i + 1) := by
  obtain rfl | rfl := hs
  · rw [int_of_range (by omega) (by omega)]
    omega
  · rw [int_of_range (by omega) (by omega)]
    omega

theorem natAbs_signed {s : Int} (hs : s = 1 ∨ s = -1) (a : Int) : (s * a).natAbs = a.natAbs := by
  obtain rfl | rfl := hs
  · rw [Int.one_mul]
  · rw [Int.neg_one_mul, Int.natAbs_neg]

theorem signed_inj {s x a b : Int} (hs : s = 1 ∨ s = -1) (h : x + s * a = x + s * b) : a = b := by
  obtain rfl | rfl := hs
  · omega
  · omega

section
variable {v : Line} {x1 y1 i j : Int} (h : Proper v x1 y1)
include h

/-- One step where both tests compare the doubled error itself. -/
theorem Proper.step (herr : -2 ^ 31 ≤ 2 * (v.at x1 y1 i j).err ∧ 2 * (v.at x1 y1 i j).err < 2 ^ 31)
    (hi : 0 ≤ i) (hj : 0 ≤ j)
    (hix : 2 * (v.at x1 y1 i j).err > -v.dy → i + 1 ≤ v.dx) (hjy : 2 * (v.at x1 y1 i j).err < v.dx → j + 1 ≤ v.dy) :
    v.step (v.at x1 y1 i j) =
      v.at x1 y1 (if 2 * (v.at x1 y1 i j).err > -v.dy then i + 1 else i)
        (if 2 * (v.at x1 y1 i j).err < v.dx then j + 1 else j) := by
  have hdx := h.dx
  have hdy := h.dy
  have hip : (i + 1) * v.dy = i * v.dy + v.dy := by ring
  have hjp : (j + 1) * v.dx = j * v.dx + v.dx := by ring
  rw [Line.step]
  rw [int_of_range herr.1 herr.2, int_of_range (by omega : -2 ^ 31 ≤ -v.dy) (by omega)]
  by_cases hxstep : 2 * (v.at x1 y1 i j).err > -v.dy
  · have hx : int ((v.at x1 y1 i j).x + v.sx) = x1 + v.sx * (i + 1) := coordinate_step h.sx h.x hdx.2 hi (hix hxstep)
    rw [if_pos hxstep, if_pos hxstep, hx, int_of_range (by omega) (by omega)]
    by_cases hystep : 2 * (v.at x1 y1 i j).err < v.dx
    · have hy : int ((v.at x1 y1 i j).y + v.sy) = y1 + v.sy * (j + 1) := coordinate_step h.sy h.y hdy.2 hj (hjy hystep)
      rw [if_pos hystep, if_pos hystep]
      dsimp only
      rw [hy, int_of_range (by omega) (by omega), Line.at, Line.at, hip, hjp]
      dsimp only
      congr 1
      omega
    · rw [if_neg hystep, if_neg hystep, Line.at, Line.at, hip]
      dsimp only
      congr 1
      omega
  · rw [if_neg hxstep, if_neg hxstep]
    by_cases hystep : 2 * (v.at x1 y1 i j).err < v.dx
    · have hy : int ((v.at x1 y1 i j).y + v.sy) = y1 + v.sy * (j + 1) := coordinate_step h.sy h.y hdy.2 hj (hjy hystep)
      rw [if_pos hystep, if_pos hystep, hy, int_of_range (by omega) (by omega), Line.at, Line.at, hjp]
      dsimp only
      congr 1
      omega
    · rw [if_neg hystep, if_neg hystep]

theorem Proper.adjacent {a b : Int} (ha : 0 ≤ a ∧ a ≤ 1) (hb : 0 ≤ b ∧ b ≤ 1) :
    Adjacent (v.at x1 y1 i j) (v.at x1 y1 (i + a) (j + b)) := by
  have hax : x1 + v.sx * (i + a) - (x1 + v.sx * i) = v.sx * a := by ring
  have hby : y1 + v.sy * (j + b) - (y1 + v.sy * j) = v.sy * b := by ring
  constructor
  · change (x1 + v.sx * (i + a) - (x1 + v.sx * i)).natAbs ≤ 1
    rw [hax, natAbs_signed h.sx]
    omega
  · change (y1 + v.sy * (j + b) - (y1 + v.sy * j)).natAbs ≤ 1
    rw [hby, natAbs_signed h.sy]
    omega

theorem Proper.stall_x (hlow : 2 ^ 31 ≤ 2 * (v.at x1 y1 i j).err) (hhigh : 2 * (v.at x1 y1 i j).err < 3 * 2 ^ 30) :
    (v.step (v.at x1 y1 i j)).x = (v.at x1 y1 i j).x := by
  have hdy := h.dy
  have hwrap : ¬ int (2 * (v.at x1 y1 i j).err) > int (-v.dy) := by
    rw [int, int]
    omega
  rw [Line.step]
  rw [if_neg hwrap]
  split_ifs <;> rfl

theorem Proper.stall_y (hlow : -(3 * 2 ^ 30) < 2 * (v.at x1 y1 i j).err) (hhigh : 2 * (v.at x1 y1 i j).err < -2 ^ 31) :
    (v.step (v.at x1 y1 i j)).y = (v.at x1 y1 i j).y := by
  have hdx := h.dx
  have hwrap : ¬ int (2 * (v.at x1 y1 i j).err) < v.dx := by
    rw [int]
    omega
  rw [Line.step]
  rw [if_neg hwrap]
  split_ifs <;> rfl

/-- The octants in which `x` takes every step. -/
theorem Proper.flat (hle : v.dy ≤ v.dx) (hpos : 0 < v.dx) :
    Octant v (v.at x1 y1 0 0) (fun k s => (k : Int) ≤ v.dx ∧ ∃ j, Rounds v.dx v.dy k j ∧ s = v.at x1 y1 k j) v.dx.toNat
      (fun s => 2 ^ 31 ≤ 2 * s.err) Cursor.x := by
  have hdx := h.dx
  have hdy := h.dy
  constructor
  · exact ⟨by omega, 0, Rounds.start hpos, rfl⟩
  · rintro k s t ⟨-, j, hj, rfl⟩ ⟨-, j', hj', rfl⟩
    rw [hj.unique hj' hpos]
  · rintro k hk s ⟨-, j, -, rfl⟩ hdone
    have hx : x1 + v.sx * k = v.ix2 := hdone.1
    rw [h.ix2] at hx
    have hend := signed_inj h.sx hx
    omega
  · rintro s ⟨-, j, hj, rfl⟩
    rw [Int.toNat_of_nonneg hdx.1] at hj ⊢
    obtain rfl := hj.finish hpos
    exact ⟨h.ix2.symm, h.iy2.symm⟩
  · rintro k hk s ⟨-, j, hj, rfl⟩ hbeyond
    have hmoves := hj.moves hpos hle
    obtain ⟨hup, hstay⟩ := hj.step hdy.1 hle
    obtain ⟨hj0, -⟩ := hj.range hpos hdy.1 (by omega) (by omega)
    have herr : (v.at x1 y1 k j).err = j * v.dx + v.dx - k * v.dy - v.dy := rfl
    have hxstep : 2 * (v.at x1 y1 k j).err > -v.dy := by omega
    rw [h.step (by omega) (by omega) hj0 (fun _ => by omega)
      (fun hy => ((hup (by omega)).range hpos hdy.1 (by omega) (by omega)).2), if_pos hxstep]
    by_cases hystep : 2 * (v.at x1 y1 k j).err < v.dx
    · rw [if_pos hystep]
      exact ⟨⟨by omega, j + 1, hup (by omega), rfl⟩, h.adjacent (by omega) (by omega)⟩
    · rw [if_neg hystep]
      have hadjacent := h.adjacent (i := (k : Int)) (j := j) (a := 1) (b := 0) (by omega) (by omega)
      rw [Int.add_zero] at hadjacent
      exact ⟨⟨by omega, j, hstay (by omega), rfl⟩, hadjacent⟩
  · rintro k hk s ⟨-, j, hj, rfl⟩ hbeyond
    have hleast := hj.least
    have herr : (v.at x1 y1 k j).err = j * v.dx + v.dx - k * v.dy - v.dy := rfl
    exact h.stall_x hbeyond (by omega)

/-- The octants in which `y` takes every step. -/
theorem Proper.steep (hlt : v.dx < v.dy) :
    Octant v (v.at x1 y1 0 0) (fun k s => (k : Int) ≤ v.dy ∧ ∃ i, Rounds v.dy v.dx k i ∧ s = v.at x1 y1 i k) v.dy.toNat
      (fun s => 2 * s.err < -2 ^ 31) Cursor.y := by
  have hdx := h.dx
  have hdy := h.dy
  have hpos : 0 < v.dy := by omega
  have hle : v.dx ≤ v.dy := by omega
  constructor
  · exact ⟨by omega, 0, Rounds.start hpos, rfl⟩
  · rintro k s t ⟨-, i, hi, rfl⟩ ⟨-, i', hi', rfl⟩
    rw [hi.unique hi' hpos]
  · rintro k hk s ⟨-, i, -, rfl⟩ hdone
    have hy : y1 + v.sy * k = v.iy2 := hdone.2
    rw [h.iy2] at hy
    have hend := signed_inj h.sy hy
    omega
  · rintro s ⟨-, i, hi, rfl⟩
    rw [Int.toNat_of_nonneg hdy.1] at hi ⊢
    obtain rfl := hi.finish hpos
    exact ⟨h.ix2.symm, h.iy2.symm⟩
  · rintro k hk s ⟨-, i, hi, rfl⟩ hbeyond
    have hmoves := hi.moves hpos hle
    have hleast := hi.least
    obtain ⟨hup, hstay⟩ := hi.step hdx.1 hle
    obtain ⟨hi0, -⟩ := hi.range hpos hdx.1 (by omega) (by omega)
    have herr : (v.at x1 y1 i k).err = k * v.dx + v.dx - i * v.dy - v.dy := rfl
    have hystep : 2 * (v.at x1 y1 i k).err < v.dx := by omega
    rw [h.step (by omega) hi0 (by omega) (fun hx => ((hup (by omega)).range hpos hdx.1 (by omega) (by omega)).2)
      (fun _ => by omega), if_pos hystep]
    by_cases hxstep : 2 * (v.at x1 y1 i k).err > -v.dy
    · rw [if_pos hxstep]
      exact ⟨⟨by omega, i + 1, hup (by omega), rfl⟩, h.adjacent (by omega) (by omega)⟩
    · rw [if_neg hxstep]
      have hadjacent := h.adjacent (i := i) (j := (k : Int)) (a := 0) (b := 1) (by omega) (by omega)
      rw [Int.add_zero] at hadjacent
      exact ⟨⟨by omega, i, hstay (by omega), rfl⟩, hadjacent⟩
  · rintro k hk s ⟨-, i, hi, rfl⟩ hbeyond
    have hleast := hi.least
    have herr : (v.at x1 y1 i k).err = k * v.dx + v.dx - i * v.dy - v.dy := rfl
    exact h.stall_y (by omega) hbeyond

end

/-! ## Lines -/

/-- The doubled error stays an `int`, for a line with the sides `dx` and `dy`. -/
def Fits (dx dy : Int) : Prop :=
  if dy ≤ dx then 2 * (dx - dy) + reach dx dy < 2 ^ 31 else 2 * (dy - dx) + reach dy dx ≤ 2 ^ 31

section
variable {v : Line} {x1 y1 : Int}

theorem flat_fits_iff (hpos : 0 < v.dx) :
    (∀ k < v.dx.toNat, ∀ s, ((k : Int) ≤ v.dx ∧ ∃ j, Rounds v.dx v.dy k j ∧ s = v.at x1 y1 k j) →
      ¬ 2 ^ 31 ≤ 2 * s.err) ↔
      2 * (v.dx - v.dy) + reach v.dx v.dy < 2 ^ 31 := by
  constructor
  · intro hfits
    by_contra hbeyond
    obtain ⟨i, j, hi, him, hj, hreach⟩ := exists_rounds_reach (m := v.dy) hpos
    rw [← Int.toNat_of_nonneg hi] at hj
    refine hfits i.toNat (by omega) (v.at x1 y1 i.toNat j) ⟨by omega, j, hj, rfl⟩ ?_
    rw [Int.toNat_of_nonneg hi]
    change 2 ^ 31 ≤ 2 * (j * v.dx + v.dx - i * v.dy - v.dy)
    omega
  · rintro hfits k hk s ⟨-, j, hj, rfl⟩ hbeyond
    have hle := hj.le_reach hpos
    change 2 ^ 31 ≤ 2 * (j * v.dx + v.dx - k * v.dy - v.dy) at hbeyond
    omega

theorem steep_fits_iff (hpos : 0 < v.dy) :
    (∀ k < v.dy.toNat, ∀ s, ((k : Int) ≤ v.dy ∧ ∃ i, Rounds v.dy v.dx k i ∧ s = v.at x1 y1 i k) →
      ¬ 2 * s.err < -2 ^ 31) ↔
      2 * (v.dy - v.dx) + reach v.dy v.dx ≤ 2 ^ 31 := by
  constructor
  · intro hfits
    by_contra hbeyond
    obtain ⟨j, i, hj, hjm, hi, hreach⟩ := exists_rounds_reach (m := v.dx) hpos
    rw [← Int.toNat_of_nonneg hj] at hi
    refine hfits j.toNat (by omega) (v.at x1 y1 i j.toNat) ⟨by omega, i, hi, rfl⟩ ?_
    rw [Int.toNat_of_nonneg hj]
    change 2 * (j * v.dx + v.dx - i * v.dy - v.dy) < -2 ^ 31
    omega
  · rintro hfits k hk s ⟨-, i, hi, rfl⟩ hbeyond
    have hle := hi.le_reach hpos
    change 2 * (k * v.dx + v.dx - i * v.dy - v.dy) < -2 ^ 31 at hbeyond
    omega

variable (h : Proper v x1 y1)
include h

theorem Proper.distance (i j : Int) :
    (((v.at x1 y1 i j).y - y1) * (v.ix2 - x1) - ((v.at x1 y1 i j).x - x1) * (v.iy2 - y1)).natAbs =
        (j * v.dx - i * v.dy).natAbs := by
  have hproduct : ((v.at x1 y1 i j).y - y1) * (v.ix2 - x1) - ((v.at x1 y1 i j).x - x1) * (v.iy2 - y1) =
      v.sx * (v.sy * (j * v.dx - i * v.dy)) := by
    rw [h.ix2, h.iy2, Line.at]
    ring
  rw [hproduct, natAbs_signed h.sx, natAbs_signed h.sy]

theorem Proper.sides : (v.ix2 - x1).natAbs = v.dx.toNat ∧ (v.iy2 - y1).natAbs = v.dy.toNat := by
  have hdx := h.dx
  have hdy := h.dy
  rw [h.ix2, h.iy2, add_sub_cancel_left, add_sub_cancel_left, natAbs_signed h.sx, natAbs_signed h.sy]
  exact ⟨by omega, by omega⟩

theorem Proper.accurate {n : Nat} {good : Nat → Cursor → Prop} {l : List Cursor} (hn : n = max v.dx.toNat v.dy.toNat)
    (hl : states v.step v.done (n + 1) (v.at x1 y1 0 0) = some l) (hlength : l.length = n + 1)
    (hend : ∃ last, l.getLast? = some last ∧ good n last) (hall : ∀ t ∈ l, ∃ k ≤ n, good k t)
    (hchain : l.IsChain Adjacent)
    (hstop : ∀ s, good n s → v.done s)
    (hnear : ∀ k s, good k s → 2 * ((s.y - y1) * (v.ix2 - x1) - (s.x - x1) * (v.iy2 - y1)).natAbs ≤ n) :
    Accurate x1 y1 v.ix2 v.iy2 (l.map fun c => (c.x, c.y)) := by
  obtain ⟨hsidex, hsidey⟩ := h.sides
  obtain ⟨rest, rfl⟩ := exists_cons hl
  obtain ⟨last, hlast, hgood⟩ := hend
  obtain ⟨hx, hy⟩ := hstop last hgood
  refine ⟨?_, ?_, ?_, ?_, fun p hp => ?_⟩
  · rw [List.length_map, hlength, hsidex, hsidey, hn]
  · simp [Line.at]
  · rw [List.getLast?_map, hlast, ← hx, ← hy]
    rfl
  · rw [List.isChain_map]
    exact hchain
  · obtain ⟨t, ht, rfl⟩ := List.mem_map.mp hp
    obtain ⟨k, -, hk⟩ := hall t ht
    rw [hsidex, hsidey, ← hn]
    exact hnear k t hk

theorem Proper.accurate_point (hx : v.dx = 0) (hy : v.dy = 0) :
    states v.step v.done 1 (v.at x1 y1 0 0) = some [v.at x1 y1 0 0] ∧
      Accurate x1 y1 v.ix2 v.iy2 ([v.at x1 y1 0 0].map fun c => (c.x, c.y)) := by
  have hstop : v.done (v.at x1 y1 0 0) := by
    have hix2 := h.ix2
    have hiy2 := h.iy2
    rw [hx] at hix2
    rw [hy] at hiy2
    exact ⟨hix2.symm, hiy2.symm⟩
  refine ⟨states_stop hstop 0,
    @Proper.accurate v x1 y1 h 0 (fun _ s => s = v.at x1 y1 0 0) _ (by omega) (states_stop hstop 0) rfl
    ⟨_, rfl, rfl⟩ (fun t ht => ⟨0, le_refl 0, List.mem_singleton.mp ht⟩) (List.isChain_singleton _)
    (fun s hs => hs ▸ hstop) ?_⟩
  rintro k s rfl
  rw [h.distance]
  omega

theorem Proper.walks (hfits : Fits v.dx v.dy) :
    ∃ fuel l, states v.step v.done fuel (v.at x1 y1 0 0) = some l ∧
      Accurate x1 y1 v.ix2 v.iy2 (l.map fun c => (c.x, c.y)) := by
  have hdx := h.dx
  have hdy := h.dy
  rw [Fits] at hfits
  by_cases hle : v.dy ≤ v.dx
  · rw [if_pos hle] at hfits
    by_cases hpos : 0 < v.dx
    · obtain ⟨l, hl, hlength, hend, hall, hchain⟩ := (h.flat hle hpos).walks ((flat_fits_iff hpos).mpr hfits)
      refine ⟨_, l, hl, h.accurate (by omega) hl hlength hend hall hchain (h.flat hle hpos).stop ?_⟩
      rintro k s ⟨-, j, hj, rfl⟩
      obtain ⟨hleast, hmost⟩ := hj
      rw [h.distance]
      omega
    · exact ⟨1, _, h.accurate_point (by omega) (by omega)⟩
  · rw [if_neg hle] at hfits
    have hlt : v.dx < v.dy := by omega
    have hpos : 0 < v.dy := by omega
    obtain ⟨l, hl, hlength, hend, hall, hchain⟩ := (h.steep hlt).walks ((steep_fits_iff hpos).mpr hfits)
    refine ⟨_, l, hl, h.accurate (by omega) hl hlength hend hall hchain (h.steep hlt).stop ?_⟩
    rintro k s ⟨-, i, hi, rfl⟩
    obtain ⟨hleast, hmost⟩ := hi
    rw [h.distance]
    omega

/-- An accurate walk is one of a line whose sides fit. -/
theorem Proper.fits {fuel : Nat} {l : List Cursor} (hl : states v.step v.done fuel (v.at x1 y1 0 0) = some l)
    (haccurate : Accurate x1 y1 v.ix2 v.iy2 (l.map fun c => (c.x, c.y))) : Fits v.dx v.dy := by
  have hdx := h.dx
  have hdy := h.dy
  obtain ⟨hsidex, hsidey⟩ := h.sides
  have hlength := haccurate.length
  rw [List.length_map, hsidex, hsidey] at hlength
  have hchain : l.IsChain Adjacent := by
    have hadjacent := haccurate.adjacent
    rwa [List.isChain_map] at hadjacent
  obtain ⟨last, hlast⟩ : ∃ last, l.getLast? = some last := by
    obtain ⟨rest, rfl⟩ := exists_cons hl
    exact ⟨_, List.getLast?_eq_some_getLast (List.cons_ne_nil _ _)⟩
  have hend := haccurate.last
  rw [List.getLast?_map, hlast] at hend
  obtain ⟨hx, hy⟩ := Prod.mk.inj (Option.some.inj hend)
  rw [Fits]
  by_cases hle : v.dy ≤ v.dx
  · rw [if_pos hle]
    by_cases hpos : 0 < v.dx
    · refine (@flat_fits_iff v x1 y1 hpos).mp (fun k hk s hs hbeyond => ?_)
      have hstray := (h.flat hle hpos).strays ⟨k, hk, s, hs, hbeyond⟩ (fun s t hst => hst.1) hl hchain hlast
      have hstart : (v.at x1 y1 0 0).x = x1 := by simp [Line.at]
      rw [hx, hstart, hsidex] at hstray
      omega
    · rw [show v.dx = 0 by omega, show v.dy = 0 by omega]
      decide
  · rw [if_neg hle]
    have hlt : v.dx < v.dy := by omega
    refine (@steep_fits_iff v x1 y1 (by omega)).mp (fun k hk s hs hbeyond => ?_)
    have hstray := (h.steep hlt).strays ⟨k, hk, s, hs, hbeyond⟩ (fun s t hst => hst.2) hl hchain hlast
    have hstart : (v.at x1 y1 0 0).y = y1 := by simp [Line.at]
    rw [hy, hstart, hsidey] at hstray
    omega

end

/-- The bounds of the coordinates. -/
def Near (c : Int) : Prop := -2 ^ 29 < c ∧ c < 2 ^ 29

instance (c : Int) : Decidable (Near c) := inferInstanceAs (Decidable (-2 ^ 29 < c ∧ c < 2 ^ 29))

section
variable {x1 y1 x2 y2 : Int} (hx1 : Near x1) (hy1 : Near y1) (hx2 : Near x2) (hy2 : Near y2)
include hx1 hx2

theorem difference_eq : int (int x2 - int x1) = x2 - x1 := by
  obtain ⟨hlow, hhigh⟩ := hx1
  obtain ⟨hlow', hhigh'⟩ := hx2
  rw [int_of_range (v := x1) (by omega) (by omega), int_of_range (v := x2) (by omega) (by omega),
    int_of_range (by omega) (by omega)]

theorem side_eq : (if int (int x2 - int x1) < 0 then int (-int (int x2 - int x1)) else int (int x2 - int x1)) =
    (x2 - x1).natAbs := by
  have hdiff := difference_eq hx1 hx2
  obtain ⟨hlow, hhigh⟩ := hx1
  obtain ⟨hlow', hhigh'⟩ := hx2
  rw [hdiff]
  by_cases hneg : x2 - x1 < 0
  · rw [if_pos hneg, int_of_range (by omega) (by omega)]
    omega
  · rw [if_neg hneg]
    omega

theorem sign_eq : (if int (int x2 - int x1) < 0 then (-1 : Int) else 1) * (x2 - x1).natAbs = x2 - x1 := by
  rw [difference_eq hx1 hx2]
  by_cases hneg : x2 - x1 < 0
  · rw [if_pos hneg]
    omega
  · rw [if_neg hneg]
    omega

include hy1 hy2

theorem line_of_proper : Proper (line_of x1 y1 x2 y2) x1 y1 ∧ (line_of x1 y1 x2 y2).ix2 = x2 ∧
    (line_of x1 y1 x2 y2).iy2 = y2 ∧
    (line_of x1 y1 x2 y2).dx = (x2 - x1).natAbs ∧ (line_of x1 y1 x2 y2).dy = (y2 - y1).natAbs := by
  have hdx := side_eq hx1 hx2
  have hdy := side_eq hy1 hy2
  have hsx := sign_eq hx1 hx2
  have hsy := sign_eq hy1 hy2
  obtain ⟨hlow, hhigh⟩ := hx1
  obtain ⟨hlow', hhigh'⟩ := hx2
  obtain ⟨ylow, yhigh⟩ := hy1
  obtain ⟨ylow', yhigh'⟩ := hy2
  have hix2 : (line_of x1 y1 x2 y2).ix2 = x2 := int_of_range (by omega) (by omega)
  have hiy2 : (line_of x1 y1 x2 y2).iy2 = y2 := int_of_range (by omega) (by omega)
  have hdx' : (line_of x1 y1 x2 y2).dx = (x2 - x1).natAbs := hdx
  have hdy' : (line_of x1 y1 x2 y2).dy = (y2 - y1).natAbs := hdy
  refine ⟨⟨⟨hlow, hhigh⟩, ⟨ylow, yhigh⟩, ?_, ?_, ?_, ?_, ?_, ?_⟩, hix2, hiy2, hdx', hdy'⟩
  · rw [hdx']
    omega
  · rw [hdy']
    omega
  · rw [line_of]
    dsimp only
    split_ifs
    · exact Or.inr rfl
    · exact Or.inl rfl
  · rw [line_of]
    dsimp only
    split_ifs
    · exact Or.inr rfl
    · exact Or.inl rfl
  · rw [hix2, hdx']
    change x2 = x1 + (if int (int x2 - int x1) < 0 then (-1 : Int) else 1) * (x2 - x1).natAbs
    omega
  · rw [hiy2, hdy']
    change y2 = y1 + (if int (int y2 - int y1) < 0 then (-1 : Int) else 1) * (y2 - y1).natAbs
    omega

theorem sys_fb_line_eq (fuel : Nat) (fb : Fb) (color : UInt32) :
    sys_fb_line fuel fb x1 y1 x2 y2 color =
      (states (line_of x1 y1 x2 y2).step (line_of x1 y1 x2 y2).done fuel
        ((line_of x1 y1 x2 y2).at x1 y1 0 0)).map fun l =>
        (l.foldl (fun fb c => sys_fb_pixel fb c.x c.y color) fb, l.map fun c => (c.x, c.y)) := by
  obtain ⟨hproper, -, -, -, -⟩ := line_of_proper hx1 hy1 hx2 hy2
  have hdx := hproper.dx
  have hdy := hproper.dy
  obtain ⟨hlow, hhigh⟩ := hx1
  obtain ⟨ylow, yhigh⟩ := hy1
  rw [sys_fb_line]
  rw [loop_eq_states, int_of_range (v := x1) (by omega) (by omega), int_of_range (v := y1) (by omega) (by omega),
    int_of_range (by omega) (by omega), Line.at]
  congr 3
  · omega
  · omega
  · omega

theorem fits_of_accurate {fuel : Nat} {fb fb' : Fb} {color : UInt32} {points : List (Int × Int)}
    (hrun : sys_fb_line fuel fb x1 y1 x2 y2 color = some (fb', points)) (haccurate : Accurate x1 y1 x2 y2 points) :
    Fits (x2 - x1).natAbs (y2 - y1).natAbs := by
  obtain ⟨hproper, hix2, hiy2, hdx, hdy⟩ := line_of_proper hx1 hy1 hx2 hy2
  rw [sys_fb_line_eq hx1 hy1 hx2 hy2] at hrun
  obtain ⟨l, hl, heq⟩ := Option.map_eq_some_iff.mp hrun
  obtain ⟨-, rfl⟩ := Prod.mk.inj heq
  rw [← hdx, ← hdy]
  refine hproper.fits hl ?_
  rw [hix2, hiy2]
  exact haccurate

end

/-- Within the bounds of the coordinates a call draws an accurate line, point by point, if and only if the doubled error
stays an `int`. -/
theorem sys_fb_line_accurate_iff (fb : Fb) (x1 y1 x2 y2 : Int) (color : UInt32) (hx1 : Near x1) (hy1 : Near y1)
    (hx2 : Near x2)
    (hy2 : Near y2) :
    (∃ fuel fb' points, sys_fb_line fuel fb x1 y1 x2 y2 color = some (fb', points) ∧
        fb' = points.foldl (fun fb p => sys_fb_pixel fb p.1 p.2 color) fb ∧ Accurate x1 y1 x2 y2 points) ↔
      Fits (x2 - x1).natAbs (y2 - y1).natAbs := by
  constructor
  · rintro ⟨fuel, fb', points, hrun, -, haccurate⟩
    exact fits_of_accurate hx1 hy1 hx2 hy2 hrun haccurate
  · intro hfits
    obtain ⟨hproper, hix2, hiy2, hdx, hdy⟩ := line_of_proper hx1 hy1 hx2 hy2
    rw [← hdx, ← hdy] at hfits
    obtain ⟨fuel, l, hl, haccurate⟩ := hproper.walks hfits
    rw [hix2, hiy2] at haccurate
    refine ⟨fuel, _, _, by rw [sys_fb_line_eq hx1 hy1 hx2 hy2, hl]; rfl, ?_, haccurate⟩
    rw [List.foldl_map]

theorem sys_fb_line_nine :
    ∃ fuel fb' points, sys_fb_line fuel ⟨8, 8, 32, fun _ => 0⟩ 7 (-1) (-1) 2 0x80ffffff = some (fb', points) ∧
      fb' = points.foldl (fun fb p => sys_fb_pixel fb p.1 p.2 0x80ffffff) ⟨8, 8, 32, fun _ => 0⟩ ∧
        Accurate 7 (-1) (-1) 2 points :=
  (sys_fb_line_accurate_iff ⟨8, 8, 32, fun _ => 0⟩ 7 (-1) (-1) 2 0x80ffffff (by decide) (by decide) (by decide)
    (by decide)).mpr (by rw [Fits]; decide)

/-- On the longest lines that are almost level, the doubled error wraps. -/
theorem longest_line_strays :
    ¬ ∃ fuel fb' points, sys_fb_line fuel ⟨8, 8, 32, fun _ => 0⟩ (1 - 2 ^ 29) 0 (2 ^ 29 - 1) 1 0xffffffff =
      some (fb', points) ∧
      Accurate (1 - 2 ^ 29) 0 (2 ^ 29 - 1) 1 points := by
  rintro ⟨fuel, fb', points, hrun, haccurate⟩
  have hfits := fits_of_accurate (by decide) (by decide) (by decide) (by decide) hrun haccurate
  rw [Fits] at hfits
  exact absurd hfits (by decide)

end graceos.video
