import GraceOS.Video.Drawing

/-!
# Rectangles of matrices

`fb_matrix_fill_rect` and `fb_matrix_blit` of `fb.c`. They clip with sums in `int`, which overflow for the arguments of
some calls.
-/

namespace graceos.video.matrix

open Function

/-- The words of memory, counted from the data of a matrix. -/
abbrev Words := Int → UInt32

/-- `struct fb_matrix`, once it has data. -/
structure Matrix where
  width : UInt32
  height : UInt32
  pitch_pixels : UInt32

/-! ## The calls -/

/-- The words that are written, in order. -/
def fb_fill32 (dst : Int) (count : Nat) : List Int := (List.range count).map fun (i : Nat) => dst + i

/-- The words that are written, each with the one that it is copied from. -/
def fb_copy32 (dst src : Int) (count : Nat) : List (Int × Int) :=
  (List.range count).map fun (i : Nat) => (dst + i, src + i)

def fb_matrix_fill_rect (mat : Matrix) (x y w h : Int) : List Int :=
  let w := if x < 0 then int (w + x) else w
  let x := if x < 0 then 0 else x
  let h := if y < 0 then int (h + y) else h
  let y := if y < 0 then 0 else y
  let w := if int (x + w) > int mat.width.toNat then int (int mat.width.toNat - x) else w
  let h := if int (y + h) > int mat.height.toNat then int (int mat.height.toNat - y) else h
  if w ≤ 0 ∨ h ≤ 0 then []
  else
    (List.range h.toNat).flatMap fun (row : Nat) =>
      fb_fill32 (int (y + row) * mat.pitch_pixels.toNat + x) w.toNat

def fb_matrix_blit (dst src : Matrix) (dst_x dst_y src_x src_y w h : Int) : List (Int × Int) :=
  let w := if src_x < 0 then int (w + src_x) else w
  let dst_x := if src_x < 0 then int (dst_x - src_x) else dst_x
  let src_x := if src_x < 0 then 0 else src_x
  let h := if src_y < 0 then int (h + src_y) else h
  let dst_y := if src_y < 0 then int (dst_y - src_y) else dst_y
  let src_y := if src_y < 0 then 0 else src_y
  let w := if int (src_x + w) > int src.width.toNat then int (int src.width.toNat - src_x) else w
  let h := if int (src_y + h) > int src.height.toNat then int (int src.height.toNat - src_y) else h
  let w := if dst_x < 0 then int (w + dst_x) else w
  let src_x := if dst_x < 0 then int (src_x - dst_x) else src_x
  let dst_x := if dst_x < 0 then 0 else dst_x
  let h := if dst_y < 0 then int (h + dst_y) else h
  let src_y := if dst_y < 0 then int (src_y - dst_y) else src_y
  let dst_y := if dst_y < 0 then 0 else dst_y
  let w := if int (dst_x + w) > int dst.width.toNat then int (int dst.width.toNat - dst_x) else w
  let h := if int (dst_y + h) > int dst.height.toNat then int (int dst.height.toNat - dst_y) else h
  if w ≤ 0 ∨ h ≤ 0 then []
  else
    (List.range h.toNat).flatMap fun (row : Nat) =>
      fb_copy32 (int (dst_y + row) * dst.pitch_pixels.toNat + dst_x)
        (int (src_y + row) * src.pitch_pixels.toNat + src_x)
        w.toNat

/-- The data after the words got a colour. -/
def filled (color : UInt32) (words : List Int) (data : Words) : Words :=
  words.foldl (fun data i => update data i color) data

/-- The data after the words were copied from other data. -/
def copied (src : Words) (words : List (Int × Int)) (data : Words) : Words :=
  words.foldl (fun data p => update data p.1 (src p.2)) data

/-! ## What they should do -/

def Matrix.Has (m : Matrix) (col row : Nat) : Prop := col < m.width.toNat ∧ row < m.height.toNat

def Matrix.word (m : Matrix) (col row : Nat) : Int := row * m.pitch_pixels.toNat + col

/-- A matrix of some screen: its rows lie apart. -/
structure Matrix.Small (m : Matrix) : Prop where
  width : m.width.toNat < 2 ^ 15
  height : m.height.toNat < 2 ^ 15
  pitch : m.width.toNat ≤ m.pitch_pixels.toNat

/-- The word of a pixel of the matrix that lies in the rectangle. -/
def FillWord (m : Matrix) (x y w h i : Int) : Prop :=
  ∃ col row : Nat, m.Has col row ∧ InRect x y w h col row ∧ i = m.word col row

/-- The words of a pixel of the destination and of the pixel of the source that belongs to it. -/
def CopyWords (dst src : Matrix) (dst_x dst_y src_x src_y w h : Int) (p : Int × Int) : Prop :=
  ∃ col row i j : Nat, (dst.Has col row ∧ src.Has i j) ∧ InRect dst_x dst_y w h col row ∧
    ((i : Int) = col - dst_x + src_x ∧ (j : Int) = row - dst_y + src_y) ∧ p = (dst.word col row, src.word i j)

/-- The call writes the pixels in the rectangle and nothing else. -/
structure Fills (m : Matrix) (x y w h : Int) : Prop where
  words : ∀ i, i ∈ fb_matrix_fill_rect m x y w h ↔ FillWord m x y w h i
  inside : ∀ color data i, FillWord m x y w h i → filled color (fb_matrix_fill_rect m x y w h) data i = color
  others : ∀ color data i, ¬ FillWord m x y w h i → filled color (fb_matrix_fill_rect m x y w h) data i = data i

/-- The call copies the pixels that belong together and nothing else. -/
structure Copies (dst src : Matrix) (dst_x dst_y src_x src_y w h : Int) : Prop where
  words : ∀ p, p ∈ fb_matrix_blit dst src dst_x dst_y src_x src_y w h ↔ CopyWords dst src dst_x dst_y src_x src_y w h p
  inside : ∀ from_src data p, CopyWords dst src dst_x dst_y src_x src_y w h p →
    copied from_src (fb_matrix_blit dst src dst_x dst_y src_x src_y w h) data p.1 = from_src p.2
  others : ∀ from_src data i, (∀ p, CopyWords dst src dst_x dst_y src_x src_y w h p → i ≠ p.1) →
    copied from_src (fb_matrix_blit dst src dst_x dst_y src_x src_y w h) data i = data i

/-! ## Writing words -/

variable {i x y : Int} {p : Int × Int}

theorem filled_eq (color : UInt32) (words : List Int) (data : Words) (i : Int) :
    filled color words data i = if i ∈ words then color else data i := by
  induction words generalizing data with
  | nil => rfl
  | cons k words ih =>
    change filled color words (update data k color) i = _
    rw [ih]
    by_cases hk : i = k
    · subst hk
      rw [update_self, ite_self, if_pos List.mem_cons_self]
    · rw [update_of_ne hk]
      by_cases hi : i ∈ words
      · rw [if_pos hi, if_pos (List.mem_cons_of_mem k hi)]
      · rw [if_neg hi, if_neg (by simp [hk, hi])]

theorem copied_off (src : Words) {words : List (Int × Int)} (data : Words) (h : ∀ p ∈ words, i ≠ p.1) :
    copied src words data i = data i := by
  induction words generalizing data with
  | nil => rfl
  | cons q words ih =>
    change copied src words (update data q.1 (src q.2)) i = _
    rw [ih _ fun p hp => h p (List.mem_cons_of_mem q hp), update_of_ne (h q List.mem_cons_self)]

theorem copied_at (src : Words) {words : List (Int × Int)} (data : Words) (hp : p ∈ words)
    (hsame : ∀ q ∈ words, q.1 = p.1 → q = p) : copied src words data p.1 = src p.2 := by
  induction words generalizing data with
  | nil => cases hp
  | cons q words ih =>
    change copied src words (update data q.1 (src q.2)) p.1 = _
    by_cases hlater : p ∈ words
    · exact ih _ hlater fun q hq => hsame q (List.mem_cons_of_mem _ hq)
    · obtain rfl := (List.mem_cons.mp hp).resolve_right hlater
      rw [copied_off, update_self]
      intro r hr heq
      exact hlater (hsame r (List.mem_cons_of_mem p hr) heq.symm ▸ hr)

variable {m dst src : Matrix}

theorem Matrix.Small.word_inj (hm : m.Small) {col row col' row' : Nat} (h : m.Has col row) (h' : m.Has col' row')
    (heq : m.word col row = m.word col' row') : col = col' ∧ row = row' := by
  have hcol := h.1.trans_le hm.pitch
  have hcol' := h'.1.trans_le hm.pitch
  have hword : row * m.pitch_pixels.toNat + col = row' * m.pitch_pixels.toNat + col' := by
    unfold Matrix.word at heq
    exact_mod_cast heq
  have hrow : row = row' := by
    have hdiv := congrArg (· / m.pitch_pixels.toNat) hword
    rwa [Nat.mul_comm, Nat.mul_add_div (by omega), Nat.div_eq_of_lt hcol, Nat.mul_comm, Nat.mul_add_div (by omega),
      Nat.div_eq_of_lt hcol', Nat.add_zero, Nat.add_zero] at hdiv
  subst hrow
  exact ⟨by omega, rfl⟩

theorem Fills.of_words {w h : Int} (hwords : ∀ i, i ∈ fb_matrix_fill_rect m x y w h ↔ FillWord m x y w h i) :
    Fills m x y w h where
  words := hwords
  inside color data i hi := by
    rw [filled_eq, if_pos ((hwords i).mpr hi)]
  others color data i hi := by
    rw [filled_eq, if_neg fun hmem => hi ((hwords i).mp hmem)]

theorem Copies.of_words {dst_x dst_y src_x src_y w h : Int} (hdst : dst.Small)
    (hwords : ∀ p, p ∈ fb_matrix_blit dst src dst_x dst_y src_x src_y w h ↔
      CopyWords dst src dst_x dst_y src_x src_y w h p) : Copies dst src dst_x dst_y src_x src_y w h where
  words := hwords
  inside from_src data p hp := by
    apply copied_at from_src data ((hwords p).mpr hp)
    intro q hq heq
    obtain ⟨col, row, i, j, ⟨hhas, -⟩, -, ⟨hi, hj⟩, rfl⟩ := hp
    obtain ⟨col', row', i', j', ⟨hhas', -⟩, -, ⟨hi', hj'⟩, rfl⟩ := (hwords q).mp hq
    obtain ⟨rfl, rfl⟩ := hdst.word_inj hhas' hhas heq
    rw [show i' = i by omega, show j' = j by omega]
  others from_src data i hi := copied_off from_src data fun p hp => hi p ((hwords p).mp hp)

/-! ## Rows -/

theorem mem_fill32 {dst : Int} {count : Nat} : i ∈ fb_fill32 dst count ↔ ∃ k : Nat, k < count ∧ i = dst + k := by
  unfold fb_fill32
  simp only [List.mem_map, List.mem_range]
  exact ⟨fun ⟨k, hk, hi⟩ => ⟨k, hk, hi.symm⟩, fun ⟨k, hk, hi⟩ => ⟨k, hk, hi.symm⟩⟩

theorem mem_copy32 {d s : Int} {count : Nat} :
    p ∈ fb_copy32 d s count ↔ ∃ k : Nat, k < count ∧ p = (d + k, s + k) := by
  unfold fb_copy32
  simp only [List.mem_map, List.mem_range]
  exact ⟨fun ⟨k, hk, hp⟩ => ⟨k, hk, hp.symm⟩, fun ⟨k, hk, hp⟩ => ⟨k, hk, hp.symm⟩⟩

theorem mem_fill_rect {w h : Int} : i ∈ fb_matrix_fill_rect m x y w h ↔
    ∃ row col : Nat, (row : Int) < clip_extent y h m.height.toNat ∧ (col : Int) < clip_extent x w m.width.toNat ∧
      i = int (clip_at y + row) * m.pitch_pixels.toNat + clip_at x + col := by
  change i ∈ (if clip_extent x w m.width.toNat ≤ 0 ∨ clip_extent y h m.height.toNat ≤ 0 then [] else
    (List.range (clip_extent y h m.height.toNat).toNat).flatMap fun (row : Nat) =>
      fb_fill32 (int (clip_at y + row) * m.pitch_pixels.toNat + clip_at x) (clip_extent x w m.width.toNat).toNat) ↔ _
  split
  · refine iff_of_false List.not_mem_nil ?_
    rintro ⟨row, col, hrow, hcol, -⟩
    omega
  · simp only [List.mem_flatMap, List.mem_range, mem_fill32]
    constructor
    · rintro ⟨row, hrow, col, hcol, rfl⟩
      exact ⟨row, col, by omega, by omega, rfl⟩
    · rintro ⟨row, col, hrow, hcol, rfl⟩
      exact ⟨row, by omega, col, by omega, rfl⟩

/-! ## Filling -/

/-- No pixel is drawn, as one side is empty after the clipping. The sum of a side that lies left of the screen may wrap
around once. -/
def SideEmpty (x w W : Int) : Prop :=
  (IsInt (x + w) ∧ min (x + w) W ≤ max x 0) ∨ (x + w < -2 ^ 31 ∧ (W = 0 ∨ x + w = -2 ^ 32))

/-- When a rectangle is filled as it should be. -/
def FillFits (m : Matrix) (x y w h : Int) : Prop :=
  (IsInt (x + w) ∧ IsInt (y + h)) ∨ SideEmpty x w m.width.toNat ∨ SideEmpty y h m.height.toNat

theorem SideEmpty.extent {w W : Int} (h : SideEmpty x w W) (hW : 0 ≤ W ∧ W < 2 ^ 15) (hx : IsInt x) (hw : IsInt w) :
    clip_extent x w W ≤ 0 ∧ min (x + w) W ≤ max x 0 := by
  unfold SideEmpty IsInt at *
  unfold clip_extent clip_at int
  split_ifs
  all_goals omega

theorem extent_pos {w W : Int} (h : ¬ SideEmpty x w W) (hW : 0 ≤ W ∧ W < 2 ^ 15) (hx : IsInt x) (hw : IsInt w) :
    0 < clip_extent x w W ∧ (¬ IsInt (x + w) → (x + w < -2 ^ 31) ∨
        (0 ≤ x ∧ 2 ^ 31 ≤ x + w ∧ clip_extent x w W = w)) := by
  unfold SideEmpty IsInt at *
  unfold clip_extent clip_at int
  split_ifs
  all_goals omega

theorem fills_of_sums (hm : m.Small) {w h : Int} (hx : IsInt x) (hy : IsInt y) (hw : IsInt w) (hh : IsInt h)
    (hxw : IsInt (x + w)) (hyh : IsInt (y + h)) : Fills m x y w h := by
  have hwidth := hm.width
  have hheight := hm.height
  apply Fills.of_words
  intro i
  rw [mem_fill_rect, clip_extent_eq (by omega) hx hw hxw, clip_extent_eq (by omega) hy hh hyh, clip_at_eq, clip_at_eq]
  constructor
  · rintro ⟨row, col, hrow, hcol, rfl⟩
    refine ⟨(max x 0 + col).toNat, (max y 0 + row).toNat, ⟨by omega, by omega⟩, ⟨by omega, by omega⟩, ?_⟩
    have hrows : IsInt (max y 0 + row) := by
      unfold IsInt
      omega
    rw [int_eq hrows, Matrix.word, Int.toNat_of_nonneg (by omega), Int.toNat_of_nonneg (by omega)]
    omega
  · rintro ⟨col, row, ⟨hcol, hrow⟩, ⟨hincol, hinrow⟩, rfl⟩
    refine ⟨(row - max y 0).toNat, (col - max x 0).toNat, by omega, by omega, ?_⟩
    have hrows : IsInt (max y 0 + ((row - max y 0).toNat : Nat)) := by
      unfold IsInt
      omega
    rw [int_eq hrows, Matrix.word, show max y 0 + (((row : Int) - max y 0).toNat : Int) = row by omega]
    omega

theorem fills_nothing {w h : Int} (hnone : clip_extent x w m.width.toNat ≤ 0 ∨ clip_extent y h m.height.toNat ≤ 0)
    (hempty : ∀ i, ¬ FillWord m x y w h i) : Fills m x y w h := by
  apply Fills.of_words
  intro i
  refine iff_of_false ?_ (hempty i)
  rw [mem_fill_rect]
  rintro ⟨row, col, hrow, hcol, -⟩
  omega

theorem fills_of_fits (hm : m.Small) {w h : Int} (hx : IsInt x) (hy : IsInt y) (hw : IsInt w) (hh : IsInt h)
    (hfits : FillFits m x y w h) : Fills m x y w h := by
  have hwidth := hm.width
  have hheight := hm.height
  obtain ⟨hxw, hyh⟩ | hside | hside := hfits
  · exact fills_of_sums hm hx hy hw hh hxw hyh
  · obtain ⟨hextent, hnone⟩ := hside.extent (by omega) hx hw
    apply fills_nothing (Or.inl hextent)
    rintro i ⟨col, row, ⟨hcol, -⟩, ⟨hin, -⟩, -⟩
    omega
  · obtain ⟨hextent, hnone⟩ := hside.extent (by omega) hy hh
    apply fills_nothing (Or.inr hextent)
    rintro i ⟨col, row, ⟨-, hrow⟩, ⟨-, hin⟩, -⟩
    omega

theorem FillWord.before_end (hm : m.Small) {w h : Int} (hi : FillWord m x y w h i) :
    i < m.height.toNat * m.pitch_pixels.toNat := by
  obtain ⟨col, row, ⟨hcol, hrow⟩, -, rfl⟩ := hi
  have hpitch := hm.pitch
  have hrows : (row + 1) * m.pitch_pixels.toNat ≤ m.height.toNat * m.pitch_pixels.toNat := Nat.mul_le_mul_right _ hrow
  rw [Nat.succ_mul] at hrows
  have hbefore : row * m.pitch_pixels.toNat + col < m.height.toNat * m.pitch_pixels.toNat := by omega
  unfold Matrix.word
  exact_mod_cast hbefore

theorem FillWord.not_behind_row (hm : m.Small) {w h : Int} (hx : 0 < x) {row : Int} :
    ¬ FillWord m x y w h (row * m.pitch_pixels.toNat + m.width.toNat) := by
  rintro ⟨col, row', ⟨hcol, -⟩, ⟨⟨hle, -⟩, -⟩, heq⟩
  have hpitch := hm.pitch
  unfold Matrix.word at heq
  have hdiff : (row' - row) * m.pitch_pixels.toNat = m.width.toNat - (col : Int) := by
    rw [Int.sub_mul]
    omega
  by_cases hrow : row' - row ≤ 0
  · have := Int.mul_nonpos_of_nonpos_of_nonneg hrow (Int.natCast_nonneg m.pitch_pixels.toNat)
    omega
  · have hone : 1 * (m.pitch_pixels.toNat : Int) ≤ (row' - row) * m.pitch_pixels.toNat :=
      Int.mul_le_mul_of_nonneg_right (by omega) (Int.natCast_nonneg _)
    omega

/-- A call whose sums overflow and that has no empty side writes somewhere else. -/
theorem fits_of_fills (hm : m.Small) {w h : Int} (hx : IsInt x) (hy : IsInt y) (hw : IsInt w) (hh : IsInt h)
    (hfills : Fills m x y w h) : FillFits m x y w h := by
  have hwidth := hm.width
  have hheight := hm.height
  by_contra hnot
  unfold FillFits at hnot
  obtain ⟨hsums, hside, hside'⟩ : ¬ (IsInt (x + w) ∧ IsInt (y + h)) ∧ ¬ SideEmpty x w m.width.toNat ∧
      ¬ SideEmpty y h m.height.toNat := by
    tauto
  obtain ⟨hposx, hfarx⟩ := extent_pos hside (by omega) hx hw
  obtain ⟨hposy, hfary⟩ := extent_pos hside' (by omega) hy hh
  -- the first word that is written
  have hfirst : FillWord m x y w h (int (clip_at y + (0 : Nat)) * m.pitch_pixels.toNat + clip_at x + (0 : Nat)) :=
    (hfills.words _).mp (mem_fill_rect.mpr ⟨0, 0, hposy, hposx, rfl⟩)
  have hsome : ∃ col row : Nat, m.Has col row ∧ InRect x y w h col row := by
    obtain ⟨col, row, hhas, hin, -⟩ := hfirst
    exact ⟨col, row, hhas, hin⟩
  obtain ⟨col, row, ⟨hcol, hrow⟩, hincol, hinrow⟩ := hsome
  have hclipx := clip_at_eq x
  have hclipy := clip_at_eq y
  by_cases hxw : IsInt (x + w)
  · -- the sum of the rows overflows, and the row behind the matrix is written
    have hyh : ¬ IsInt (y + h) := fun hyh => hsums ⟨hxw, hyh⟩
    obtain hlow | ⟨hy0, hlarge, hextent⟩ := hfary hyh
    · omega
    · have hword : FillWord m x y w h
        (int (clip_at y + ((m.height.toNat - y.toNat : Nat) : Nat)) * m.pitch_pixels.toNat +
          clip_at x + (0 : Nat)) :=
        (hfills.words _).mp (mem_fill_rect.mpr ⟨m.height.toNat - y.toNat, 0, by omega, hposx, rfl⟩)
      have hend := hword.before_end hm
      rw [show clip_at y + ((m.height.toNat - y.toNat : Nat) : Int) = m.height.toNat by omega,
        int_eq (by unfold IsInt; omega)] at hend
      omega
  · -- the sum of the columns overflows, and the word behind a row is written
    obtain hlow | ⟨hx0, hlarge, hextent⟩ := hfarx hxw
    · omega
    · have hword : FillWord m x y w h (int (clip_at y + (0 : Nat)) * m.pitch_pixels.toNat + clip_at x +
          ((m.width.toNat - x.toNat : Nat) : Nat)) :=
        (hfills.words _).mp (mem_fill_rect.mpr ⟨0, m.width.toNat - x.toNat, hposy, by omega, rfl⟩)
      rw [Int.add_assoc, show clip_at x + ((m.width.toNat - x.toNat : Nat) : Int) = m.width.toNat by omega] at hword
      unfold IsInt at hw
      exact FillWord.not_behind_row hm (by omega) hword

/-! ## The back buffer -/

/-! ## Copying -/

/-- One side of the region: its start in the destination, its start in the source, and its extent. -/
structure Side where
  dst : Int
  src : Int
  extent : Int

def clip_source (c : Side) (S : Int) : Side :=
  let w := if c.src < 0 then int (c.extent + c.src) else c.extent
  let dst := if c.src < 0 then int (c.dst - c.src) else c.dst
  let src := if c.src < 0 then 0 else c.src
  ⟨dst, src, if int (src + w) > int S then int (int S - src) else w⟩

def clip_dest (c : Side) (D : Int) : Side :=
  let w := if c.dst < 0 then int (c.extent + c.dst) else c.extent
  let src := if c.dst < 0 then int (c.src - c.dst) else c.src
  let dst := if c.dst < 0 then 0 else c.dst
  ⟨dst, src, if int (dst + w) > int D then int (int D - dst) else w⟩

/-- What the clipping leaves of a side. -/
def clip_side (d s w D S : Int) : Side := clip_dest (clip_source ⟨d, s, w⟩ S) D

/-- The words that are copied, after the clipping. -/
theorem mem_blit {dst_x dst_y src_x src_y w h : Int} :
    p ∈ fb_matrix_blit dst src dst_x dst_y src_x src_y w h ↔ ∃ row col : Nat,
      (row : Int) < (clip_side dst_y src_y h dst.height.toNat src.height.toNat).extent ∧
      (col : Int) < (clip_side dst_x src_x w dst.width.toNat src.width.toNat).extent ∧
      p = (int ((clip_side dst_y src_y h dst.height.toNat src.height.toNat).dst + row) * dst.pitch_pixels.toNat +
          (clip_side dst_x src_x w dst.width.toNat src.width.toNat).dst + col,
        int ((clip_side dst_y src_y h dst.height.toNat src.height.toNat).src + row) * src.pitch_pixels.toNat +
          (clip_side dst_x src_x w dst.width.toNat src.width.toNat).src + col) := by
  have heq : fb_matrix_blit dst src dst_x dst_y src_x src_y w h =
      let cx := clip_side dst_x src_x w dst.width.toNat src.width.toNat
      let cy := clip_side dst_y src_y h dst.height.toNat src.height.toNat
      if cx.extent ≤ 0 ∨ cy.extent ≤ 0 then []
      else
        (List.range cy.extent.toNat).flatMap fun (row : Nat) =>
          fb_copy32 (int (cy.dst + row) * dst.pitch_pixels.toNat + cx.dst)
            (int (cy.src + row) * src.pitch_pixels.toNat + cx.src) cx.extent.toNat := rfl
  rw [heq]
  dsimp only
  split
  · refine iff_of_false List.not_mem_nil ?_
    rintro ⟨row, col, hrow, hcol, -⟩
    omega
  · simp only [List.mem_flatMap, List.mem_range, mem_copy32]
    constructor
    · rintro ⟨row, hrow, col, hcol, rfl⟩
      exact ⟨row, col, by omega, by omega, rfl⟩
    · rintro ⟨row, col, hrow, hcol, rfl⟩
      exact ⟨row, by omega, col, by omega, rfl⟩

/-- Where a side starts in the destination after it was clipped to the source. The difference may wrap around. -/
def moved_start (d s : Int) : Int := if d - min s 0 < 2 ^ 31 then d - min s 0 else d - min s 0 - 2 ^ 32

/-- The extent that the clipping to the source leaves. -/
def cut_extent (s w S : Int) : Int :=
  if w + min s 0 < -2 ^ 31 then min (w + min s 0 + 2 ^ 32) S
  else if 2 ^ 31 ≤ s + w then w
  else min (w + min s 0) (S - max s 0)

/-- Nothing is left of a side. -/
def SideVoid (d s w D S : Int) : Prop :=
  if 0 ≤ moved_start d s then
    moved_start d s + cut_extent s w S < 2 ^ 31 ∧ (cut_extent s w S ≤ 0 ∨ D ≤ moved_start d s)
  else
    D = 0 ∨ (-2 ^ 31 ≤ moved_start d s + cut_extent s w S ∧ moved_start d s + cut_extent s w S ≤ 0) ∨
      moved_start d s + cut_extent s w S = -2 ^ 32

/-- Some position of a side is in both matrices. -/
def Common (d s w D S : Int) : Prop := max d (max (d - s) 0) < min (d + w) (min D (d - s + S))

/-- The end of a side in the source is an `int`, or it does not matter as the destination ends first. -/
def SideFits (d s w D S : Int) : Prop := s + w < 2 ^ 31 ∨ (D ≤ d - s + S ∧ d + w < 2 ^ 31)

/-- When a region is copied as it should be. -/
def BlitFits (dst src : Matrix) (dst_x dst_y src_x src_y w h : Int) : Prop :=
  SideVoid dst_x src_x w dst.width.toNat src.width.toNat ∨ SideVoid dst_y src_y h dst.height.toNat src.height.toNat ∨
    (Common dst_x src_x w dst.width.toNat src.width.toNat ∧ SideFits dst_x src_x w dst.width.toNat src.width.toNat) ∧
      Common dst_y src_y h dst.height.toNat src.height.toNat ∧ SideFits dst_y src_y h dst.height.toNat src.height.toNat

section
variable {d s w D S : Int}

theorem clip_source_eq (hS : 0 ≤ S ∧ S < 2 ^ 15) (hd : IsInt d) (hs : IsInt s) (hw : IsInt w) :
    clip_source ⟨d, s, w⟩ S = ⟨moved_start d s, max s 0, cut_extent s w S⟩ := by
  unfold IsInt at *
  have hSint : int S = S := int_eq (by unfold IsInt; omega)
  have hstart : (if s < 0 then int (d - s) else d) = moved_start d s := by
    unfold moved_start int
    split_ifs
    all_goals omega
  have hsource : (if s < 0 then 0 else s) = max s 0 := by
    split
    · omega
    · omega
  have hrest : int (S - max s 0) = S - max s 0 := int_eq (by unfold IsInt; omega)
  unfold clip_source
  dsimp only
  rw [hstart, hsource, hSint, hrest]
  congr 1
  by_cases hneg : s < 0
  · rw [if_pos hneg, cut_extent, show min s 0 = s by omega, show max s 0 = 0 by omega, Int.zero_add, Int.sub_zero]
    by_cases hlow : w + s < -2 ^ 31
    · have hwrap : int (w + s) = w + s + 2 ^ 32 := by
        unfold int
        omega
      rw [if_pos hlow, hwrap, int_eq (by unfold IsInt; omega)]
      split
      · omega
      · omega
    · have hsum : int (w + s) = w + s := int_eq (by unfold IsInt; omega)
      rw [if_neg hlow, if_neg (by omega : ¬ 2 ^ 31 ≤ s + w), hsum, hsum]
      split
      · omega
      · omega
  · rw [if_neg hneg, cut_extent, show min s 0 = 0 by omega, show max s 0 = s by omega, Int.add_zero,
      if_neg (by omega : ¬ w < -2 ^ 31)]
    by_cases hhigh : 2 ^ 31 ≤ s + w
    · have hwrap : int (s + w) = s + w - 2 ^ 32 := by
        unfold int
        omega
      rw [if_pos hhigh, hwrap, if_neg (by omega)]
    · rw [if_neg hhigh, int_eq (by unfold IsInt; omega : IsInt (s + w))]
      split
      · omega
      · omega

theorem isInt_moved_start (hd : IsInt d) (hs : IsInt s) : IsInt (moved_start d s) := by
  unfold IsInt at *
  unfold moved_start
  split_ifs
  all_goals omega

theorem isInt_cut_extent (hS : 0 ≤ S ∧ S < 2 ^ 15) (hs : IsInt s) (hw : IsInt w) : IsInt (cut_extent s w S) := by
  unfold IsInt at *
  unfold cut_extent
  split_ifs
  all_goals omega

/-- The clipping to the destination leaves nothing of these sides. -/
theorem clip_dest_nonpos_iff {a b c : Int} (hD : 0 ≤ D ∧ D < 2 ^ 15) (ha : IsInt a) (hc : IsInt c) :
    (clip_dest ⟨a, b, c⟩ D).extent ≤ 0 ↔
      if 0 ≤ a then a + c < 2 ^ 31 ∧ (c ≤ 0 ∨ D ≤ a)
      else D = 0 ∨ (-2 ^ 31 ≤ a + c ∧ a + c ≤ 0) ∨ a + c = -2 ^ 32 := by
  unfold IsInt at *
  have hDint : int D = D := int_eq (by unfold IsInt; omega)
  unfold clip_dest
  dsimp only
  rw [hDint]
  by_cases hneg : a < 0
  · rw [if_pos hneg, if_pos hneg, if_neg (by omega : ¬ 0 ≤ a), Int.zero_add, Int.sub_zero, hDint]
    by_cases hlow : a + c < -2 ^ 31
    · have hwrap : int (c + a) = a + c + 2 ^ 32 := by
        unfold int
        omega
      rw [hwrap, int_eq (by unfold IsInt; omega)]
      split
      · omega
      · omega
    · have hsum : int (c + a) = c + a := int_eq (by unfold IsInt; omega)
      rw [hsum, hsum]
      split
      · omega
      · omega
  · rw [if_neg hneg, if_neg hneg, if_pos (by omega : 0 ≤ a), int_eq (by unfold IsInt; omega : IsInt (D - a))]
    by_cases hhigh : 2 ^ 31 ≤ a + c
    · have hwrap : int (a + c) = a + c - 2 ^ 32 := by
        unfold int
        omega
      rw [hwrap, if_neg (by omega)]
      omega
    · rw [int_eq (by unfold IsInt; omega : IsInt (a + c))]
      split
      · omega
      · omega

theorem clip_side_nonpos_iff (hS : 0 ≤ S ∧ S < 2 ^ 15) (hD : 0 ≤ D ∧ D < 2 ^ 15) (hd : IsInt d) (hs : IsInt s)
    (hw : IsInt w) : (clip_side d s w D S).extent ≤ 0 ↔ SideVoid d s w D S := by
  unfold clip_side SideVoid
  rw [clip_source_eq hS hd hs hw]
  exact clip_dest_nonpos_iff hD (isInt_moved_start hd hs) (isInt_cut_extent hS hs hw)

theorem clip_dest_pos {a b c : Int} (hD : 0 ≤ D ∧ D < 2 ^ 15) (ha : IsInt a) (hc : IsInt c) (haD : a < D) (hpos : 0 < c)
    (hac : 0 < a + c) (hb : IsInt (b - min a 0)) :
    clip_dest ⟨a, b, c⟩ D = ⟨max a 0, b - min a 0, if a + c < 2 ^ 31 then min (a + c) D - max a 0 else c⟩ := by
  have hDint : int D = D := int_eq (by unfold IsInt; omega)
  unfold clip_dest
  dsimp only
  rw [hDint]
  unfold IsInt at *
  by_cases hneg : a < 0
  · have hsum : int (c + a) = c + a := int_eq (by unfold IsInt; omega)
    have hsrc : int (b - a) = b - min a 0 := by
      rw [int_eq (by unfold IsInt; omega)]
      omega
    rw [if_pos hneg, if_pos hneg, if_pos hneg, hsum, hsrc, Int.zero_add, int_eq (by unfold IsInt; omega),
      int_eq (by unfold IsInt; omega), if_pos (by omega : a + c < 2 ^ 31)]
    congr 1
    · omega
    · split
      · omega
      · omega
  · have hrest : int (D - a) = D - a := int_eq (by unfold IsInt; omega)
    rw [if_neg hneg, if_neg hneg, if_neg hneg, hrest]
    congr 1
    · omega
    · omega
    · unfold int
      split_ifs
      all_goals omega

theorem Common.bounds (h : Common d s w D S) : 0 < w ∧ 0 < S ∧ s < S ∧ 0 < s + w ∧ 0 < d + w ∧ 0 < D ∧
    d < D ∧ d - s < D ∧
    0 < d - s + S := by
  simp only [Common, lt_min_iff, max_lt_iff] at h
  refine ⟨?_, ?_, ?_, ?_, ?_, ?_, ?_, ?_, ?_⟩
  all_goals omega

/-- What is left of a side with a position in both matrices. -/
theorem Common.clip_side (h : Common d s w D S) (hS : 0 ≤ S ∧ S < 2 ^ 15) (hD : 0 ≤ D ∧ D < 2 ^ 15) (hd : IsInt d)
    (hs : IsInt s) (hw : IsInt w) :
    clip_side d s w D S = ⟨max d (max (d - s) 0), max d (max (d - s) 0) - d + s,
      if s + w < 2 ^ 31 then min (d + w) (min D (d - s + S)) - max d (max (d - s) 0)
      else if d + w < 2 ^ 31 then D - max d (max (d - s) 0) else w⟩ := by
  obtain ⟨hwpos, hSpos, hsS, hsw, hdw, hDpos, hdD, hdsD, hdsS⟩ := h.bounds
  have hstart : moved_start d s = d - min s 0 := by
    rw [moved_start, if_pos (by omega)]
  have hlow : max (d - min s 0) 0 = max d (max (d - s) 0) := by omega
  have hsrc : max s 0 - min (d - min s 0) 0 = max d (max (d - s) 0) - d + s := by omega
  unfold matrix.clip_side
  rw [clip_source_eq hS hd hs hw, hstart]
  unfold IsInt at hd hs hw
  by_cases hend : s + w < 2 ^ 31
  · have hcut : cut_extent s w S = min (w + min s 0) (S - max s 0) := by
      rw [cut_extent, if_neg (by omega), if_neg (by omega)]
    rw [hcut, clip_dest_pos hD (by unfold IsInt; omega) (by unfold IsInt; omega) (by omega) (by omega) (by omega)
      (by unfold IsInt; omega), hlow, hsrc, if_pos (by omega), if_pos hend]
    have hhigh : d - min s 0 + min (w + min s 0) (S - max s 0) = min (d + w) (d - s + S) := by
      by_cases hneg : s < 0
      · rw [min_eq_left hneg.le, max_eq_right hneg.le]
        omega
      · rw [min_eq_right (not_lt.mp hneg), max_eq_left (not_lt.mp hneg)]
        omega
    rw [hhigh, min_assoc, min_comm (d - s + S) D]
  · have hcut : cut_extent s w S = w := by
      rw [cut_extent, if_neg (by omega), if_pos (by omega)]
    have hstart0 : d - min s 0 = d := by omega
    rw [hcut, clip_dest_pos hD (by unfold IsInt; omega) (by unfold IsInt; omega) (by omega) (by omega) (by omega)
      (by unfold IsInt; omega), hlow, hsrc, if_neg hend, hstart0]
    congr 1
    split
    · omega
    · rfl

theorem Common.extent_pos (h : Common d s w D S) (hS : 0 ≤ S ∧ S < 2 ^ 15) (hD : 0 ≤ D ∧ D < 2 ^ 15) (hd : IsInt d)
    (hs : IsInt s) (hw : IsInt w) : ¬ SideVoid d s w D S := by
  rw [← clip_side_nonpos_iff hS hD hd hs hw, h.clip_side hS hD hd hs hw]
  have hend : min (d + w) (min D (d - s + S)) ≤ D := (min_le_right _ _).trans (min_le_left _ _)
  have hwpos := h.bounds.1
  unfold Common at h
  dsimp only
  generalize min (d + w) (min D (d - s + S)) = high at *
  generalize max d (max (d - s) 0) = low at *
  split_ifs
  all_goals omega

theorem SideFits.covers (hfits : SideFits d s w D S) (h : Common d s w D S) (hS : 0 ≤ S ∧ S < 2 ^ 15)
    (hD : 0 ≤ D ∧ D < 2 ^ 15) (hd : IsInt d) (hs : IsInt s) (hw : IsInt w) (k : Int) :
    ((clip_side d s w D S).dst ≤ k ∧ k < (clip_side d s w D S).dst + (clip_side d s w D S).extent) ↔
      (0 ≤ k ∧ k < D) ∧ (d ≤ k ∧ k < d + w) ∧ 0 ≤ k - d + s ∧ k - d + s < S := by
  rw [h.clip_side hS hD hd hs hw]
  dsimp only
  have hlow : max d (max (d - s) 0) ≤ k ↔ d ≤ k ∧ d - s ≤ k ∧ 0 ≤ k := by
    rw [max_le_iff, max_le_iff]
  have hhigh : k < min (d + w) (min D (d - s + S)) ↔ k < d + w ∧ k < D ∧ k < d - s + S := by
    rw [lt_min_iff, lt_min_iff]
  have hsum : max d (max (d - s) 0) + (if s + w < 2 ^ 31 then min (d + w) (min D (d - s + S)) - max d (max (d - s) 0)
      else if d + w < 2 ^ 31 then D - max d (max (d - s) 0) else w) = min (d + w) (min D (d - s + S)) := by
    by_cases hend : s + w < 2 ^ 31
    · rw [if_pos hend]
      omega
    · obtain ⟨hfirst, hfar⟩ := hfits.resolve_left hend
      obtain ⟨-, -, hsS, -, -, -, -, -, hdsS⟩ := h.bounds
      rw [if_neg hend, if_pos hfar, min_eq_left hfirst, min_eq_right (by omega)]
      omega
  rw [hsum, hlow, hhigh]
  omega

end

theorem CopyWords.common {dst_x dst_y src_x src_y w h : Int}
    (hp : CopyWords dst src dst_x dst_y src_x src_y w h p) :
    Common dst_x src_x w dst.width.toNat src.width.toNat ∧ Common dst_y src_y h dst.height.toNat src.height.toNat := by
  obtain ⟨col, row, i, j, ⟨⟨hcol, hrow⟩, hi, hj⟩, ⟨hincol, hinrow⟩, ⟨hcoli, hrowj⟩, -⟩ := hp
  unfold Common
  exact ⟨by omega, by omega⟩

theorem CopyWords.fillWord {dst_x dst_y src_x src_y w h : Int}
    (hp : CopyWords dst src dst_x dst_y src_x src_y w h p) : FillWord dst dst_x dst_y w h p.1 := by
  obtain ⟨col, row, i, j, ⟨hhas, -⟩, hin, -, rfl⟩ := hp
  exact ⟨col, row, hhas, hin, rfl⟩

theorem CopyWords.source (hdst : dst.Small) {dst_x dst_y src_x src_y w h : Int}
    (hp : CopyWords dst src dst_x dst_y src_x src_y w h p) (col row : Nat) (hhas : dst.Has col row)
    (heq : p.1 = dst.word col row) :
    (col : Int) - dst_x + src_x < src.width.toNat ∧ (row : Int) - dst_y + src_y < src.height.toNat := by
  obtain ⟨col', row', i, j, ⟨hhas', hi, hj⟩, -, ⟨hcoli, hrowj⟩, rfl⟩ := hp
  obtain ⟨rfl, rfl⟩ := hdst.word_inj hhas' hhas heq
  exact ⟨by omega, by omega⟩

theorem copies_nothing (hdst : dst.Small) {dst_x dst_y src_x src_y w h : Int}
    (hnone : (clip_side dst_x src_x w dst.width.toNat src.width.toNat).extent ≤ 0 ∨
      (clip_side dst_y src_y h dst.height.toNat src.height.toNat).extent ≤ 0)
    (hempty : ∀ p, ¬ CopyWords dst src dst_x dst_y src_x src_y w h p) : Copies dst src dst_x dst_y src_x src_y w h := by
  apply Copies.of_words hdst
  intro p
  refine iff_of_false ?_ (hempty p)
  rw [mem_blit]
  rintro ⟨row, col, hrow, hcol, -⟩
  omega

section
variable {dst_x dst_y src_x src_y w h : Int} (hdst : dst.Small) (hsrc : src.Small) (hdx : IsInt dst_x)
  (hdy : IsInt dst_y)
  (hsx : IsInt src_x) (hsy : IsInt src_y) (hw : IsInt w) (hh : IsInt h)
include hdst hsrc hdx hdy hsx hsy hw hh

theorem copies_of_sides (hx : Common dst_x src_x w dst.width.toNat src.width.toNat)
    (hxfits : SideFits dst_x src_x w dst.width.toNat src.width.toNat)
    (hy : Common dst_y src_y h dst.height.toNat src.height.toNat)
    (hyfits : SideFits dst_y src_y h dst.height.toNat src.height.toNat) :
    Copies dst src dst_x dst_y src_x src_y w h := by
  have hdw := hdst.width
  have hdh := hdst.height
  have hsw := hsrc.width
  have hsh := hsrc.height
  have hcols := hxfits.covers hx (by omega) (by omega) hdx hsx hw
  have hrows := hyfits.covers hy (by omega) (by omega) hdy hsy hh
  have hsrcx : (clip_side dst_x src_x w dst.width.toNat src.width.toNat).src =
      (clip_side dst_x src_x w dst.width.toNat src.width.toNat).dst - dst_x + src_x := by
    rw [hx.clip_side (by omega) (by omega) hdx hsx hw]
  have hsrcy : (clip_side dst_y src_y h dst.height.toNat src.height.toNat).src =
      (clip_side dst_y src_y h dst.height.toNat src.height.toNat).dst - dst_y + src_y := by
    rw [hy.clip_side (by omega) (by omega) hdy hsy hh]
  apply Copies.of_words hdst
  intro p
  rw [mem_blit]
  generalize clip_side dst_x src_x w dst.width.toNat src.width.toNat = cx at *
  generalize clip_side dst_y src_y h dst.height.toNat src.height.toNat = cy at *
  constructor
  · rintro ⟨row, col, hrow, hcol, rfl⟩
    have hincol := (hcols (cx.dst + col)).mp ⟨by omega, by omega⟩
    have hinrow := (hrows (cy.dst + row)).mp ⟨by omega, by omega⟩
    refine ⟨(cx.dst + col).toNat, (cy.dst + row).toNat, (cx.src + col).toNat, (cy.src + row).toNat,
      ⟨⟨by omega, by omega⟩, by omega, by omega⟩, ⟨by omega, by omega⟩, ⟨by omega, by omega⟩, ?_⟩
    rw [int_eq (by unfold IsInt; omega), int_eq (by unfold IsInt; omega)]
    unfold Matrix.word
    rw [Int.toNat_of_nonneg (by omega), Int.toNat_of_nonneg (by omega), Int.toNat_of_nonneg (by omega),
      Int.toNat_of_nonneg (by omega), Int.add_assoc, Int.add_assoc]
  · rintro ⟨col, row, i, j, ⟨⟨hcol, hrow⟩, hi, hj⟩, ⟨hincol, hinrow⟩, ⟨hcoli, hrowj⟩, rfl⟩
    have hcolk := (hcols col).mpr ⟨by omega, hincol, by omega, by omega⟩
    have hrowk := (hrows row).mpr ⟨by omega, hinrow, by omega, by omega⟩
    refine ⟨(row - cy.dst).toNat, (col - cx.dst).toNat, by omega, by omega, ?_⟩
    have hd : cy.dst + (((row : Int) - cy.dst).toNat : Int) = row := by omega
    have hsource : cy.src + (((row : Int) - cy.dst).toNat : Int) = j := by omega
    rw [hd, hsource, int_eq (by unfold IsInt; omega), int_eq (by unfold IsInt; omega)]
    unfold Matrix.word
    congr 1
    · omega
    · omega

theorem copies_of_fits (hfits : BlitFits dst src dst_x dst_y src_x src_y w h) :
    Copies dst src dst_x dst_y src_x src_y w h := by
  have hdw := hdst.width
  have hdh := hdst.height
  have hsw := hsrc.width
  have hsh := hsrc.height
  obtain hvoid | hvoid | ⟨⟨hx, hxfits⟩, hy, hyfits⟩ := hfits
  · refine copies_nothing hdst
      (Or.inl ((clip_side_nonpos_iff (by omega) (by omega) hdx hsx hw).mpr hvoid)) fun p hp => ?_
    exact hp.common.1.extent_pos (by omega) (by omega) hdx hsx hw hvoid
  · refine copies_nothing hdst
      (Or.inr ((clip_side_nonpos_iff (by omega) (by omega) hdy hsy hh).mpr hvoid)) fun p hp => ?_
    exact hp.common.2.extent_pos (by omega) (by omega) hdy hsy hh hvoid
  · exact copies_of_sides hdst hsrc hdx hdy hsx hsy hw hh hx hxfits hy hyfits

section
variable (hx : Common dst_x src_x w dst.width.toNat src.width.toNat)
  (hy : Common dst_y src_y h dst.height.toNat src.height.toNat)
include hx hy

theorem copies_word (hcopies : Copies dst src dst_x dst_y src_x src_y w h) {row col : Nat}
    (hrow : (row : Int) < (clip_side dst_y src_y h dst.height.toNat src.height.toNat).extent)
    (hcol : (col : Int) < (clip_side dst_x src_x w dst.width.toNat src.width.toNat).extent) :
    ∃ i, CopyWords dst src dst_x dst_y src_x src_y w h
      (int (max dst_y (max (dst_y - src_y) 0) + row) * dst.pitch_pixels.toNat +
          max dst_x (max (dst_x - src_x) 0) + col, i) := by
  have hdw := hdst.width
  have hdh := hdst.height
  have hsw := hsrc.width
  have hsh := hsrc.height
  have hword := (hcopies.words _).mp (mem_blit.mpr ⟨row, col, hrow, hcol, rfl⟩)
  rw [hx.clip_side (by omega) (by omega) hdx hsx hw, hy.clip_side (by omega) (by omega) hdy hsy hh] at hword
  exact ⟨_, hword⟩

/-- The rows end in the source, or the destination ends first: else the row behind one of them is copied. -/
theorem rows_fit (hcopies : Copies dst src dst_x dst_y src_x src_y w h) :
    SideFits dst_y src_y h dst.height.toNat src.height.toNat := by
  have hdw := hdst.width
  have hdh := hdst.height
  have hsw := hsrc.width
  have hsh := hsrc.height
  have hleft := hx.extent_pos (by omega) (by omega) hdx hsx hw
  rw [← clip_side_nonpos_iff (by omega) (by omega) hdx hsx hw, not_le] at hleft
  have hwords := fun row hrow =>
      @copies_word _ _ _ _ _ _ _ _ hdst hsrc hdx hdy hsx hsy hw hh hx hy hcopies row 0 hrow hleft
  rw [hy.clip_side (by omega) (by omega) hdy hsy hh] at hwords
  dsimp only at hwords
  clear hleft
  have hboundsx := hx.bounds
  have hboundsy := hy.bounds
  have hlowx : 0 ≤ max dst_x (max (dst_x - src_x) 0) ∧ max dst_x (max (dst_x - src_x) 0) < dst.width.toNat := by
    omega
  have hlowy : (0 ≤ max dst_y (max (dst_y - src_y) 0) ∧ max dst_y (max (dst_y - src_y) 0) < dst.height.toNat) ∧
      max dst_y (max (dst_y - src_y) 0) < dst_y - src_y + src.height.toNat := by
    omega
  generalize max dst_x (max (dst_x - src_x) 0) = cx at *
  generalize max dst_y (max (dst_y - src_y) 0) = cy at *
  by_contra hnot
  unfold SideFits at hnot
  unfold IsInt at hdy hsy hh
  by_cases hfar : dst_y + h < 2 ^ 31
  · obtain ⟨i, hword⟩ := hwords (dst_y - src_y + src.height.toNat - cy).toNat (by
      rw [if_neg (by omega), if_pos hfar]
      omega)
    have hsource := hword.source hdst cx.toNat (dst_y - src_y + src.height.toNat).toNat ⟨by omega, by omega⟩ (by
      unfold Matrix.word
      dsimp only
      rw [int_eq (by unfold IsInt; omega), show cy + ((dst_y - src_y + src.height.toNat - cy).toNat : Int) =
        ((dst_y - src_y + src.height.toNat).toNat : Int) by omega]
      omega)
    omega
  · obtain ⟨i, hword⟩ := hwords (dst.height.toNat - cy.toNat) (by
      rw [if_neg (by omega), if_neg hfar]
      omega)
    have hend := hword.fillWord.before_end hdst
    dsimp only at hend
    rw [show cy + ((dst.height.toNat - cy.toNat : Nat) : Int) = dst.height.toNat by omega,
      int_eq (by unfold IsInt; omega)] at hend
    omega

/-- So do the columns. -/
theorem columns_fit (hcopies : Copies dst src dst_x dst_y src_x src_y w h) :
    SideFits dst_x src_x w dst.width.toNat src.width.toNat := by
  have hdw := hdst.width
  have hdh := hdst.height
  have hsw := hsrc.width
  have hsh := hsrc.height
  have hleft := hy.extent_pos (by omega) (by omega) hdy hsy hh
  rw [← clip_side_nonpos_iff (by omega) (by omega) hdy hsy hh, not_le] at hleft
  have hwords := fun col hcol =>
      @copies_word _ _ _ _ _ _ _ _ hdst hsrc hdx hdy hsx hsy hw hh hx hy hcopies 0 col hleft hcol
  rw [hx.clip_side (by omega) (by omega) hdx hsx hw] at hwords
  dsimp only at hwords
  clear hleft
  have hboundsx := hx.bounds
  have hboundsy := hy.bounds
  have hlowx : (0 ≤ max dst_x (max (dst_x - src_x) 0) ∧ max dst_x (max (dst_x - src_x) 0) < dst.width.toNat) ∧
      max dst_x (max (dst_x - src_x) 0) < dst_x - src_x + src.width.toNat := by
    omega
  have hlowy : 0 ≤ max dst_y (max (dst_y - src_y) 0) ∧ max dst_y (max (dst_y - src_y) 0) < dst.height.toNat := by
    omega
  generalize max dst_x (max (dst_x - src_x) 0) = cx at *
  generalize max dst_y (max (dst_y - src_y) 0) = cy at *
  by_contra hnot
  unfold SideFits at hnot
  unfold IsInt at hdx hsx hw
  by_cases hfar : dst_x + w < 2 ^ 31
  · obtain ⟨i, hword⟩ := hwords (dst_x - src_x + src.width.toNat - cx).toNat (by
      rw [if_neg (by omega), if_pos hfar]
      omega)
    have hsource := hword.source hdst (dst_x - src_x + src.width.toNat).toNat cy.toNat ⟨by omega, by omega⟩ (by
      unfold Matrix.word
      dsimp only
      rw [int_eq (by unfold IsInt; omega), show cy + ((0 : Nat) : Int) = (cy.toNat : Int) by omega]
      omega)
    omega
  · obtain ⟨i, hword⟩ := hwords (dst.width.toNat - cx.toNat) (by
      rw [if_neg (by omega), if_neg hfar]
      omega)
    have hbehind := hword.fillWord
    dsimp only at hbehind
    rw [Int.add_assoc, show cx + ((dst.width.toNat - cx.toNat : Nat) : Int) = dst.width.toNat by omega] at hbehind
    exact FillWord.not_behind_row hdst (by omega) hbehind

end

theorem fits_of_copies (hcopies : Copies dst src dst_x dst_y src_x src_y w h) :
    BlitFits dst src dst_x dst_y src_x src_y w h := by
  have hdw := hdst.width
  have hdh := hdst.height
  have hsw := hsrc.width
  have hsh := hsrc.height
  unfold BlitFits
  rw [← clip_side_nonpos_iff (by omega) (by omega) hdx hsx hw, ← clip_side_nonpos_iff (by omega) (by omega) hdy hsy hh]
  by_cases hleftx : (clip_side dst_x src_x w dst.width.toNat src.width.toNat).extent ≤ 0
  · exact Or.inl hleftx
  by_cases hlefty : (clip_side dst_y src_y h dst.height.toNat src.height.toNat).extent ≤ 0
  · exact Or.inr (Or.inl hlefty)
  have hword := (hcopies.words _).mp (mem_blit.mpr ⟨0, 0, by omega, by omega, rfl⟩)
  obtain ⟨hx, hy⟩ := hword.common
  exact Or.inr (Or.inr ⟨⟨hx, columns_fit hdst hsrc hdx hdy hsx hsy hw hh hx hy hcopies⟩,
    hy, rows_fit hdst hsrc hdx hdy hsx hsy hw hh hx hy hcopies⟩)

end

/-! ## Both calls -/

/-- A rectangle is filled exactly, and a region is copied exactly, where the sums allow it. -/
theorem fb_matrix_clips (dst src : Matrix) (hdst : dst.Small) (hsrc : src.Small) :
    (∀ x y w h : Int, IsInt x → IsInt y → IsInt w → IsInt h → (Fills dst x y w h ↔ FillFits dst x y w h)) ∧
      ∀ dst_x dst_y src_x src_y w h : Int, IsInt dst_x → IsInt dst_y → IsInt src_x → IsInt src_y → IsInt w → IsInt h →
        (Copies dst src dst_x dst_y src_x src_y w h ↔ BlitFits dst src dst_x dst_y src_x src_y w h) :=
  ⟨fun _ _ _ _ hx hy hw hh => ⟨fits_of_fills hdst hx hy hw hh, fills_of_fits hdst hx hy hw hh⟩,
    fun _ _ _ _ _ _ hdx hdy hsx hsy hw hh =>
      ⟨fits_of_copies hdst hsrc hdx hdy hsx hsy hw hh, copies_of_fits hdst hsrc hdx hdy hsx hsy hw hh⟩⟩

/-- A matrix, and a smaller one that is copied to it. -/
def tile : Matrix := ⟨8, 6, 10⟩
def sprite : Matrix := ⟨5, 4, 5⟩

/-- Above and to the right of the tile both calls are cut. -/
theorem fb_matrix_clips_tile : Fills tile 6 (-1) 5 4 ∧ Copies tile sprite 6 (-1) 1 0 5 4 := by
  have hclips := fb_matrix_clips tile sprite ⟨by decide, by decide, by decide⟩ ⟨by decide, by decide, by decide⟩
  have hint (v : Int) (hlow : -16 ≤ v) (hhigh : v ≤ 16) : IsInt v := ⟨by omega, by omega⟩
  refine ⟨(hclips.1 _ _ _ _ ?_ ?_ ?_ ?_).mpr (.inl ⟨?_, ?_⟩),
    (hclips.2 _ _ _ _ _ _ ?_ ?_ ?_ ?_ ?_ ?_).mpr (.inr (.inr ⟨⟨?_, .inl ?_⟩, ?_, .inl ?_⟩))⟩
  all_goals first
    | exact hint _ (by decide) (by decide)
    | unfold Common; decide
    | decide

/-- A matrix of a single pixel. -/
def dot : Matrix := ⟨1, 1, 1⟩

theorem dot_small : dot.Small := ⟨by decide, by decide, by decide⟩

/-- A rectangle right of the only pixel, `2^31 - 1` pixels wide, is written. -/
theorem wide_rect_written : ¬ Fills dot 1 0 (2 ^ 31 - 1) 1 := by
  intro hfills
  have hfits : FillFits dot 1 0 (2 ^ 31 - 1) 1 := by
    apply fits_of_fills dot_small _ _ _ _ hfills
    all_goals
      unfold IsInt
      omega
  have hsize : dot.width.toNat = 1 ∧ dot.height.toNat = 1 := by decide
  unfold FillFits SideEmpty IsInt at hfits
  rw [hsize.1, hsize.2] at hfits
  omega

end graceos.video.matrix
