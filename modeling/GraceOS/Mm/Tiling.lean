import GraceOS.Mm.Kheap
import Mathlib.Algebra.GroupWithZero.Nat
import Mathlib.Data.List.Chain

/-!
# The heap as a tiling

A heap region is a sequence of tiles, each a block with its header and its footer. `Tiled` reads
the sequence off the memory: the headers carry the sizes and the links both ways and the footers
repeat the sizes, from one end of the region to the other.
-/

namespace graceos.mm

open word

/-- A block of the heap. -/
structure Tile where
  size : Nat
  free : Bool
deriving DecidableEq, Repr

/-- The block `t` lies at `b`, between the blocks `p` and `n`. -/
structure BlockAt (m : Mem) (p b : Nat) (t : Tile) (n : Nat) : Prop where
  large : HEADER_SIZE + FOOTER_SIZE ≤ t.size
  aligned : t.size % KHEAP_ALIGN = 0
  magic : m.magic b = KHEAP_MAGIC
  free : m.free b = t.free.toNat
  size : m.size b = t.size
  next : m.next b = n
  prev : m.prev b = p
  footer_size : m.footer_size (b + t.size - FOOTER_SIZE) = t.size
  footer_magic : m.footer_magic (b + t.size - FOOTER_SIZE) = KHEAP_MAGIC

/-- The blocks `ts` fill the region from `a` to `e`: the first one has `p` before it, each has the
next one behind it, and the last one has none. -/
def Tiled (m : Mem) : (p a : Nat) → List Tile → (e : Nat) → Prop
  | _, a, [], e => a = e
  | p, a, t :: ts, e =>
    BlockAt m p a t (if ts = [] then 0 else a + t.size) ∧ Tiled m a (a + t.size) ts e

/-- The blocks with their addresses. -/
def placed : (a : Nat) → List Tile → List (Nat × Tile)
  | _, [] => []
  | a, t :: ts => (a, t) :: placed (a + t.size) ts

/-- The number of bytes in the blocks. -/
def extent (ts : List Tile) : Nat := (ts.map Tile.size).sum

/-- No two blocks next to each other are both free. -/
def Coalesced (ts : List Tile) : Prop := ts.IsChain fun t u => ¬ (t.free ∧ u.free)

@[simp] theorem extent_nil : extent [] = 0 := rfl

@[simp] theorem extent_cons (t : Tile) (ts : List Tile) : extent (t :: ts) = t.size + extent ts := by
  simp [extent]

@[simp] theorem extent_append (xs ys : List Tile) : extent (xs ++ ys) = extent xs + extent ys := by
  simp [extent]

theorem placed_append (a : Nat) (xs ys : List Tile) :
    placed a (xs ++ ys) = placed a xs ++ placed (a + extent xs) ys := by
  induction xs generalizing a with
  | nil => simp [placed]
  | cons t ts ih => simp [placed, ih, Nat.add_assoc]

theorem exists_of_mem_placed {a b : Nat} {t : Tile} {ts : List Tile} (h : (b, t) ∈ placed a ts) :
    ∃ xs ys, ts = xs ++ t :: ys ∧ b = a + extent xs := by
  induction ts generalizing a with
  | nil => simp [placed] at h
  | cons u us ih =>
    simp only [placed, List.mem_cons, Prod.mk.injEq] at h
    obtain ⟨rfl, rfl⟩ | h := h
    · exact ⟨[], us, rfl, rfl⟩
    · obtain ⟨xs, ys, rfl, rfl⟩ := ih h
      exact ⟨u :: xs, ys, rfl, by simp [Nat.add_assoc]⟩

theorem mem_placed_middle (a : Nat) (xs ys : List Tile) (t : Tile) :
    (a + extent xs, t) ∈ placed a (xs ++ t :: ys) := by
  simp [placed_append, placed]

theorem le_of_mem_placed {a : Nat} {ts : List Tile} {x : Nat × Tile} (hx : x ∈ placed a ts) :
    a ≤ x.1 := by
  induction ts generalizing a with
  | nil => simp [placed] at hx
  | cons t ts ih =>
    simp only [placed, List.mem_cons] at hx
    obtain rfl | hx := hx
    · exact Nat.le_refl a
    · have := ih hx
      omega

theorem placed_apart {a : Nat} {ts : List Tile} {x y : Nat × Tile} (hx : x ∈ placed a ts)
    (hy : y ∈ placed a ts) : x = y ∨ x.1 + x.2.size ≤ y.1 ∨ y.1 + y.2.size ≤ x.1 := by
  induction ts generalizing a with
  | nil => simp [placed] at hx
  | cons t ts ih =>
    simp only [placed, List.mem_cons] at hx hy
    rcases hx with rfl | hx <;> rcases hy with rfl | hy
    · exact .inl rfl
    · exact .inr (.inl (le_of_mem_placed hy))
    · exact .inr (.inr (le_of_mem_placed hx))
    · exact ih hx hy

/-! ## Reading the fields of an intact block -/

section Fields

variable {m m' : Mem} {p b n e : Nat} {t : Tile}

theorem BlockAt.get_footer (h : BlockAt m p b t n) (hend : b + t.size ≤ 2 ^ 64) :
    m.get_footer b = b + t.size - FOOTER_SIZE := by
  have hlarge := h.large
  simp only [HEADER_SIZE, FOOTER_SIZE] at hlarge
  simp only [Mem.get_footer, h.size, FOOTER_SIZE]
  omega

theorem BlockAt.valid (h : BlockAt m p b t n) (hb : b ≠ 0) (hend : b + t.size ≤ 2 ^ 64) :
    m.block_valid b = true := by
  simp [Mem.block_valid, h.get_footer hend, hb, h.magic, h.footer_magic, h.footer_size, h.size]

/-- The bytes of a block's header and footer. -/
def Meta (b : Nat) (t : Tile) (a : Nat) : Prop :=
  (b ≤ a ∧ a < b + HEADER_SIZE) ∨ (b + t.size - FOOTER_SIZE ≤ a ∧ a < b + t.size)

theorem BlockAt.congr (h : BlockAt m p b t n) (hsame : ∀ a, Meta b t a → m' a = m a) :
    BlockAt m' p b t n := by
  have hlarge := h.large
  simp only [HEADER_SIZE, FOOTER_SIZE] at hlarge
  simp only [Meta, HEADER_SIZE, FOOTER_SIZE] at hsame
  obtain ⟨hsizes, haligned, hmagic, hfree, hsize, hnext, hprev, hfsize, hfmagic⟩ := h
  refine ⟨hsizes, haligned, ?_, ?_, ?_, ?_, ?_, ?_, ?_⟩
  · exact (load_congr fun i _ => hsame (b + i) (by omega)).trans hmagic
  · exact (load_congr fun i _ => hsame (b + 4 + i) (by omega)).trans hfree
  · exact (load_congr fun i _ => hsame (b + 8 + i) (by omega)).trans hsize
  · exact (load_congr fun i _ => hsame (b + 16 + i) (by omega)).trans hnext
  · exact (load_congr fun i _ => hsame (b + 24 + i) (by omega)).trans hprev
  · refine (load_congr fun i _ => hsame _ ?_).trans hfsize
    simp only [FOOTER_SIZE]
    omega
  · refine (load_congr fun i _ => hsame _ ?_).trans hfmagic
    simp only [FOOTER_SIZE]
    omega

end Fields

/-! ## Tilings under changes of the memory -/

section Tilings

variable {m m' : Mem} {p q a e : Nat} {t : Tile} {xs ts us : List Tile}

theorem Tiled.end_eq (h : Tiled m p a ts e) : a + extent ts = e := by
  induction ts generalizing p a with
  | nil => simpa [Tiled] using h
  | cons t ts ih =>
    rw [extent_cons, ← Nat.add_assoc]
    exact ih h.2

theorem Tiled.congr (h : Tiled m p a ts e)
    (hsame : ∀ b t, (b, t) ∈ placed a ts → ∀ x, Meta b t x → m' x = m x) : Tiled m' p a ts e := by
  induction ts generalizing p a with
  | nil => exact h
  | cons t ts ih =>
    refine ⟨h.1.congr (hsame a t (by simp [placed])), ih h.2 fun b u hb => hsame b u ?_⟩
    simp [placed, hb]

theorem Tiled.frame (h : Tiled m p a ts e) (hsame : ∀ x, a ≤ x → x < e → m' x = m x) :
    Tiled m' p a ts e := by
  induction ts generalizing p a with
  | nil => exact h
  | cons t ts ih =>
    have hend := Tiled.end_eq h
    have hlarge := h.1.large
    simp only [HEADER_SIZE, FOOTER_SIZE] at hlarge
    rw [extent_cons] at hend
    refine ⟨h.1.congr fun x hx => ?_, ih h.2 fun x hx => hsame x (by omega)⟩
    simp only [Meta, HEADER_SIZE, FOOTER_SIZE] at hx
    exact hsame x (by omega) (by omega)

theorem Tiled.drop (h : Tiled m p a (xs ++ ts) e) :
    ∃ q, Tiled m q (a + extent xs) ts e ∧ (xs = [] → q = p) ∧
      ∀ ws w, xs = ws ++ [w] → q = a + extent ws := by
  induction xs generalizing p a with
  | nil => exact ⟨p, h, fun _ => rfl, by simp⟩
  | cons x xs ih =>
    obtain ⟨q, hq, hnil, hlast⟩ := ih h.2
    refine ⟨q, by simpa [Nat.add_assoc] using hq, by simp, fun ws w hw => ?_⟩
    cases ws with
    | nil =>
      obtain ⟨rfl, rfl⟩ : x = w ∧ xs = [] := by simpa using hw
      simpa using hnil rfl
    | cons v vs =>
      obtain ⟨rfl, hxs⟩ : x = v ∧ xs = vs ++ [w] := by simpa using hw
      rw [hlast vs w hxs, extent_cons, Nat.add_assoc]

theorem Tiled.splice {u : Tile} (h : Tiled m p a (xs ++ t :: ts) e)
    (hnew : ∀ q, Tiled m q (a + extent xs) (t :: ts) e → Tiled m' q (a + extent xs) (u :: us) e)
    (hsame : ∀ x, a ≤ x → x < a + extent xs → m' x = m x) :
    Tiled m' p a (xs ++ u :: us) e := by
  induction xs generalizing p a with
  | nil => simpa using hnew p h
  | cons x xs ih =>
    have hlarge := h.1.large
    simp only [HEADER_SIZE, FOOTER_SIZE] at hlarge
    simp only [extent_cons] at hsame hnew
    refine ⟨?_, ih h.2 (by simpa only [Nat.add_assoc] using hnew) fun y hy hy' => ?_⟩
    · have hblock : BlockAt m p a x (a + x.size) := by
        have := h.1
        rwa [if_neg (by simp)] at this
      rw [if_neg (by simp)]
      refine hblock.congr fun y hy => ?_
      simp only [Meta, HEADER_SIZE, FOOTER_SIZE] at hy
      exact hsame y (by omega) (by omega)
    · exact hsame y (by omega) (by omega)

end Tilings

end graceos.mm
