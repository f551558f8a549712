import GraceOS.Mm.Tiling
import GraceOS.Lib.Machine

/-!
# The heap keeps its tiling

Marking a block, cutting one in two and letting one absorb the next are the only changes that
`kmalloc` and `kfree` make. Each takes a tiling to a tiling.
-/

namespace graceos.mm

open word List

section Edits

variable {m : Mem} {p a e v : Nat} {t u : Tile} {ts : List Tile}

theorem BlockAt.end_le {n : Nat} (h : BlockAt m p a t n) : a + 48 ≤ a + t.size := by
  have := h.large
  simp only [HEADER_SIZE, FOOTER_SIZE] at this
  omega

theorem Tiled.set_free (h : Tiled m p a (t :: ts) e) (flag : Bool) :
    Tiled (m.set_free a flag.toNat) p a ({ t with free := flag } :: ts) e := by
  have hend := h.1.end_le
  have hvalue : flag.toNat < 256 ^ 4 := by cases flag <;> decide
  obtain ⟨⟨hlarge, haligned, hmagic, hfree, hsize, hnext, hprev, hfsize, hfmagic⟩, hrest⟩ := h
  refine ⟨⟨hlarge, haligned, ?_, load_store hvalue, ?_, ?_, ?_, ?_, ?_⟩, hrest.frame fun x hx _ => ?_⟩
  · exact (load_store_apart (by omega)).trans hmagic
  · exact (load_store_apart (by omega)).trans hsize
  · exact (load_store_apart (by omega)).trans hnext
  · exact (load_store_apart (by omega)).trans hprev
  · exact (load_store_apart (by simp only [FOOTER_SIZE]; omega)).trans hfsize
  · exact (load_store_apart (by simp only [FOOTER_SIZE]; omega)).trans hfmagic
  · exact store_outside (by omega)

theorem Tiled.set_prev (h : Tiled m p a (t :: ts) e) (hv : v < 2 ^ 64) :
    Tiled (m.set_prev a v) v a (t :: ts) e := by
  have hend := h.1.end_le
  obtain ⟨⟨hlarge, haligned, hmagic, hfree, hsize, hnext, hprev, hfsize, hfmagic⟩, hrest⟩ := h
  refine ⟨⟨hlarge, haligned, ?_, ?_, ?_, ?_, load_store hv, ?_, ?_⟩, hrest.frame fun x hx _ => ?_⟩
  · exact (load_store_apart (by omega)).trans hmagic
  · exact (load_store_apart (by omega)).trans hfree
  · exact (load_store_apart (by omega)).trans hsize
  · exact (load_store_apart (by omega)).trans hnext
  · exact (load_store_apart (by simp only [FOOTER_SIZE]; omega)).trans hfsize
  · exact (load_store_apart (by simp only [FOOTER_SIZE]; omega)).trans hfmagic
  · exact store_outside (by omega)

theorem set_free_outside {x : Nat} (hx : x < a ∨ a + 32 ≤ x) : (m.set_free a v) x = m x :=
  store_outside (by omega)

theorem set_prev_outside {x : Nat} (hx : x < a ∨ a + 32 ≤ x) : (m.set_prev a v) x = m x :=
  store_outside (by omega)

theorem set_footer_outside {f x : Nat} (hx : x < f ∨ f + 16 ≤ x) : (m.set_footer f v) x = m x :=
  (store_outside (by omega)).trans (store_outside (by omega))

/-- The memory after a block took over the one behind it. -/
theorem absorb_eq {n c : Nat} (hsum : a + t.size + u.size ≤ 2 ^ 64) (hlarge : 16 ≤ t.size)
    (ht : m.size a = t.size) (hu : m.size c = u.size) (hn : m.next c = n) (hbelow : n < 2 ^ 64)
    (hfar : n = 0 ∨ a + 32 ≤ n) (hlow : 0 < a) :
    m.absorb a c =
      (if n ≠ 0 then ((m.set_size a (t.size + u.size)).set_next a n).set_prev n a
        else (m.set_size a (t.size + u.size)).set_next a n).set_footer
          (a + (t.size + u.size) - FOOTER_SIZE) (t.size + u.size) := by
  have hvalue : t.size + u.size < 256 ^ 8 := by omega
  have hsize : (m.size a + m.size c) % 2 ^ 64 = t.size + u.size := by
    rw [ht, hu]
    exact Nat.mod_eq_of_lt hvalue
  have hnext : ((m.set_size a (t.size + u.size)).set_next a n).next a = n := load_store hbelow
  have hread : ∀ y v, a + 32 ≤ y →
      (((m.set_size a (t.size + u.size)).set_next a n).set_prev y v).size a = t.size + u.size := by
    intro y v hy
    simp only [Mem.size, Mem.set_prev, Mem.set_next, Mem.set_size]
    rw [load_store_apart (by omega), load_store_apart (by omega), load_store hvalue]
  have hread' : ((m.set_size a (t.size + u.size)).set_next a n).size a = t.size + u.size := by
    simp only [Mem.size, Mem.set_next, Mem.set_size]
    rw [load_store_apart (by omega), load_store hvalue]
  have hfooter : ∀ m' : Mem, m'.size a = t.size + u.size →
      m'.get_footer a = a + (t.size + u.size) - FOOTER_SIZE := by
    intro m' hm'
    simp only [Mem.get_footer, hm', FOOTER_SIZE]
    omega
  simp only [Mem.absorb, hsize, hn, hnext]
  by_cases hzero : n = 0
  · simp only [hzero, ne_eq, not_true_eq_false, if_false] at hread' ⊢
    rw [hfooter _ hread', hread']
  · have hy := hfar.resolve_left hzero
    simp only [ne_eq, hzero, not_false_eq_true, if_true]
    rw [hfooter _ (hread n a hy), hread n a hy]

/-- A block takes over the one behind it. -/
theorem Tiled.absorb (h : Tiled m p a (t :: u :: ts) e) (hlow : 0 < a) (he : e < 2 ^ 64) :
    Tiled (m.absorb a (a + t.size)) p a (⟨t.size + u.size, t.free⟩ :: ts) e := by
  have htend := h.1.end_le
  have huend := h.2.1.end_le
  have hrest := h.2.2
  have hsum := hrest.end_eq
  have haligned : (t.size + u.size) % KHEAP_ALIGN = 0 := by
    have ht := h.1.aligned
    have hu := h.2.1.aligned
    simp only [KHEAP_ALIGN] at ht hu ⊢
    omega
  have hlarge : HEADER_SIZE + FOOTER_SIZE ≤ t.size + u.size := h.1.large.trans (Nat.le_add_right _ _)
  have hvalue : t.size + u.size < 256 ^ 8 := by omega
  have hconst : KHEAP_MAGIC < 256 ^ 4 := by decide
  obtain ⟨⟨_, _, hmagic, hfree, hsize, -, hprev, -, -⟩, ⟨_, _, -, -, hsize', hnext', -, -, -⟩, -⟩ := h
  simp only [Mem.magic, Mem.free, Mem.prev] at hmagic hfree hprev
  cases ts with
  | nil =>
    simp only [if_true] at hnext'
    rw [absorb_eq (by omega) (by omega) hsize hsize' hnext' (by decide) (.inl rfl) hlow]
    simp only [Tiled, ne_eq, not_true_eq_false, if_false, if_true, extent_nil] at hsum ⊢
    refine ⟨⟨hlarge, haligned, ?_, ?_, ?_, ?_, ?_, ?_, ?_⟩, by omega⟩ <;>
      simp (disch := omega) only [Mem.magic, Mem.free, Mem.size, Mem.next, Mem.prev, Mem.footer_size,
        Mem.footer_magic, Mem.set_footer, Mem.set_next, Mem.set_size, FOOTER_SIZE, load_store_apart,
        load_store, hmagic, hfree, hprev]
  | cons w ws =>
    have hwend := hrest.1.end_le
    rw [extent_cons] at hsum
    simp only [cons_ne_nil, if_false] at hnext'
    rw [absorb_eq (by omega) (by omega) hsize hsize' hnext' (by omega) (.inr (by omega)) hlow,
      if_pos (by omega)]
    refine ⟨⟨hlarge, haligned, ?_, ?_, ?_, ?_, ?_, ?_, ?_⟩, ?_⟩
    case refine_8 =>
      change Tiled _ a (a + (t.size + u.size)) (w :: ws) e
      rw [← Nat.add_assoc]
      refine (hrest.set_prev (show a < 2 ^ 64 by omega)).frame fun x hx _ => ?_
      rw [set_footer_outside (by simp only [FOOTER_SIZE]; omega)]
      exact store_congr ((store_outside (by omega)).trans (store_outside (by omega)))
    all_goals
      simp (disch := omega) only [Mem.magic, Mem.free, Mem.size, Mem.next, Mem.prev, Mem.footer_size,
        Mem.footer_magic, Mem.set_footer, Mem.set_next, Mem.set_size, Mem.set_prev, FOOTER_SIZE,
        cons_ne_nil, if_false, Nat.add_assoc, load_store_apart, load_store, hmagic, hfree, hprev]

theorem absorb_outside {x : Nat} (h : Tiled m p a (t :: u :: ts) e) (hlow : 0 < a) (he : e < 2 ^ 64)
    (hx : x < a ∨ e ≤ x) : (m.absorb a (a + t.size)) x = m x := by
  have htend := h.1.end_le
  have huend := h.2.1.end_le
  have hsum := h.2.2.end_eq
  cases ts with
  | nil =>
    rw [absorb_eq (by omega) (by omega) h.1.size h.2.1.size h.2.1.next (by simp) (.inl (by simp)) hlow]
    simp only [if_true, ne_eq, not_true_eq_false, if_false, extent_nil] at hsum ⊢
    rw [set_footer_outside (by simp only [FOOTER_SIZE]; omega)]
    exact (store_outside (by omega)).trans (store_outside (by omega))
  | cons w ws =>
    have hwend := h.2.2.1.end_le
    have hnext := h.2.1.next
    rw [extent_cons] at hsum
    simp only [cons_ne_nil, if_false] at hnext
    rw [absorb_eq (by omega) (by omega) h.1.size h.2.1.size hnext (by omega) (.inr (by omega)) hlow,
      if_pos (by omega), set_footer_outside (by simp only [FOOTER_SIZE]; omega),
      set_prev_outside (by omega)]
    exact (store_outside (by omega)).trans (store_outside (by omega))

/-- The memory after a block was cut in two. -/
theorem split_eq {needed n : Nat} (hn : m.next a = n) (hneeded : 48 ≤ needed)
    (hremain : needed + 48 ≤ t.size) (hbound : a + t.size < 2 ^ 64) (hbelow : n < 2 ^ 64) :
    m.split a needed (t.size - needed) =
      (let m₁ := (((((m.set_magic (a + needed) KHEAP_MAGIC).set_free (a + needed) 1).set_size
        (a + needed) (t.size - needed)).set_next (a + needed) n).set_prev (a + needed) a).set_footer
          (a + t.size - FOOTER_SIZE) (t.size - needed)
       let m₂ := ((m₁.set_size a needed).set_next a (a + needed)).set_footer
          (a + needed - FOOTER_SIZE) needed
       if n ≠ 0 then m₂.set_prev n (a + needed) else m₂) := by
  have hconst : KHEAP_MAGIC < 256 ^ 4 := by decide
  have hfoot : (((((m.set_magic (a + needed) KHEAP_MAGIC).set_free (a + needed) 1).set_size
      (a + needed) (t.size - needed)).set_next (a + needed) n).set_prev (a + needed) a).get_footer
        (a + needed) = a + t.size - FOOTER_SIZE := by
    simp (disch := omega) only [Mem.get_footer, Mem.size, Mem.set_prev, Mem.set_next, Mem.set_size,
      FOOTER_SIZE, load_store_apart, load_store]
    omega
  have hfoot' : ∀ m₁ : Mem, ((m₁.set_size a needed).set_next a (a + needed)).get_footer a =
      a + needed - FOOTER_SIZE := by
    intro m₁
    simp (disch := omega) only [Mem.get_footer, Mem.size, Mem.set_next, Mem.set_size,
      FOOTER_SIZE, load_store_apart, load_store]
    omega
  simp only [Mem.split, hn, hfoot, hfoot']
  have hnext : (((((((((m.set_magic (a + needed) KHEAP_MAGIC).set_free (a + needed) 1).set_size
      (a + needed) (t.size - needed)).set_next (a + needed) n).set_prev (a + needed) a).set_footer
        (a + t.size - FOOTER_SIZE) (t.size - needed)).set_size a needed).set_next a (a + needed)).set_footer
          (a + needed - FOOTER_SIZE) needed).next (a + needed) = n := by
    simp (disch := omega) only [Mem.next, Mem.set_footer, Mem.set_prev, Mem.set_next, Mem.set_size,
      FOOTER_SIZE, load_store_apart, load_store]
  rw [hnext]

theorem BlockAt.split_left {needed n : Nat} (h : BlockAt m p a t n) (hneeded : 48 ≤ needed)
    (hmod : needed % 8 = 0) (hremain : needed + 48 ≤ t.size) (hbound : a + t.size < 2 ^ 64)
    (hbelow : n < 2 ^ 64) (hfar : n = 0 ∨ a + t.size ≤ n) :
    BlockAt (m.split a needed (t.size - needed)) p a ⟨needed, t.free⟩ (a + needed) := by
  rw [split_eq h.next hneeded hremain hbound hbelow]
  have hconst : KHEAP_MAGIC < 256 ^ 4 := by decide
  obtain ⟨_, _, hmagic, hfree, -, -, hprev, -, -⟩ := h
  simp only [Mem.magic, Mem.free, Mem.prev] at hmagic hfree hprev
  by_cases hzero : n = 0
  · simp only [hzero, ne_eq, not_true_eq_false, if_false]
    refine ⟨hneeded, hmod, ?_, ?_, ?_, ?_, ?_, ?_, ?_⟩ <;>
      simp (disch := omega) only [Mem.magic, Mem.free, Mem.size, Mem.next, Mem.prev, Mem.footer_size,
        Mem.footer_magic, Mem.set_footer, Mem.set_next, Mem.set_size, Mem.set_free, Mem.set_prev,
        Mem.set_magic, FOOTER_SIZE, load_store_apart, load_store, hmagic, hfree, hprev]
  · have hfar' := hfar.resolve_left hzero
    simp only [hzero, ne_eq, not_false_eq_true, if_true]
    refine ⟨hneeded, hmod, ?_, ?_, ?_, ?_, ?_, ?_, ?_⟩ <;>
      simp (disch := omega) only [Mem.magic, Mem.free, Mem.size, Mem.next, Mem.prev, Mem.footer_size,
        Mem.footer_magic, Mem.set_footer, Mem.set_next, Mem.set_size, Mem.set_free, Mem.set_prev,
        Mem.set_magic, FOOTER_SIZE, load_store_apart, load_store, hmagic, hfree, hprev]

theorem BlockAt.split_right {needed n : Nat} (h : BlockAt m p a t n) (hneeded : 48 ≤ needed)
    (hmod : needed % 8 = 0) (hremain : needed + 48 ≤ t.size) (hbound : a + t.size < 2 ^ 64)
    (hbelow : n < 2 ^ 64) (hfar : n = 0 ∨ a + t.size ≤ n) :
    BlockAt (m.split a needed (t.size - needed)) a (a + needed) ⟨t.size - needed, true⟩ n := by
  rw [split_eq h.next hneeded hremain hbound hbelow]
  have hconst : KHEAP_MAGIC < 256 ^ 4 := by decide
  have hlarge : HEADER_SIZE + FOOTER_SIZE ≤ t.size - needed := by
    simp only [HEADER_SIZE, FOOTER_SIZE]
    omega
  have haligned : (t.size - needed) % KHEAP_ALIGN = 0 := by
    have := h.aligned
    simp only [KHEAP_ALIGN] at this ⊢
    omega
  have hend : a + needed + (t.size - needed) = a + t.size := by omega
  by_cases hzero : n = 0
  · simp only [hzero, ne_eq, not_true_eq_false, if_false]
    refine ⟨hlarge, haligned, ?_, ?_, ?_, ?_, ?_, ?_, ?_⟩ <;>
      simp (disch := omega) only [Mem.magic, Mem.free, Mem.size, Mem.next, Mem.prev, Mem.footer_size,
        Mem.footer_magic, Mem.set_footer, Mem.set_next, Mem.set_size, Mem.set_free, Mem.set_prev,
        Mem.set_magic, FOOTER_SIZE, load_store_apart, load_store, hend, Bool.toNat_true]
  · have hfar' := hfar.resolve_left hzero
    simp only [hzero, ne_eq, not_false_eq_true, if_true]
    refine ⟨hlarge, haligned, ?_, ?_, ?_, ?_, ?_, ?_, ?_⟩ <;>
      simp (disch := omega) only [Mem.magic, Mem.free, Mem.size, Mem.next, Mem.prev, Mem.footer_size,
        Mem.footer_magic, Mem.set_footer, Mem.set_next, Mem.set_size, Mem.set_free, Mem.set_prev,
        Mem.set_magic, FOOTER_SIZE, load_store_apart, load_store, hend, Bool.toNat_true]

theorem BlockAt.split_outside {needed n x : Nat} (h : BlockAt m p a t n) (hneeded : 48 ≤ needed)
    (hremain : needed + 48 ≤ t.size) (hbound : a + t.size < 2 ^ 64) (hbelow : n < 2 ^ 64)
    (hx : x < a ∨ a + t.size ≤ x) :
    (m.split a needed (t.size - needed)) x = (if n ≠ 0 then m.set_prev n (a + needed) else m) x := by
  rw [split_eq h.next hneeded hremain hbound hbelow]
  have hinner : ∀ m₁ : Mem, m₁ = ((((((((m.set_magic (a + needed) KHEAP_MAGIC).set_free (a + needed)
      1).set_size (a + needed) (t.size - needed)).set_next (a + needed) n).set_prev (a + needed)
        a).set_footer (a + t.size - FOOTER_SIZE) (t.size - needed)).set_size a needed).set_next a
          (a + needed)).set_footer (a + needed - FOOTER_SIZE) needed → m₁ x = m x := by
    rintro m₁ rfl
    rw [set_footer_outside (by simp only [FOOTER_SIZE]; omega)]
    refine (store_outside (by omega)).trans ((store_outside (by omega)).trans ?_)
    rw [set_footer_outside (by simp only [FOOTER_SIZE]; omega), set_prev_outside (by omega)]
    refine (store_outside (by omega)).trans ((store_outside (by omega)).trans ?_)
    rw [set_free_outside (by omega)]
    exact store_outside (by omega)
  by_cases hzero : n = 0
  · simp only [hzero, ne_eq, not_true_eq_false, if_false] at hinner ⊢
    exact hinner _ rfl
  · simp only [hzero, ne_eq, not_false_eq_true, if_true] at hinner ⊢
    exact store_congr (hinner _ rfl)

theorem Tiled.split {needed : Nat} (h : Tiled m p a (t :: ts) e) (he : e < 2 ^ 64)
    (hneeded : 48 ≤ needed) (hmod : needed % 8 = 0) (hremain : needed + 48 ≤ t.size) :
    Tiled (m.split a needed (t.size - needed)) p a
      (⟨needed, t.free⟩ :: ⟨t.size - needed, true⟩ :: ts) e := by
  have hsum := h.2.end_eq
  have hend : a + needed + (t.size - needed) = a + t.size := by omega
  have hbelow : (if ts = [] then 0 else a + t.size) < 2 ^ 64 := by split <;> omega
  have hfar : (if ts = [] then 0 else a + t.size) = 0 ∨ a + t.size ≤ if ts = [] then 0 else a + t.size := by
    split <;> simp
  have hleft := h.1.split_left hneeded hmod hremain (by omega) hbelow hfar
  have hright := h.1.split_right hneeded hmod hremain (by omega) hbelow hfar
  refine ⟨by simpa using hleft, by simpa only [hend] using hright, ?_⟩
  change Tiled _ (a + needed) (a + needed + (t.size - needed)) ts e
  rw [hend]
  cases ts with
  | nil =>
    change a + t.size = e
    exact h.2
  | cons w ws =>
    have hout := fun x => h.1.split_outside (x := x) hneeded hremain (by omega) hbelow
    simp only [cons_ne_nil, if_false] at hout
    refine (h.2.set_prev (show a + needed < 2 ^ 64 by omega)).frame fun x hx _ => ?_
    rw [hout x (.inr hx), if_pos (by omega)]

end Edits

/-! ## Allocation -/

section Alloc

variable {m : Mem} {p a e : Nat} {ts : List Tile}

/-- What is left of a free block that `needed` bytes were taken from. -/
def carve (t : Tile) (needed : Nat) : List Tile :=
  if HEADER_SIZE + KHEAP_ALIGN + FOOTER_SIZE ≤ t.size - needed then
    [⟨needed, false⟩, ⟨t.size - needed, true⟩]
  else [⟨t.size, false⟩]

/-- The outcome of a search: no block, or the first that fits, cut to size and marked. -/
def Allocated (m m' : Mem) (p a e needed : Nat) (ts : List Tile) (r : Nat) : Prop :=
  (r = 0 ∧ m' = m) ∨ ∃ xs t ys, ts = xs ++ t :: ys ∧ t.free = true ∧ needed ≤ t.size ∧
    r = a + extent xs + HEADER_SIZE ∧ Tiled m' p a (xs ++ (carve t needed ++ ys)) e ∧
      ∀ x, x < a ∨ e ≤ x → m' x = m x

theorem Tiled.carve {needed : Nat} {t : Tile} (h : Tiled m p a (t :: ts) e) (he : e < 2 ^ 64)
    (hneeded : 48 ≤ needed) (hmod : needed % 8 = 0) (hfits : needed ≤ t.size) :
    Allocated m
      ((if HEADER_SIZE + KHEAP_ALIGN + FOOTER_SIZE ≤ t.size - needed then
        m.split a needed (t.size - needed) else m).set_free a 0) p a e needed (⟨t.size, true⟩ :: ts)
      (a + HEADER_SIZE) := by
  have hsum := h.2.end_eq
  have htend := h.1.end_le
  refine .inr ⟨[], _, ts, rfl, rfl, hfits, rfl, ?_, fun x hx => ?_⟩
  · unfold graceos.mm.carve
    split
    · next hroom =>
      simp only [HEADER_SIZE, KHEAP_ALIGN, FOOTER_SIZE] at hroom
      exact (h.split he hneeded hmod (by omega)).set_free false
    · exact h.set_free false
  · rw [set_free_outside (by omega)]
    split
    · next hroom =>
      simp only [HEADER_SIZE, KHEAP_ALIGN, FOOTER_SIZE] at hroom
      rw [h.1.split_outside hneeded (by omega) (by omega) (by split <;> omega) (by omega)]
      by_cases hts : ts = []
      · simp [hts]
      · obtain ⟨w, ws, rfl⟩ := exists_cons_of_ne_nil hts
        have hwend := h.2.1.end_le
        rw [extent_cons] at hsum
        simp only [cons_ne_nil, if_false]
        rw [if_pos (by omega)]
        exact set_prev_outside (by omega)
    · rfl

/-- The search ends, with an outcome of its kind. -/
theorem Tiled.kmalloc_from {needed fuel : Nat} (h : Tiled m p a ts e) (hlow : 0 < a) (he : e < 2 ^ 64)
    (hneeded : 48 ≤ needed) (hmod : needed % 8 = 0) (hfuel : ts.length < fuel) :
    ∃ r m', m.kmalloc_from needed fuel (if ts = [] then 0 else a) = some (r, m') ∧
      Allocated m m' p a e needed ts r := by
  induction ts generalizing p a fuel with
  | nil =>
    obtain ⟨fuel, rfl⟩ := Nat.exists_eq_succ_of_ne_zero (show fuel ≠ 0 by omega)
    exact ⟨0, m, by simp [Mem.kmalloc_from], .inl ⟨rfl, rfl⟩⟩
  | cons t ts ih =>
    obtain ⟨fuel, rfl⟩ := Nat.exists_eq_succ_of_ne_zero (show fuel ≠ 0 by omega)
    have hsum := h.2.end_eq
    have hvalid := h.1.valid (by omega) (by omega)
    have hfree : m.free a ≠ 0 ↔ t.free = true := by rw [h.1.free]; cases t.free <;> simp
    simp only [cons_ne_nil, if_false, Mem.kmalloc_from, hvalid, h.1.size, h.1.next, hfree]
    rw [if_neg (by omega)]
    by_cases hfits : t.free = true ∧ needed ≤ t.size
    · rw [if_neg (by simp), if_pos hfits]
      have hcarve := h.carve he hneeded hmod hfits.2
      rw [← hfits.1] at hcarve
      exact ⟨_, _, rfl, hcarve⟩
    · rw [if_neg (by simp), if_neg hfits]
      obtain ⟨r, m', hrun, hout⟩ := ih h.2 (by omega) (by simp at hfuel; omega)
      refine ⟨r, m', hrun, ?_⟩
      rcases hout with hnone | ⟨xs, u, ys, rfl, hu, hle, hr, htiled, hsame⟩
      · exact .inl hnone
      · refine .inr ⟨t :: xs, u, ys, rfl, hu, hle, by rw [hr, extent_cons]; omega, ⟨?_, htiled⟩,
          fun x hx => hsame x (by omega)⟩
        have hcons : xs ++ (graceos.mm.carve u needed ++ ys) ≠ [] := by
          unfold graceos.mm.carve
          split <;> simp
        have hblock := h.1
        rw [if_neg (by simp)] at hblock
        rw [if_neg (by exact hcons)]
        have htend := h.1.end_le
        refine hblock.congr fun x hx => hsame x (.inl ?_)
        simp only [Meta, HEADER_SIZE, FOOTER_SIZE] at hx
        omega

theorem Tiled.sum_sizes {fuel : Nat} (h : Tiled m p a ts e) (hlow : 0 < a) (he : e < 2 ^ 64)
    (hfuel : ts.length < fuel) (want : Bool) :
    m.sum_sizes want fuel (if ts = [] then 0 else a) = extent (ts.filter (·.free == want)) := by
  induction ts generalizing p a fuel with
  | nil =>
    obtain ⟨fuel, rfl⟩ := Nat.exists_eq_succ_of_ne_zero (show fuel ≠ 0 by omega)
    simp [Mem.sum_sizes]
  | cons t ts ih =>
    obtain ⟨fuel, rfl⟩ := Nat.exists_eq_succ_of_ne_zero (show fuel ≠ 0 by omega)
    have hsum := h.2.end_eq
    have hvalid := h.1.valid (by omega) (by omega)
    have hfree : (m.free a != 0) = t.free := by rw [h.1.free]; cases t.free <;> rfl
    simp only [cons_ne_nil, if_false, Mem.sum_sizes, hvalid, h.1.size, h.1.next, hfree]
    rw [if_pos (by simp; omega), ih h.2 (by omega) (by simp at hfuel; omega), filter_cons]
    by_cases hwant : t.free = want
    · simp [hwant]
    · simp [hwant]

end Alloc

theorem extent_filter (ts : List Tile) :
    extent (ts.filter (·.free == false)) + extent (ts.filter (·.free == true)) = extent ts := by
  induction ts with
  | nil => rfl
  | cons t ts ih =>
    cases hfree : t.free <;> simp [hfree] at ih ⊢ <;> omega

/-! ## Release -/

section Release

variable {m : Mem} {a e : Nat} {xs ys : List Tile} {t : Tile}

/-- The blocks behind a freed one, with the first one taken over if it is free. -/
def fuse (t : Tile) : List Tile → List Tile
  | [] => [t]
  | u :: us => if u.free then ⟨t.size + u.size, t.free⟩ :: us else t :: u :: us

theorem free_ne_zero {p n : Nat} (h : BlockAt m p a t n) : m.free a ≠ 0 ↔ t.free = true := by
  rw [h.free]
  cases t.free <;> simp

/-- The first step of `kfree`: the next block is taken over if it is free. -/
theorem Tiled.fuse {p : Nat} (h : Tiled m p a (t :: ys) e) (hlow : 0 < a) (he : e < 2 ^ 64)
    {m' : Mem} (hm' : m' = if m.next a ≠ 0 ∧ m.block_valid (m.next a) ∧ m.free (m.next a) ≠ 0 then
      m.absorb a (m.next a) else m) :
    Tiled m' p a (fuse t ys) e ∧ ∀ x, x < a ∨ e ≤ x → m' x = m x := by
  have hend := h.1.end_le
  cases ys with
  | nil =>
    have hnext := h.1.next
    simp only [if_true] at hnext
    rw [hnext, if_neg (by simp)] at hm'
    subst hm'
    exact ⟨h, fun _ _ => rfl⟩
  | cons u us =>
    have hnext := h.1.next
    have hsum := h.2.2.end_eq
    simp only [cons_ne_nil, if_false] at hnext
    have hvalid := h.2.1.valid (by omega) (by omega)
    rw [hnext] at hm'
    simp only [hvalid, free_ne_zero h.2.1, true_and] at hm'
    rw [graceos.mm.fuse]
    by_cases hfree : u.free = true
    · rw [if_pos ⟨by omega, hfree⟩] at hm'
      subst hm'
      rw [if_pos hfree]
      exact ⟨h.absorb hlow he, fun x hx => absorb_outside h hlow he hx⟩
    · rw [if_neg fun hc => hfree hc.2] at hm'
      subst hm'
      rw [if_neg hfree]
      exact ⟨h, fun _ _ => rfl⟩

theorem Tiled.fuse_back {p q : Nat} {w b : Tile} (h : Tiled m q a (w :: b :: ys) e) (hlow : 0 < a)
    (he : e < 2 ^ 64) (hp : p = a + w.size) {m' : Mem}
    (hm' : m' = if m.prev p ≠ 0 ∧ m.block_valid (m.prev p) ∧ m.free (m.prev p) ≠ 0 then
      m.absorb (m.prev p) p else m) :
    Tiled m' q a (if w.free then ⟨w.size + b.size, true⟩ :: ys else w :: b :: ys) e ∧
      ∀ x, x < a ∨ e ≤ x → m' x = m x := by
  have hsum := h.2.2.end_eq
  have hvalid := h.1.valid (by omega) (by omega)
  subst hp
  rw [h.2.1.prev] at hm'
  simp only [hvalid, free_ne_zero h.1, true_and] at hm'
  by_cases hfree : w.free = true
  · rw [if_pos ⟨by omega, hfree⟩] at hm'
    subst hm'
    rw [if_pos hfree]
    have habsorb := h.absorb hlow he
    rw [hfree] at habsorb
    exact ⟨habsorb, fun x hx => absorb_outside h hlow he hx⟩
  · rw [if_neg fun hc => hfree hc.2] at hm'
    subst hm'
    rw [if_neg hfree]
    exact ⟨h, fun _ _ => rfl⟩

theorem coalesced_cons {ts : List Tile} :
    Coalesced (t :: ts) ↔ (∀ u ∈ ts.head?, ¬ (t.free ∧ u.free)) ∧ Coalesced ts :=
  isChain_cons

theorem coalesced_append {xs ys : List Tile} :
    Coalesced (xs ++ ys) ↔ Coalesced xs ∧ Coalesced ys ∧
      ∀ x ∈ xs.getLast?, ∀ y ∈ ys.head?, ¬ (x.free ∧ y.free) :=
  isChain_append

theorem carve_cons {needed : Nat} (hfits : needed ≤ t.size) :
    ∃ s rest, graceos.mm.carve t needed = ⟨s, false⟩ :: rest ∧ needed ≤ s ∧ s + extent rest = t.size ∧
      (rest = [] ∨ ∃ r, rest = [⟨r, true⟩]) := by
  unfold graceos.mm.carve
  split
  · exact ⟨needed, _, rfl, le_refl _, by simp; omega, .inr ⟨_, rfl⟩⟩
  · exact ⟨t.size, [], rfl, hfits, by simp, .inl rfl⟩

theorem coalesced_carve {needed : Nat} (h : Coalesced (xs ++ t :: ys)) (ht : t.free = true)
    (hfits : needed ≤ t.size) : Coalesced (xs ++ (graceos.mm.carve t needed ++ ys)) := by
  obtain ⟨s, rest, hcarve, -, -, hrest⟩ := carve_cons hfits
  rw [coalesced_append, coalesced_cons] at h
  rw [hcarve, coalesced_append, cons_append, coalesced_cons]
  refine ⟨h.1, ⟨by simp, ?_⟩, by simp⟩
  rcases hrest with rfl | ⟨r, rfl⟩
  · exact h.2.1.2
  · refine coalesced_cons.mpr ⟨fun u hu => ?_, h.2.1.2⟩
    simpa [ht] using h.2.1.1 u hu

theorem fuse_spec (ht : t.free = true) (hys : Coalesced ys) :
    ∃ s us, graceos.mm.fuse t ys = ⟨s, true⟩ :: us ∧ Coalesced (⟨s, true⟩ :: us) ∧
      ∀ a x, x ∈ placed (a + t.size) ys → x.2.free = false → x ∈ placed (a + s) us := by
  cases ys with
  | nil => exact ⟨t.size, [], by rw [graceos.mm.fuse, ← ht], by simp [Coalesced], by simp [placed]⟩
  | cons u us =>
    rw [coalesced_cons] at hys
    rw [graceos.mm.fuse]
    by_cases hu : u.free = true
    · refine ⟨t.size + u.size, us, by rw [if_pos hu, ht], coalesced_cons.mpr ⟨?_, hys.2⟩, ?_⟩
      · intro v hv hboth
        exact hys.1 v hv ⟨hu, hboth.2⟩
      · intro a x hx hxfree
        simp only [placed, mem_cons] at hx
        rcases hx with rfl | hx
        · exact absurd (hu.symm.trans hxfree) (by simp)
        · rwa [← Nat.add_assoc]
    · refine ⟨t.size, u :: us, by rw [if_neg hu, ← ht], coalesced_cons.mpr ⟨?_, ?_⟩, fun a x hx _ => hx⟩
      · intro v hv hboth
        obtain rfl : u = v := by simpa using hv
        exact hu hboth.2
      · exact coalesced_cons.mpr hys

end Release

/-! ## The heap -/

/-- The block list starts at the base of the heap and tiles it with the blocks `ts`, coalesced. -/
structure Kheap.Intact (h : Kheap) (ts : List Tile) : Prop where
  start : h.heap_start = h.heap_base
  low : 0 < h.heap_base
  high : h.heap_limit < 2 ^ 64
  aligned : h.heap_base % KHEAP_ALIGN = 0
  nonempty : ts ≠ []
  tiled : Tiled h.mem 0 h.heap_base ts h.heap_limit
  coalesced : Coalesced ts

section Heap

variable {h : Kheap} {ts : List Tile} {b : Nat} {t : Tile}

theorem Tiled.length_le {m : Mem} {p a e : Nat} {ts : List Tile} (h : Tiled m p a ts e) :
    ts.length ≤ e - a := by
  induction ts generalizing p a with
  | nil => simp
  | cons t ts ih =>
    have hend := h.1.end_le
    have hsum := h.2.end_eq
    have := ih h.2
    simp only [length_cons]
    omega

theorem Kheap.Intact.length_lt (hin : h.Intact ts) : ts.length < h.fuel := by
  have := hin.tiled.length_le
  unfold Kheap.fuel
  omega

theorem Kheap.Intact.accounts (hin : h.Intact ts) :
    h.kheap_get_used + h.kheap_get_free = h.heap_limit - h.heap_base := by
  have hhigh := hin.high
  have hstart : (if ts = [] then 0 else h.heap_base) = h.heap_start := by
    rw [if_neg hin.nonempty, hin.start]
  have hused := hin.tiled.sum_sizes hin.low hhigh hin.length_lt false
  have hfree := hin.tiled.sum_sizes hin.low hhigh hin.length_lt true
  have hsum := hin.tiled.end_eq
  have hparts := extent_filter ts
  have hne : h.heap_start ≠ 0 := by
    rw [hin.start]
    exact hin.low.ne'
  rw [hstart] at hused hfree
  rw [Kheap.kheap_get_used, Kheap.kheap_get_free, if_neg hne, if_neg hne, hused, hfree,
    Nat.mod_eq_of_lt (by omega), Nat.mod_eq_of_lt (by omega)]
  omega

/-- Every call of `kmalloc` returns: null and the same heap, or the payload of a block that was
free, with every block in use left where it is. -/
theorem Kheap.Intact.kmalloc (hin : h.Intact ts) (size : Nat) :
    ∃ r h', h.kmalloc size = some (r, h') ∧ h'.heap_base = h.heap_base ∧
      h'.heap_limit = h.heap_limit ∧
      ((r = 0 ∧ h' = h) ∨ ∃ ts' b t, h'.Intact ts' ∧ r = b + HEADER_SIZE ∧
        (∃ u, (b, u) ∈ placed h.heap_base ts ∧ u.free = true ∧ size + HEADER_SIZE + FOOTER_SIZE ≤ u.size) ∧
        (b, t) ∈ placed h.heap_base ts' ∧ t.free = false ∧ size + HEADER_SIZE + FOOTER_SIZE ≤ t.size ∧
        ∀ x ∈ placed h.heap_base ts, x.2.free = false → x ∈ placed h.heap_base ts') := by
  have hne : h.heap_start ≠ 0 := by
    rw [hin.start]
    exact hin.low.ne'
  by_cases hsize : size = 0 ∨ size > KHEAP_MAX_ALLOC
  · refine ⟨0, h, ?_, rfl, rfl, .inl ⟨rfl, rfl⟩⟩
    rw [Kheap.kmalloc]
    by_cases hzero : size = 0
    · rw [if_pos (.inr hzero)]
    · rw [if_neg (by simp [hne, hzero]), if_pos (hsize.resolve_left hzero)]
  · simp only [not_or, Nat.not_lt, gt_iff_lt, KHEAP_MAX_ALLOC] at hsize
    have hneeded : 48 ≤ HEADER_SIZE + align_up size KHEAP_ALIGN + FOOTER_SIZE := by
      simp only [HEADER_SIZE, FOOTER_SIZE]
      omega
    have hmod : (HEADER_SIZE + align_up size KHEAP_ALIGN + FOOTER_SIZE) % 8 = 0 := by
      simp only [HEADER_SIZE, FOOTER_SIZE, align_up, KHEAP_ALIGN]
      omega
    have hround : size ≤ align_up size KHEAP_ALIGN := by
      simp only [align_up, KHEAP_ALIGN]
      omega
    obtain ⟨r, m', hrun, hout⟩ := hin.tiled.kmalloc_from hin.low hin.high hneeded hmod hin.length_lt
    rw [if_neg hin.nonempty, ← hin.start] at hrun
    refine ⟨r, { h with mem := m' }, ?_, rfl, rfl, ?_⟩
    · rw [Kheap.kmalloc, if_neg (by simp [hne, hsize.1]), if_neg (by simp [KHEAP_MAX_ALLOC]; omega)]
      simp only [hrun, Option.map_some]
    rcases hout with ⟨rfl, rfl⟩ | ⟨xs, t, ys, rfl, hfree, hfits, rfl, htiled, -⟩
    · exact .inl ⟨rfl, rfl⟩
    have hco := hin.coalesced
    obtain ⟨s, rest, hcarve, hs, hrest, -⟩ := carve_cons hfits
    refine .inr ⟨_, h.heap_base + extent xs, ⟨s, false⟩, ⟨hin.start, hin.low, hin.high, hin.aligned,
      by simp [hcarve], htiled, coalesced_carve hin.coalesced hfree hfits⟩, rfl,
      ⟨t, mem_placed_middle _ _ _ _, hfree, by omega⟩, ?_, rfl, ?_, fun x hx hxfree => ?_⟩
    · rw [hcarve]
      exact mem_placed_middle _ _ _ _
    · simp only [HEADER_SIZE, FOOTER_SIZE] at hs ⊢
      omega
    · rw [placed_append] at hx
      rw [placed_append, hcarve]
      simp only [cons_append, placed, mem_append, mem_cons] at hx ⊢
      rcases hx with hx | rfl | hx
      · exact .inl hx
      · exact absurd (hfree.symm.trans hxfree) (by simp)
      · rw [← hrest, ← Nat.add_assoc] at hx
        rw [placed_append]
        simp only [mem_append]
        exact .inr (.inr (.inr hx))

/-- A block in use is released: every other block in use stays, and the header of the released one
says that it is free. -/
theorem Kheap.Intact.kfree (hin : h.Intact ts) (hb : (b, t) ∈ placed h.heap_base ts)
    (ht : t.free = false) :
    ∃ ts', (h.kfree (b + HEADER_SIZE)).Intact ts' ∧
      (h.kfree (b + HEADER_SIZE)).heap_base = h.heap_base ∧
      (h.kfree (b + HEADER_SIZE)).heap_limit = h.heap_limit ∧
      ∀ x ∈ placed h.heap_base ts, x.2.free = false → x.1 ≠ b → x ∈ placed h.heap_base ts' := by
  obtain ⟨xs, ys, rfl, rfl⟩ := exists_of_mem_placed hb
  have hlow := hin.low
  have hhigh := hin.high
  have hsum := hin.tiled.end_eq
  have hco := hin.coalesced
  rw [coalesced_append, coalesced_cons] at hco
  obtain ⟨q, hdrop, hfirst, hlast⟩ := hin.tiled.drop
  have htend := hdrop.1.end_le
  simp only [extent_append, extent_cons] at hsum
  have hvalid := hdrop.1.valid (by omega) (by omega)
  have hused : ¬ h.mem.free (h.heap_base + extent xs) ≠ 0 := by
    rw [free_ne_zero hdrop.1, ht]
    simp
  have hblock : Kheap.block_of (h.heap_base + extent xs + HEADER_SIZE) = h.heap_base + extent xs := by
    simp only [Kheap.block_of, HEADER_SIZE]
    omega
  have hne : h.heap_start ≠ 0 := by
    rw [hin.start]
    omega
  rw [Kheap.kfree, if_neg (by simp only [HEADER_SIZE]; omega)]
  simp only [hblock, hvalid, Bool.not_true, Bool.false_eq_true, if_false]
  rw [if_neg hused]
  generalize hm₁ : h.mem.set_free (h.heap_base + extent xs) 1 = m₁
  generalize hm₂ : (if m₁.next (h.heap_base + extent xs) ≠ 0 ∧
    m₁.block_valid (m₁.next (h.heap_base + extent xs)) ∧
      m₁.free (m₁.next (h.heap_base + extent xs)) ≠ 0 then
        m₁.absorb (h.heap_base + extent xs) (m₁.next (h.heap_base + extent xs)) else m₁) = m₂
  generalize hm₃ : (if m₂.prev (h.heap_base + extent xs) ≠ 0 ∧
    m₂.block_valid (m₂.prev (h.heap_base + extent xs)) ∧
      m₂.free (m₂.prev (h.heap_base + extent xs)) ≠ 0 then
        m₂.absorb (m₂.prev (h.heap_base + extent xs)) (h.heap_base + extent xs) else m₂) = m₃
  have hmark : ∀ q, Tiled h.mem q (h.heap_base + extent xs) (t :: ys) h.heap_limit →
      Tiled m₁ q (h.heap_base + extent xs) ({ t with free := true } :: ys) h.heap_limit := by
    rintro q hq
    rw [← hm₁]
    exact hq.set_free true
  obtain ⟨s, us, hfuse, hcofuse, hkeep⟩ := fuse_spec (t := { t with free := true }) rfl hco.2.1.2
  have hforward := fun q hq => (hmark q hq).fuse (by omega) hhigh hm₂.symm
  have htiled₂ : Tiled m₂ 0 h.heap_base (xs ++ ⟨s, true⟩ :: us) h.heap_limit := by
    refine hin.tiled.splice (fun q hq => hfuse ▸ (hforward q hq).1) fun x _ hx => ?_
    rw [(hforward _ hdrop).2 x (.inl hx), ← hm₁]
    exact set_free_outside (.inl hx)
  have hstay : ∀ x ∈ placed h.heap_base (xs ++ t :: ys), x.2.free = false →
      x.1 ≠ h.heap_base + extent xs → x ∈ placed h.heap_base xs ∨
        x ∈ placed (h.heap_base + extent xs + s) us := by
    intro x hx hxfree hxb
    rw [placed_append] at hx
    simp only [placed, mem_append, mem_cons] at hx
    rcases hx with hx | rfl | hx
    · exact .inl hx
    · exact absurd rfl hxb
    · exact .inr (hkeep _ x hx hxfree)
  rcases eq_nil_or_concat' xs with rfl | ⟨ws, w, rfl⟩
  · -- no block before: nothing takes the freed block over
    obtain ⟨q', hdrop₂, hfirst₂, -⟩ := htiled₂.drop
    have hprev : m₂.prev (h.heap_base + extent []) = 0 := by rw [hdrop₂.1.prev, hfirst₂ rfl]
    rw [if_neg fun hc => hc.1 hprev] at hm₃
    subst hm₃
    refine ⟨⟨s, true⟩ :: us, ⟨hin.start, hlow, hhigh, hin.aligned, by simp, htiled₂, hcofuse⟩, rfl, rfl,
      fun x hx hxfree hxb => ?_⟩
    have hmem := (hstay x hx hxfree hxb).resolve_left not_mem_nil
    exact mem_cons_of_mem _ hmem
  · have hback : ∀ q, Tiled m₂ q (h.heap_base + extent ws) (w :: ⟨s, true⟩ :: us) h.heap_limit →
        Tiled m₃ q (h.heap_base + extent ws)
          (if w.free then ⟨w.size + s, true⟩ :: us else w :: ⟨s, true⟩ :: us) h.heap_limit ∧
        ∀ x, x < h.heap_base + extent ws ∨ h.heap_limit ≤ x → m₃ x = m₂ x := fun q hq =>
      hq.fuse_back (by omega) hhigh (by simp [Nat.add_assoc]) hm₃.symm
    rw [append_assoc, singleton_append] at htiled₂
    obtain ⟨q', hdrop₂, -, -⟩ := htiled₂.drop
    have hsame := (hback q' hdrop₂).2
    have hcow := (coalesced_append.mp hco.1)
    by_cases hw : w.free = true
    · simp only [hw, if_true] at hback
      refine ⟨ws ++ ⟨w.size + s, true⟩ :: us, ⟨hin.start, hlow, hhigh, hin.aligned, by simp,
        htiled₂.splice (fun q hq => (hback q hq).1) fun x _ hx => hsame x (.inl hx), ?_⟩, rfl, rfl,
        fun x hx hxfree hxb => ?_⟩
      · refine coalesced_append.mpr ⟨hcow.1, ?_, fun x hx y hy => ?_⟩
        · rw [coalesced_cons] at hcofuse ⊢
          exact hcofuse
        · obtain rfl : (⟨w.size + s, true⟩ : Tile) = y := by simpa using hy
          simpa [hw] using hcow.2.2 x hx w (by simp)
      · rcases hstay x hx hxfree hxb with hx | hx
        · rw [placed_append] at hx ⊢
          simp only [placed, mem_append, mem_cons, not_mem_nil, or_false] at hx ⊢
          rcases hx with hx | rfl
          · exact .inl hx
          · exact absurd (hw.symm.trans hxfree) (by simp)
        · rw [placed_append]
          simp only [placed, mem_append, mem_cons]
          refine .inr (.inr ?_)
          simpa [Nat.add_assoc] using hx
    · simp only [hw] at hback
      refine ⟨ws ++ w :: ⟨s, true⟩ :: us, ⟨hin.start, hlow, hhigh, hin.aligned, by simp,
        htiled₂.splice (fun q hq => (hback q hq).1) fun x _ hx => hsame x (.inl hx), ?_⟩, rfl, rfl,
        fun x hx hxfree hxb => ?_⟩
      · refine coalesced_append.mpr ⟨hcow.1, coalesced_cons.mpr ⟨by simp [hw], hcofuse⟩, fun x hx y hy => ?_⟩
        obtain rfl : w = y := by simpa using hy
        simp [hw]
      · rcases hstay x hx hxfree hxb with hx | hx
        · rw [placed_append] at hx ⊢
          simp only [placed, mem_append, mem_cons, not_mem_nil, or_false] at hx ⊢
          exact hx.imp_right .inl
        · rw [placed_append]
          simp only [placed, mem_append, mem_cons]
          refine .inr (.inr (.inr ?_))
          simpa [Nat.add_assoc] using hx

end Heap

end graceos.mm
