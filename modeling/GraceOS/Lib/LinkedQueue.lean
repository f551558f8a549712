import Mathlib.Algebra.Group.Int.Defs
import Mathlib.Algebra.Group.Nat.Defs
import Mathlib.Data.List.Induction
import Mathlib.Data.List.Nodup
import Mathlib.Data.List.Perm.Subperm
import Mathlib.Logic.Function.Basic

/-!
# Intrusive doubly linked queues

The cells carry their own `next` and `prev` links, and the queue is known by its two ends. Two
notions of good order are kept apart. `Spells` is full integrity: the links spell out one list.
`Coherent` is the little that survives even when a cell that is not queued is unlinked.
-/

namespace linkq

open List

/-- The links of all cells, and the two ends of the queue. -/
@[ext] structure Links (α : Type*) where
  next : α → Option α
  prev : α → Option α
  head : Option α
  tail : Option α

variable {α : Type*}

/-- The cells that are met when following `next` from the head. -/
inductive Links.Reached (q : Links α) : α → Prop
  | head {p : α} : q.head = some p → q.Reached p
  | next {p x : α} : q.Reached p → q.next p = some x → q.Reached x

/-- The cells met from `start` in at most `n` steps, in order. -/
def Links.walk (q : Links α) : Nat → Option α → List α
  | 0, _ => []
  | _ + 1, none => []
  | n + 1, some p => p :: q.walk n (q.next p)

/-- The links spell out the list `l`, and link no cell outside it. -/
structure Links.Spells (q : Links α) (l : List α) : Prop where
  nodup : l.Nodup
  head : q.head = l.head?
  tail : q.tail = l.getLast?
  cells : ∀ a p b, l = a ++ p :: b → q.next p = b.head? ∧ q.prev p = a.getLast?
  free : ∀ p, p ∉ l → q.next p = none ∧ q.prev p = none

/-- Every forward link is answered by a backward one, and none leads back from the head. -/
structure Links.Coherent (q : Links α) : Prop where
  back : ∀ x y, q.next x = some y → q.prev y = some x
  front : ∀ p, q.head = some p → q.prev p = none

section Operations

variable [DecidableEq α]

/-- Writes the link `v` into the cell `p`, when there is one. -/
def write (f : α → Option α) (p : Option α) (v : Option α) : α → Option α :=
  fun x => if p = some x then v else f x

@[simp] theorem write_none (f : α → Option α) (v : Option α) : write f none v = f := by
  funext x
  simp [write]

theorem write_some (f : α → Option α) (p : α) (v : Option α) :
    write f (some p) v = Function.update f p v := by
  funext x
  by_cases hx : x = p
  · simp [write, hx]
  · simp [write, hx, Ne.symm hx]

/-- Appends a cell at the tail. -/
def Links.push_back (q : Links α) (p : α) : Links α where
  next := write (write q.next (some p) none) q.tail (some p)
  prev := write q.prev (some p) q.tail
  head := if q.tail = none then some p else q.head
  tail := some p

/-- Takes a cell out by patching its neighbours, or the ends where it has none. -/
def Links.unlink (q : Links α) (p : α) : Links α where
  next := write (write q.next (q.prev p) (q.next p)) (some p) none
  prev := write (write q.prev (q.next p) (q.prev p)) (some p) none
  head := if q.prev p = none then q.next p else q.head
  tail := if q.next p = none then q.prev p else q.tail

/-- Clears the links of one cell without touching its neighbours. -/
def Links.clear (q : Links α) (p : α) : Links α where
  next := write q.next (some p) none
  prev := write q.prev (some p) none
  head := q.head
  tail := q.tail

end Operations

/-! ## Walking a queue -/

theorem Links.walk_reached {q : Links α} {n : Nat} {start : Option α}
    (hstart : ∀ p, start = some p → q.Reached p) : ∀ x ∈ q.walk n start, q.Reached x := by
  induction n generalizing start with
  | zero => simp [Links.walk]
  | succ n ih =>
    cases start with
    | none => simp [Links.walk]
    | some p =>
      have hp : q.Reached p := hstart p rfl
      have hrest := ih fun x hx => Links.Reached.next hp hx
      simpa [Links.walk] using ⟨hp, hrest⟩

/-- Walking a queue in good order lists exactly its cells. -/
theorem Links.Spells.walk_eq {q : Links α} {l : List α} (h : q.Spells l) {n : Nat}
    (hn : l.length ≤ n) : q.walk n q.head = l := by
  suffices hsuffix : ∀ b a n, l = a ++ b → b.length ≤ n → q.walk n b.head? = b by
    rw [h.head]
    exact hsuffix l [] n rfl hn
  intro b
  induction b with
  | nil => intro a n _ _; cases n <;> rfl
  | cons p b ih =>
    intro a n hl hlen
    obtain ⟨m, rfl⟩ : ∃ m, n = m + 1 := ⟨n - 1, by simp at hlen; omega⟩
    have hnext := (h.cells a p b hl).1
    have hrest := ih (a ++ [p]) m (by simp [hl]) (by simp at hlen; omega)
    simp [Links.walk, hnext, hrest]

theorem Links.Spells.mem_iff {q : Links α} {l : List α} (h : q.Spells l) {p : α} :
    p ∈ l ↔ q.Reached p := by
  constructor
  · intro hp
    obtain ⟨a, b, hl⟩ := append_of_mem hp
    induction a using List.reverseRecOn generalizing p b with
    | nil => exact .head (by simp [h.head, hl])
    | append_singleton a y ih =>
      have hy : l = a ++ y :: (p :: b) := by simp [hl]
      exact .next (ih (by simp [hl]) (p :: b) hy) (h.cells a y (p :: b) hy).1
  · intro hp
    induction hp with
    | head hhead => exact List.mem_of_mem_head? (by simp [← h.head, hhead])
    | @next p x _ hnext ih =>
      obtain ⟨a, b, hl⟩ := append_of_mem ih
      rw [(h.cells a p b hl).1] at hnext
      rw [hl]
      exact mem_append_right a (mem_cons_of_mem p (List.mem_of_mem_head? hnext))

/-- The links of a cell tell whether it is queued. -/
theorem Links.Spells.mem_iff_linked {q : Links α} {l : List α} (h : q.Spells l) {p : α} :
    p ∈ l ↔ q.next p ≠ none ∨ q.prev p ≠ none ∨ q.head = some p := by
  constructor
  · intro hp
    obtain ⟨a, b, hl⟩ := append_of_mem hp
    obtain ⟨hnext, hprev⟩ := h.cells a p b hl
    rcases a.eq_nil_or_concat with rfl | ⟨a, y, rfl⟩
    · exact .inr (.inr (by simp [h.head, hl]))
    · exact .inr (.inl (by simp [hprev]))
  · rintro hlinked
    by_contra hp
    obtain ⟨hnext, hprev⟩ := h.free p hp
    rcases hlinked with hn | hv | hhead
    · exact hn hnext
    · exact hv hprev
    · exact hp (h.mem_iff.mpr (.head hhead))

/-- A cell that nothing points back from, and that is not the head, is not met at all. -/
theorem Links.Coherent.not_reached {q : Links α} (h : q.Coherent) {p : α}
    (hprev : q.prev p = none) (hhead : q.head ≠ some p) : ¬ q.Reached p := by
  intro hp
  cases hp with
  | head h₀ => exact hhead h₀
  | next _ hnext => simp [h.back _ _ hnext] at hprev

/-! ## Coherence under every operation -/

section Coherence

variable [DecidableEq α] {q : Links α} {p : α}

/-- Appending a cell that nothing leads to keeps the links coherent. -/
theorem Links.Coherent.push_back (h : q.Coherent) (hprev : q.prev p = none)
    (hhead : q.head ≠ some p) : (q.push_back p).Coherent := by
  constructor
  · intro x y hxy
    simp only [Links.push_back, write] at hxy ⊢
    by_cases htail : q.tail = some x
    · simp only [htail, if_true, Option.some.injEq] at hxy
      simp [hxy, htail]
    · simp only [htail, if_false] at hxy
      by_cases hx : p = x
      · simp [hx] at hxy
      · simp only [Option.some.injEq, hx, if_false] at hxy
        have hback := h.back x y hxy
        have hy : p ≠ y := by
          rintro rfl
          simp [hprev] at hback
        simp [hy, hback]
  · intro x hx
    simp only [Links.push_back, write] at hx ⊢
    by_cases htail : q.tail = none
    · by_cases hpx : p = x
      · simp [hpx, htail]
      · simp [htail, hpx] at hx
    · simp only [htail, if_false] at hx
      have hpx : p ≠ x := by
        rintro rfl
        exact hhead hx
      simp [hpx, h.front x hx]

/-- Unlinking keeps the links coherent, whether or not the cell is queued. -/
theorem Links.Coherent.unlink (h : q.Coherent) : (q.unlink p).Coherent := by
  constructor
  · intro x y hxy
    simp only [Links.unlink, write, Option.some.injEq] at hxy ⊢
    by_cases hx : p = x
    · simp [hx] at hxy
    · simp only [hx, if_false] at hxy
      by_cases hprev : q.prev p = some x
      · -- the cell before `p` now leads to the cell after it
        simp only [hprev, if_true] at hxy
        have hback := h.back p y hxy
        have hy : p ≠ y := by
          rintro rfl
          exact hx (by simpa [hback] using hprev)
        simp [hy, hxy, hprev]
      · simp only [hprev, if_false] at hxy
        have hback := h.back x y hxy
        have hy : p ≠ y := by
          rintro rfl
          exact hprev hback
        have hnext : q.next p ≠ some y := by
          intro hpy
          have := h.back p y hpy
          rw [hback] at this
          exact hx (by simpa using this.symm)
        simp [hy, hnext, hback]
  · intro x hx
    simp only [Links.unlink, write, Option.some.injEq] at hx ⊢
    by_cases hprev : q.prev p = none
    · simp only [hprev, if_true] at hx
      simp [hx, hprev]
    · simp only [hprev, if_false] at hx
      have hback := h.front x hx
      have hnext : q.next p ≠ some x := by
        intro hpx
        simp [h.back p x hpx] at hback
      simp [hnext, hback]

/-- Clearing a cell that nothing leads to keeps the links coherent. -/
theorem Links.Coherent.clear (h : q.Coherent) (hprev : q.prev p = none) :
    (q.clear p).Coherent := by
  constructor
  · intro x y hxy
    simp only [Links.clear, write, Option.some.injEq] at hxy ⊢
    by_cases hx : p = x
    · simp [hx] at hxy
    · simp only [hx, if_false] at hxy
      have hback := h.back x y hxy
      have hy : p ≠ y := by
        rintro rfl
        simp [hprev] at hback
      simp [hy, hback]
  · intro x hx
    simp only [Links.clear, write] at hx ⊢
    simp [h.front x hx]

/-- No operation on another cell leads to a cell that nothing led to. -/
theorem Links.Coherent.unlink_apart (h : q.Coherent) {x : α} (hprev : q.prev x = none)
    (hhead : q.head ≠ some x) : (q.unlink p).prev x = none ∧ (q.unlink p).head ≠ some x := by
  have hnext : q.next p ≠ some x := by
    intro hpx
    simp [h.back p x hpx] at hprev
  constructor
  · simp [Links.unlink, write, hnext, hprev]
  · by_cases hp : q.prev p = none <;> simp [Links.unlink, hp, hnext, hhead]

theorem Links.Coherent.unlink_self (h : q.Coherent) :
    (q.unlink p).prev p = none ∧ (q.unlink p).head ≠ some p := by
  refine ⟨by simp [Links.unlink, write], ?_⟩
  by_cases hp : q.prev p = none
  · simp only [Links.unlink, hp, if_true]
    intro hpp
    simp [h.back p p hpp] at hp
  · simp only [Links.unlink, hp, if_false]
    intro hhead
    exact hp (h.front p hhead)

theorem Links.push_back_apart {x : α} (hx : x ≠ p) (hprev : q.prev x = none)
    (hhead : q.head ≠ some x) :
    (q.push_back p).prev x = none ∧ (q.push_back p).head ≠ some x := by
  constructor
  · simp [Links.push_back, write, hx.symm, hprev]
  · by_cases ht : q.tail = none <;> simp [Links.push_back, ht, hx.symm, hhead]

end Coherence

/-! ## Integrity -/

section Integrity

variable [DecidableEq α] {q : Links α} {l a b : List α} {p : α}

/-- Appending a cell that is not queued puts it at the end of the list. -/
theorem Links.Spells.push_back (h : q.Spells l) (hp : p ∉ l) :
    (q.push_back p).Spells (l ++ [p]) := by
  have htail : ∀ x, q.tail = some x → x ∈ l := by
    intro x hx
    exact List.mem_of_mem_getLast? (by simp [← h.tail, hx])
  refine ⟨?_, ?_, by simp [Links.push_back], ?_, ?_⟩
  · exact List.nodup_append_comm.mp (by simpa using ⟨hp, h.nodup⟩)
  · cases l with
    | nil => simp [Links.push_back, h.tail]
    | cons y l => simp [Links.push_back, h.tail, h.head]
  · intro a x b hsplit
    rcases b.eq_nil_or_concat with rfl | ⟨b, y, rfl⟩
    · obtain ⟨rfl, rfl⟩ : l = a ∧ p = x := by simpa using append_inj' hsplit rfl
      have hlast : q.tail ≠ some p := fun ht => hp (htail p ht)
      refine ⟨by simp [Links.push_back, write, hlast], ?_⟩
      simpa [Links.push_back, write] using h.tail
    · obtain ⟨hl, rfl⟩ : l = a ++ x :: b ∧ p = y := by
        have hsplit' : l ++ [p] = (a ++ x :: b) ++ [y] := by simpa using hsplit
        simpa using append_inj' hsplit' rfl
      obtain ⟨hnext, hprev⟩ := h.cells a x b hl
      have hx : p ≠ x := by
        rintro rfl
        simp [hl] at hp
      refine ⟨?_, by simp [Links.push_back, write, hx, hprev]⟩
      cases b with
      | nil => simp [Links.push_back, write, h.tail, hl]
      | cons z b =>
        have hlast : q.tail ≠ some x := by
          intro ht
          have hmem : x ∈ z :: b := List.mem_of_mem_getLast? (by simpa [h.tail, hl] using ht)
          have := h.nodup
          rw [hl, nodup_append] at this
          exact (List.nodup_cons.mp this.2.1).1 hmem
        simp [Links.push_back, write, hlast, hx, hnext]
  · intro x hx
    simp only [mem_append, mem_singleton, not_or] at hx
    have hlast : q.tail ≠ some x := fun ht => hx.1 (htail x ht)
    have hpx : p ≠ x := fun e => hx.2 e.symm
    simpa [Links.push_back, write, hlast, hpx] using h.free x hx.1

/-- The cells behind an unlinked one: only the first of them has a new neighbour. -/
theorem Links.Spells.unlink_behind {x : α} {m d : List α} (h : q.Spells (a ++ p :: (m ++ x :: d))) :
    (q.unlink p).next x = d.head? ∧ (q.unlink p).prev x = (a ++ m).getLast? := by
  obtain ⟨hnext, hprev⟩ := h.cells a p (m ++ x :: d) rfl
  obtain ⟨hnextx, hprevx⟩ := h.cells (a ++ p :: m) x d (by simp)
  have hnodup := h.nodup
  rw [nodup_append, nodup_cons] at hnodup
  obtain ⟨-, ⟨hpm, hmx⟩, hdisjoint⟩ := hnodup
  have hpx : p ≠ x := by
    rintro rfl
    simp at hpm
  have hbefore : q.prev p ≠ some x := by
    intro e
    have hxa : x ∈ a := List.mem_of_mem_getLast? (by simp [← hprev, e])
    exact hdisjoint x hxa x (by simp) rfl
  refine ⟨by simp [Links.unlink, write, hpx, hbefore, hnextx], ?_⟩
  cases m with
  | nil => simp [Links.unlink, write, hpx, hnext, hprev]
  | cons y m =>
    have hyx : y ≠ x := by
      rintro rfl
      simp at hmx
    simp [Links.unlink, write, hpx, hnext, hyx, hprevx]

/-- The cells before an unlinked one: only the last of them has a new neighbour. -/
theorem Links.Spells.unlink_before {x : α} {c m : List α} (h : q.Spells (c ++ x :: (m ++ p :: b))) :
    (q.unlink p).next x = (m ++ b).head? ∧ (q.unlink p).prev x = c.getLast? := by
  obtain ⟨hnext, hprev⟩ := h.cells (c ++ x :: m) p b (by simp)
  obtain ⟨hnextx, hprevx⟩ := h.cells c x (m ++ p :: b) rfl
  have hnodup := h.nodup
  rw [nodup_append, nodup_cons] at hnodup
  obtain ⟨-, ⟨hxm, hm⟩, -⟩ := hnodup
  have hpx : p ≠ x := by
    rintro rfl
    simp at hxm
  have hafter : q.next p ≠ some x := by
    intro e
    have hxb : x ∈ b := List.mem_of_mem_head? (by simp [← hnext, e])
    exact hxm (by simp [hxb])
  refine ⟨?_, by simp [Links.unlink, write, hpx, hafter, hprevx]⟩
  cases m with
  | nil => simp [Links.unlink, write, hpx, hnext, hprev]
  | cons y m =>
    have hlast : q.prev p ≠ some x := by
      intro e
      have hxm' : x ∈ y :: m := List.mem_of_mem_getLast? (by simpa [hprev] using e)
      exact hxm (mem_append_left _ hxm')
    simp [Links.unlink, write, hpx, hlast, hnextx]

/-- Unlinking a queued cell takes it out of the list. -/
theorem Links.Spells.unlink (h : q.Spells (a ++ p :: b)) : (q.unlink p).Spells (a ++ b) := by
  obtain ⟨hnext, hprev⟩ := h.cells a p b rfl
  have hnodup := h.nodup
  rw [nodup_append, nodup_cons] at hnodup
  obtain ⟨ha, ⟨hpb, hb⟩, hab⟩ := hnodup
  have hprevMem : ∀ x, q.prev p = some x → x ∈ a := fun x hx =>
    List.mem_of_mem_getLast? (by simp [← hprev, hx])
  have hnextMem : ∀ x, q.next p = some x → x ∈ b := fun x hx =>
    List.mem_of_mem_head? (by simp [← hnext, hx])
  refine ⟨?_, ?_, ?_, ?_, ?_⟩
  · exact List.nodup_append.mpr ⟨ha, hb, fun x hx y hy => hab x hx y (mem_cons_of_mem p hy)⟩
  · cases a with
    | nil => simp [Links.unlink, hprev, hnext]
    | cons y a => simp [Links.unlink, hprev, h.head]
  · cases b with
    | nil => simp [Links.unlink, hprev, hnext]
    | cons y b => simp [Links.unlink, hnext, h.tail]
  · intro c x d hsplit
    rcases List.append_eq_append_iff.mp hsplit with ⟨m, rfl, rfl⟩ | ⟨m, rfl, hm⟩
    · exact h.unlink_behind
    · cases m with
      | nil =>
        obtain rfl : b = [] ++ x :: d := by simpa using hm.symm
        simpa using h.unlink_behind
      | cons y m =>
        obtain ⟨rfl, rfl⟩ : x = y ∧ d = m ++ b := by simpa using hm
        exact Links.Spells.unlink_before (by simpa using h)
  · intro x hx
    simp only [mem_append, not_or] at hx
    by_cases hpx : p = x
    · simp [Links.unlink, write, hpx]
    · have hold := h.free x (by simp [hx, Ne.symm hpx])
      have hbefore : q.prev p ≠ some x := fun e => hx.1 (hprevMem x e)
      have hafter : q.next p ≠ some x := fun e => hx.2 (hnextMem x e)
      simpa [Links.unlink, write, hpx, hbefore, hafter] using hold

/-- Unlinking from an empty queue leaves it empty. -/
theorem Links.Spells.unlink_nil (h : q.Spells []) : (q.unlink p).Spells [] := by
  have hfree := fun x => h.free x (by simp)
  refine ⟨by simp, ?_, ?_, by simp, ?_⟩
  · simpa [Links.unlink, (hfree p).2] using (hfree p).1
  · simpa [Links.unlink, (hfree p).1] using (hfree p).2
  · intro x _
    simp [Links.unlink, write, hfree]

/-- Clearing a cell that is not queued changes nothing. -/
theorem Links.Spells.clear (h : q.Spells l) (hp : p ∉ l) : (q.clear p).Spells l := by
  obtain ⟨hnext, hprev⟩ := h.free p hp
  have hsame : q.clear p = q := by
    have hwrite : ∀ f : α → Option α, f p = none → write f (some p) none = f := by
      intro f hf
      funext x
      by_cases hx : p = x
      · simp [write, ← hx, hf]
      · simp [write, hx]
    simp [Links.clear, hwrite q.next hnext, hwrite q.prev hprev]
  rwa [hsame]

end Integrity

end linkq
