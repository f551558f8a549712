import Mathlib.Algebra.Group.Int.Defs
import Mathlib.Algebra.Group.Nat.Defs
import Mathlib.Data.List.Basic
import Mathlib.Data.Nat.ModEq
import Mathlib.Logic.Function.Basic

/-!
# Ring buffers

A ring of `cap` cells holds a queue: the elements from one position on, with the positions taken
modulo `cap`.
-/

namespace ring

variable {α : Type*}

/-- The `n` elements of the ring from `pos` on. -/
def contents (buf : Nat → α) (cap pos n : Nat) : List α := (List.range n).map fun k => buf ((pos + k) % cap)

variable {buf : Nat → α} {cap pos n : Nat}

@[simp] theorem length_contents : (contents buf cap pos n).length = n := by simp [contents]

@[simp] theorem contents_zero : contents buf cap pos 0 = [] := rfl

/-- An element that is stored behind the last one is appended. -/
theorem contents_push (hn : n < cap) (x : α) :
    contents (Function.update buf ((pos + n) % cap) x) cap pos (n + 1) = contents buf cap pos n ++ [x] := by
  rw [contents, List.range_succ, List.map_append, contents]
  congr 1
  · refine List.map_congr_left fun k hk => ?_
    have hkn := List.mem_range.mp hk
    refine Function.update_of_ne (fun heq => ?_) _ _
    -- two positions less than `cap` apart are different cells
    have hdiff := Nat.ModEq.add_left_cancel' pos heq
    rw [Nat.ModEq, Nat.mod_eq_of_lt (by omega), Nat.mod_eq_of_lt hn] at hdiff
    omega
  · simp

/-- The first element is taken off the ring. -/
theorem contents_pop : contents buf cap pos (n + 1) = buf (pos % cap) :: contents buf cap ((pos + 1) % cap) n := by
  rw [contents, List.range_succ_eq_map, List.map_cons, List.map_map, contents]
  congr 1
  refine List.map_congr_left fun k _ => ?_
  simp only [Function.comp_apply, Nat.mod_add_mod]
  congr 2
  omega

/-- The position behind the last element, after one was taken off. -/
theorem end_pop : ((pos + 1) % cap + n) % cap = (pos + (n + 1)) % cap := by
  rw [Nat.mod_add_mod]
  congr 1
  omega

theorem contents_mod : contents buf cap (pos % cap) n = contents buf cap pos n := by
  simp only [contents, Nat.mod_add_mod]

/-! ## Overwriting rings -/

/-- A ring that a stream is written through: the last `cap` elements of the stream are in their cells. -/
def Latest (buf : Nat → α) (cap : Nat) (stream : List α) : Prop :=
  ∀ i x, stream[i]? = some x → stream.length ≤ i + cap → buf (i % cap) = x

theorem Latest.nil : Latest buf cap [] := by
  intro i x hx
  simp at hx

/-- The next element of the stream takes the cell of the one that was written `cap` elements before. -/
theorem Latest.push {stream : List α} (h : Latest buf cap stream) (x : α) :
    Latest (Function.update buf (stream.length % cap) x) cap (stream ++ [x]) := by
  intro i y hy hlen
  rw [List.length_append, List.length_singleton] at hlen
  by_cases hi : i < stream.length
  · rw [List.getElem?_append_left hi] at hy
    have hcell : i % cap ≠ stream.length % cap := by
      intro heq
      -- two positions less than `cap` apart are different cells
      have hdiff : (stream.length - i) % cap = 0 := Nat.sub_mod_eq_zero_of_mod_eq heq.symm
      rw [Nat.mod_eq_of_lt (by omega)] at hdiff
      omega
    rw [Function.update_of_ne hcell]
    exact h i y hy (by omega)
  · rw [List.getElem?_append_right (by omega)] at hy
    obtain rfl : i = stream.length := by
      have hindex := (List.getElem?_eq_some_iff.mp hy).1
      rw [List.length_singleton] at hindex
      omega
    rw [Function.update_self]
    simpa using hy

/-- What lies in the ring is a slice of the stream. -/
theorem Latest.contents {stream : List α} (h : Latest buf cap stream) (hold : stream.length ≤ pos + cap)
    (hnew : pos + n ≤ stream.length) : contents buf cap pos n = (stream.drop pos).take n := by
  refine List.ext_getElem? fun k => ?_
  by_cases hk : k < n
  · have hin : pos + k < stream.length := by omega
    rw [ring.contents, List.getElem?_map, List.getElem?_range hk, List.getElem?_take_of_lt hk, List.getElem?_drop,
      List.getElem?_eq_getElem hin]
    exact congrArg some (h (pos + k) _ (List.getElem?_eq_getElem hin) (by omega))
  · rw [List.getElem?_eq_none (by rw [length_contents]; omega),
      List.getElem?_eq_none (by rw [List.length_take]; omega)]

/-! ## Free-running indices -/

/-- The elements between two indices that count up and wrap around. -/
def window (buf : Nat → α) (cap : Nat) (first last : UInt16) : List α :=
    contents buf cap first.toNat (last - first).toNat

variable {first last : UInt16}

@[simp] theorem length_window : (window buf cap first last).length = (last - first).toNat := length_contents

@[simp] theorem window_self : window buf cap first first = [] := by simp [window]

/-- The index behind the last element. -/
theorem index_end (hcap : cap ∣ 2 ^ 16) : last.toNat % cap = (first.toNat + (last - first).toNat) % cap := by
  have hfirst := first.toNat_lt
  have hlast := last.toNat_lt
  have hwrap : (first.toNat + (last - first).toNat) % 2 ^ 16 = last.toNat := by
    rw [UInt16.toNat_sub]
    omega
  rw [← hwrap, Nat.mod_mod_of_dvd _ hcap]

theorem window_push (buf : Nat → α) (hcap : cap ∣ 2 ^ 16) (hroom : (last - first).toNat < cap)
    (hlt : (last - first).toNat + 1 < 2 ^ 16)
    (x : α) : window (Function.update buf (last.toNat % cap) x) cap first (last + 1) =
    window buf cap first last ++ [x] := by
  have hcount : (last + 1 - first).toNat = (last - first).toNat + 1 := by
    have hone : (1 : UInt16).toNat = 1 := rfl
    have hfirst := first.toNat_lt
    have hlast := last.toNat_lt
    rw [UInt16.toNat_sub] at hlt ⊢
    rw [UInt16.toNat_sub, UInt16.toNat_add, hone]
    omega
  rw [window, hcount, @index_end _ first _ hcap, contents_push hroom, window]

theorem window_pop (buf : Nat → α) (hcap : cap ∣ 2 ^ 16) (hne : last ≠ first) :
    window buf cap first last = buf (first.toNat % cap) :: window buf cap (first + 1) last := by
  have hone : (1 : UInt16).toNat = 1 := rfl
  have hfirst := first.toNat_lt
  have hlast := last.toNat_lt
  have hdiff : last.toNat ≠ first.toNat := fun h => hne (UInt16.toNat_inj.mp h)
  have hcount : (last - first).toNat = (last - (first + 1)).toNat + 1 := by
    rw [UInt16.toNat_sub, UInt16.toNat_sub, UInt16.toNat_add, hone]
    omega
  have hnext : (first + 1).toNat % cap = (first.toNat + 1) % cap := by
    rw [UInt16.toNat_add, hone, Nat.mod_mod_of_dvd _ hcap]
  rw [window, hcount, contents_pop, window, ← @contents_mod _ _ _ (first + 1).toNat, hnext]

end ring
