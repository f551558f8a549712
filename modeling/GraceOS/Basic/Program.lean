import Mathlib.Data.Set.Card
import Mathlib.Algebra.Order.Ring.Int

/-!
# The program memory of GraceBASIC

`add_program_line` keeps the lines in an array of records, in ascending order of their numbers. The array stands for a
map from numbers to texts, as long as no empty text is given for a number without a line: that call adds an empty line.
-/

namespace graceos.basic

open Function

def B_MAX_LINES : Nat := 1024
def B_MAX_LINE_LEN : Nat := 128

/-- `text` holds all bytes of the array. -/
structure basic_line where
  number : Int
  text : List UInt8

structure basic_program where
  lines : Nat → basic_line
  count : Nat

/-- After the `memset` of `basic_run`. -/
def basic_program.zero : basic_program := ⟨fun _ => ⟨0, List.replicate B_MAX_LINE_LEN 0⟩, 0⟩

/-- `src` holds the characters before the NUL. -/
def strncpy_line (dest src : List UInt8) (n : Nat) : List UInt8 :=
  src.take n ++ List.replicate (n - src.length) 0 ++ dest.drop n

/-- The insertion point, from `pos` on with `left` lines behind it. -/
def find_pos (p : basic_program) (number : Int) : (left pos : Nat) → Nat
  | 0, pos => pos
  | left + 1, pos => if (p.lines pos).number < number then find_pos p number left (pos + 1) else pos

/-- The loop that deletes line `i`, with `left` lines behind it. -/
def shift_down (lines : Nat → basic_line) : (left i : Nat) → Nat → basic_line
  | 0, _ => lines
  | left + 1, i => shift_down (update lines i (lines (i + 1))) left (i + 1)

/-- The loop that moves the `left` lines from `pos` on, the last one first. -/
def shift_up (lines : Nat → basic_line) (pos : Nat) : (left : Nat) → Nat → basic_line
  | 0 => lines
  | left + 1 => shift_up (update lines (pos + left + 1) (lines (pos + left))) pos left

/-- The program, and what `log_error` is given. -/
def add_program_line (p : basic_program) (number : Int) (text : List UInt8) : basic_program × Option String :=
  let pos := find_pos p number p.count 0
  if pos < p.count ∧ (p.lines pos).number = number then
    if text = [] then (⟨shift_down p.lines (p.count - 1 - pos) pos, p.count - 1⟩, none)
    else
      let line := { p.lines pos with text := strncpy_line (p.lines pos).text text (B_MAX_LINE_LEN - 1) }
      ({ p with lines := update p.lines pos line }, none)
  else if p.count ≥ B_MAX_LINES then (p, some "Program too large")
  else
    let lines := shift_up p.lines pos (p.count - pos)
    let line := ⟨number, strncpy_line (lines pos).text text (B_MAX_LINE_LEN - 1)⟩
    (⟨update lines pos line, p.count + 1⟩, none)

/-- A call with its number and text. -/
structure Call where
  number : Int
  text : List UInt8
  no_nul : (0 : UInt8) ∉ text

def add_lines (p : basic_program) (calls : List Call) : basic_program :=
  calls.foldl (fun p call => (add_program_line p call.number call.text).1) p

/-! ## The map -/

/-- The characters of a text before its NUL. -/
def c_text (text : List UInt8) : List UInt8 := text.takeWhile (· ≠ 0)

def Stores (p : basic_program) (number : Int) (text : List UInt8) : Prop :=
  ∃ i < p.count, (p.lines i).number = number ∧ c_text (p.lines i).text = text

abbrev LineMap := Int → Option (List UInt8)

/-- What a call should do: an empty text deletes, and a full memory takes no new number. -/
noncomputable def LineMap.add (m : LineMap) (call : Call) : LineMap :=
  if call.text = [] then update m call.number none
  else if m call.number = none ∧ B_MAX_LINES ≤ {n | m n ≠ none}.ncard then m
  else update m call.number (some (call.text.take (B_MAX_LINE_LEN - 1)))

noncomputable def LineMap.add_all (m : LineMap) (calls : List Call) : LineMap := calls.foldl LineMap.add m

def Terminated (text : List UInt8) : Prop := text.drop (B_MAX_LINE_LEN - 1) = [0]

def NumbersAscend (p : basic_program) : Prop := ∀ i j, i < j → j < p.count → (p.lines i).number < (p.lines j).number

/-- The array stands for the map. -/
structure Represents (p : basic_program) (m : LineMap) : Prop where
  ascending : NumbersAscend p
  bounded : p.count ≤ B_MAX_LINES
  terminated : ∀ i, Terminated (p.lines i).text
  stores : ∀ n text, Stores p n text ↔ m n = some text

/-- The call does not give an empty text for a new number that has room. -/
def Meaningful (p : basic_program) (call : Call) : Prop :=
  call.text ≠ [] ∨ (∃ i < p.count, (p.lines i).number = call.number) ∨ B_MAX_LINES ≤ p.count

def AllMeaningful (p : basic_program) : List Call → Prop
  | [] => True
  | call :: calls => Meaningful p call ∧ AllMeaningful (add_program_line p call.number call.text).1 calls

/-! ## The loops -/

theorem find_pos_spec (p : basic_program) (number : Int) (left pos : Nat) :
    pos ≤ find_pos p number left pos ∧ find_pos p number left pos ≤ pos + left ∧
    (∀ i, pos ≤ i → i < find_pos p number left pos → (p.lines i).number < number) ∧
    (find_pos p number left pos < pos + left → number ≤ (p.lines (find_pos p number left pos)).number) := by
  induction left generalizing pos with
  | zero => exact ⟨le_rfl, le_rfl, fun i hi hlt => absurd hlt (Nat.not_lt.mpr hi), fun h => absurd h (lt_irrefl _)⟩
  | succ left ih =>
    rw [find_pos]
    by_cases hlt : (p.lines pos).number < number
    · rw [if_pos hlt]
      obtain ⟨hge, hle, hbelow, hend⟩ := ih (pos + 1)
      refine ⟨by omega, by omega, fun i hi hi' => ?_, fun h => hend (by omega)⟩
      obtain rfl | hne := eq_or_ne i pos
      · exact hlt
      · exact hbelow i (by omega) hi'
    · rw [if_neg hlt]
      exact ⟨le_rfl, by omega, fun i hi hi' => absurd hi' (Nat.not_lt.mpr hi), fun _ => Int.not_lt.mp hlt⟩

theorem shift_down_apply (lines : Nat → basic_line) (left i j : Nat) :
    shift_down lines left i j = if i ≤ j ∧ j < i + left then lines (j + 1) else lines j := by
  induction left generalizing lines i with
  | zero => rw [shift_down, if_neg (by omega)]
  | succ left ih =>
    rw [shift_down, ih]
    by_cases hj : j = i
    · subst hj
      rw [if_neg (by omega), if_pos (by omega), update_self]
    · rw [update_of_ne hj]
      by_cases hin : i + 1 ≤ j ∧ j < i + 1 + left
      · rw [if_pos hin, if_pos (by omega), update_of_ne (by omega)]
      · rw [if_neg hin, if_neg (by omega)]

theorem shift_up_apply (lines : Nat → basic_line) (pos left j : Nat) :
    shift_up lines pos left j = if pos < j ∧ j ≤ pos + left then lines (j - 1) else lines j := by
  induction left generalizing lines with
  | zero => rw [shift_up, if_neg (by omega)]
  | succ left ih =>
    rw [shift_up, ih]
    by_cases hj : j = pos + left + 1
    · subst hj
      rw [if_neg (by omega), if_pos (by omega), update_self, Nat.add_sub_cancel]
    · rw [update_of_ne hj]
      by_cases hin : pos < j ∧ j ≤ pos + left
      · rw [if_pos hin, if_pos (by omega), update_of_ne (by omega)]
      · rw [if_neg hin, if_neg (by omega)]

section Text

variable {dest text : List UInt8}

theorem strncpy_line_terminated (hdest : Terminated dest) :
    Terminated (strncpy_line dest text (B_MAX_LINE_LEN - 1)) := by
  have hlen : (text.take (B_MAX_LINE_LEN - 1) ++ List.replicate (B_MAX_LINE_LEN - 1 - text.length) 0).length =
      B_MAX_LINE_LEN - 1 := by
    rw [List.length_append, List.length_take, List.length_replicate]
    omega
  rw [Terminated, strncpy_line, List.drop_left' hlen]
  exact hdest

theorem c_text_strncpy_line (hdest : Terminated dest) (htext : (0 : UInt8) ∉ text) :
    c_text (strncpy_line dest text (B_MAX_LINE_LEN - 1)) = text.take (B_MAX_LINE_LEN - 1) := by
  have hchars : ∀ c ∈ text.take (B_MAX_LINE_LEN - 1), decide (c ≠ 0) = true := fun c hc =>
    decide_eq_true fun h => htext (h ▸ List.mem_of_mem_take hc)
  have hstop : (List.replicate (B_MAX_LINE_LEN - 1 - text.length) (0 : UInt8) ++ [0]).takeWhile (· ≠ 0) = [] := by
    cases B_MAX_LINE_LEN - 1 - text.length <;> rfl
  rw [c_text, strncpy_line, hdest, List.append_assoc, List.takeWhile_append_of_pos hchars, hstop, List.append_nil]

end Text

/-! ## What a call does -/

section Call

variable {p : basic_program} {m : LineMap}

/-- The numbers before the insertion point are smaller, those behind it are not. -/
structure InsertionPoint (p : basic_program) (number : Int) (pos : Nat) : Prop where
  le_count : pos ≤ p.count
  below : ∀ i < pos, (p.lines i).number < number
  above : ∀ i, pos ≤ i → i < p.count → number ≤ (p.lines i).number

theorem find_pos_point (hasc : NumbersAscend p) (number : Int) :
    InsertionPoint p number (find_pos p number p.count 0) := by
  obtain ⟨-, hle, hbelow, hend⟩ := find_pos_spec p number p.count 0
  rw [Nat.zero_add] at hle hend
  refine ⟨hle, fun i hi => hbelow i (Nat.zero_le i) hi, fun i hi hlt => ?_⟩
  have hpos := hend (by omega)
  obtain heq | hne := eq_or_ne (find_pos p number p.count 0) i
  · rw [heq] at hpos
    exact hpos
  · exact hpos.trans (hasc _ i (by omega) hlt).le

variable {number : Int} {pos : Nat}

theorem InsertionPoint.unique {i : Nat} (hpoint : InsertionPoint p number pos) (hasc : NumbersAscend p)
    (hpos : pos < p.count) (hnumber : (p.lines pos).number = number) (hi : i < p.count) :
    (p.lines i).number = number ↔ i = pos := by
  constructor
  · intro h
    by_contra hne
    obtain hlt | hgt := Nat.lt_or_gt_of_ne hne
    · exact absurd h (hpoint.below i hlt).ne
    · exact absurd (hnumber.trans h.symm) (hasc pos i hgt hi).ne
  · rintro rfl
    exact hnumber

theorem InsertionPoint.absent (hpoint : InsertionPoint p number pos) (hasc : NumbersAscend p)
    (hnot : ¬ (pos < p.count ∧ (p.lines pos).number = number)) : ∀ i < p.count, (p.lines i).number ≠ number := by
  intro i hi h
  obtain hlt | hge := Nat.lt_or_ge i pos
  · exact absurd h (hpoint.below i hlt).ne
  · have hpos : pos < p.count := by omega
    have hle := hpoint.above pos le_rfl hpos
    obtain rfl | hne := eq_or_ne pos i
    · exact hnot ⟨hpos, h⟩
    · have hlt := hasc pos i (by omega) hi
      omega

theorem Represents.defined_iff (h : Represents p m) (number : Int) :
    m number ≠ none ↔ ∃ i < p.count, (p.lines i).number = number := by
  rw [Option.ne_none_iff_exists']
  constructor
  · rintro ⟨text, htext⟩
    obtain ⟨i, hi, hnumber, -⟩ := (h.stores number text).mpr htext
    exact ⟨i, hi, hnumber⟩
  · rintro ⟨i, hi, hnumber⟩
    exact ⟨_, (h.stores number _).mp ⟨i, hi, hnumber, rfl⟩⟩

theorem Represents.ncard_eq (h : Represents p m) : {n | m n ≠ none}.ncard = p.count := by
  have himage : {n | m n ≠ none} = (fun i => (p.lines i).number) '' (Finset.range p.count : Set Nat) := by
    ext n
    rw [Set.mem_ofPred_eq, h.defined_iff]
    simp
  have hinj : Set.InjOn (fun i => (p.lines i).number) (Finset.range p.count : Set Nat) := by
    intro i hi j hj heq
    rw [Finset.mem_coe, Finset.mem_range] at hi hj
    obtain hlt | rfl | hgt := Nat.lt_trichotomy i j
    · exact absurd heq (h.ascending i j hlt hj).ne
    · rfl
    · exact absurd heq.symm (h.ascending j i hgt hi).ne
  rw [himage, hinj.ncard_image, Set.ncard_coe_finset, Finset.card_range]

theorem stores_update {p' : basic_program} {new : Option (List UInt8)} (h : Represents p m)
    (hother : ∀ n text, n ≠ number → (Stores p' n text ↔ Stores p n text))
    (hnew : ∀ text, Stores p' number text ↔ new = some text) (n : Int) (text : List UInt8) :
    Stores p' n text ↔ update m number new n = some text := by
  by_cases hn : n = number
  · subst hn
    rw [update_self, hnew]
  · rw [update_of_ne hn, hother n text hn, h.stores]

/-- The line at the insertion point is deleted. -/
theorem Represents.delete (h : Represents p m) (hpoint : InsertionPoint p number pos)
    (hpos : pos < p.count) (hnumber : (p.lines pos).number = number) :
    Represents ⟨shift_down p.lines (p.count - 1 - pos) pos, p.count - 1⟩ (update m number none) := by
  have hlines : ∀ j < p.count - 1, shift_down p.lines (p.count - 1 - pos) pos j =
      p.lines (if j < pos then j else j + 1) := by
    intro j hj
    rw [shift_down_apply]
    by_cases hlt : j < pos
    · rw [if_pos hlt, if_neg (by omega)]
    · rw [if_neg hlt, if_pos (by omega)]
  refine ⟨fun i j hij hj => ?_, by have := h.bounded; dsimp only; omega, fun i => ?_, stores_update h ?_ ?_⟩
  · dsimp only at hj ⊢
    rw [hlines i (by omega), hlines j hj]
    exact h.ascending _ _ (by split <;> split <;> omega) (by split <;> omega)
  · dsimp only
    rw [shift_down_apply]
    split
    · exact h.terminated _
    · exact h.terminated _
  · intro n text hn
    constructor
    · rintro ⟨j, hj, hjn, hjt⟩
      dsimp only at hj hjn hjt
      rw [hlines j hj] at hjn hjt
      exact ⟨_, by split <;> omega, hjn, hjt⟩
    · rintro ⟨i, hi, hin, hit⟩
      have hne : i ≠ pos := fun heq => hn (by rw [← hin, heq, hnumber])
      have hindex : (if (if i < pos then i else i - 1) < pos then (if i < pos then i else i - 1)
          else (if i < pos then i else i - 1) + 1) = i := by
        by_cases hbefore : i < pos
        · rw [if_pos hbefore, if_pos hbefore]
        · rw [if_neg hbefore, if_neg (by omega)]
          omega
      have hlt : (if i < pos then i else i - 1) < p.count - 1 := by
        split <;> omega
      refine ⟨if i < pos then i else i - 1, hlt, ?_, ?_⟩
      · dsimp only
        rw [hlines _ hlt, hindex]
        exact hin
      · dsimp only
        rw [hlines _ hlt, hindex]
        exact hit
  · intro text
    constructor
    · rintro ⟨j, hj, hjn, -⟩
      dsimp only at hj hjn
      rw [hlines j hj] at hjn
      have hindex := (hpoint.unique h.ascending hpos hnumber (by split <;> omega)).mp hjn
      split at hindex <;> omega
    · intro hnone
      cases hnone

/-- The line at the insertion point gets a new text. -/
theorem Represents.replace {text : List UInt8} (h : Represents p m)
    (hpoint : InsertionPoint p number pos) (hpos : pos < p.count) (hnumber : (p.lines pos).number = number)
    (htext : (0 : UInt8) ∉ text) :
    Represents ⟨update p.lines pos
        ⟨(p.lines pos).number, strncpy_line (p.lines pos).text text (B_MAX_LINE_LEN - 1)⟩, p.count⟩
      (update m number (some (text.take (B_MAX_LINE_LEN - 1)))) := by
  obtain ⟨line, hline⟩ : ∃ line : basic_line, line =
      ⟨(p.lines pos).number, strncpy_line (p.lines pos).text text (B_MAX_LINE_LEN - 1)⟩ := ⟨_, rfl⟩
  rw [← hline]
  have hnumbers : ∀ i, (update p.lines pos line i).number = (p.lines i).number := by
    intro i
    by_cases hi : i = pos
    · rw [hi, update_self, hline]
    · rw [update_of_ne hi]
  have hread : c_text line.text = text.take (B_MAX_LINE_LEN - 1) := by
    rw [hline]
    exact c_text_strncpy_line (h.terminated pos) htext
  refine ⟨fun i j hij hj => ?_, h.bounded, fun i => ?_, stores_update h ?_ ?_⟩
  · dsimp only
    rw [hnumbers, hnumbers]
    exact h.ascending i j hij hj
  · dsimp only
    by_cases hi : i = pos
    · rw [hi, update_self, hline]
      exact strncpy_line_terminated (h.terminated pos)
    · rw [update_of_ne hi]
      exact h.terminated i
  · intro n t hn
    refine exists_congr fun i => and_congr_right fun hi => ?_
    dsimp only
    rw [hnumbers]
    refine and_congr_right fun hin => ?_
    have hne : i ≠ pos := fun heq => hn (by rw [← hin, heq, hnumber])
    rw [update_of_ne hne]
  · intro t
    constructor
    · rintro ⟨i, hi, hin, hit⟩
      dsimp only at hin hit
      rw [hnumbers] at hin
      rw [(hpoint.unique h.ascending hpos hnumber hi).mp hin, update_self, hread] at hit
      rw [hit]
    · intro ht
      refine ⟨pos, hpos, ?_, ?_⟩
      · dsimp only
        rw [hnumbers, hnumber]
      · dsimp only
        rw [update_self, hread]
        exact Option.some.inj ht

/-- A line is inserted for a new number. -/
theorem Represents.insert {text : List UInt8} (h : Represents p m)
    (hpoint : InsertionPoint p number pos) (habsent : ∀ i < p.count, (p.lines i).number ≠ number)
    (hroom : p.count < B_MAX_LINES) (htext : (0 : UInt8) ∉ text) :
    Represents ⟨update (shift_up p.lines pos (p.count - pos)) pos
        ⟨number, strncpy_line (shift_up p.lines pos (p.count - pos) pos).text text (B_MAX_LINE_LEN - 1)⟩, p.count + 1⟩
      (update m number (some (text.take (B_MAX_LINE_LEN - 1)))) := by
  have hle := hpoint.le_count
  have hold : shift_up p.lines pos (p.count - pos) pos = p.lines pos := by
    rw [shift_up_apply, if_neg (by omega)]
  rw [hold]
  obtain ⟨line, hline⟩ : ∃ line : basic_line, line =
      ⟨number, strncpy_line (p.lines pos).text text (B_MAX_LINE_LEN - 1)⟩ := ⟨_, rfl⟩
  rw [← hline]
  have hread : c_text line.text = text.take (B_MAX_LINE_LEN - 1) := by
    rw [hline]
    exact c_text_strncpy_line (h.terminated pos) htext
  have hother : ∀ j, j ≠ pos → j < p.count + 1 →
      update (shift_up p.lines pos (p.count - pos)) pos line j = p.lines (if j < pos then j else j - 1) := by
    intro j hj hlt
    rw [update_of_ne hj, shift_up_apply]
    by_cases hbefore : j < pos
    · rw [if_pos hbefore, if_neg (by omega)]
    · rw [if_neg hbefore, if_pos (by omega)]
  refine ⟨fun i j hij hj => ?_, hroom, fun i => ?_, stores_update h ?_ ?_⟩
  · dsimp only at hj ⊢
    obtain rfl | hi := eq_or_ne i pos
    · have habove := hpoint.above (j - 1) (by omega) (by omega)
      have hne := habsent (j - 1) (by omega)
      rw [update_self, hother j (by omega) hj, if_neg (by omega), hline]
      exact lt_of_le_of_ne habove hne.symm
    obtain rfl | hj' := eq_or_ne j pos
    · rw [update_self, hother i hi (by omega), if_pos hij, hline]
      exact hpoint.below i hij
    · rw [hother i hi (by omega), hother j hj' hj]
      exact h.ascending _ _ (by split <;> split <;> omega) (by split <;> omega)
  · dsimp only
    by_cases hi : i = pos
    · rw [hi, update_self, hline]
      exact strncpy_line_terminated (h.terminated pos)
    · rw [update_of_ne hi, shift_up_apply]
      split
      · exact h.terminated _
      · exact h.terminated _
  · intro n t hn
    constructor
    · rintro ⟨j, hj, hjn, hjt⟩
      dsimp only at hj hjn hjt
      have hne : j ≠ pos := by
        rintro rfl
        rw [update_self, hline] at hjn
        exact hn hjn.symm
      rw [hother j hne hj] at hjn hjt
      exact ⟨_, by split <;> omega, hjn, hjt⟩
    · rintro ⟨i, hi, hin, hit⟩
      have hindex : (if (if i < pos then i else i + 1) < pos then (if i < pos then i else i + 1)
          else (if i < pos then i else i + 1) - 1) = i := by
        by_cases hbefore : i < pos
        · rw [if_pos hbefore, if_pos hbefore]
        · rw [if_neg hbefore, if_neg (by omega), Nat.add_sub_cancel]
      have hne : (if i < pos then i else i + 1) ≠ pos := by
        split <;> omega
      have hlt : (if i < pos then i else i + 1) < p.count + 1 := by
        split <;> omega
      refine ⟨if i < pos then i else i + 1, hlt, ?_, ?_⟩
      · dsimp only
        rw [hother _ hne hlt, hindex]
        exact hin
      · dsimp only
        rw [hother _ hne hlt, hindex]
        exact hit
  · intro t
    constructor
    · rintro ⟨j, hj, hjn, hjt⟩
      dsimp only at hj hjn hjt
      by_cases hne : j = pos
      · rw [hne, update_self, hread] at hjt
        rw [hjt]
      · rw [hother j hne hj] at hjn
        exact absurd hjn (habsent _ (by split <;> omega))
    · intro ht
      refine ⟨pos, Nat.lt_succ_of_le hle, ?_, ?_⟩
      · dsimp only
        rw [update_self, hline]
      · dsimp only
        rw [update_self, hread]
        exact Option.some.inj ht

/-- After any call the array stands for some map, and for the one that the call makes of the map if it is meaningful. -/
theorem Represents.add (h : Represents p m) (call : Call) :
    ∃ m', Represents (add_program_line p call.number call.text).1 m' ∧ (Meaningful p call → m' = m.add call) := by
  have hpoint := find_pos_point h.ascending call.number
  unfold add_program_line LineMap.add
  dsimp only
  by_cases hfound : find_pos p call.number p.count 0 < p.count ∧
      (p.lines (find_pos p call.number p.count 0)).number = call.number
  · obtain ⟨hpos, hnumber⟩ := hfound
    have hdefined : m call.number ≠ none := (h.defined_iff call.number).mpr ⟨_, hpos, hnumber⟩
    rw [if_pos ⟨hpos, hnumber⟩]
    by_cases hempty : call.text = []
    · rw [if_pos hempty, if_pos hempty]
      exact ⟨_, h.delete hpoint hpos hnumber, fun _ => rfl⟩
    · rw [if_neg hempty, if_neg hempty, if_neg fun hnew => hdefined hnew.1]
      exact ⟨_, h.replace hpoint hpos hnumber call.no_nul, fun _ => rfl⟩
  · have habsent := hpoint.absent h.ascending hfound
    have hundefined : m call.number = none := by
      by_contra hdefined
      obtain ⟨i, hi, hnumber⟩ := (h.defined_iff call.number).mp hdefined
      exact habsent i hi hnumber
    rw [if_neg hfound]
    by_cases hfull : p.count ≥ B_MAX_LINES
    · rw [if_pos hfull]
      refine ⟨m, h, fun _ => ?_⟩
      by_cases hempty : call.text = []
      · rw [if_pos hempty, ← hundefined, update_eq_self]
      · rw [if_neg hempty, if_pos ⟨hundefined, by rw [h.ncard_eq]; exact hfull⟩]
    · rw [if_neg hfull]
      refine ⟨_, h.insert hpoint habsent (Nat.lt_of_not_ge hfull) call.no_nul, fun hcall => ?_⟩
      have hnonempty : call.text ≠ [] := by
        obtain htext | ⟨i, hi, hnumber⟩ | hroom := hcall
        · exact htext
        · exact absurd hnumber (habsent i hi)
        · exact absurd hroom hfull
      rw [if_neg hnonempty, if_neg fun hnew => hfull (by rw [← h.ncard_eq]; exact hnew.2)]

theorem Represents.add_lines (h : Represents p m) (calls : List Call) :
    ∃ m', Represents (add_lines p calls) m' ∧ (AllMeaningful p calls → m' = m.add_all calls) := by
  induction calls generalizing p m with
  | nil => exact ⟨m, h, fun _ => rfl⟩
  | cons call calls ih =>
    obtain ⟨m', hnext, hmap⟩ := h.add call
    obtain ⟨last, hlast, hall⟩ := ih hnext
    exact ⟨last, hlast, fun hcalls => by rw [hall hcalls.2, hmap hcalls.1]; rfl⟩

end Call

theorem zero_represents : Represents .zero fun _ => none where
  ascending := fun _ _ _ hj => absurd hj (Nat.not_lt_zero _)
  bounded := Nat.zero_le _
  terminated := fun _ => rfl
  stores := fun n text => ⟨fun ⟨_, hi, _⟩ => absurd hi (Nat.not_lt_zero _), fun h => absurd h (by simp)⟩

/-- After any calls the numbers ascend, the lines are not too many and each text ends; calls that are all meaningful
make the program memory the sorted map. -/
theorem program_memory_map (calls : List Call) :
    (NumbersAscend (add_lines .zero calls) ∧ (add_lines .zero calls).count ≤ B_MAX_LINES ∧
      ∀ i < (add_lines .zero calls).count, (0 : UInt8) ∈ ((add_lines .zero calls).lines i).text) ∧
    (AllMeaningful .zero calls →
      ∀ n text, Stores (add_lines .zero calls) n text ↔ LineMap.add_all (fun _ => none) calls n = some text) := by
  obtain ⟨m, h, hmap⟩ := zero_represents.add_lines calls
  refine ⟨⟨h.ascending, h.bounded, fun i _ => ?_⟩, fun hcalls => ?_⟩
  · have hend := h.terminated i
    exact List.mem_of_mem_drop (hend ▸ List.mem_singleton_self 0)
  · rw [← hmap hcalls]
    exact h.stores

/-- Two lines, one of them deleted again. -/
def three_calls : List Call :=
  [⟨20, [80, 82], by decide⟩, ⟨10, [82, 69, 77], by decide⟩, ⟨20, [], by decide⟩]

theorem program_memory_map_three : (add_lines .zero three_calls).count = 1 ∧
    ∀ n text, Stores (add_lines .zero three_calls) n text ↔
      LineMap.add_all (fun _ => none) three_calls n = some text :=
  ⟨by decide, (program_memory_map three_calls).2
    ⟨.inl (by decide), .inl (by decide), .inr (.inl ⟨1, by decide, by decide⟩), trivial⟩⟩

def empty_call : Call := ⟨10, [], by decide⟩

/-- The empty text of a new number is stored as a line. -/
theorem empty_line_stored : Stores (add_lines .zero [empty_call]) 10 [] ∧
    LineMap.add_all (fun _ => none) [empty_call] 10 = none := by
  refine ⟨⟨0, by decide, by decide, by decide⟩, ?_⟩
  change LineMap.add (fun _ => none) empty_call 10 = none
  rw [LineMap.add, if_pos (show empty_call.text = [] from rfl)]
  change update (fun _ => none : LineMap) 10 none 10 = none
  rw [update_self]

end graceos.basic
