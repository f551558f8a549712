import GraceOS.Basic.Interp
import Mathlib.Algebra.Order.Ring.Int

/-!
# Which line comes next

What a program says about the order of its lines, and what the run loop makes of it: `cmd_goto` takes no space
before the number, and the loop steps on behind the line that it set.
-/

namespace graceos.basic

/-! ## What the program says -/

/-- The number in a statement `GOTO n`, with any spacing. -/
def goto_target (text : List Char) : Option Int :=
  let line := skip_whitespace text
  if starts GOTO line then parse_int (skip_whitespace (line.drop 4)) else none

def is_end (text : List Char) : Bool := starts END (skip_whitespace text)

def Ascending (lines : List Line) : Prop := lines.Pairwise fun a b => a.number < b.number

/-- `next` is the index of the line to execute after `line`. -/
structure Follows (lines : List Line) (line : Line) (next : Option Nat) : Prop where
  jumps : ∀ n i, goto_target line.text = some n → find_line lines n = some i → next = some i
  ends : is_end line.text → next = none
  falls : (goto_target line.text).bind (find_line lines) = none → ¬ is_end line.text →
    (∀ i, next = some i → ∃ l, lines[i]? = some l ∧ line.number < l.number ∧
      ∀ l' ∈ lines, line.number < l'.number → l.number ≤ l'.number) ∧
    (next = none → ∀ l' ∈ lines, ¬ line.number < l'.number)

/-- A jump is made where it leads to the next line and a space stands before the number. -/
def JumpMet (lines : List Line) (i : Nat) (line : Line) : Prop :=
  ∀ n j, goto_target line.text = some n → find_line lines n = some j →
    j = i + 1 ∧ ((skip_whitespace line.text).drop 4).head?.any is_space

/-! ## Parsing -/

variable {k : Char} {ks line : List Char}

theorem starts_head {l : Char} (h : starts (k :: ks) line = true)
    (h' : line.head? = some l) : k = l := by
  cases line with
  | nil => cases h'
  | cons c line =>
    rw [starts, List.isPrefixOf_cons_cons, Bool.and_eq_true, beq_iff_eq] at h
    rw [h.1]
    exact Option.some.inj h'

theorem starts_cons (h : starts (k :: ks) line = true) :
    line.head? = some k := by
  cases line with
  | nil => cases h
  | cons c line =>
    rw [starts, List.isPrefixOf_cons_cons, Bool.and_eq_true, beq_iff_eq] at h
    rw [h.1]
    rfl

theorem starts_ne {l : Char} {ls : List Char} (h : starts (k :: ks) line = true) (hne : l ≠ k) :
    starts (l :: ls) line = false := by
  rw [← Bool.not_eq_true]
  intro h'
  exact hne (starts_head h' (starts_cons h))

theorem parse_int_space {str : List Char} (h : str.head?.any is_space = true) : parse_int str = none := by
  cases str with
  | nil => cases h
  | cons c str =>
    have hc : c = ' ' ∨ c = '\t' := by simpa [is_space] using h
    rcases hc with rfl | rfl
    · rfl
    · rfl

theorem skip_whitespace_of_not_space {str : List Char} (h : ¬ str.head?.any is_space = true) :
    skip_whitespace str = str := by
  cases str with
  | nil => rfl
  | cons c str => exact List.dropWhile_cons_of_neg h

/-! ## What a statement does to the loop -/

variable {s s' : State}

/-- A statement leaves the program, the counter and the flag alone. -/
def Steady (s s' : State) : Prop := s'.lines = s.lines ∧ s'.pc = s.pc ∧ s'.running = s.running

theorem Steady.rfl : Steady s s := ⟨by rfl, by rfl, by rfl⟩

theorem cmd_print_steady (args : List Char) (s : State) : Steady s (cmd_print args s) := by
  unfold cmd_print
  dsimp only
  split
  · exact .rfl
  · exact .rfl

theorem cmd_let_steady (args : List Char) (s : State) : Steady s (cmd_let args s) := by
  unfold cmd_let
  split
  · exact .rfl
  · split
    · exact .rfl
    · dsimp only
      split
      · exact .rfl
      · exact .rfl

theorem cmd_input_steady {args : List Char} (h : cmd_input args s = some s') : Steady s s' := by
  unfold cmd_input at h
  split at h
  · rw [← Option.some.inj h]
    exact .rfl
  · next var _ =>
    obtain ⟨⟨keys, buffer, echo⟩, -, h⟩ := Option.bind_eq_some_iff.mp h
    dsimp only at h
    split at h
    · rw [← Option.some.inj h]
      exact .rfl
    · rw [← Option.some.inj h]
      exact .rfl

/-- `GOTO` sets the counter, `END` clears the flag, and nothing else changes them. -/
theorem execute_line_cases (h : execute_line line s = some s') :
    (starts GOTO (skip_whitespace line) = true ∧ is_end line = false ∧
        s' = cmd_goto ((skip_whitespace line).drop 4) s) ∨
      (starts GOTO (skip_whitespace line) = false ∧ is_end line = true ∧ s' = cmd_end s) ∨
      (starts GOTO (skip_whitespace line) = false ∧ is_end line = false ∧ Steady s s') := by
  unfold execute_line at h
  unfold is_end
  dsimp only at h
  generalize skip_whitespace line = line at h ⊢
  split at h
  · next hk =>
    right; right
    rw [← Option.some.inj h]
    exact ⟨starts_ne hk (by decide), starts_ne hk (by decide), cmd_print_steady _ s⟩
  split at h
  · next hk =>
    right; right
    rw [← Option.some.inj h]
    exact ⟨starts_ne hk (by decide), starts_ne hk (by decide), cmd_let_steady _ s⟩
  split at h
  · next hk =>
    right; right
    exact ⟨starts_ne hk (by decide), starts_ne hk (by decide), cmd_input_steady h⟩
  split at h
  · next hk =>
    left
    exact ⟨hk, starts_ne hk (by decide), (Option.some.inj h).symm⟩
  next hgoto =>
  rw [Bool.not_eq_true] at hgoto
  split at h
  · next hk =>
    right; right
    rw [← Option.some.inj h]
    exact ⟨hgoto, starts_ne hk (by decide), .rfl⟩
  split at h
  · next hk =>
    right; left
    exact ⟨hgoto, hk, (Option.some.inj h).symm⟩
  next hend =>
  rw [Bool.not_eq_true] at hend
  right; right
  refine ⟨hgoto, hend, ?_⟩
  split at h
  · rw [← Option.some.inj h]
    exact .rfl
  split at h
  · rw [← Option.some.inj h]
    exact .rfl
  · rw [← Option.some.inj h]
    exact .rfl

/-! ## Lines in order -/

variable {j i : Nat}

theorem find_line_some {lines : List Line} {n : Int} (h : find_line lines n = some j) :
    j < lines.length := by
  rw [find_line, List.findIdx?_eq_some_iff_getElem] at h
  exact h.1

theorem number_lt_of_lt {lines : List Line} (hsorted : Ascending lines) {l l' : Line}
    (hi : lines[i]? = some l) (hj : lines[j]? = some l') (h : i < j) : l.number < l'.number := by
  obtain ⟨hi', rfl⟩ := List.getElem?_eq_some_iff.mp hi
  obtain ⟨hj', rfl⟩ := List.getElem?_eq_some_iff.mp hj
  exact List.pairwise_iff_getElem.mp hsorted i j hi' hj' h

theorem lt_of_number_lt {lines : List Line} (hsorted : Ascending lines) {l l' : Line}
    (hi : lines[i]? = some l) (hj : lines[j]? = some l') (h : l.number < l'.number) : i < j := by
  rcases Nat.lt_trichotomy i j with hlt | rfl | hgt
  · exact hlt
  · rw [hi] at hj
    rw [Option.some.inj hj] at h
    exact absurd h (lt_irrefl _)
  · exact absurd (number_lt_of_lt hsorted hj hi hgt) (not_lt.mpr h.le)

/-- The line behind another one has the next higher number. -/
theorem falls_to_next {lines : List Line} (hsorted : Ascending lines) {line : Line}
    (hi : lines[i]? = some line) {next : Option Nat}
    (hnext : next = if i + 1 < lines.length then some (i + 1) else none) :
    (∀ j, next = some j → ∃ l, lines[j]? = some l ∧ line.number < l.number ∧
      ∀ l' ∈ lines, line.number < l'.number → l.number ≤ l'.number) ∧
    (next = none → ∀ l' ∈ lines, ¬ line.number < l'.number) := by
  subst hnext
  constructor
  · intro j hj
    split at hj
    · next hlt =>
      obtain rfl := Option.some.inj hj
      have hl : lines[i + 1]? = some lines[i + 1] := List.getElem?_eq_getElem hlt
      refine ⟨lines[i + 1], hl, number_lt_of_lt hsorted hi hl (Nat.lt_succ_self i), ?_⟩
      intro l' hmem hhigher
      obtain ⟨k, hk⟩ := List.mem_iff_getElem?.mp hmem
      have hik := lt_of_number_lt hsorted hi hk hhigher
      rcases Nat.lt_or_eq_of_le (Nat.succ_le_of_lt hik) with hlt' | heq
      · exact (number_lt_of_lt hsorted hl hk hlt').le
      · rw [← heq, Nat.succ_eq_add_one, hl] at hk
        rw [Option.some.inj hk]
    · cases hj
  · intro hnone l' hmem hhigher
    obtain ⟨k, hk⟩ := List.mem_iff_getElem?.mp hmem
    have hik := lt_of_number_lt hsorted hi hk hhigher
    obtain ⟨hlt, -⟩ := List.getElem?_eq_some_iff.mp hk
    rw [if_pos (by omega)] at hnone
    cases hnone

/-! ## Turns -/

theorem current_eq_some (h : current s = some i) :
    s.running = true ∧ i < s.lines.length ∧ s.pc = i := by
  unfold current at h
  split at h
  · next hc =>
    rw [Bool.and_eq_true, decide_eq_true_eq] at hc
    obtain rfl := Option.some.inj h
    exact ⟨hc.1, hc.2, rfl⟩
  · cases h

theorem turn_cases (h : turn s = some s') :
    ∃ i line t, current s = some i ∧ s.lines[i]? = some line ∧ execute_line line.text s = some t ∧
      s' = { t with pc := t.pc + 1 } := by
  obtain ⟨i, hi, h⟩ := Option.bind_eq_some_iff.mp h
  obtain ⟨line, hline, h⟩ := Option.bind_eq_some_iff.mp h
  obtain ⟨t, ht, h⟩ := Option.bind_eq_some_iff.mp h
  exact ⟨i, line, t, hi, hline, ht, (Option.some.inj h).symm⟩

theorem cmd_goto_cases (args : List Char) (s : State) :
    (∃ j, (parse_int args).bind (find_line s.lines) = some j ∧ cmd_goto args s = { s with pc := j }) ∨
      ((parse_int args).bind (find_line s.lines) = none ∧ Steady s (cmd_goto args s)) := by
  unfold cmd_goto
  cases parse_int args with
  | none => exact .inr ⟨rfl, .rfl⟩
  | some n =>
    dsimp only
    cases h : find_line s.lines n with
    | none => exact .inr ⟨h, .rfl⟩
    | some j => exact .inl ⟨j, h, rfl⟩

theorem turn_lines (h : turn s = some s') : s'.lines = s.lines := by
  obtain ⟨i, line, t, -, -, ht, rfl⟩ := turn_cases h
  change t.lines = s.lines
  rcases execute_line_cases ht with ⟨-, -, rfl⟩ | ⟨-, -, rfl⟩ | ⟨-, -, hsteady⟩
  · rcases cmd_goto_cases ((skip_whitespace line.text).drop 4) s with ⟨j, -, heq⟩ | ⟨-, hsteady⟩
    · rw [heq]
    · exact hsteady.1
  · rfl
  · exact hsteady.1

theorem Steady.current_next {t : State} (h : Steady s t) (hcur : current s = some i) :
    current { t with pc := t.pc + 1 } = if i + 1 < s.lines.length then some (i + 1) else none := by
  obtain ⟨hrunning, -, hpc⟩ := current_eq_some hcur
  obtain ⟨hlines, hpc', hrunning'⟩ := h
  unfold current
  rw [hlines, hpc', hrunning', hrunning, hpc]
  simp only [Bool.true_and, decide_eq_true_eq]

theorem Steady.follows_iff {t : State} {line : Line} (h : Steady s t) (hsorted : Ascending s.lines)
    (hcur : current s = some i) (hline : s.lines[i]? = some line) (hend : is_end line.text = false) :
    Follows s.lines line (current { t with pc := t.pc + 1 }) ↔
      ∀ n j, goto_target line.text = some n → find_line s.lines n = some j → j = i + 1 := by
  have hnext := h.current_next hcur
  constructor
  · intro hfollows n j hn hj
    have hjump := hfollows.jumps n j hn hj
    rw [hnext] at hjump
    split at hjump
    · exact (Option.some.inj hjump).symm
    · cases hjump
  · intro hmet
    refine ⟨?_, fun he => absurd he (by rw [hend]; exact Bool.false_ne_true),
      fun _ _ => falls_to_next hsorted hline hnext⟩
    intro n j hn hj
    have hlt := find_line_some hj
    rw [hmet n j hn hj] at hlt ⊢
    rw [hnext, if_pos hlt]

/-- The next line is the one that the program asks for where a jump is met, and no other way. -/
theorem turn_follows_iff (hsorted : Ascending s.lines) {line : Line}
    (hcur : current s = some i) (hline : s.lines[i]? = some line) (h : turn s = some s') :
    Follows s.lines line (current s') ↔ JumpMet s.lines i line := by
  obtain ⟨i', line', t, hcur', hline', ht, rfl⟩ := turn_cases h
  obtain rfl : i = i' := Option.some.inj (hcur.symm.trans hcur')
  obtain rfl : line = line' := Option.some.inj (hline.symm.trans hline')
  have hfall (hsteady : Steady s t) (hend : is_end line.text = false) := hsteady.follows_iff hsorted hcur hline hend
  rcases execute_line_cases ht with ⟨hgoto, hend, rfl⟩ | ⟨hgoto, hend, rfl⟩ | ⟨hgoto, hend, hsteady⟩
  · have htarget : goto_target line.text = parse_int (skip_whitespace ((skip_whitespace line.text).drop 4)) :=
      if_pos hgoto
    by_cases hspace : ((skip_whitespace line.text).drop 4).head?.any is_space = true
    · -- the number behind the space is not parsed
      rcases cmd_goto_cases ((skip_whitespace line.text).drop 4) s with ⟨j, hj, -⟩ | ⟨-, hsteady⟩
      · rw [parse_int_space hspace] at hj
        cases hj
      · rw [hfall hsteady hend]
        exact ⟨fun h n j hn hj => ⟨h n j hn hj, hspace⟩, fun h n j hn hj => (h n j hn hj).1⟩
    · rw [skip_whitespace_of_not_space hspace] at htarget
      rcases cmd_goto_cases ((skip_whitespace line.text).drop 4) s with ⟨j, hj, heq⟩ | ⟨hnone, hsteady⟩
      · -- the loop steps on behind the target
        obtain ⟨n, hn, hj⟩ := Option.bind_eq_some_iff.mp hj
        constructor
        · intro hfollows
          have hjump := hfollows.jumps n j (htarget.trans hn) hj
          rw [heq] at hjump
          have hpc := (current_eq_some hjump).2.2
          change j + 1 = j at hpc
          omega
        · intro hmet
          exact absurd (hmet n j (htarget.trans hn) hj).2 hspace
      · rw [hfall hsteady hend]
        constructor
        · intro _ n j hn hj
          rw [← htarget, hn, Option.bind_some, hj] at hnone
          cases hnone
        · intro hmet n j hn hj
          exact (hmet n j hn hj).1
  · have htarget : goto_target line.text = none := by rw [goto_target, if_neg (by rw [hgoto]; exact Bool.false_ne_true)]
    constructor
    · intro _ n j hn
      rw [htarget] at hn
      cases hn
    · intro _
      refine ⟨fun n j hn => ?_, fun _ => ?_, fun _ hnot => absurd hend hnot⟩
      · rw [htarget] at hn
        cases hn
      · unfold current
        rfl
  · have htarget : goto_target line.text = none := by rw [goto_target, if_neg (by rw [hgoto]; exact Bool.false_ne_true)]
    rw [hfall hsteady hend]
    constructor
    · intro _ n j hn
      rw [htarget] at hn
      cases hn
    · intro hmet n j hn hj
      exact (hmet n j hn hj).1

/-! ## Runs -/

theorem Run.lines (h : Run s s') : s'.lines = s.lines := by
  induction h with
  | refl => rfl
  | tail _ hturn ih => exact (turn_lines hturn).trans ih

/-- A run begins with the line of the smallest number, and each of its turns leads to the line that the program
asks for exactly where the jump of its line, if it has one, is met. -/
theorem cmd_run_follows_iff {st : State} (hsorted : Ascending st.lines) :
    (current (run_start st) = none → st.lines = []) ∧
      (∀ i line, current (run_start st) = some i → st.lines[i]? = some line →
        ∀ l ∈ st.lines, line.number ≤ l.number) ∧
      ∀ s s' i line, Run (run_start st) s → current s = some i → st.lines[i]? = some line → turn s = some s' →
        (Follows st.lines line (current s') ↔ JumpMet st.lines i line) := by
  refine ⟨?_, ?_, ?_⟩
  · intro hnone
    unfold current run_start at hnone
    simpa using hnone
  · intro i line hcur hline l hmem
    obtain ⟨-, -, hpc⟩ := current_eq_some hcur
    change 0 = i at hpc
    subst hpc
    obtain ⟨k, hk⟩ := List.mem_iff_getElem?.mp hmem
    rcases Nat.eq_zero_or_pos k with rfl | hpos
    · rw [hline] at hk
      rw [Option.some.inj hk]
    · exact (number_lt_of_lt hsorted hline hk hpos).le
  · intro s s' i line hrun hcur hline hturn
    have hlines : s.lines = st.lines := hrun.lines
    rw [← hlines] at hsorted hline ⊢
    exact turn_follows_iff hsorted hcur hline hturn

/-- `10 GOTO 30`, and two lines that end. -/
def skipping : State where
  lines := [⟨10, ['G', 'O', 'T', 'O', ' ', '3', '0']⟩, ⟨20, END⟩, ⟨30, END⟩]
  vars := fun _ => 0
  pc := 0
  running := false
  keys := []
  tty := []
  logs := []

theorem cmd_run_follows_iff_skipping :
    (current (run_start skipping) = none → skipping.lines = []) ∧
      (∀ i line, current (run_start skipping) = some i → skipping.lines[i]? = some line →
        ∀ l ∈ skipping.lines, line.number ≤ l.number) ∧
      ∀ s s' i line, Run (run_start skipping) s → current s = some i → skipping.lines[i]? = some line →
        turn s = some s' → (Follows skipping.lines line (current s') ↔ JumpMet skipping.lines i line) :=
  @cmd_run_follows_iff skipping (by simp [Ascending, skipping])

/-- Line 20 is executed behind `10 GOTO 30`. -/
theorem goto_not_followed :
    ¬ ∀ (st s s' : State) (i : Nat) (line : Line), Ascending st.lines → Run (run_start st) s → current s = some i →
      st.lines[i]? = some line → turn s = some s' → Follows st.lines line (current s') := by
  intro hclaim
  have hfollows := hclaim skipping (run_start skipping)
      { log "Invalid line number" (run_start skipping) with pc := 1 } 0
    ⟨10, ['G', 'O', 'T', 'O', ' ', '3', '0']⟩ (by simp [Ascending, skipping]) (Run.refl _) rfl rfl rfl
  have hjump := hfollows.jumps 30 2 (by decide) (by decide)
  exact absurd hjump (by decide)

end graceos.basic
