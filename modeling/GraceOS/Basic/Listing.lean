import GraceOS.Basic.Interp
import GraceOS.Basic.Program
import Mathlib.Tactic.IntervalCases

/-!
# Listing a program

The input loop of `basic.c` and its LIST command. What LIST prints, typed in again, is the program.
-/

namespace graceos.basic

open List

/-- The bytes of the characters of a buffer. -/
def bytes (text : List Char) : List UInt8 := text.map fun c => UInt8.ofNat c.toNat

def chars (text : List UInt8) : List Char := text.map fun b => Char.ofNat b.toNat

/-- `read_input` with the characters before `i`. Without a key it waits. -/
def read_input (max_len : Nat) (buffer : List Char) : List Char → Option (List Char × List Char)
  | [] => if buffer.length < max_len - 1 then none else some (buffer, [])
  | c :: keys =>
    if buffer.length < max_len - 1 then
      if c = '\n' ∨ c = '\r' then some (buffer, keys)
      else if c.toNat = 0x08 ∨ c.toNat = 0x7F then read_input max_len buffer.dropLast keys
      else if 32 ≤ c.toNat ∧ c.toNat < 127 then read_input max_len (buffer ++ [c]) keys
      else read_input max_len buffer keys
    else some (buffer, c :: keys)

/-- What `basic_run` does with its input. -/
inductive Command where
  | empty
  | exit
  | line (number : Int) (text : List Char)
  | list
  | run
  | new
  | statement
deriving DecidableEq

def immediate (input_buffer : List Char) : Command :=
  if starts ['L', 'I', 'S', 'T'] input_buffer then .list
  else if starts ['R', 'U', 'N'] input_buffer then .run
  else if starts ['N', 'E', 'W'] input_buffer then .new
  else .statement

def command (input_buffer : List Char) : Command :=
  if input_buffer = [] then .empty
  else if input_buffer = ['E', 'X', 'I', 'T'] ∨ input_buffer = ['Q', 'U', 'I', 'T'] then .exit
  else if input_buffer.head?.any is_digit then
    match parse_int input_buffer with
    | some line_num => .line line_num (skip_whitespace (input_buffer.dropWhile is_digit))
    | none => immediate input_buffer
  else immediate input_buffer

/-- One turn of `basic_run` on the program memory, which RUN and the statements leave as it is. -/
def repl_turn (p : basic_program) (keys : List Char) : Option (basic_program × List Char) := do
  let (input_buffer, keys) ← read_input 256 [] keys
  match command input_buffer with
  | .exit => none
  | .line number text => some ((add_program_line p number (bytes text)).1, keys)
  | .new => some (.zero, keys)
  | _ => some (p, keys)

/-- The turns of `basic_run` on a stream of keys. -/
inductive Turns : basic_program → List Char → basic_program → List Char → Prop
  | none (p : basic_program) (keys : List Char) : Turns p keys p keys
  | turn {p p' p'' : basic_program} {keys keys' keys'' : List Char} (h : repl_turn p keys = some (p', keys'))
      (rest : Turns p' keys' p'' keys'') : Turns p keys p'' keys''

/-- The characters that LIST prints for a line. -/
def list_line (line : basic_line) : List Char := print_int line.number ++ ' ' :: chars (c_text line.text) ++ ['\n']

def cmd_list (p : basic_program) : List Char := (List.range p.count).flatMap fun i => list_line (p.lines i)

/-! ## Numbers -/

variable {n : Nat}

theorem int_of_range {x : Int} (hlow : 0 ≤ x) (hhigh : x < 2 ^ 31) : int x = x := by
  unfold int
  rw [Int.bmod_def]
  split <;> omega

theorem digitChar_eq {d : Nat} (hd : d < 10) : is_digit d.digitChar = true ∧ (d.digitChar.toNat : Int) - '0'.toNat = d ∧
    32 ≤ d.digitChar.toNat ∧ d.digitChar.toNat < 127 := by
  interval_cases d <;> decide

theorem parse_digits_repr (hn : n < 2 ^ 31) (rest : List Char) :
    parse_digits 0 (Nat.toDigits 10 n ++ rest) = parse_digits n rest := by
  induction n using Nat.strong_induction_on generalizing rest with
  | _ n ih =>
    by_cases hsmall : n < 10
    · obtain ⟨hdigit, hvalue, -⟩ := digitChar_eq hsmall
      rw [Nat.toDigits_of_lt_base hsmall, singleton_append, parse_digits, if_pos hdigit, hvalue,
        @int_of_range (0 * 10) (by decide) (by decide), int_of_range (by omega) (by omega), Int.zero_mul, Int.zero_add]
    · have hlow : n % 10 < 10 := Nat.mod_lt _ (by decide)
      obtain ⟨hdigit, hvalue, -⟩ := digitChar_eq hlow
      rw [Nat.toDigits_of_base_le (by decide) (by omega), append_assoc, ih (n / 10) (by omega) (by omega),
        singleton_append, parse_digits, if_pos hdigit, hvalue,
        @int_of_range (((n / 10 : Nat) : Int) * 10) (by omega) (by omega), int_of_range (by omega) (by omega)]
      congr 1
      omega

theorem mem_toDigits {c : Char} (hc : c ∈ Nat.toDigits 10 n) :
    is_digit c = true ∧ 32 ≤ c.toNat ∧ c.toNat < 127 := by
  induction n using Nat.strong_induction_on with
  | _ n ih =>
    by_cases hsmall : n < 10
    · rw [Nat.toDigits_of_lt_base hsmall, mem_singleton] at hc
      rw [hc]
      exact ⟨(digitChar_eq hsmall).1, (digitChar_eq hsmall).2.2⟩
    · rw [Nat.toDigits_of_base_le (by decide) (by omega), mem_append, mem_singleton] at hc
      rcases hc with hc | rfl
      · exact ih (n / 10) (by omega) hc
      · have hdigit := digitChar_eq (Nat.mod_lt n (by decide : 0 < 10))
        exact ⟨hdigit.1, hdigit.2.2⟩

theorem print_int_nonneg {n : Int} (hn : 0 ≤ n) : print_int n = Nat.toDigits 10 n.toNat := by
  rw [print_int, if_neg (by omega), Nat.toList_repr]

/-! ## The program memory -/

variable {text : List UInt8} {p : basic_program}

/-- A text that the input loop can give: its characters are printable, and it does not begin with a blank. -/
structure Typeable (text : List UInt8) : Prop where
  printable : ∀ b ∈ text, 32 ≤ b.toNat ∧ b.toNat < 127
  begins : text.head? ≠ some 0x20
  short : text.length ≤ B_MAX_LINE_LEN - 1

/-- The program memory holds lines that can be typed. -/
def Typed (p : basic_program) : Prop := ∃ m, Represents p m ∧ ∀ n text, m n = some text → Typeable text

theorem typed_zero : Typed .zero := ⟨_, zero_represents, fun _ _ h => by cases h⟩

theorem Typeable.no_nul (h : ∀ b ∈ text, 32 ≤ b.toNat ∧ b.toNat < 127) : (0 : UInt8) ∉ text := by
  intro hzero
  exact absurd (h 0 hzero).1 (by decide)

theorem Typeable.take (hprint : ∀ b ∈ text, 32 ≤ b.toNat ∧ b.toNat < 127)
    (hbegins : text.head? ≠ some 0x20) : Typeable (text.take (B_MAX_LINE_LEN - 1)) := by
  refine ⟨fun b hb => hprint b (mem_of_mem_take hb), ?_, length_take_le _ _⟩
  rw [List.head?_take, if_neg (by decide)]
  exact hbegins

/-- A typed line keeps the memory, also an empty one. -/
theorem Typed.add (h : Typed p) (number : Int)
    (hprint : ∀ b ∈ text, 32 ≤ b.toNat ∧ b.toNat < 127) (hbegins : text.head? ≠ some 0x20) :
    Typed (add_program_line p number text).1 := by
  obtain ⟨m, hrep, hall⟩ := h
  have hpoint := find_pos_point hrep.ascending number
  have hnul := Typeable.no_nul hprint
  have hupdate : ∀ new : Option (List UInt8), (∀ t, new = some t → Typeable t) →
      ∀ n t, Function.update m number new n = some t → Typeable t := by
    intro new hnew n t ht
    rw [Function.update_apply] at ht
    split at ht
    · exact hnew t ht
    · exact hall n t ht
  have hsome : ∀ t, some (text.take (B_MAX_LINE_LEN - 1)) = some t → Typeable t := by
    rintro t ht
    rw [← Option.some.inj ht]
    exact Typeable.take hprint hbegins
  unfold add_program_line
  dsimp only
  split
  case isTrue hfound =>
    split
    · exact ⟨_, hrep.delete hpoint hfound.1 hfound.2, hupdate none fun _ ht => by cases ht⟩
    · exact ⟨_, hrep.replace hpoint hfound.1 hfound.2 hnul, hupdate _ hsome⟩
  case isFalse hfound =>
    split
    · exact ⟨m, hrep, hall⟩
    · exact ⟨_, hrep.insert hpoint (hpoint.absent hrep.ascending hfound) (by omega) hnul, hupdate _ hsome⟩

theorem add_last {p : basic_program} {number : Int} {text : List UInt8} (hcount : p.count < B_MAX_LINES)
    (hlast : ∀ i < p.count, (p.lines i).number < number) :
    (add_program_line p number text).1 = ⟨Function.update p.lines p.count
      ⟨number, strncpy_line (p.lines p.count).text text (B_MAX_LINE_LEN - 1)⟩, p.count + 1⟩ := by
  have hpos : find_pos p number p.count 0 = p.count := by
    obtain ⟨-, hle, -, hend⟩ := find_pos_spec p number p.count 0
    by_contra hne
    rw [Nat.zero_add] at hle hend
    have hlt : find_pos p number p.count 0 < p.count := by omega
    exact absurd (hend hlt) (Int.not_le.mpr (hlast _ hlt))
  unfold add_program_line
  dsimp only
  rw [hpos, if_neg (by omega), if_neg (by omega), Nat.sub_self]
  rfl

/-! ## The input -/

variable {keys keys' : List Char} {p' : basic_program}

theorem read_input_line {max_len : Nat} {line buffer rest : List Char}
    (hline : ∀ c ∈ line, 32 ≤ c.toNat ∧ c.toNat < 127)
    (hfit : buffer.length + line.length < max_len - 1) :
    read_input max_len buffer (line ++ '\n' :: rest) = some (buffer ++ line, rest) := by
  induction line generalizing buffer with
  | nil =>
    rw [nil_append, read_input, if_pos (by simpa using hfit), if_pos (Or.inl rfl), append_nil]
  | cons c line ih =>
    rw [length_cons] at hfit
    have hc := hline c mem_cons_self
    have hnewline : ¬ (c = '\n' ∨ c = '\r') := by
      rintro (rfl | rfl) <;> exact absurd hc.1 (by decide)
    rw [cons_append, read_input, if_pos (by omega), if_neg hnewline, if_neg (by omega), if_pos hc,
      ih (fun a ha => hline a (mem_cons_of_mem _ ha)) (by rw [length_append, length_singleton]; omega),
      append_assoc]
    rfl

/-- The buffer holds printable characters only. -/
theorem read_input_printable {max_len : Nat} {buffer line rest : List Char}
    (hread : read_input max_len buffer keys = some (line, rest))
    (hbuffer : ∀ c ∈ buffer, 32 ≤ c.toNat ∧ c.toNat < 127) :
    ∀ c ∈ line, 32 ≤ c.toNat ∧ c.toNat < 127 := by
  induction keys generalizing buffer with
  | nil =>
    rw [read_input] at hread
    split at hread
    · cases hread
    · cases hread
      exact hbuffer
  | cons a keys ih =>
    rw [read_input] at hread
    split at hread
    case isFalse =>
      cases hread
      exact hbuffer
    case isTrue =>
    split at hread
    case isTrue =>
      cases hread
      exact hbuffer
    case isFalse =>
    split at hread
    case isTrue => exact ih hread fun c hc => hbuffer c ((dropLast_sublist buffer).subset hc)
    case isFalse =>
    split at hread
    case isTrue ha =>
      refine ih hread fun c hc => ?_
      rcases List.mem_append.mp hc with hc | hc
      · exact hbuffer c hc
      · rw [List.mem_singleton.mp hc]
        exact ha
    case isFalse => exact ih hread hbuffer

theorem toNat_ofNat {c : Char} (hc : c.toNat < 127) : (UInt8.ofNat c.toNat).toNat = c.toNat := by
  rw [UInt8.toNat_ofNat']
  omega

theorem bytes_printable {text : List Char} (h : ∀ c ∈ text, 32 ≤ c.toNat ∧ c.toNat < 127) :
    ∀ b ∈ bytes text, 32 ≤ b.toNat ∧ b.toNat < 127 := by
  intro b hb
  obtain ⟨c, hc, rfl⟩ := List.mem_map.mp hb
  rw [toNat_ofNat (h c hc).2]
  exact h c hc

theorem bytes_begins {text : List Char} (h : ∀ c ∈ text, 32 ≤ c.toNat ∧ c.toNat < 127)
    (hspace : text.head? ≠ some ' ') :
    (bytes text).head? ≠ some 0x20 := by
  cases text with
  | nil => simp [bytes]
  | cons c text =>
    intro heq
    have hc := h c mem_cons_self
    have hbyte : UInt8.ofNat c.toNat = 0x20 := by simpa [bytes] using heq
    have hnat : c.toNat = 32 := by
      rw [← toNat_ofNat hc.2, hbyte]
      rfl
    exact hspace (congrArg some (Char.toNat_inj.mp hnat))

/-- Every turn keeps a memory that can be typed. -/
theorem Typed.turn (h : Typed p) (hturn : repl_turn p keys = some (p', keys')) : Typed p' := by
  unfold repl_turn at hturn
  cases hread : read_input 256 [] keys with
  | none =>
    rw [hread] at hturn
    cases hturn
  | some input =>
    obtain ⟨line, rest⟩ := input
    have hprint := read_input_printable hread fun c hc => absurd hc not_mem_nil
    rw [hread] at hturn
    simp only [Option.bind_eq_bind, Option.bind_some] at hturn
    split at hturn
    case h_1 => cases hturn
    case h_2 number text hcommand =>
      cases hturn
      have htext : text = skip_whitespace (line.dropWhile is_digit) := by
        unfold command immediate at hcommand
        repeat' split at hcommand
        all_goals first | (cases hcommand; rfl) | cases hcommand
      have hsub : ∀ c ∈ text, 32 ≤ c.toNat ∧ c.toNat < 127 := by
        intro c hc
        rw [htext] at hc
        exact hprint c ((dropWhile_suffix _).subset ((dropWhile_suffix _).subset hc))
      refine h.add number (bytes_printable hsub) (bytes_begins hsub ?_)
      intro hhead
      have hnot := List.head?_dropWhile_not is_space (line.dropWhile is_digit)
      rw [skip_whitespace] at htext
      rw [← htext, hhead] at hnot
      exact absurd hnot (by decide)
    case h_3 =>
      cases hturn
      exact typed_zero
    case h_4 =>
      cases hturn
      exact h

/-! ## The listing -/

theorem toNat_ofNat_char : ∀ n < 127, (Char.ofNat n).toNat = n := by decide

theorem chars_printable (h : ∀ b ∈ text, 32 ≤ b.toNat ∧ b.toNat < 127) :
    (∀ c ∈ chars text, 32 ≤ c.toNat ∧ c.toNat < 127) ∧ bytes (chars text) = text := by
  have hchar : ∀ b : UInt8, b.toNat < 127 → (Char.ofNat b.toNat).toNat = b.toNat := fun b => toNat_ofNat_char b.toNat
  constructor
  · intro c hc
    obtain ⟨b, hb, rfl⟩ := List.mem_map.mp hc
    rw [hchar b (h b hb).2]
    exact h b hb
  · rw [bytes, chars, map_map]
    refine (map_congr_left fun b hb => ?_).trans (map_id text)
    rw [Function.comp_apply, hchar b (h b hb).2]
    exact UInt8.ofNat_toNat

theorem chars_begins (h : Typeable text) : skip_whitespace (' ' :: chars text) = chars text := by
  rw [skip_whitespace, dropWhile_cons_of_pos (by decide)]
  cases text with
  | nil => rfl
  | cons b text =>
    have hb := h.printable b mem_cons_self
    have hnat := toNat_ofNat_char b.toNat hb.2
    refine dropWhile_cons_of_neg ?_
    rw [is_space, Bool.or_eq_true, beq_iff_eq, beq_iff_eq]
    rintro (hspace | htab)
    · change Char.ofNat b.toNat = ' ' at hspace
      rw [hspace] at hnat
      have hbyte : b = 0x20 := UInt8.toNat_inj.mp hnat.symm
      exact h.begins (by rw [hbyte]; rfl)
    · change Char.ofNat b.toNat = '\t' at htab
      rw [htab] at hnat
      exact absurd (hnat.symm ▸ hb.1) (by decide)

theorem digits_begin (rest : List Char) :
    ∃ c digits, Nat.toDigits 10 n ++ rest = c :: (digits ++ rest) ∧ is_digit c = true := by
  cases hdigits : Nat.toDigits 10 n with
  | nil => exact absurd hdigits Nat.toDigits_ne_nil
  | cons c digits => exact ⟨c, digits, rfl, (mem_toDigits (n := n) (by rw [hdigits]; exact mem_cons_self)).1⟩

/-- A listed line is taken as the line it is. -/
theorem command_listed (hn : n < 2 ^ 31) (h : Typeable text) :
    command (Nat.toDigits 10 n ++ ' ' :: chars text) = .line n (chars text) := by
  obtain ⟨c, digits, hline, hdigit⟩ := digits_begin (n := n) (' ' :: chars text)
  have hparse : parse_int (Nat.toDigits 10 n ++ ' ' :: chars text) = some (n : Int) := by
    have hminus : ((Nat.toDigits 10 n ++ ' ' :: chars text).head? == some '-') = false := by
      rw [hline, List.head?_cons, beq_eq_false_iff_ne]
      rintro heq
      rw [Option.some.inj heq] at hdigit
      exact absurd hdigit (by decide)
    have hany : (Nat.toDigits 10 n ++ ' ' :: chars text).head?.any is_digit = true := by
      rw [hline, List.head?_cons]
      exact hdigit
    have hvalue : parse_digits 0 (Nat.toDigits 10 n ++ ' ' :: chars text) = n := by
      rw [parse_digits_repr hn, parse_digits, if_neg (by decide)]
    simp only [parse_int, hminus, Bool.false_eq_true, if_false, hany, hvalue, Bool.not_true]
  have hrest : (Nat.toDigits 10 n ++ ' ' :: chars text).dropWhile is_digit = ' ' :: chars text := by
    rw [dropWhile_append_of_pos fun a ha => (mem_toDigits ha).1, dropWhile_cons_of_neg (by decide)]
  have hword : ∀ first rest : List Char, (∀ a, first.head? = some a → is_digit a = false) → first ≠ [] →
      Nat.toDigits 10 n ++ ' ' :: chars text ≠ first := by
    intro first _ hfirst _ heq
    have hfalse := hfirst c (by rw [← heq, hline]; rfl)
    rw [hdigit] at hfalse
    cases hfalse
  have hne : Nat.toDigits 10 n ++ ' ' :: chars text ≠ [] := by
    rw [hline]
    exact cons_ne_nil _ _
  have hletter : ¬ (Nat.toDigits 10 n ++ ' ' :: chars text = ['E', 'X', 'I', 'T'] ∨
      Nat.toDigits 10 n ++ ' ' :: chars text = ['Q', 'U', 'I', 'T']) := by
    rw [hline]
    rintro (heq | heq) <;> rw [(List.cons.inj heq).1] at hdigit <;> exact absurd hdigit (by decide)
  have hany : (Nat.toDigits 10 n ++ ' ' :: chars text).head?.any is_digit = true := by
    rw [hline, List.head?_cons]
    exact hdigit
  rw [command, if_neg hne, if_neg hletter, if_pos hany, hparse]
  dsimp only
  rw [hrest, chars_begins h]

theorem turn_listed (q : basic_program) {line : basic_line} (hlow : 0 ≤ line.number) (hhigh : line.number < 2 ^ 31)
    (h : Typeable (c_text line.text)) (rest : List Char) :
    repl_turn q (list_line line ++ rest) = some ((add_program_line q line.number (c_text line.text)).1, rest) := by
  obtain ⟨hprint, hbytes⟩ := chars_printable h.printable
  have hdigits : (Nat.toDigits 10 line.number.toNat).length ≤ 10 := by
    rw [Nat.length_toDigits_le_iff (by decide) (by decide)]
    omega
  have hshort := h.short
  have hlength : (chars (c_text line.text)).length = (c_text line.text).length := length_map ..
  have hread := @read_input_line 256 (Nat.toDigits 10 line.number.toNat ++ ' ' :: chars (c_text line.text)) [] rest
    (fun c hc => by
      rcases List.mem_append.mp hc with hc | hc
      · exact (mem_toDigits hc).2
      · rcases List.mem_cons.mp hc with rfl | hc
        · decide
        · exact hprint c hc) (by
      rw [length_append, length_cons, length_nil, hlength]
      unfold B_MAX_LINE_LEN at hshort
      omega)
  have hkeys : list_line line ++ rest =
      Nat.toDigits 10 line.number.toNat ++ ' ' :: chars (c_text line.text) ++ '\n' :: rest := by
    rw [list_line, print_int_nonneg hlow, append_assoc]
    rfl
  have hnumber : ((line.number.toNat : Nat) : Int) = line.number := Int.toNat_of_nonneg hlow
  rw [repl_turn, hkeys, hread]
  simp only [Option.bind_eq_bind, Option.bind_some, nil_append]
  rw [command_listed (by omega) h]
  dsimp only
  rw [hnumber, hbytes]

theorem Turns.append {p'' : basic_program} {keys'' : List Char} (h : Turns p keys p' keys')
    (h' : Turns p' keys' p'' keys'') : Turns p keys p'' keys'' := by
  induction h with
  | none => exact h'
  | turn hturn _ ih => exact .turn hturn (ih h')

theorem Typed.turns (h : Typed p) (hturns : Turns p keys p' keys') :
    Typed p' := by
  induction hturns with
  | none => exact h
  | turn hturn _ ih => exact ih (h.turn hturn)

/-- The memory has the lines of the program before line `k`. -/
structure Restored (p q : basic_program) (k : Nat) : Prop where
  count : q.count = k
  terminated : ∀ i, Terminated (q.lines i).text
  line : ∀ i < k, (q.lines i).number = (p.lines i).number ∧ c_text (q.lines i).text = c_text (p.lines i).text

/-- What LIST prints, typed to an empty memory, makes the program again. -/
theorem list_restores (h : Typed p) (hnumbers : ∀ i < p.count, 0 ≤ (p.lines i).number ∧ (p.lines i).number < 2 ^ 31)
    (rest : List Char) : ∃ q, Turns .zero (cmd_list p ++ rest) q rest ∧ Restored p q p.count := by
  obtain ⟨m, hrep, hall⟩ := h
  have htext : ∀ i < p.count, Typeable (c_text (p.lines i).text) := fun i hi =>
    hall _ _ ((hrep.stores _ _).mp ⟨i, hi, rfl, rfl⟩)
  have hlines : ∀ k ≤ p.count, ∀ rest, ∃ q,
      Turns .zero (((List.range k).flatMap fun i => list_line (p.lines i)) ++ rest) q rest ∧ Restored p q k := by
    intro k hk
    induction k with
    | zero => exact fun rest => ⟨.zero, .none _ _, rfl, fun _ => rfl, fun i hi => absurd hi (Nat.not_lt_zero i)⟩
    | succ k ih =>
      intro rest
      obtain ⟨q, hturns, hq⟩ := ih (by omega) (list_line (p.lines k) ++ rest)
      have hrange := hnumbers k (by omega)
      have hturn := turn_listed q hrange.1 hrange.2 (htext k (by omega)) rest
      have hadded := @add_last q (p.lines k).number (c_text (p.lines k).text)
        (by have := hrep.bounded; have := hq.count; omega) fun i hi => by
          rw [hq.count] at hi
          rw [(hq.line i hi).1]
          exact hrep.ascending i k hi (by omega)
      rw [hadded, hq.count] at hturn
      have hnul := Typeable.no_nul (htext k (by omega)).printable
      have hshort := (htext k (by omega)).short
      refine ⟨⟨Function.update q.lines k ⟨(p.lines k).number,
        strncpy_line (q.lines k).text (c_text (p.lines k).text) (B_MAX_LINE_LEN - 1)⟩, k + 1⟩, ?_, rfl, fun i => ?_,
        fun i hi => ?_⟩
      · rw [range_succ, flatMap_append, flatMap_singleton, append_assoc]
        exact hturns.append (.turn hturn (.none _ _))
      · dsimp only
        rw [Function.update_apply]
        split
        · exact strncpy_line_terminated (hq.terminated _)
        · exact hq.terminated i
      · dsimp only
        rw [Function.update_apply]
        split
        case isTrue heq =>
          rw [heq]
          exact ⟨rfl, by rw [c_text_strncpy_line (hq.terminated _) hnul, take_of_length_le hshort]⟩
        case isFalse hne => exact hq.line i (by omega)
  exact hlines p.count le_rfl rest

/-- The lines of any session, listed and typed in again, as long as no number is negative. -/
theorem session_list_restores {p : basic_program} {keys left : List Char} (hsession : Turns .zero keys p left)
    (hnumbers : ∀ i < p.count, 0 ≤ (p.lines i).number ∧ (p.lines i).number < 2 ^ 31) (rest : List Char) :
    ∃ q, Turns .zero (cmd_list p ++ rest) q rest ∧ q.count = p.count ∧
      ∀ i < p.count, (q.lines i).number = (p.lines i).number ∧ c_text (q.lines i).text = c_text (p.lines i).text := by
  obtain ⟨q, hturns, hq⟩ := list_restores (typed_zero.turns hsession) hnumbers rest
  exact ⟨q, hturns, hq.count, hq.line⟩

/-- The line `10 A`. -/
theorem session_list_restores_line :
    ∃ q, Turns .zero (cmd_list (add_program_line .zero 10 [0x41]).1 ++ []) q [] ∧
      q.count = (add_program_line .zero 10 [0x41]).1.count ∧ ∀ i < (add_program_line .zero 10 [0x41]).1.count,
        (q.lines i).number = ((add_program_line .zero 10 [0x41]).1.lines i).number ∧
          c_text (q.lines i).text = c_text ((add_program_line .zero 10 [0x41]).1.lines i).text :=
  have hsession : Turns .zero ['1', '0', ' ', 'A', '\n'] (add_program_line .zero 10 [0x41]).1 [] :=
    .turn rfl (.none _ _)
  session_list_restores hsession (by decide) []

end graceos.basic
