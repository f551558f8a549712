import GraceOS.Chivm.RoundTrip
import GraceOS.Chivm.Statements
import Mathlib.Data.List.DropRight

/-!
# What CMDT programs mean

A program is a list of statements over a map from names to values. `Stmt.run` says what a statement does;
`vm_exec_source` does the same with the text of the program, over its table of variables.
-/

namespace graceos.cmdt

open word chivm List Function

/-! ## Programs -/

/-- A name of a variable. -/
structure Name where
  text : Text
  start : is_ident_start (peek text 0) = true
  chars : ∀ c ∈ text, is_ident_char c = true
  short : text.length < CMDT_MAX_NAME_LEN

/-- The least value of `int` cannot be written. -/
inductive Operand
  | number (v : Int32) (h : v ≠ Int32.minValue)
  | name (x : Name)

/-- A part of what `cprintf` prints. -/
inductive Part
  | char (c : UInt8)
  | value (x : Name)

inductive Stmt
  | declare (x : Name) (init : Option Operand)
  | assign (x : Name) (value : Operand)
  | dinput (prompt : Text) (x : Name)
  | cprintf (message : List Part)

/-- A name that begins with a word of the language: a variable can have it, but an assignment to it is not read. -/
def reserved (x : Text) : Bool :=
  (ascii "int").isPrefixOf x || (ascii "dinput").isPrefixOf x || (ascii "cprintf").isPrefixOf x

/-- The variables with a value, how many there are, and the console. -/
structure Store where
  env : Text → Option Int32
  used : Nat
  out : Text
  lines : Nat → Text
  read : Nat

def Store.start (lines : Nat → Text) : Store := ⟨fun _ => none, 0, [], lines, 0⟩

def Operand.eval (σ : Store) : Operand → Option Int32
  | .number v _ => some v
  | .name x => σ.env x.text

/-- The variable is declared, if it is not yet, and gets the value. -/
def Store.put (σ : Store) (x : Text) (v : Int32) : Bool × Store :=
  match σ.env x with
  | some _ => (true, { σ with env := update σ.env x (some v) })
  | none =>
    if σ.used ≥ CMDT_MAX_VARS then (false, σ)
    else (true, { σ with env := update σ.env x (some v), used := σ.used + 1 })

/-- What is printed of a message, and whether all its variables have a value. -/
def printed (σ : Store) : List Part → Text × Bool
  | [] => ([], true)
  | .char c :: message =>
    match printed σ message with
    | (out, done) => (c :: out, done)
  | .value x :: message =>
    match σ.env x.text with
    | none => ([], false)
    | some v =>
      match printed σ message with
      | (out, done) => (vm_print_int v ++ out, done)

/-- Whether the program goes on, and the store behind the statement. -/
def Stmt.run (σ : Store) : Stmt → Bool × Store
  | .declare x init =>
    match init.elim (some 0) (Operand.eval σ) with
    | none => (false, σ)
    | some v => σ.put x.text v
  | .assign x value =>
    match value.eval σ, σ.env x.text with
    | some v, some _ => if reserved x.text then (false, σ) else σ.put x.text v
    | _, _ => (false, σ)
  | .dinput prompt x =>
    let σ' := { σ with out := σ.out ++ prompt, read := σ.read + 1 }
    match vm_parse_int (σ.lines σ.read) with
    | none => (false, σ')
    | some (v, _) => σ'.put x.text v
  | .cprintf message => ((printed σ message).2, { σ with out := σ.out ++ (printed σ message).1 })

def run (σ : Store) : List Stmt → Bool × Store
  | [] => (true, σ)
  | s :: program =>
    match s.run σ with
    | (true, σ') => run σ' program
    | (false, σ') => (false, σ')

/-! ## Their texts -/

/-- A character between double quotes. -/
def escaped (c : UInt8) : Text :=
  if c = '\n'.toUInt8 then ascii "\\n"
  else if c = '\t'.toUInt8 then ascii "\\t"
  else if c = '\r'.toUInt8 then ascii "\\r"
  else if c = '\\'.toUInt8 then ascii "\\\\"
  else if c = '"'.toUInt8 then ascii "\\\""
  else [c]

def quoted (t : Text) : Text := '"'.toUInt8 :: (t.flatMap escaped ++ ['"'.toUInt8])

def Operand.spell : Operand → Text
  | .number v _ => vm_print_int v
  | .name x => x.text

/-- The characters of a message. -/
def Part.text : Part → Text
  | .char c => [c]
  | .value x => '$'.toUInt8 :: '{'.toUInt8 :: (x.text ++ ['}'.toUInt8])

def Stmt.spell : Stmt → Text
  | .declare x none => ascii "int " ++ x.text
  | .declare x (some init) => ascii "int " ++ (x.text ++ (ascii " = " ++ init.spell))
  | .assign x value => x.text ++ (ascii " = " ++ value.spell)
  | .dinput prompt x => ascii "dinput(" ++ (quoted prompt ++ (ascii ", " ++ (x.text ++ ascii ")")))
  | .cprintf message => ascii "cprintf(" ++ (quoted (message.flatMap Part.text) ++ ascii ")")

/-- One statement on a line. -/
def spell (program : List Stmt) : Text := program.flatMap fun s => s.spell ++ ascii ";\n"

/-- The texts between double quotes. -/
def Stmt.texts : Stmt → Text
  | .dinput prompt _ => prompt
  | .cprintf message => message.flatMap Part.text
  | _ => []

/-- No `$` and `{` of a message stand next to each other. -/
def Apart : List Part → Prop
  | [] => True
  | .value _ :: message => Apart message
  | .char c :: message => (c = '$'.toUInt8 → message.head? ≠ some (.char '{'.toUInt8)) ∧ Apart message

/-- A statement that can be written: its line is not too long, and no `;`, which has no escape, is in its texts. -/
structure Stmt.Fits (s : Stmt) : Prop where
  short : s.spell.length < CMDT_MAX_LINE
  texts : ∀ c ∈ s.texts, c ≠ 0 ∧ c ≠ ';'.toUInt8
  apart : ∀ message, s = .cprintf message → Apart message

/-! ## Characters -/

theorem ident_char_facts {c : UInt8} (h : is_ident_char c = true) :
    is_space c = false ∧ c ≠ 0 ∧ c ≠ '('.toUInt8 ∧ c ≠ ';'.toUInt8 ∧ c ≠ '\n'.toUInt8 ∧ c ≠ '}'.toUInt8 ∧
      c ≠ '/'.toUInt8 ∧ escaped c = [c] := by
  have hall : ∀ n < 256, is_ident_char (UInt8.ofNat n) = true → is_space (UInt8.ofNat n) = false ∧ UInt8.ofNat n ≠ 0 ∧
      UInt8.ofNat n ≠ '('.toUInt8 ∧ UInt8.ofNat n ≠ ';'.toUInt8 ∧ UInt8.ofNat n ≠ '\n'.toUInt8 ∧
      UInt8.ofNat n ≠ '}'.toUInt8 ∧ UInt8.ofNat n ≠ '/'.toUInt8 ∧ escaped (UInt8.ofNat n) = [UInt8.ofNat n] := by
    decide +kernel
  have hread := hall c.toNat c.toNat_lt
  rw [UInt8.ofNat_toNat] at hread
  exact hread h

theorem ident_start_facts {c : UInt8} (h : is_ident_start c = true) :
    is_ident_char c = true ∧ is_dec c = false ∧ c ≠ '-'.toUInt8 := by
  have hall : ∀ n < 256, is_ident_start (UInt8.ofNat n) = true → is_ident_char (UInt8.ofNat n) = true ∧
      is_dec (UInt8.ofNat n) = false ∧ UInt8.ofNat n ≠ '-'.toUInt8 := by
    decide +kernel
  have hread := hall c.toNat c.toNat_lt
  rw [UInt8.ofNat_toNat] at hread
  exact hread h

theorem ident_of_dec {c : UInt8} (h : is_dec c = true) : is_ident_char c = true := by
  rw [is_ident_char, Bool.or_eq_true]
  exact .inr h

/-! ## The table of variables -/

/-- The state of the code shows the store. -/
structure Shows (vm : cmdt_vm_state_t) (σ : Store) : Prop where
  env : ∀ x, (vm_find_var vm.vars x).map cmdt_var_t.value = σ.env x
  used : vm.vars.length = σ.used
  out : vm.out = σ.out
  lines : vm.lines = σ.lines
  read : vm.read = σ.read

/-- The code returns 0 where the program goes on, and shows the store then as before. -/
def Agrees (r : Int × cmdt_vm_state_t) (r' : Bool × Store) : Prop :=
  r.1 = (if r'.1 then 0 else -1) ∧ Shows r.2 r'.2

section Table

variable {vm : cmdt_vm_state_t} {σ : Store} {vars : List cmdt_var_t} {x : Text} {v : Int32}

theorem find_set_value (h : vm_find_var vars x ≠ none) (y : Text) :
    (vm_find_var (set_value x v vars) y).map cmdt_var_t.value =
      if y = x then some v else (vm_find_var vars y).map cmdt_var_t.value := by
  induction vars with
  | nil => exact absurd rfl h
  | cons w vars ih =>
    rw [set_value]
    by_cases hw : w.name = x
    · rw [if_pos (beq_iff_eq.mpr hw)]
      by_cases hy : y = x
      · rw [if_pos hy, vm_find_var, List.find?_cons_of_pos (by simp [hw, hy])]
        rfl
      · have hne : ¬ w.name = y := fun heq => hy (heq.symm.trans hw)
        rw [if_neg hy, vm_find_var, vm_find_var, List.find?_cons_of_neg (by simp [hne]),
          List.find?_cons_of_neg (by simp [hne])]
    · rw [if_neg (fun heq => hw (beq_iff_eq.mp heq))]
      have htail : vm_find_var vars x ≠ none := by
        rw [vm_find_var, List.find?_cons_of_neg (by simp [hw])] at h
        exact h
      by_cases hwy : w.name = y
      · have hy : ¬ y = x := fun heq => hw (hwy.trans heq)
        rw [if_neg hy, vm_find_var, vm_find_var, List.find?_cons_of_pos (by simp [hwy]),
          List.find?_cons_of_pos (by simp [hwy])]
      · have hrest := ih htail
        rw [vm_find_var, vm_find_var, List.find?_cons_of_neg (by simp [hwy]), List.find?_cons_of_neg (by simp [hwy])]
        exact hrest

theorem length_set_value : (set_value x v vars).length = vars.length := by
  induction vars with
  | nil => rfl
  | cons w vars ih =>
    rw [set_value]
    split
    · rfl
    · rw [length_cons, length_cons, ih]

theorem find_append (value : Int32) (y : Text) : vm_find_var (vars ++ [⟨x, value⟩]) y =
    (vm_find_var vars y).or (if x = y then some ⟨x, value⟩ else none) := by
  rw [vm_find_var, List.find?_append, vm_find_var]
  by_cases h : x = y
  · rw [if_pos h, List.find?_cons_of_pos (by simp [h])]
  · rw [if_neg h, List.find?_cons_of_neg (by simp [h]), List.find?_nil]

theorem Shows.set (h : Shows vm σ) (hfind : vm_find_var vm.vars x ≠ none) (v : Int32) :
    Shows { vm with vars := set_value x v vm.vars } { σ with env := update σ.env x (some v) } where
  env y := by
    rw [find_set_value hfind, h.env y]
    exact (update_apply σ.env x (some v) y).symm
  used := length_set_value.trans h.used
  out := h.out
  lines := h.lines
  read := h.read

/-- The variable that a declaration creates or finds gets the value. -/
theorem Shows.put (h : Shows vm σ) (x : Name) (v : Int32) :
    Agrees (create_and_set vm x.text v) (σ.put x.text v) := by
  have henv := h.env x.text
  rw [create_and_set, vm_create_var, Store.put]
  cases hfind : vm_find_var vm.vars x.text with
  | some w =>
    rw [hfind] at henv
    rw [← henv]
    exact ⟨rfl, h.set (by rw [hfind]; exact Option.some_ne_none w) v⟩
  | none =>
    rw [hfind] at henv
    rw [← henv]
    dsimp only [Option.map_none]
    by_cases hfull : vm.vars.length ≥ CMDT_MAX_VARS
    · rw [if_pos hfull, if_pos (h.used ▸ hfull)]
      exact ⟨rfl, h⟩
    · rw [if_neg hfull, if_neg (h.used ▸ hfull)]
      have htake : x.text.take (CMDT_MAX_NAME_LEN - 1) = x.text := take_of_length_le (Nat.le_pred_of_lt x.short)
      rw [htake]
      refine ⟨rfl, fun y => ?_, ?_, h.out, h.lines, h.read⟩
      · change (vm_find_var (set_value x.text v (vm.vars ++ [⟨x.text, 0⟩])) y).map cmdt_var_t.value = _
        rw [find_set_value (by rw [find_append, hfind, if_pos rfl]; exact Option.some_ne_none _)]
        dsimp only
        rw [update_apply, ← h.env y]
        by_cases hy : y = x.text
        · rw [if_pos hy, if_pos hy]
        · rw [if_neg hy, if_neg hy, find_append, if_neg (Ne.symm hy), Option.or_none]
      · change (set_value x.text v (vm.vars ++ [⟨x.text, 0⟩])).length = σ.used + 1
        rw [length_set_value, length_append, length_singleton, h.used]

end Table

/-! ## Words and literals -/

section Scan

variable {vm : cmdt_vm_state_t} {σ : Store} {rest : Text}

theorem takeWhile_stop {f : UInt8 → Bool} (h : f (peek rest 0) = false) : rest.takeWhile f = [] := by
  cases rest with
  | nil => rfl
  | cons c rest =>
    have hc : f c = false := h
    exact takeWhile_cons_of_neg (by rw [hc]; decide)

theorem skip_ws_char {c : UInt8} {p : Text} (h : is_space c = false) : skip_ws (c :: p) = c :: p :=
  dropWhile_cons_of_neg (by rw [h]; decide)

theorem Name.cons (x : Name) : ∃ c t, x.text = c :: t ∧ is_ident_start c = true := by
  have hstart := x.start
  cases hx : x.text with
  | nil =>
    rw [hx] at hstart
    exact absurd hstart (by decide)
  | cons c t =>
    rw [hx] at hstart
    exact ⟨c, t, rfl, hstart⟩

theorem parse_name (x : Name) (hrest : is_ident_char (peek rest 0) = false) :
    vm_parse_ident (x.text ++ rest) CMDT_MAX_NAME_LEN = some (x.text, rest) := by
  obtain ⟨c, t, hx, hstart⟩ := x.cons
  have hskip : skip_ws (x.text ++ rest) = x.text ++ rest := by
    rw [hx]
    exact skip_ws_char (ident_char_facts (ident_start_facts hstart).1).1
  have hpeek : is_ident_start (peek (x.text ++ rest) 0) = true := by
    rw [hx]
    exact hstart
  have htake : (x.text ++ rest).takeWhile is_ident_char = x.text := by
    rw [takeWhile_append_of_pos x.chars, takeWhile_stop hrest, append_nil]
  have hshort := x.short
  rw [vm_parse_ident, parse_ident, hskip]
  dsimp only
  rw [hpeek, htake, drop_left, if_neg (by decide), if_neg (by omega)]

theorem parse_number {v : Int32} (hv : v ≠ Int32.minValue) (hrest : is_dec (peek rest 0) = false) :
    vm_parse_int (vm_print_int v ++ rest) = some (v, rest) := by
  rw [vm_parse_int, vm_print_int]
  by_cases hzero : v = 0
  · subst hzero
    exact @parse_int_lit_literal false ['0'.toUInt8] rest (List.all_eq_true.mp (by decide)) (by decide) hrest
  · obtain ⟨digits, hdec, hne, hprint, hwritten⟩ := vm_print_int_literal hzero hv
    rw [hprint, parse_int_lit_literal hdec hne hrest, hwritten, Int32.ofInt_toInt]

theorem parse_value_space (vars : List cmdt_var_t) (p : Text) : vm_parse_value vars (' '.toUInt8 :: p) =
    match vm_parse_int p with
    | some (value, p) => some (value, p)
    | none =>
      match vm_parse_ident p CMDT_MAX_NAME_LEN with
      | none => none
      | some (name, p) => (vm_find_var vars name).map fun v => (v.value, p) := by
  have hidem : skip_ws (skip_ws p) = skip_ws p := dropWhile_idempotent _ p
  have hint : vm_parse_int (skip_ws p) = vm_parse_int p := by
    rw [vm_parse_int, parse_int_lit, hidem]
    rfl
  have hident : vm_parse_ident (skip_ws p) CMDT_MAX_NAME_LEN = vm_parse_ident p CMDT_MAX_NAME_LEN := by
    rw [vm_parse_ident, parse_ident, hidem]
    rfl
  rw [← hint, ← hident]
  rfl

theorem parse_operand (h : Shows vm σ) (o : Operand) (hrest : is_ident_char (peek rest 0) = false) :
    vm_parse_value vm.vars (' '.toUInt8 :: (o.spell ++ rest)) = (o.eval σ).map fun v => (v, rest) := by
  rw [parse_value_space]
  cases o with
  | number v hv =>
    have hdec : is_dec (peek rest 0) = false := by
      cases hd : is_dec (peek rest 0) with
      | false => rfl
      | true => rw [ident_of_dec hd] at hrest; exact hrest
    rw [Operand.spell, parse_number hv hdec]
    rfl
  | name x =>
    obtain ⟨c, t, hx, hstart⟩ := x.cons
    obtain ⟨hident, hdec, hminus⟩ := ident_start_facts hstart
    have hnone : vm_parse_int (x.text ++ rest) = none := by
      rw [hx, vm_parse_int, parse_int_lit, cons_append, skip_ws_char (ident_char_facts hident).1]
      dsimp only
      rw [if_neg (show ¬ peek (c :: (t ++ rest)) 0 = '-'.toUInt8 from hminus),
        takeWhile_cons_of_neg (by rw [hdec]; decide), if_pos rfl]
    rw [Operand.spell, hnone, parse_name x hrest, Operand.eval, ← h.env x.text, Option.map_map]
    rfl

end Scan

/-! ## Texts between quotes -/

section Quoted

variable {n : Nat} {c : UInt8} {p rest t out : Text}

theorem quoted_chars_escape {e : UInt8} (h : string_escape e = some c) (hroom : out.length < n - 1) :
    quoted_chars n out ('\\'.toUInt8 :: e :: p) = quoted_chars n (out ++ [c]) p := by
  rw [quoted_chars.eq_def]
  dsimp only
  rw [if_neg (by decide), if_neg (by decide), if_pos rfl, h]
  dsimp only
  rw [if_neg (by omega)]

/-- A character comes back from between the quotes. -/
theorem quoted_chars_escaped (hc : c ≠ 0) (hroom : out.length < n - 1) :
    quoted_chars n out (escaped c ++ p) = quoted_chars n (out ++ [c]) p := by
  unfold escaped
  split
  · rename_i hcase
    subst hcase
    exact quoted_chars_escape (by decide) hroom
  split
  · rename_i hcase
    subst hcase
    exact quoted_chars_escape (by decide) hroom
  split
  · rename_i hcase
    subst hcase
    exact quoted_chars_escape (by decide) hroom
  split
  · rename_i hcase
    subst hcase
    exact quoted_chars_escape (by decide) hroom
  split
  · rename_i hcase
    subst hcase
    exact quoted_chars_escape (by decide) hroom
  · rename_i hback hquote
    rw [singleton_append, quoted_chars.eq_def]
    dsimp only
    rw [if_neg hc, if_neg hquote, if_neg hback, if_neg (by omega)]

theorem quoted_chars_text (ht : ∀ c ∈ t, c ≠ 0) (hroom : out.length + t.length ≤ n - 1) :
    quoted_chars n out (t.flatMap escaped ++ '"'.toUInt8 :: rest) = some (out ++ t, rest) := by
  induction t generalizing out with
  | nil =>
    rw [flatMap_nil, nil_append, quoted_chars.eq_def, append_nil]
    dsimp only
    rw [if_neg (by decide), if_pos rfl]
  | cons c t ih =>
    obtain ⟨hc, ht⟩ := List.forall_mem_cons.mp ht
    rw [length_cons] at hroom
    rw [flatMap_cons, append_assoc, quoted_chars_escaped hc (by omega),
      ih ht (by rw [length_append, length_singleton]; omega), append_assoc, singleton_append]

theorem parse_quoted (ht : ∀ c ∈ t, c ≠ 0) (hroom : t.length ≤ n - 1) :
    vm_parse_string (quoted t ++ rest) n = some (t, rest) := by
  have hskip : skip_ws (quoted t ++ rest) = quoted t ++ rest := rfl
  have hquote : peek (quoted t ++ rest) 0 = '"'.toUInt8 := rfl
  have hdrop : (quoted t ++ rest).drop 1 = t.flatMap escaped ++ '"'.toUInt8 :: rest := by
    rw [quoted, cons_append, drop_one, tail_cons, append_assoc, singleton_append]
  rw [vm_parse_string, parse_quoted_string, hskip, hquote, hdrop, if_neg (by decide),
    quoted_chars_text ht (by rw [length_nil]; omega), nil_append]

theorem escaped_length (c : UInt8) : 1 ≤ (escaped c).length := by
  refine Nat.one_le_iff_ne_zero.mpr fun hzero => absurd (List.length_eq_zero_iff.mp hzero) ?_
  unfold escaped
  repeat' split
  all_goals exact cons_ne_nil _ _

theorem quoted_length (t : Text) : t.length + 2 ≤ (quoted t).length := by
  have hlength : t.length ≤ (t.flatMap escaped).length := by
    induction t with
    | nil => exact Nat.le_refl 0
    | cons c t ih =>
      have hc := escaped_length c
      rw [flatMap_cons, length_append, length_cons]
      omega
  rw [quoted, length_cons, length_append, length_singleton]
  omega

end Quoted

/-! ## What a statement does -/

section Statements

variable {vm : cmdt_vm_state_t} {σ : Store}

theorem head_of_peek {message : List Part} (h : peek (message.flatMap Part.text) 0 = '{'.toUInt8) :
    message.head? = some (.char '{'.toUInt8) := by
  cases message with
  | nil => exact absurd h (by decide)
  | cons part message =>
    cases part with
    | char c =>
      have hc : c = '{'.toUInt8 := h
      rw [hc]
      rfl
    | value x => exact absurd (show '$'.toUInt8 = '{'.toUInt8 from h) (by decide)

/-- The loop of `cprintf` prints the message. -/
theorem cprintf_loop_message (h : Shows vm σ) {message : List Part} (hapart : Apart message) :
    cprintf_loop vm.vars (message.flatMap Part.text) = printed σ message := by
  induction message with
  | nil =>
    rw [flatMap_nil, cprintf_loop]
    rfl
  | cons part message ih =>
    cases part with
    | char c =>
      have hplain : ¬ (c = '$'.toUInt8 ∧ peek (message.flatMap Part.text) 0 = '{'.toUInt8) := fun hboth =>
        hapart.1 hboth.1 (head_of_peek hboth.2)
      rw [flatMap_cons, Part.text, singleton_append, cprintf_loop, if_neg hplain, ih hapart.2]
      rfl
    | value x =>
      have hbrace : ∀ c ∈ x.text, decide (c ≠ '}'.toUInt8) = true := fun c hc =>
        decide_eq_true (ident_char_facts (x.chars c hc)).2.2.2.2.2.1
      have htext : (Part.value x :: message).flatMap Part.text =
          '$'.toUInt8 :: '{'.toUInt8 :: (x.text ++ '}'.toUInt8 :: message.flatMap Part.text) := by
        rw [flatMap_cons, Part.text, cons_append, cons_append, append_assoc, singleton_append]
      have hname : (x.text ++ '}'.toUInt8 :: message.flatMap Part.text).takeWhile (· ≠ '}'.toUInt8) = x.text := by
        rw [takeWhile_append_of_pos hbrace, takeWhile_cons_of_neg (by decide), append_nil]
      have hshort := x.short
      have henv := h.env x.text
      rw [htext, cprintf_loop, if_pos ⟨rfl, rfl⟩]
      simp only [drop_succ_cons, drop_zero]
      rw [hname, drop_left, if_neg (by
        rw [not_or]
        exact ⟨by omega, cons_ne_nil _ _⟩), printed]
      cases hfind : vm_find_var vm.vars x.text with
      | none =>
        rw [hfind] at henv
        rw [← henv]
        rfl
      | some v =>
        rw [hfind] at henv
        rw [← henv]
        simp only [Option.map_some, drop_succ_cons, drop_zero]
        rw [ih hapart]

theorem parse_name_space (x : Name) {rest : Text} (hrest : is_ident_char (peek rest 0) = false) :
    vm_parse_ident (' '.toUInt8 :: (x.text ++ rest)) CMDT_MAX_NAME_LEN = some (x.text, rest) := by
  rw [← parse_name x hrest]
  rfl

theorem exec_declare (h : Shows vm σ) (x : Name) (init : Option Operand) :
    Agrees (vm_exec_line vm (Stmt.declare x init).spell) ((Stmt.declare x init).run σ) := by
  have hword : ∀ p, vm_exec_line vm (ascii "int " ++ p) = exec_int vm (' '.toUInt8 :: p) := fun _ => rfl
  have hspace : ∀ p, ¬ (!is_space (peek (' '.toUInt8 :: p) 0)) = true := fun _ => Bool.false_ne_true
  cases init with
  | none =>
    rw [Stmt.spell, hword, exec_int, if_neg (hspace _), ← append_nil x.text, parse_name_space x (by decide)]
    exact h.put x 0
  | some init =>
    have hinit := @parse_operand vm σ [] h init (by decide)
    rw [append_nil] at hinit
    rw [Stmt.spell, hword, exec_int, if_neg (hspace _), parse_name_space x rfl]
    dsimp only
    rw [show vm_skip_ws (ascii " = " ++ init.spell) = '='.toUInt8 :: ' '.toUInt8 :: init.spell from rfl,
      if_pos (show peek ('='.toUInt8 :: _) 0 = '='.toUInt8 from rfl), drop_one, tail_cons, hinit, Stmt.run,
      Option.elim_some]
    cases init.eval σ with
    | none => exact ⟨rfl, h⟩
    | some v => exact h.put x v

theorem word_before {w t rest : Text} (hw : w.all is_ident_char = true) (hrest : is_ident_char (peek rest 0) = false) :
    w.isPrefixOf (t ++ rest) = w.isPrefixOf t := by
  induction w generalizing t with
  | nil => rw [isPrefixOf_nil_left, isPrefixOf_nil_left]
  | cons a w ih =>
    rw [all_cons, Bool.and_eq_true] at hw
    obtain ⟨ha, hw⟩ := hw
    cases t with
    | nil =>
      cases rest with
      | nil => rfl
      | cons c rest =>
        have hc : is_ident_char c = false := hrest
        have hne : (a == c) = false := beq_eq_false_iff_ne.mpr fun heq => by
          rw [heq, hc] at ha
          cases ha
        rw [nil_append, isPrefixOf_cons_cons, hne]
        rfl
    | cons b t => rw [cons_append, isPrefixOf_cons_cons, isPrefixOf_cons_cons, ih hw]

theorem behind_word {t q : Text} (ht : ∀ c ∈ t, is_ident_char c = true) :
    exec_int vm (t ++ (ascii " = " ++ q)) = (-1, vm) ∧ exec_dinput vm (t ++ (ascii " = " ++ q)) = (-1, vm) ∧
      exec_cprintf vm (t ++ (ascii " = " ++ q)) = (-1, vm) := by
  cases t with
  | nil => exact ⟨rfl, rfl, rfl⟩
  | cons c t =>
    obtain ⟨hspace, -, hopen, -⟩ := ident_char_facts (ht c mem_cons_self)
    have hskip : vm_skip_ws (c :: t ++ (ascii " = " ++ q)) = c :: (t ++ (ascii " = " ++ q)) := skip_ws_char hspace
    refine ⟨if_pos ?_, ?_, ?_⟩
    · change (!is_space c) = true
      rw [hspace]
      rfl
    · rw [exec_dinput, hskip]
      exact if_pos hopen
    · rw [exec_cprintf, hskip]
      exact if_pos hopen

theorem exec_assign (h : Shows vm σ) (x : Name) (value : Operand) :
    Agrees (vm_exec_line vm (Stmt.assign x value).spell) ((Stmt.assign x value).run σ) := by
  obtain ⟨c, t, hx, hstart⟩ := x.cons
  obtain ⟨hspace, hzero, -, -, -, -, hslash, -⟩ := ident_char_facts (ident_start_facts hstart).1
  have hrest : is_ident_char (peek (ascii " = " ++ value.spell) 0) = false := rfl
  have hskip : vm_skip_ws (x.text ++ (ascii " = " ++ value.spell)) = x.text ++ (ascii " = " ++ value.spell) := by
    rw [hx]
    exact skip_ws_char hspace
  have hcode : ¬ (peek (x.text ++ (ascii " = " ++ value.spell)) 0 = 0 ∨
      (ascii "//").isPrefixOf (x.text ++ (ascii " = " ++ value.spell)) = true) := by
    rw [hx, not_or]
    refine ⟨hzero, fun hcomment => hslash ?_⟩
    rw [show ascii "//" = ['/'.toUInt8, '/'.toUInt8] from rfl, cons_append, isPrefixOf_cons_cons,
      Bool.and_eq_true] at hcomment
    exact (beq_iff_eq.mp hcomment.1).symm
  have hafter : ∀ w : Text, w.isPrefixOf x.text = true →
      ∃ t, (∀ c ∈ t, is_ident_char c = true) ∧
        (x.text ++ (ascii " = " ++ value.spell)).drop w.length = t ++ (ascii " = " ++ value.spell) := by
    intro w hw
    obtain ⟨t, ht⟩ := List.isPrefixOf_iff_prefix.mp hw
    refine ⟨t, fun c hc => x.chars c (ht ▸ mem_append_right w hc), ?_⟩
    rw [← ht, append_assoc, drop_left]
  have hno : reserved x.text = true → (Stmt.assign x value).run σ = (false, σ) := by
    intro hreserved
    rw [Stmt.run]
    split
    · rw [if_pos hreserved]
    · rfl
  rw [Stmt.spell, vm_exec_line, hskip, if_neg hcode, word_before (by decide) hrest, word_before (by decide) hrest,
    word_before (by decide) hrest]
  split
  case isTrue hint =>
    obtain ⟨t, ht, hdrop⟩ := hafter _ hint
    rw [show (3 : Nat) = (ascii "int").length from rfl, hdrop, (behind_word ht).1, hno (by rw [reserved, hint]; rfl)]
    exact ⟨rfl, h⟩
  case isFalse hint =>
  split
  case isTrue hinput =>
    obtain ⟨t, ht, hdrop⟩ := hafter _ hinput
    rw [show (6 : Nat) = (ascii "dinput").length from rfl, hdrop, (behind_word ht).2.1,
      hno (by rw [reserved, hinput, Bool.or_true]; rfl)]
    exact ⟨rfl, h⟩
  case isFalse hinput =>
  split
  case isTrue hprint =>
    obtain ⟨t, ht, hdrop⟩ := hafter _ hprint
    rw [show (7 : Nat) = (ascii "cprintf").length from rfl, hdrop, (behind_word ht).2.2,
      hno (by rw [reserved, hprint, Bool.or_true])]
    exact ⟨rfl, h⟩
  case isFalse hprint =>
    have hfree : ¬ reserved x.text = true := by
      rw [reserved, Bool.or_eq_true, Bool.or_eq_true]
      exact not_or.mpr ⟨not_or.mpr ⟨hint, hinput⟩, hprint⟩
    have hvalue := @parse_operand vm σ [] h value (by decide)
    have henv := h.env x.text
    rw [append_nil] at hvalue
    rw [exec_assignment, parse_name x hrest]
    dsimp only
    rw [show vm_skip_ws (ascii " = " ++ value.spell) = '='.toUInt8 :: ' '.toUInt8 :: value.spell from rfl,
      if_neg (show ¬ peek ('='.toUInt8 :: _) 0 ≠ '='.toUInt8 from fun hne => hne rfl), drop_one, tail_cons, hvalue,
      Stmt.run]
    cases value.eval σ with
    | none => exact ⟨rfl, h⟩
    | some v =>
      dsimp only [Option.map_some]
      rw [if_neg (by decide)]
      cases hfind : vm_find_var vm.vars x.text with
      | none =>
        rw [hfind] at henv
        rw [← henv]
        exact ⟨rfl, h⟩
      | some w =>
        rw [hfind] at henv
        rw [← henv]
        dsimp only [Option.map_some]
        rw [if_neg hfree, Store.put, ← henv]
        exact ⟨rfl, h.set (by rw [hfind]; exact Option.some_ne_none w) v⟩

theorem exec_dinput_line (h : Shows vm σ) {prompt : Text} {x : Name} (hs : (Stmt.dinput prompt x).Fits) :
    Agrees (vm_exec_line vm (Stmt.dinput prompt x).spell) ((Stmt.dinput prompt x).run σ) := by
  have hword : ∀ p, vm_exec_line vm (ascii "dinput(" ++ p) = exec_dinput vm ('('.toUInt8 :: p) := fun _ => rfl
  have hlength := quoted_length prompt
  have hshort := hs.short
  rw [Stmt.spell, length_append, length_append] at hshort
  have hprompt := @parse_quoted CMDT_MAX_LINE (ascii ", " ++ (x.text ++ ascii ")")) prompt
    (fun c hc => (hs.texts c hc).1) (by omega)
  have hname := parse_name_space x (show is_ident_char (peek (ascii ")") 0) = false from rfl)
  rw [Stmt.spell, hword, exec_dinput, show vm_skip_ws ('('.toUInt8 :: _) = '('.toUInt8 :: _ from rfl,
    if_neg (show ¬ peek ('('.toUInt8 :: _) 0 ≠ '('.toUInt8 from fun hne => hne rfl), drop_one, tail_cons, hprompt]
  dsimp only
  rw [show vm_skip_ws (ascii ", " ++ (x.text ++ ascii ")")) =
    ','.toUInt8 :: ' '.toUInt8 :: (x.text ++ ascii ")") from rfl,
    if_neg (show ¬ peek (','.toUInt8 :: _) 0 ≠ ','.toUInt8 from fun hne => hne rfl), drop_one, tail_cons, hname]
  dsimp only
  rw [if_neg (show ¬ peek (vm_skip_ws (ascii ")")) 0 ≠ ')'.toUInt8 by decide), if_neg (by decide), Stmt.run,
    h.lines, h.read]
  have hshows : Shows { vm with out := vm.out ++ prompt, read := σ.read + 1 }
      { σ with out := σ.out ++ prompt, read := σ.read + 1 } :=
    ⟨h.env, h.used, congrArg (· ++ prompt) h.out, h.lines, rfl⟩
  cases vm_parse_int (σ.lines σ.read) with
  | none => exact ⟨rfl, h.lines ▸ hshows⟩
  | some r => exact (h.lines ▸ hshows).put x r.1

theorem exec_cprintf_line (h : Shows vm σ) {message : List Part} (hs : (Stmt.cprintf message).Fits) :
    Agrees (vm_exec_line vm (Stmt.cprintf message).spell) ((Stmt.cprintf message).run σ) := by
  have hword : ∀ p, vm_exec_line vm (ascii "cprintf(" ++ p) = exec_cprintf vm ('('.toUInt8 :: p) := fun _ => rfl
  have hlength := quoted_length (message.flatMap Part.text)
  have hshort := hs.short
  rw [Stmt.spell, length_append, length_append] at hshort
  have htext := @parse_quoted CMDT_MAX_LINE (ascii ")") (message.flatMap Part.text)
    (fun c hc => (hs.texts c hc).1) (by omega)
  rw [Stmt.spell, hword, exec_cprintf, show vm_skip_ws ('('.toUInt8 :: _) = '('.toUInt8 :: _ from rfl,
    if_neg (show ¬ peek ('('.toUInt8 :: _) 0 ≠ '('.toUInt8 from fun hne => hne rfl), drop_one, tail_cons, htext]
  dsimp only
  rw [if_neg (show ¬ peek (vm_skip_ws (ascii ")")) 0 ≠ ')'.toUInt8 by decide), if_neg (by decide),
    cprintf_loop_message h (hs.apart message rfl), Stmt.run]
  exact ⟨rfl, h.env, h.used, congrArg (· ++ _) h.out, h.lines, h.read⟩

theorem exec_line_agrees (h : Shows vm σ) {s : Stmt} (hs : s.Fits) : Agrees (vm_exec_line vm s.spell) (s.run σ) := by
  cases s with
  | declare x init => exact exec_declare h x init
  | assign x value => exact exec_assign h x value
  | dinput prompt x => exact exec_dinput_line h hs
  | cprintf message => exact exec_cprintf_line h hs

end Statements

/-! ## Programs -/

/-- No character ends a statement. -/
def OneLine (l : Text) : Prop := ∀ c ∈ l, c ≠ 0 ∧ c ≠ ';'.toUInt8 ∧ c ≠ '\n'.toUInt8

instance (l : Text) : Decidable (OneLine l) :=
  List.decidableBAll (fun c => c ≠ 0 ∧ c ≠ ';'.toUInt8 ∧ c ≠ '\n'.toUInt8) l

section Lines

variable {vm : cmdt_vm_state_t} {σ : Store} {l l' : Text}

theorem OneLine.append (h : OneLine l) (h' : OneLine l') : OneLine (l ++ l') := fun c hc =>
  (List.mem_append.mp hc).elim (h c) (h' c)

theorem one_line_ident (h : ∀ c ∈ l, is_ident_char c = true) : OneLine l := fun c hc =>
  have hfacts := ident_char_facts (h c hc)
  ⟨hfacts.2.1, hfacts.2.2.2.1, hfacts.2.2.2.2.1⟩

theorem one_line_quoted (h : ∀ c ∈ l, c ≠ 0 ∧ c ≠ ';'.toUInt8) : OneLine (quoted l) := by
  have hescaped : ∀ c : UInt8, c ≠ 0 ∧ c ≠ ';'.toUInt8 → OneLine (escaped c) := by
    intro c hc
    unfold escaped
    split
    · exact by decide
    split
    · exact by decide
    split
    · exact by decide
    split
    · exact by decide
    split
    · exact by decide
    · rename_i hline _ _ _ _
      exact fun d hd => List.mem_singleton.mp hd ▸ ⟨hc.1, hc.2, hline⟩
  have hquote : OneLine ['"'.toUInt8] := by decide
  refine hquote.append (OneLine.append (fun d hd => ?_) hquote)
  obtain ⟨c, hc, hd⟩ := List.mem_flatMap.mp hd
  exact hescaped c (h c hc) d hd

theorem one_line_operand (o : Operand) : OneLine o.spell := by
  cases o with
  | name x => exact one_line_ident x.chars
  | number v hv =>
    by_cases hzero : v = 0
    · subst hzero
      exact (by decide : OneLine ['0'.toUInt8])
    · obtain ⟨digits, hdec, -, hprint, -⟩ := vm_print_int_literal hzero hv
      rw [Operand.spell, vm_print_int, hprint, literal]
      refine OneLine.append ?_ (one_line_ident fun c hc => ident_of_dec (hdec c hc))
      split
      · exact by decide
      · exact by decide

theorem spell_one_line {s : Stmt} (hs : s.Fits) : OneLine s.spell := by
  have hlit : OneLine (ascii "int ") ∧ OneLine (ascii " = ") ∧ OneLine (ascii "dinput(") ∧ OneLine (ascii ", ") ∧
      OneLine (ascii ")") ∧ OneLine (ascii "cprintf(") := by decide
  obtain ⟨hint, hequal, hinput, hcomma, hclose, hprint⟩ := hlit
  cases s with
  | declare x init =>
    cases init with
    | none => exact hint.append (one_line_ident x.chars)
    | some init => exact hint.append ((one_line_ident x.chars).append (hequal.append (one_line_operand init)))
  | assign x value => exact (one_line_ident x.chars).append (hequal.append (one_line_operand value))
  | dinput prompt x =>
    exact hinput.append ((one_line_quoted hs.texts).append
      (hcomma.append ((one_line_ident x.chars).append hclose)))
  | cprintf message => exact hprint.append ((one_line_quoted hs.texts).append hclose)

theorem source_loop_collect (hl : OneLine l) {stmt p : Text} (hroom : stmt.length + l.length < CMDT_MAX_LINE) :
    exec_source_loop vm stmt (l ++ p) = exec_source_loop vm (stmt ++ l) p := by
  induction l generalizing stmt with
  | nil => rw [nil_append, append_nil]
  | cons c l ih =>
    obtain ⟨hc, hl⟩ := List.forall_mem_cons.mp hl
    rw [length_cons] at hroom
    rw [cons_append, exec_source_loop, if_neg (not_or.mpr hc.2), if_neg (by omega),
      ih hl (by rw [length_append, length_singleton]; omega), append_assoc, singleton_append]

theorem source_loop_line (hl : OneLine l) (hshort : l.length < CMDT_MAX_LINE) (p : Text) :
    exec_source_loop vm [] ((l ++ ascii ";\n") ++ p) =
      if (vm_exec_line vm l).1 ≠ 0 then (-1, (vm_exec_line vm l).2)
          else exec_source_loop (vm_exec_line vm l).2 [] p := by
  have hempty : ∀ vm : cmdt_vm_state_t,
      exec_source_loop vm [] ('\n'.toUInt8 :: p) = exec_source_loop vm [] p := fun _ => rfl
  rw [append_assoc, source_loop_collect hl (by rw [length_nil]; omega), nil_append,
    show ascii ";\n" ++ p = ';'.toUInt8 :: '\n'.toUInt8 :: p from rfl, exec_source_loop, if_pos (.inl rfl)]
  rcases vm_exec_line vm l with ⟨code, vm'⟩
  dsimp only
  rw [hempty]

theorem source_loop_agrees (h : Shows vm σ) {program : List Stmt} (hfit : ∀ s ∈ program, s.Fits) :
    Agrees (exec_source_loop vm [] (spell program)) (run σ program) := by
  induction program generalizing vm σ with
  | nil => exact ⟨rfl, h⟩
  | cons s program ih =>
    obtain ⟨hs, hfit⟩ := List.forall_mem_cons.mp hfit
    obtain ⟨hcode, hshows⟩ := exec_line_agrees h hs
    rw [spell, flatMap_cons, source_loop_line (spell_one_line hs) hs.short, run]
    rcases hrun : s.run σ with ⟨_ | _, σ'⟩
    · rw [hrun] at hcode hshows
      rw [if_pos (by rw [hcode]; exact (by decide : (-1 : Int) ≠ 0))]
      exact ⟨rfl, hshows⟩
    · rw [hrun] at hcode hshows
      rw [if_neg (by rw [hcode]; exact (by decide : ¬ (0 : Int) ≠ 0))]
      exact ih hshows hfit

end Lines

/-- What `chivm_compile` writes is decoded to the source again. -/
theorem decode_compiled {source : Text} (hpos : 1 ≤ source.length) (hmax : source.length < CMDT_MAX_SOURCE)
    (hzero : ∀ c ∈ source, c ≠ 0) : ∃ file_data, chivm_compile source = some file_data ∧
      ∃ out_src, cmdt_decode_source file_data CMDT_MAX_SOURCE = some out_src ∧
        string_of CMDT_MAX_SOURCE out_src = source := by
  rw [CMDT_MAX_SOURCE] at hmax
  have hbound : 44 * ((source.length + 15) / 16) + 12 < CHIVM_MAX_CMDT := by
    rw [CHIVM_MAX_CMDT]
    omega
  obtain ⟨text, htext, hrecords, -⟩ := compile_records_spec source 0 [] (by simpa using hbound)
  obtain ⟨image, hdecode, hwritten, hout⟩ := @decode_lines_spec CMDT_MAX_SOURCE _ _ _ hrecords _ (Nat.lt_succ_self _)
    ⟨0, 0, fun _ => 0⟩ rfl rfl (by rw [UInt16.toNat_zero, CMDT_MAX_SOURCE]; omega) (by rw [UInt16.toNat_zero]; omega)
  have hlength : image.max_written = source.length := by simpa using hwritten
  have hpoints : ∀ i, (hi : i < source.length) → update image.out_src source.length 0 i = source[i] := by
    intro i hi
    rw [update_of_ne (by omega), hout, write_at, if_pos (by simpa using hi)]
    simp [hi]
  refine ⟨text, ?_, update image.out_src source.length 0, ?_, ?_⟩
  · rw [chivm_compile, if_neg (by rw [CHIVM_MAX_SOURCE]; omega), htext, nil_append]
  · rw [cmdt_decode_source, hdecode, Option.bind_eq_bind, Option.bind_some, hlength,
      if_neg (by rw [CMDT_MAX_SOURCE]; omega)]
  · have htake : ((List.range CMDT_MAX_SOURCE).map (update image.out_src source.length 0)).take (source.length + 1) =
        source ++ [0] := by
      refine ext_getElem ?_ fun i _ hi => ?_
      · rw [length_take, length_map, length_range, length_append, length_singleton, CMDT_MAX_SOURCE]
        omega
      · rw [getElem_take, getElem_map, getElem_range]
        rw [length_append, length_singleton] at hi
        by_cases hend : i < source.length
        · rw [hpoints i hend, getElem_append_left hend]
        · obtain rfl : i = source.length := by omega
          rw [update_self, getElem_append_right (Nat.le_refl _)]
          simp
    rw [string_of, ← take_append_drop (source.length + 1) ((List.range CMDT_MAX_SOURCE).map _), htake,
      append_assoc, takeWhile_append_of_pos fun c hc => decide_eq_true (hzero c hc), singleton_append,
      takeWhile_cons_of_neg (by decide), append_nil]

theorem spell_not_zero {program : List Stmt} (hfit : ∀ s ∈ program, s.Fits) : ∀ c ∈ spell program, c ≠ 0 := by
  intro c hc
  obtain ⟨s, hs, hc⟩ := List.mem_flatMap.mp hc
  rcases List.mem_append.mp hc with hc | hc
  · exact (spell_one_line (hfit s hs) c hc).1
  · rintro rfl
    exact absurd hc (by decide)

/-- A program that is compiled does what it means: it ends or stops, prints and reads as its statements say, and leaves
the same variables. -/
theorem program_runs (lines : Nat → Text) {program : List Stmt} (hfit : ∀ s ∈ program, s.Fits)
    (hpos : 1 ≤ (spell program).length) (hmax : (spell program).length < CMDT_MAX_SOURCE) :
    ∃ file_data, chivm_compile (spell program) = some file_data ∧
      Agrees (cmdt_exec_vm lines file_data) (run (.start lines) program) := by
  obtain ⟨file_data, hcompile, out_src, hdecode, hstring⟩ := decode_compiled hpos hmax (spell_not_zero hfit)
  have hstart : Shows ⟨[], [], lines, 0⟩ (.start lines) := ⟨fun _ => rfl, rfl, rfl, rfl, rfl⟩
  obtain ⟨hcode, hshows⟩ := source_loop_agrees hstart hfit
  refine ⟨file_data, hcompile, ?_⟩
  rw [cmdt_exec_vm, hdecode]
  dsimp only
  rw [hstring, vm_exec_source]
  refine ⟨?_, hshows⟩
  change (if (exec_source_loop _ [] (spell program)).1 ≠ 0 then (-1 : Int) else 0) = _
  rw [hcode]
  cases (run (.start lines) program).1 with
  | true => rfl
  | false => rfl

/-- A variable that can be declared, but is never assigned to. -/
example : (vm_exec_source (fun _ => []) (ascii "int integer = 5;integer = 6")).1 = -1 := by decide +kernel

/-- The variable `n`. -/
def name_n : Name := ⟨ascii "n", by decide, List.all_eq_true.mp (by decide), by decide⟩

/-- A program that reads a number, keeps it and prints it. -/
theorem program_runs_three_lines : ∃ file_data,
    chivm_compile (spell [.dinput (ascii "n? ") name_n, .assign name_n (.name name_n),
      .cprintf [.char 61, .value name_n]]) =
        some file_data ∧
      Agrees (cmdt_exec_vm (fun _ => ascii "7") file_data) (run (.start fun _ => ascii "7")
        [.dinput (ascii "n? ") name_n, .assign name_n (.name name_n), .cprintf [.char 61, .value name_n]]) :=
  program_runs _ (by
    refine List.forall_mem_cons.mpr ⟨⟨by decide, ?_, fun _ h => by cases h⟩, ?_⟩
    · exact (by simp : ∀ c ∈ [(110 : UInt8), 63, 32], c ≠ 0 ∧ c ≠ 59)
    refine List.forall_mem_cons.mpr ⟨⟨by decide, (fun _ h => by cases h), fun _ h => by cases h⟩, ?_⟩
    refine List.forall_mem_cons.mpr ⟨⟨by decide, ?_, fun m h => ?_⟩, fun _ h => by cases h⟩
    · exact (by simp : ∀ c ∈ [(61 : UInt8), 36, 123, 110, 125], c ≠ 0 ∧ c ≠ 59)
    cases h
    exact ⟨fun h => absurd h (by decide), trivial⟩) (by decide) (by decide)

end graceos.cmdt
