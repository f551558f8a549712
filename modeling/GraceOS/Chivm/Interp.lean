import GraceOS.Chivm.Value
import GraceOS.Lib.Machine

/-!
# The interpreter of ChibiVM

Each parser takes a text and gives what is left of it. `fuel` bounds how deep values nest, in the text and when they
are printed, and how many statements run in a row.
-/

namespace graceos.chivm

open exec word

/-! ## Values -/

/-- An index between brackets: a number or a variable that holds one. -/
def parse_index (p : Text) (intmsg : String) : VmExec (Int × Text) := do
  match parse_int_lit p with
  | some (idx, p) => pure (idx.toInt, p)
  | none =>
    match parse_ident p CHIVM_MAX_NAME_LEN with
    | none => vm_error "bad array index"
    | some (iname, p) =>
      let vm ← Exec.get
      match (find_var vm.vars iname).map chivm_var_t.val with
      | some (.int i) => pure (i.toInt, p)
      | _ => vm_error intmsg

/-- The loop of `parse_array_literal`; `room` more elements fit into `elems`. -/
def parse_elems (parse : Text → VmExec (chivm_val_t × Text)) (elem_type : chivm_vkind_t) :
    (room : Nat) → (elems : List chivm_val_t) → Text → VmExec (List chivm_val_t × Text)
  | room, elems, p =>
    if peek p 0 = 0 ∨ peek p 0 = ']'.toUInt8 then pure (elems, p)
    else
      match room with
      | 0 => vm_error "array literal: too many elements"
      | room + 1 => do
        let (elem, p) ← (parse p).orElse (vm_error "invalid array element")
        if elem_type ≠ .VAL_NONE ∧ elem.kind ≠ elem_type then vm_error "array element type mismatch"
        else
          let p := skip_ws p
          let p := if peek p 0 = ','.toUInt8 then p.drop 1 else p
          parse_elems parse elem_type room (elems ++ [elem]) (skip_ws p)

/-- `parse_array_literal`, with the parser of its elements. -/
def array_literal (parse : Text → VmExec (chivm_val_t × Text)) (p : Text) (elem_type : chivm_vkind_t) :
    VmExec (chivm_val_t × Text) := do
  let p := skip_ws p
  if peek p 0 ≠ '['.toUInt8 then Exec.error
  else
    let (elems, p) ← parse_elems parse elem_type 64 [] (skip_ws (p.drop 1))
    if peek p 0 ≠ ']'.toUInt8 then vm_error "expected ']' to close array literal"
    else
      let vm ← Exec.get
      match alloc_array_pool elems vm with
      | none => vm_error "array pool full"
      | some (start, vm) =>
        Exec.modify fun _ => vm
        pure (.array start elems.length elem_type, p.drop 1)

/-- An identifier as a value: a keyword, a variable, or an element of an array. -/
def parse_name (p : Text) : VmExec (chivm_val_t × Text) := do
  let name := p.takeWhile is_ident_char
  if name.length > CHIVM_MAX_NAME_LEN - 1 then Exec.error
  else
    let p := p.drop name.length
    if name = ascii "true" then pure (.bool true, p)
    else if name = ascii "false" then pure (.bool false, p)
    else
      let vm ← Exec.get
      match find_var vm.vars name with
      | none => Exec.error
      | some v =>
        match v.val with
        | .array pool_start count _ =>
          if peek (skip_ws p) 0 = '['.toUInt8 then
            let (idx, p) ← parse_index ((skip_ws p).drop 1) "array index must be an int variable"
            let p := skip_ws p
            if peek p 0 ≠ ']'.toUInt8 then vm_error "expected ']' after array index"
            else if idx < 0 ∨ idx ≥ count then vm_error "array index out of bounds"
            else pure (vm.pool (pool_start + idx.toNat), p.drop 1)
          else pure (v.val, p)
        | val => pure (val, p)

def parse_val_expr : (fuel : Nat) → Text → VmExec (chivm_val_t × Text)
  | 0, _ => Exec.hang
  | fuel + 1, p => do
    let p := skip_ws p
    if peek p 0 = '"'.toUInt8 then
      let (s, p) ← parsed (parse_quoted_string p CHIVM_MAX_STR_LEN)
      pure (.string s, p)
    else if peek p 0 = '\''.toUInt8 then
      let (c, p) ← parsed (parse_char_lit p)
      pure (.char c, p)
    else if peek p 0 = '['.toUInt8 then array_literal (parse_val_expr fuel) p .VAL_NONE
    else if peek p 0 = '-'.toUInt8 ∨ is_dec (peek p 0) then
      let (i, p) ← parsed (parse_int_lit p)
      pure (.int i, p)
    else if !is_ident_start (peek p 0) then Exec.error
    else parse_name p

def parse_array_literal (fuel : Nat) (p : Text) (elem_type : chivm_vkind_t) : VmExec (chivm_val_t × Text) :=
  array_literal (parse_val_expr fuel) p elem_type

/-! ## Conditions -/

def val_truthy : chivm_val_t → Bool
  | .none => false
  | .int i => i ≠ 0
  | .bool b => b
  | .string s => s ≠ []
  | .char c => c ≠ 0
  | .array _ count _ => count > 0

inductive Op
  | eq
  | ne
  | le
  | ge
  | lt
  | gt
  deriving DecidableEq

/-- A comparison by an order; `lt` compares the left with the right operand, `gt` the right with the left. -/
def Op.holds (op : Op) (same lt gt : Bool) : Bool :=
  match op with
  | .eq => same
  | .ne => !same
  | .le => !gt
  | .ge => !lt
  | .lt => lt
  | .gt => gt

/-- The `char` that the compiler sees: a signed byte. -/
def char_lt (a b : UInt8) : Bool := a.toInt8 < b.toInt8

/-- `strcmp(a, b) < 0`, byte by byte. -/
def str_lt : List UInt8 → List UInt8 → Bool
  | _, [] => false
  | [], _ :: _ => true
  | a :: as, b :: bs => a < b || (a == b && str_lt as bs)

def val_compare (a b : chivm_val_t) (op : Op) : VmExec Bool :=
  if a.kind ≠ b.kind then
    match op with
    | .ne => pure true
    | .eq => pure false
    | _ => do
      tty_print (ascii "[chivm] error: cannot compare values of different types\n")
      pure false
  else
    pure <|
      match a, b with
      | .int i, .int j => op.holds (i == j) (i < j) (j < i)
      | .bool i, .bool j =>
        match op with
        | .eq => i == j
        | .ne => i != j
        | _ => false
      | .string s, .string t => op.holds (s == t) (str_lt s t) (str_lt t s)
      | .char c, .char d => op.holds (c == d) (char_lt c d) (char_lt d c)
      | _, _ => false

/-- The comparison at the start of a text. -/
def parse_op (p : Text) : Option (Op × Text) :=
  if peek p 0 = '='.toUInt8 ∧ peek p 1 = '='.toUInt8 then some (.eq, p.drop 2)
  else if peek p 0 = '!'.toUInt8 ∧ peek p 1 = '='.toUInt8 then some (.ne, p.drop 2)
  else if peek p 0 = '<'.toUInt8 ∧ peek p 1 = '='.toUInt8 then some (.le, p.drop 2)
  else if peek p 0 = '>'.toUInt8 ∧ peek p 1 = '='.toUInt8 then some (.ge, p.drop 2)
  else if peek p 0 = '<'.toUInt8 then some (.lt, p.drop 1)
  else if peek p 0 = '>'.toUInt8 then some (.gt, p.drop 1)
  else none

def eval_condition (fuel : Nat) (p : Text) : VmExec (Bool × Text) := do
  let negate := peek (skip_ws p) 0 = '!'.toUInt8
  let p := if negate then (skip_ws p).drop 1 else p
  let (lhs, p) ← (parse_val_expr fuel p).orElse (vm_error "bad condition left-hand side")
  match parse_op (skip_ws p) with
  | some (op, p) =>
    let (rhs, p) ← (parse_val_expr fuel p).orElse (vm_error "bad condition right-hand side")
    let result ← val_compare lhs rhs op
    pure (if negate then !result else result, p)
  | none => pure (if negate then !val_truthy lhs else val_truthy lhs, p)

/-! ## Skipping -/

/-- Behind the quote that opens a string: the rest from behind the one that closes it. -/
def skip_string : Text → Text
  | [] => []
  | c :: p =>
    if c = 0 then c :: p
    else if c = '"'.toUInt8 then p
    else if c = '\\'.toUInt8 then
      match p with
      | [] => []
      | e :: p' => if e ≠ 0 then skip_string p' else e :: p'
    else skip_string p

/-- Behind the quote that opens a character. -/
def skip_char (p : Text) : Text :=
  let p := if peek p 0 = '\\'.toUInt8 ∧ peek p 1 ≠ 0 then p.drop 1 else p
  let p := if peek p 0 ≠ 0 then p.drop 1 else p
  if peek p 0 = '\''.toUInt8 then p.drop 1 else p

/-- `skip_to_close_paren` and `skip_block_body`: the rest from the closing bracket on. Only the latter knows
comments. -/
def skip_to (opening closing : UInt8) (comments : Bool) : (fuel depth : Nat) → Text → Outcome Text
  | 0, _, _ => .hang
  | fuel + 1, depth, p =>
    if peek p 0 = 0 then .error
    else if peek p 0 = '"'.toUInt8 then skip_to opening closing comments fuel depth (skip_string (p.drop 1))
    else if peek p 0 = '\''.toUInt8 then skip_to opening closing comments fuel depth (skip_char (p.drop 1))
    else if comments ∧ peek p 0 = '/'.toUInt8 ∧ peek p 1 = '/'.toUInt8 then
      skip_to opening closing comments fuel depth (p.dropWhile fun c => c != 0 && c != '\n'.toUInt8)
    else if peek p 0 = opening then skip_to opening closing comments fuel (depth + 1) (p.drop 1)
    else if peek p 0 = closing then
      match depth with
      | 0 => .ok p
      | depth + 1 => skip_to opening closing comments fuel depth (p.drop 1)
    else skip_to opening closing comments fuel depth (p.drop 1)

def skip_to_close_paren (fuel : Nat) (p : Text) : Outcome Text := skip_to '('.toUInt8 ')'.toUInt8 false fuel 0 p

def skip_block_body (fuel : Nat) (p : Text) : Outcome Text := skip_to '{'.toUInt8 '}'.toUInt8 true fuel 0 p

/-! ## Statements -/

/-- `if (*p == ';') p++`, behind blanks. -/
def end_stmt (p : Text) : Text :=
  let p := skip_ws p
  if peek p 0 = ';'.toUInt8 then p.drop 1 else p

/-- The types that a declaration starts with, the longest words first: kind and kind of the elements. -/
def decl_types : List (String × chivm_vkind_t × chivm_vkind_t) :=
  [("int[]", .VAL_ARRAY, .VAL_INT), ("bool[]", .VAL_ARRAY, .VAL_BOOL), ("string[]", .VAL_ARRAY, .VAL_STRING),
    ("char[]", .VAL_ARRAY, .VAL_CHAR), ("array", .VAL_ARRAY, .VAL_NONE), ("string", .VAL_STRING, .VAL_NONE),
    ("bool", .VAL_BOOL, .VAL_NONE), ("char", .VAL_CHAR, .VAL_NONE), ("int", .VAL_INT, .VAL_NONE)]

def decl_type (p : Text) : Option (chivm_vkind_t × chivm_vkind_t × Text) :=
  (decl_types.find? fun type => keyword p type.1).map fun (word, kind, elem) => (kind, elem, p.drop word.length)

def store (name : List UInt8) (val : chivm_val_t) : VmExec Unit :=
  Exec.modify fun vm => { vm with vars := update_var name (fun v => { v with val }) vm.vars }

/-- The initialiser of a declaration. -/
def parse_init (fuel : Nat) (decl_kind elem_type : chivm_vkind_t) (p : Text) : VmExec (chivm_val_t × Text) :=
  if decl_kind = .VAL_ARRAY then
    (parse_array_literal fuel p elem_type).orElse (vm_error "invalid array initializer")
  else do
    let (init, p) ← (parse_val_expr fuel p).orElse (vm_error "invalid initializer")
    if init.kind ≠ decl_kind then vm_error "initializer type does not match declared type" else pure (init, p)

/-- The variable of a declaration, new or taken over, with its declared type. -/
def declare (name : List UInt8) (decl_kind decl_elem : chivm_vkind_t) : VmExec Unit := do
  let vm ← Exec.get
  match alloc_var vm.vars name decl_kind decl_elem with
  | none => vm_error "variable table full"
  | some vars =>
    Exec.modify fun vm => { vm with vars := update_var name (fun v => { v with decl_kind, decl_elem }) vars }

def exec_decl (fuel : Nat) (p : Text) : VmExec Text := do
  match decl_type (skip_ws p) with
  | none => vm_error "unknown type keyword"
  | some (decl_kind, arr_elem_kind, p) =>
    match parse_ident p CHIVM_MAX_NAME_LEN with
    | none => vm_error "expected variable name after type"
    | some (name, p) =>
      declare name decl_kind arr_elem_kind
      let p := skip_ws p
      if peek p 0 = '='.toUInt8 then
        let (init, p) ← parse_init fuel decl_kind arr_elem_kind (p.drop 1)
        store name init
        pure (end_stmt p)
      else
        store name (.zero decl_kind arr_elem_kind)
        pure (end_stmt p)

/-- The loop of `exec_cprintf` over its text; `vname` is the name behind a `$` and a brace, as far as it is read. -/
def interpolate (fuel : Nat) (vname : Option (List UInt8)) : (text : List UInt8) → VmExec Unit
  | [] =>
    match vname with
    | none => pure ()
    | some _ => vm_error "unterminated interpolation '\x7d'"
  | c :: text =>
    match vname with
    | none =>
      match text with
      | [] => tty_print [c]
      | d :: text' =>
        if c = '$'.toUInt8 ∧ d = '{'.toUInt8 then interpolate fuel (some []) text'
        else do
          tty_print [c]
          interpolate fuel none (d :: text')
    | some name =>
      if c = '}'.toUInt8 then do
        let vm ← Exec.get
        match find_var vm.vars name with
        | none => vm_error "unknown variable in interpolation"
        | some v =>
          match vm_print_val fuel vm.pool v.val with
          | none => Exec.hang
          | some s => do
            tty_print s
            interpolate fuel none text
      else if name.length ≥ CHIVM_MAX_NAME_LEN - 1 then vm_error "interpolation name too long"
      else interpolate fuel (some (name ++ [c])) text

def exec_cprintf (fuel : Nat) (p : Text) : VmExec Text := do
  let p := skip_ws (p.drop 7)
  if peek p 0 ≠ '('.toUInt8 then vm_error "expected '(' after cprintf"
  else
    match parse_quoted_string (p.drop 1) CHIVM_MAX_LINE with
    | none => vm_error "invalid cprintf string"
    | some (text, p) =>
      let p := skip_ws p
      if peek p 0 ≠ ')'.toUInt8 then vm_error "expected ')' after cprintf string"
      else
        interpolate fuel none text
        pure (end_stmt (p.drop 1))

/-- The line that `tty_readline` stores; what it echoes is left out. -/
def tty_readline (max_len : Nat) : VmExec (List UInt8) := do
  let vm ← Exec.get
  Exec.modify fun vm => { vm with read := vm.read + 1 }
  pure ((vm.lines vm.read).takeWhile (· != 0) |>.take (max_len - 1))

/-- The value that a line gives to a variable of a kind. -/
def input_val (target : chivm_vkind_t) (input : List UInt8) : VmExec chivm_val_t :=
  match target with
  | .VAL_INT =>
    match parse_int_lit input with
    | none => vm_error "dinput: expected integer"
    | some (val, _) => pure (.int val)
  | .VAL_BOOL =>
    if input = ascii "true" ∨ input = ascii "1" then pure (.bool true)
    else if input = ascii "false" ∨ input = ascii "0" then pure (.bool false)
    else vm_error "dinput: expected 'true' or 'false' for bool variable"
  | .VAL_STRING => pure (.string (input.take (CHIVM_MAX_STR_LEN - 1)))
  | .VAL_CHAR =>
    if input = [] then vm_error "dinput: expected a character for char variable" else pure (.char (peek input 0))
  | _ => vm_error "dinput: unsupported variable type"

/-- What `exec_dinput` does behind its arguments. -/
def read_into (prompt ident : List UInt8) : VmExec Unit := do
  tty_print prompt
  let input ← tty_readline CHIVM_MAX_STR_LEN
  let vm ← Exec.get
  match find_var vm.vars ident with
  | some v =>
    let val ← input_val v.val.kind input
    store ident val
  | none =>
    match alloc_var vm.vars ident .VAL_INT .VAL_NONE with
    | none => vm_error "variable table full"
    | some vars =>
      Exec.modify fun vm => { vm with vars }
      let val ← input_val .VAL_INT input
      store ident val

def exec_dinput (p : Text) : VmExec Text := do
  let p := skip_ws (p.drop 6)
  if peek p 0 ≠ '('.toUInt8 then vm_error "expected '(' after dinput"
  else
    match parse_quoted_string (p.drop 1) CHIVM_MAX_LINE with
    | none => vm_error "invalid dinput prompt string"
    | some (prompt, p) =>
      let p := skip_ws p
      if peek p 0 ≠ ','.toUInt8 then vm_error "expected ',' after dinput prompt"
      else
        match parse_ident (p.drop 1) CHIVM_MAX_NAME_LEN with
        | none => vm_error "expected variable name in dinput"
        | some (ident, p) =>
          let p := skip_ws p
          if peek p 0 ≠ ')'.toUInt8 then vm_error "expected ')' after dinput arguments"
          else
            read_into prompt ident
            pure (end_stmt (p.drop 1))

/-- `name[idx] = value`, from behind the bracket on. -/
def assign_elem (fuel : Nat) (name : List UInt8) (p : Text) : VmExec Text := do
  let (idx, p) ← parse_index p "array index must be an int"
  let p := skip_ws p
  if peek p 0 ≠ ']'.toUInt8 then vm_error "expected ']' after index"
  else
    let p := skip_ws (p.drop 1)
    if peek p 0 ≠ '='.toUInt8 then vm_error "expected '=' in array element assignment"
    else
      let vm ← Exec.get
      match (find_var vm.vars name).map chivm_var_t.val with
      | some (.array pool_start count elem_type) =>
        if idx < 0 ∨ idx ≥ count then vm_error "array index out of bounds"
        else
          let (new_val, p) ← (parse_val_expr fuel (p.drop 1)).orElse (vm_error "bad assignment value")
          if elem_type ≠ .VAL_NONE ∧ new_val.kind ≠ elem_type then
            vm_error "array element type mismatch (typed array)"
          else
            Exec.modify fun vm =>
              { vm with pool := fun k => if k = pool_start + idx.toNat then new_val else vm.pool k }
            pure (end_stmt p)
      | _ => vm_error "variable is not an array"

/-- `name = value`, from behind the sign on. -/
def assign_scalar (fuel : Nat) (name : List UInt8) (p : Text) : VmExec Text := do
  let vm ← Exec.get
  match find_var vm.vars name with
  | none => vm_error "assignment to undefined variable"
  | some v =>
    let (new_val, p) ← (parse_val_expr fuel p).orElse (vm_error "bad assignment value")
    if v.decl_kind ≠ .VAL_NONE ∧ new_val.kind ≠ v.decl_kind then
      vm_error "assignment type does not match declared type"
    else
      store name new_val
      pure (end_stmt p)

def exec_assignment (fuel : Nat) (p : Text) : VmExec Text :=
  match parse_ident p CHIVM_MAX_NAME_LEN with
  | none => vm_error "expected identifier"
  | some (name, p) =>
    let p := skip_ws p
    if peek p 0 = '['.toUInt8 then assign_elem fuel name (p.drop 1)
    else if peek p 0 ≠ '='.toUInt8 then vm_error "expected '=' in assignment"
    else assign_scalar fuel name (p.drop 1)

/-! ## Programs -/

/-- What a program does to the state: its simple statements, its conditions and its own messages. -/
inductive Call
  | decl (p : Text)
  | assignment (p : Text)
  | cprintf (p : Text)
  | dinput (p : Text)
  | condition (p : Text)
  | message (msg : String)
  deriving DecidableEq

/-- The state after a call. -/
def step (fuel : Nat) (vm : Vm) : Call → Vm
  | .decl p => (exec_decl fuel p vm).2
  | .assignment p => (exec_assignment fuel p vm).2
  | .cprintf p => (exec_cprintf fuel p vm).2
  | .dinput p => (exec_dinput p vm).2
  | .condition p => (eval_condition fuel p vm).2
  | .message msg => ((vm_error msg : VmExec Unit) vm).2

/-- The state in a program, and for the proofs the calls that led to it. -/
structure Session where
  vm : Vm
  calls : List Call

abbrev Program := Exec Session

def call {α : Type} (c : Call) (m : VmExec α) : Program α := fun s =>
  ((m s.vm).1, ⟨(m s.vm).2, s.calls ++ [c]⟩)

/-- `vm_error` in a program. -/
def message {α : Type} (msg : String) : Program α := call (.message msg) (vm_error msg)

/-- A skipped part of the text. -/
def skipped (msg : String) : Outcome Text → Program Text
  | .ok p => pure p
  | .error => message msg
  | .hang => Exec.hang

/-- A branch that is taken runs, another one is skipped. -/
def run_or_skip (block : Text → Program Text) (fuel : Nat) (taken : Bool) (which : String) (p : Text) : Program Text :=
  if taken then block p else skipped ("unterminated " ++ which ++ " block") (skip_block_body fuel p)

/-- One branch, from behind its opening brace on. -/
def exec_branch (block : Text → Program Text) (fuel : Nat) (taken : Bool) (which : String) (p : Text) :
    Program Text := do
  let p ← run_or_skip block fuel taken which p
  let p := skip_ws p
  if peek p 0 ≠ '}'.toUInt8 then message ("missing '\x7d' to close " ++ which ++ " block") else pure (p.drop 1)

/-- The condition of an `else if`, which is only looked at where no branch is taken yet. -/
def else_condition (fuel : Nat) (taken : Bool) (p : Text) : Program (Bool × Text) :=
  if !taken then call (.condition p) (eval_condition fuel p)
  else do
    let p ← skipped "unterminated else-if condition" (skip_to_close_paren fuel p)
    pure (false, p)

/-- The branches behind the first one; `chain` bounds their number. -/
def exec_else (block : Text → Program Text) (fuel : Nat) : (chain : Nat) → (taken : Bool) → Text → Program Text
  | 0, _, _ => Exec.hang
  | chain + 1, taken, p0 => do
    let p := skip_ws p0
    if !keyword p "else" then pure p0
    else
      let p := skip_ws (p.drop 4)
      if keyword p "if" then
        let p := skip_ws (p.drop 2)
        if peek p 0 ≠ '('.toUInt8 then message "expected '(' after else if"
        else
          let (this_cond, p) ← else_condition fuel taken (p.drop 1)
          let p := skip_ws p
          if peek p 0 ≠ ')'.toUInt8 then message "expected ')' after else if condition"
          else
            let p := skip_ws (p.drop 1)
            if peek p 0 ≠ '{'.toUInt8 then message "expected '\x7b' to open else if block"
            else
              let p ← exec_branch block fuel (!taken && this_cond) "else if" (p.drop 1)
              exec_else block fuel chain (taken || this_cond) p
      else if peek p 0 ≠ '{'.toUInt8 then message "expected '\x7b' after else"
      else exec_branch block fuel (!taken) "else" (p.drop 1)

def exec_if (block : Text → Program Text) (fuel : Nat) (p : Text) : Program Text := do
  let p := skip_ws ((skip_ws p).drop 2)
  if peek p 0 ≠ '('.toUInt8 then message "expected '(' after if"
  else
    let p := p.drop 1
    let (cond, p) ← call (.condition p) (eval_condition fuel p)
    let p := skip_ws p
    if peek p 0 ≠ ')'.toUInt8 then message "expected ')' after if condition"
    else
      let p := skip_ws (p.drop 1)
      if peek p 0 ≠ '{'.toUInt8 then message "expected '\x7b' to open if block"
      else
        let p ← exec_branch block fuel cond "if" (p.drop 1)
        exec_else block fuel fuel cond p

/-- One statement; a lone semicolon takes one character from the text as it came, blanks included. -/
def exec_stmt (block : Text → Program Text) (fuel : Nat) (p0 : Text) : Program Text :=
  let p := skip_ws p0
  if peek p 0 = 0 then pure p0
  else if peek p 0 = ';'.toUInt8 then pure (p0.drop 1)
  else if peek p 0 = '/'.toUInt8 ∧ peek p 1 = '/'.toUInt8 then
    pure (p.dropWhile fun c => c != 0 && c != '\n'.toUInt8)
  else if keyword p "if" then exec_if block fuel p
  else if decl_types.any fun type => keyword p type.1 then call (.decl p) (exec_decl fuel p)
  else if keyword p "cprintf" then call (.cprintf p) (exec_cprintf fuel p)
  else if keyword p "dinput" then call (.dinput p) (exec_dinput p)
  else if is_ident_start (peek p 0) then call (.assignment p) (exec_assignment fuel p)
  else message "unrecognized statement"

/-- `depth` bounds the statements in a row, and those in the blocks inside of them. -/
def exec_block_body (fuel : Nat) : (depth : Nat) → Text → Program Text
  | 0, _ => Exec.hang
  | depth + 1, p => do
    if peek (skip_ws p) 0 = 0 ∨ peek (skip_ws p) 0 = '}'.toUInt8 then pure (skip_ws p)
    else
      let p ← exec_stmt (exec_block_body fuel depth) fuel p
      exec_block_body fuel depth p

def exec_source (fuel : Nat) (source : Text) : Program Text := exec_block_body fuel fuel source

/-- The source texts of a session, one after the other, each one whatever became of those before it. -/
def run_sources (fuel : Nat) (s : Session) : (sources : List Text) → Session
  | [] => s
  | source :: sources => run_sources fuel (exec_source fuel source s).2 sources

/-- A session from `vm_reset` on. -/
def session (fuel : Nat) (lines : Nat → List UInt8) (sources : List Text) : Session :=
  run_sources fuel ⟨vm_reset lines, []⟩ sources

end graceos.chivm
