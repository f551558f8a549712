import GraceOS.Chivm.Literals

/-!
# The statements of a CMDT program

`exec.c` runs the source of a CMDT program itself: statements that end at a `;` or a line break, over at most 64 integer
variables. As in the lexer of ChibiVM, whose functions read words and literals in the same way, a pointer into a text is
the rest of the text from there on. A source is given by its characters before the NUL.
-/

namespace graceos.cmdt

open word chivm

def CMDT_MAX_SOURCE : Nat := 8192
def CMDT_MAX_VARS : Nat := 64
def CMDT_MAX_NAME_LEN : Nat := 32
def CMDT_MAX_LINE : Nat := 256

structure cmdt_var_t where
  name : Text
  value : Int32

/-- `vars` has the slots in use, which are the first ones; `lines` are the lines that `tty_readline` returns, and `read`
how many it has returned. -/
structure cmdt_vm_state_t where
  vars : List cmdt_var_t
  out : Text
  lines : Nat → Text
  read : Nat

def vm_skip_ws (p : Text) : Text := skip_ws p

def vm_parse_ident (p : Text) (out_len : Nat) : Option (Text × Text) := parse_ident p out_len

def vm_parse_int (p : Text) : Option (Int32 × Text) := parse_int_lit p

def vm_parse_string (p : Text) (out_len : Nat) : Option (Text × Text) := parse_quoted_string p out_len

def vm_print_int (value : Int32) : Text := chivm.vm_print_int value

/-! ## Variables -/

def vm_find_var (vars : List cmdt_var_t) (name : Text) : Option cmdt_var_t := vars.find? fun v => v.name == name

/-- `vm_create_var`, with the table that it leaves. -/
def vm_create_var (vars : List cmdt_var_t) (name : Text) : Option (List cmdt_var_t) :=
  match vm_find_var vars name with
  | some _ => some vars
  | none =>
    if vars.length ≥ CMDT_MAX_VARS then none else some (vars ++ [⟨name.take (CMDT_MAX_NAME_LEN - 1), 0⟩])

/-- The table with another value of the variable that `vm_find_var` finds. -/
def set_value (name : Text) (value : Int32) : List cmdt_var_t → List cmdt_var_t
  | [] => []
  | v :: vars => if v.name == name then { v with value } :: vars else v :: set_value name value vars

def vm_parse_value (vars : List cmdt_var_t) (p : Text) : Option (Int32 × Text) :=
  let p := vm_skip_ws p
  match vm_parse_int p with
  | some (value, p) => some (value, p)
  | none =>
    match vm_parse_ident p CMDT_MAX_NAME_LEN with
    | none => none
    | some (name, p) => (vm_find_var vars name).map fun v => (v.value, p)

def vm_end_stmt (p : Text) : Bool :=
  let p := vm_skip_ws p
  peek p 0 == 0 || peek p 0 == ';'.toUInt8

/-! ## Statements -/

/-- `vm_create_var` and the assignment behind it. -/
def create_and_set (vm : cmdt_vm_state_t) (ident : Text) (value : Int32) : Int × cmdt_vm_state_t :=
  match vm_create_var vm.vars ident with
  | none => (-1, vm)
  | some vars => (0, { vm with vars := set_value ident value vars })

/-- `vm_exec_line` behind `int`. -/
def exec_int (vm : cmdt_vm_state_t) (p : Text) : Int × cmdt_vm_state_t :=
  if !is_space (peek p 0) then (-1, vm)
  else
    match vm_parse_ident p CMDT_MAX_NAME_LEN with
    | none => (-1, vm)
    | some (ident, p) =>
      let p := vm_skip_ws p
      match if peek p 0 = '='.toUInt8 then vm_parse_value vm.vars (p.drop 1) else some (0, p) with
      | none => (-1, vm)
      | some (value, p) => if !vm_end_stmt p then (-1, vm) else create_and_set vm ident value

/-- `vm_exec_line` behind `dinput`. -/
def exec_dinput (vm : cmdt_vm_state_t) (p : Text) : Int × cmdt_vm_state_t :=
  let p := vm_skip_ws p
  if peek p 0 ≠ '('.toUInt8 then (-1, vm)
  else
    match vm_parse_string (p.drop 1) CMDT_MAX_LINE with
    | none => (-1, vm)
    | some (prompt, p) =>
      let p := vm_skip_ws p
      if peek p 0 ≠ ','.toUInt8 then (-1, vm)
      else
        match vm_parse_ident (p.drop 1) CMDT_MAX_NAME_LEN with
        | none => (-1, vm)
        | some (ident, p) =>
          let p := vm_skip_ws p
          if peek p 0 ≠ ')'.toUInt8 then (-1, vm)
          else if !vm_end_stmt (p.drop 1) then (-1, vm)
          else
            let input := vm.lines vm.read
            let vm := { vm with out := vm.out ++ prompt, read := vm.read + 1 }
            match vm_parse_int input with
            | none => (-1, vm)
            | some (value, _) => create_and_set vm ident value

/-- The loop of `cprintf`: what it prints, and whether it goes to the end of the text. -/
def cprintf_loop (vars : List cmdt_var_t) (text : Text) : Text × Bool :=
  match text with
  | [] => ([], true)
  | c :: rest =>
    if c = '$'.toUInt8 ∧ peek rest 0 = '{'.toUInt8 then
      let name := (rest.drop 1).takeWhile (· ≠ '}'.toUInt8)
      let after := (rest.drop 1).drop name.length
      if name.length > CMDT_MAX_NAME_LEN - 1 ∨ after = [] then ([], false)
      else
        match vm_find_var vars name with
        | none => ([], false)
        | some v =>
          match cprintf_loop vars (after.drop 1) with
          | (out, done) => (vm_print_int v.value ++ out, done)
    else
      match cprintf_loop vars rest with
      | (out, done) => (c :: out, done)
termination_by text.length
decreasing_by
  · simp only [List.length_drop, List.length_cons]
    omega
  · exact Nat.lt_succ_self _

/-- `vm_exec_line` behind `cprintf`. -/
def exec_cprintf (vm : cmdt_vm_state_t) (p : Text) : Int × cmdt_vm_state_t :=
  let p := vm_skip_ws p
  if peek p 0 ≠ '('.toUInt8 then (-1, vm)
  else
    match vm_parse_string (p.drop 1) CMDT_MAX_LINE with
    | none => (-1, vm)
    | some (text, p) =>
      let p := vm_skip_ws p
      if peek p 0 ≠ ')'.toUInt8 then (-1, vm)
      else if !vm_end_stmt (p.drop 1) then (-1, vm)
      else
        match cprintf_loop vm.vars text with
        | (out, done) => (if done then 0 else -1, { vm with out := vm.out ++ out })

/-- `vm_exec_line` at an assignment. -/
def exec_assignment (vm : cmdt_vm_state_t) (p : Text) : Int × cmdt_vm_state_t :=
  match vm_parse_ident p CMDT_MAX_NAME_LEN with
  | none => (-1, vm)
  | some (ident, p) =>
    let p := vm_skip_ws p
    if peek p 0 ≠ '='.toUInt8 then (-1, vm)
    else
      match vm_parse_value vm.vars (p.drop 1) with
      | none => (-1, vm)
      | some (value, p) =>
        if !vm_end_stmt p then (-1, vm)
        else
          match vm_find_var vm.vars ident with
          | none => (-1, vm)
          | some _ => (0, { vm with vars := set_value ident value vm.vars })

def vm_exec_line (vm : cmdt_vm_state_t) (line : Text) : Int × cmdt_vm_state_t :=
  let p := vm_skip_ws line
  if peek p 0 = 0 ∨ (ascii "//").isPrefixOf p then (0, vm)
  else if (ascii "int").isPrefixOf p then exec_int vm (p.drop 3)
  else if (ascii "dinput").isPrefixOf p then exec_dinput vm (p.drop 6)
  else if (ascii "cprintf").isPrefixOf p then exec_cprintf vm (p.drop 7)
  else exec_assignment vm p

/-- The loop of `vm_exec_source`; `stmt` is what it has collected. -/
def exec_source_loop (vm : cmdt_vm_state_t) (stmt : Text) : Text → Int × cmdt_vm_state_t
  | [] =>
    match vm_exec_line vm stmt with
    | (code, vm) => (if code ≠ 0 then -1 else 0, vm)
  | c :: p =>
    if c = ';'.toUInt8 ∨ c = '\n'.toUInt8 then
      match vm_exec_line vm stmt with
      | (code, vm) => if code ≠ 0 then (-1, vm) else exec_source_loop vm [] p
    else if stmt.length ≥ CMDT_MAX_LINE - 1 then (-1, vm)
    else exec_source_loop vm (stmt ++ [c]) p

def vm_exec_source (lines : Nat → Text) (source : Text) : Int × cmdt_vm_state_t :=
  exec_source_loop ⟨[], [], lines, 0⟩ [] source

/-- The string in a buffer of `cap` bytes. -/
def string_of (cap : Nat) (buf : Nat → UInt8) : Text := ((List.range cap).map buf).takeWhile (· ≠ 0)

/-- `cmdt_exec_vm` on the data of a file. -/
def cmdt_exec_vm (lines : Nat → Text) (file_data : Text) : Int × cmdt_vm_state_t :=
  match cmdt_decode_source file_data CMDT_MAX_SOURCE with
  | none => (-1, ⟨[], [], lines, 0⟩)
  | some source =>
    match vm_exec_source lines (string_of CMDT_MAX_SOURCE source) with
    | (code, vm) => (if code ≠ 0 then -1 else 0, vm)

end graceos.cmdt
