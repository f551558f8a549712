import GraceOS.Chivm.Cmdt
import GraceOS.Lib.Exec
import GraceOS.Lib.Word

/-!
# The state of ChibiVM and its lexer

Values, the variable table, the array pool, and the functions of `chivm.c` that read words and literals. As in the
decoders, a pointer into a text is the rest of the text from there on.
-/

namespace graceos.chivm

open exec word

def CHIVM_MAX_VARS : Nat := 64
def CHIVM_MAX_NAME_LEN : Nat := 32
def CHIVM_MAX_LINE : Nat := 512
def CHIVM_MAX_STR_LEN : Nat := 128
def CHIVM_ARRAY_POOL_CAP : Nat := 256

abbrev Text := List UInt8

/-! ## Values -/

inductive chivm_vkind_t
  | VAL_NONE
  | VAL_INT
  | VAL_BOOL
  | VAL_STRING
  | VAL_CHAR
  | VAL_ARRAY
  deriving DecidableEq

inductive chivm_val_t
  | none
  | int (i : Int32)
  | bool (b : Bool)
  | string (s : List UInt8)
  | char (c : UInt8)
  | array (pool_start count : Nat) (elem_type : chivm_vkind_t)
  deriving DecidableEq

def chivm_val_t.kind : chivm_val_t → chivm_vkind_t
  | .none => .VAL_NONE
  | .int _ => .VAL_INT
  | .bool _ => .VAL_BOOL
  | .string _ => .VAL_STRING
  | .char _ => .VAL_CHAR
  | .array _ _ _ => .VAL_ARRAY

/-- A value of zero bytes with a kind, and an `elem_type` for an array. -/
def chivm_val_t.zero (kind elem_type : chivm_vkind_t) : chivm_val_t :=
  match kind with
  | .VAL_NONE => .none
  | .VAL_INT => .int 0
  | .VAL_BOOL => .bool false
  | .VAL_STRING => .string []
  | .VAL_CHAR => .char 0
  | .VAL_ARRAY => .array 0 0 elem_type

/-- `decl_elem` is for the proofs: the element kind of the last declaration, which the source does not keep. -/
structure chivm_var_t where
  name : List UInt8
  decl_kind : chivm_vkind_t
  decl_elem : chivm_vkind_t
  val : chivm_val_t
  deriving DecidableEq

/-- `vars` has the slots in use, which are the first ones; `lines` are the lines that `tty_readline` returns, and
`read` how many it has returned. -/
structure Vm where
  vars : List chivm_var_t
  pool : Nat → chivm_val_t
  pool_next : Nat
  out : List UInt8
  lines : Nat → List UInt8
  read : Nat

def vm_reset (lines : Nat → List UInt8) : Vm := ⟨[], fun _ => .none, 0, [], lines, 0⟩

abbrev VmExec := Exec Vm

/-! ## Output -/

def tty_print (s : List UInt8) : VmExec Unit := Exec.modify fun vm => { vm with out := vm.out ++ s }

/-- The digits of a number, the last one first; `fuel` is the size of `buf`. -/
def int_digits : (fuel : Nat) → (v : Nat) → List UInt8
  | 0, _ => []
  | fuel + 1, v => if v = 0 then [] else ('0'.toUInt8 + UInt8.ofNat (v % 10)) :: int_digits fuel (v / 10)

def vm_print_int (v : Int32) : List UInt8 :=
  if v = 0 then ['0'.toUInt8]
  else
    let sign := if v < 0 then ['-'.toUInt8] else []
    let v := if v < 0 then -v else v
    sign ++ (int_digits 20 v.toInt.toNat).reverse

def vm_error {α : Type} (msg : String) : VmExec α := do
  tty_print (ascii "[chivm] error: ")
  tty_print (ascii msg)
  tty_print (ascii "\n")
  Exec.error

/-- A parser that can return 0 without a message. -/
def parsed {α : Type} : Option α → VmExec α
  | some a => pure a
  | none => Exec.error

/-- An element of an array, as `vm_print_val` prints it. -/
def print_elem (print : chivm_val_t → Option (List UInt8)) : chivm_val_t → Option (List UInt8)
  | .string s => some (ascii "\"" ++ s ++ ascii "\"")
  | .char c => some ['\''.toUInt8, c, '\''.toUInt8]
  | e => print e

/-- The elements from index `i` on, `n` of them. -/
def print_elems (print : chivm_val_t → Option (List UInt8)) (pool : Nat → chivm_val_t) (pool_start i : Nat) :
    (n : Nat) → Option (List UInt8)
  | 0 => some []
  | n + 1 => do
    let e ← print_elem print (pool (pool_start + i))
    let rest ← print_elems print pool pool_start (i + 1) n
    some ((if i > 0 then ascii ", " else []) ++ e ++ rest)

/-- The characters of a value, with arrays followed into each other at most `fuel` deep. -/
def vm_print_val : (fuel : Nat) → (pool : Nat → chivm_val_t) → chivm_val_t → Option (List UInt8)
  | 0, _, _ => none
  | fuel + 1, pool, v =>
    match v with
    | .none => some []
    | .int i => some (vm_print_int i)
    | .bool b => some (if b then ascii "true" else ascii "false")
    | .string s => some s
    | .char c => some [c]
    | .array pool_start count _ => do
      let elems ← print_elems (vm_print_val fuel pool) pool pool_start 0 count
      some (ascii "[" ++ elems ++ ascii "]")

/-! ## Words and literals -/

def is_space (c : UInt8) : Bool :=
  c == ' '.toUInt8 || c == '\t'.toUInt8 || c == '\n'.toUInt8 || c == '\r'.toUInt8

def is_ident_start (c : UInt8) : Bool :=
  c == '_'.toUInt8 || ('a'.toUInt8 ≤ c && c ≤ 'z'.toUInt8) || ('A'.toUInt8 ≤ c && c ≤ 'Z'.toUInt8)

def is_ident_char (c : UInt8) : Bool := is_ident_start c || ('0'.toUInt8 ≤ c && c ≤ '9'.toUInt8)

def skip_ws (p : Text) : Text := p.dropWhile is_space

/-- `strncmp(p, word, n) == 0 && !is_ident_char(p[n])`. -/
def keyword (p : Text) (word : String) : Bool :=
  (ascii word).isPrefixOf p && !is_ident_char (peek p (ascii word).length)

def parse_ident (p : Text) (out_len : Nat) : Option (List UInt8 × Text) :=
  let p := skip_ws p
  if !is_ident_start (peek p 0) then none
  else
    let name := p.takeWhile is_ident_char
    if name.length > out_len - 1 then none else some (name, p.drop name.length)

def is_dec (c : UInt8) : Bool := '0'.toUInt8 ≤ c && c ≤ '9'.toUInt8

def parse_int_lit (p : Text) : Option (Int32 × Text) :=
  let p := skip_ws p
  let sign : Int32 := if peek p 0 = '-'.toUInt8 then -1 else 1
  let p := if peek p 0 = '-'.toUInt8 then p.drop 1 else p
  let digits := p.takeWhile is_dec
  if digits = [] then none
  else
    let value := digits.foldl (fun value c => value * 10 + Int32.ofNat (c - '0'.toUInt8).toNat) 0
    some (sign * value, p.drop digits.length)

/-- The character that follows a backslash in a string. -/
def string_escape (c : UInt8) : Option UInt8 :=
  if c = 'n'.toUInt8 then some '\n'.toUInt8
  else if c = 't'.toUInt8 then some '\t'.toUInt8
  else if c = 'r'.toUInt8 then some '\r'.toUInt8
  else if c = '\\'.toUInt8 then some '\\'.toUInt8
  else if c = '"'.toUInt8 then some '"'.toUInt8
  else none

/-- The loop of `parse_quoted_string` behind the opening quote; `out` is what it has stored. -/
def quoted_chars (out_len : Nat) (out : List UInt8) : Text → Option (List UInt8 × Text)
  | [] => none
  | c :: p =>
    if c = 0 then none
    else if c = '"'.toUInt8 then some (out, p)
    else if c = '\\'.toUInt8 then
      match p with
      | [] => none
      | e :: p' =>
        match string_escape e with
        | some c => if out.length ≥ out_len - 1 then none else quoted_chars out_len (out ++ [c]) p'
        | none => if out.length ≥ out_len - 1 then none else quoted_chars out_len (out ++ [c]) (e :: p')
    else if out.length ≥ out_len - 1 then none
    else quoted_chars out_len (out ++ [c]) p

def parse_quoted_string (p : Text) (out_len : Nat) : Option (List UInt8 × Text) :=
  let p := skip_ws p
  if peek p 0 ≠ '"'.toUInt8 then none else quoted_chars out_len [] (p.drop 1)

/-- The character that follows a backslash between single quotes. -/
def char_escape (c : UInt8) : Option UInt8 :=
  if c = 'n'.toUInt8 then some '\n'.toUInt8
  else if c = 't'.toUInt8 then some '\t'.toUInt8
  else if c = '\''.toUInt8 then some '\''.toUInt8
  else if c = '\\'.toUInt8 then some '\\'.toUInt8
  else none

/-- The character behind the quote is taken also where the text ends there. -/
def parse_char_lit (p : Text) : Option (UInt8 × Text) :=
  let p := skip_ws p
  if peek p 0 ≠ '\''.toUInt8 then none
  else
    let p := p.drop 1
    let c := peek p 0
    let p := p.drop 1
    let escape := if c = '\\'.toUInt8 then char_escape (peek p 0) else none
    let p := if escape.isSome then p.drop 1 else p
    if peek p 0 ≠ '\''.toUInt8 then none else some (escape.getD c, p.drop 1)

/-! ## Variables and the array pool -/

def find_var (vars : List chivm_var_t) (name : List UInt8) : Option chivm_var_t :=
  vars.find? fun v => v.name == name

/-- The table with the variable that `find_var` finds changed. -/
def update_var (name : List UInt8) (f : chivm_var_t → chivm_var_t) : List chivm_var_t → List chivm_var_t
  | [] => []
  | v :: vars => if v.name == name then f v :: vars else v :: update_var name f vars

/-- `alloc_var`, with the table that it leaves. -/
def alloc_var (vars : List chivm_var_t) (name : List UInt8) (decl_kind decl_elem : chivm_vkind_t) :
    Option (List chivm_var_t) :=
  match find_var vars name with
  | some _ => some vars
  | none =>
    if vars.length ≥ CHIVM_MAX_VARS then none
    else
      let kind := if decl_kind = .VAL_NONE then .VAL_INT else decl_kind
      some (vars ++ [⟨name.take (CHIVM_MAX_NAME_LEN - 1), decl_kind, decl_elem, .zero kind .VAL_NONE⟩])

/-- `alloc_array_pool`, and the loop that copies the elements of a literal. -/
def alloc_array_pool (elems : List chivm_val_t) (vm : Vm) : Option (Nat × Vm) :=
  if vm.pool_next + elems.length > CHIVM_ARRAY_POOL_CAP then none
  else
    let start := vm.pool_next
    let pool := fun k => if start ≤ k ∧ k < start + elems.length then elems.getD (k - start) .none else vm.pool k
    some (start, { vm with pool, pool_next := start + elems.length })

end graceos.chivm
