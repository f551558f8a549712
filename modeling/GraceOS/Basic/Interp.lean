import Mathlib.Algebra.Order.Ring.Int
import Mathlib.Data.List.Basic

/-!
# GraceBASIC

The statements and the run loop of `basic.c`. A C string is the list of its characters before the NUL.
-/

namespace graceos.basic

/-- `struct basic_line`. -/
structure Line where
  number : Int
  text : List Char

/-- `struct basic_state`, with the keys that will be pressed and what was printed and logged. -/
structure State where
  lines : List Line
  vars : Nat → Int
  pc : Nat
  running : Bool
  keys : List Char
  tty : List Char
  logs : List String

/-- The value of a 32-bit `int`. -/
def int (x : Int) : Int := x.bmod (2 ^ 32)

def is_digit (c : Char) : Bool := '0' ≤ c && c ≤ '9'

def is_space (c : Char) : Bool := c == ' ' || c == '\t'

/-- The loop of `parse_int` over the digits. -/
def parse_digits (value : Int) : List Char → Int
  | [] => value
  | c :: str => if is_digit c then parse_digits (int (int (value * 10) + (c.toNat - '0'.toNat))) str else value

def parse_int (str : List Char) : Option Int :=
  let negative := str.head? == some '-'
  let str := if negative then str.tail else str
  if !(str.head?.any is_digit) then none
  else some (if negative then int (-parse_digits 0 str) else parse_digits 0 str)

def skip_whitespace (str : List Char) : List Char := str.dropWhile is_space

def get_var (name : Char) : Option Nat :=
  if 'A' ≤ name && name ≤ 'Z' then some (name.toNat - 'A'.toNat)
  else if 'a' ≤ name && name ≤ 'z' then some (name.toNat - 'a'.toNat)
  else none

def eval_expr (s : State) (expr : List Char) : Int :=
  let expr := skip_whitespace expr
  match expr.head?.bind get_var with
  | some var => s.vars var
  | none => (parse_int expr).getD 0

/-- The characters of `print_int`. -/
def print_int (value : Int) : List Char :=
  if value < 0 then '-' :: (if int (-value) < 0 then [] else (Nat.repr (-value).toNat).toList)
  else (Nat.repr value.toNat).toList

def tty_print (text : List Char) (s : State) : State := { s with tty := s.tty ++ text }

def log (text : String) (s : State) : State := { s with logs := s.logs ++ [text] }

def set_var (var : Nat) (value : Int) (s : State) : State :=
  { s with vars := fun v => if v = var then value else s.vars v }

/-! ## Statements -/

def cmd_print (args : List Char) (s : State) : State :=
  let args := skip_whitespace args
  if args.head? == some '"' then tty_print (args.tail.takeWhile (· != '"') ++ ['\n']) s
  else tty_print (print_int (eval_expr s args) ++ ['\n']) s

def cmd_let (args : List Char) (s : State) : State :=
  match skip_whitespace args with
  | [] => log "Invalid variable name" s
  | name :: args =>
    match get_var name with
    | none => log "Invalid variable name" s
    | some var =>
      let args := skip_whitespace args
      if args.head? != some '=' then log "Expected '=' in LET statement" s
      else set_var var (eval_expr s args.tail) s

/-- The loop of `cmd_input` with what it echoes; nothing while it waits for a key. -/
def read_number (keys buffer echo : List Char) : Option (List Char × List Char × List Char) :=
  if buffer.length ≥ 31 then some (keys, buffer, echo)
  else match keys with
    | [] => none
    | c :: keys =>
      if c == '\n' || c == '\r' then some (keys, buffer, echo)
      else if c == '\x08' && !buffer.isEmpty then read_number keys buffer.dropLast (echo ++ ['\x08', ' ', '\x08'])
      else if is_digit c || (c == '-' && buffer.isEmpty) then read_number keys (buffer ++ [c]) (echo ++ [c])
      else read_number keys buffer echo

def cmd_input (args : List Char) (s : State) : Option State :=
  match (skip_whitespace args).head?.bind get_var with
  | none => some (log "Invalid variable name" s)
  | some var => do
    let (keys, buffer, echo) ← read_number s.keys [] []
    let s := tty_print (['?', ' '] ++ echo ++ ['\n']) { s with keys }
    match parse_int buffer with
    | none => some s
    | some value => some (set_var var value s)

/-- The index of the line with a number. -/
def find_line (lines : List Line) (line_num : Int) : Option Nat := lines.findIdx? (·.number == line_num)

def cmd_goto (args : List Char) (s : State) : State :=
  match parse_int args with
  | none => log "Invalid line number" s
  | some line_num =>
    match find_line s.lines line_num with
    | none => log "Undefined line number" s
    | some i => { s with pc := i }

def cmd_if (_args : List Char) (s : State) : State := log "IF not fully implemented yet" s

def cmd_end (s : State) : State := { s with running := false }

/-- `strncmp(line, keyword, strlen(keyword)) == 0`. -/
def starts (keyword line : List Char) : Bool := keyword.isPrefixOf line

def PRINT : List Char := ['P', 'R', 'I', 'N', 'T']
def LET : List Char := ['L', 'E', 'T']
def INPUT : List Char := ['I', 'N', 'P', 'U', 'T']
def GOTO : List Char := ['G', 'O', 'T', 'O']
def IF : List Char := ['I', 'F']
def END : List Char := ['E', 'N', 'D']
def REM : List Char := ['R', 'E', 'M']

/-- Nothing while an `INPUT` waits for a key. -/
def execute_line (line : List Char) (s : State) : Option State :=
  let line := skip_whitespace line
  if starts PRINT line then some (cmd_print (line.drop 5) s)
  else if starts LET line then some (cmd_let (line.drop 3) s)
  else if starts INPUT line then cmd_input (line.drop 5) s
  else if starts GOTO line then some (cmd_goto (line.drop 4) s)
  else if starts IF line then some (cmd_if (line.drop 2) s)
  else if starts END line then some (cmd_end s)
  else if starts REM line then some s
  else if !line.isEmpty then some (log "Unknown command" s)
  else some s

/-! ## The run loop -/

/-- The state with which the loop of `cmd_run` begins. -/
def run_start (s : State) : State := { s with pc := 0, running := true }

/-- The index of the line that the loop executes next. -/
def current (s : State) : Option Nat := if s.running && s.pc < s.lines.length then some s.pc else none

/-- One turn of the loop. -/
def turn (s : State) : Option State := do
  let i ← current s
  let line ← s.lines[i]?
  let s ← execute_line line.text s
  some { s with pc := s.pc + 1 }

/-- Any number of turns. -/
inductive Run : State → State → Prop
  | refl (s : State) : Run s s
  | tail {s s' s'' : State} : Run s s' → turn s' = some s'' → Run s s''

end graceos.basic
