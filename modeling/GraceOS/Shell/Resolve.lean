import GraceOS.Bfs.Files
import GraceOS.Lib.Separated
import GraceOS.Lib.Traced

/-!
# Paths of the shell

`shell_resolve_path` of `shell.c` collects the segments of a path in a table on the stack and joins them. Which of them
there are at the end is told by a walk over the parts of the input.
-/

namespace graceos.shell

open bfs separated traced

/-- A string: the characters before the terminating NUL. -/
abbrev CString := FileName

def SLASH : Int8 := 47
def DOT : Int8 := 46
def SHELL_PATH_MAX : Nat := 64
def SHELL_MAX_SEGMENTS : Nat := 16
def SHELL_SEGMENT_MAX : Nat := 24

/-! ## The table of segments -/

/-- `segments[SHELL_MAX_SEGMENTS][SHELL_SEGMENT_MAX]`, with what was on the stack before. -/
abbrev Table := Nat → Nat → Int8

/-- What is done to the table, up to a return in between. The events are the places that are written. -/
abbrev Resolving := OptionT (Traced (Nat × Nat))

/-- `segments[i][j] = c`. -/
def put (segments : Table) (i j : Nat) (c : Int8) : Traced (Nat × Nat) Table :=
  ⟨[(i, j)], fun a b => if a = i ∧ b = j then c else segments a b⟩

/-- The loop over the characters of a segment of the current directory. -/
def seed_segment (seg_count : Nat) : (seg_len : Nat) → List Int8 → Table → Resolving Table
  | _, [], segments => pure segments
  | seg_len, c :: rest, segments =>
    if seg_len + 1 ≥ SHELL_SEGMENT_MAX then failure
    else do
      let segments ← put segments seg_count seg_len c
      seed_segment seg_count (seg_len + 1) rest segments

/-- The loop over the current directory. -/
def seed (segments : Table) (seg_count : Nat) (c : List Int8) : Resolving (Table × Nat) :=
  if _ : c.dropWhile (· = SLASH) = [] then pure (segments, seg_count)
  else do
    let segment := (c.dropWhile (· = SLASH)).takeWhile (· ≠ SLASH)
    let segments ← seed_segment seg_count 0 segment segments
    if segment.length > 0 then
      if seg_count ≥ SHELL_MAX_SEGMENTS then failure
      else do
        let segments ← put segments seg_count segment.length 0
        seed segments (seg_count + 1) ((c.dropWhile (· = SLASH)).dropWhile (· ≠ SLASH))
    else seed segments seg_count ((c.dropWhile (· = SLASH)).dropWhile (· ≠ SLASH))
termination_by c.length
decreasing_by all_goals exact rest_lt ‹_›

/-- `segments[seg_count][i] = seg_start[i]` for the characters of a segment. -/
def copy_segment (seg_count : Nat) : (i : Nat) → List Int8 → Table → Traced (Nat × Nat) Table
  | _, [], segments => pure segments
  | i, c :: rest, segments => do
    let segments ← put segments seg_count i c
    copy_segment seg_count (i + 1) rest segments

/-- The loop over the input. -/
def apply_input (segments : Table) (seg_count : Nat) (p : List Int8) : Resolving (Table × Nat) :=
  if _ : p.dropWhile (· = SLASH) = [] then pure (segments, seg_count)
  else
    let segment := (p.dropWhile (· = SLASH)).takeWhile (· ≠ SLASH)
    -- the characters are counted, and the 24th is one too many
    if segment.length ≥ SHELL_SEGMENT_MAX then failure
    else if segment = [DOT] then
      apply_input segments seg_count ((p.dropWhile (· = SLASH)).dropWhile (· ≠ SLASH))
    else if segment = [DOT, DOT] then
      apply_input segments (if seg_count > 0 then seg_count - 1 else seg_count)
        ((p.dropWhile (· = SLASH)).dropWhile (· ≠ SLASH))
    else if seg_count ≥ SHELL_MAX_SEGMENTS then failure
    else do
      let segments ← copy_segment seg_count 0 segment segments
      let segments ← put segments seg_count segment.length 0
      apply_input segments (seg_count + 1) ((p.dropWhile (· = SLASH)).dropWhile (· ≠ SLASH))
termination_by p.length
decreasing_by all_goals exact rest_lt ‹_›

/-! ## The output -/

/-- Memory from some place on. -/
abbrev Buffer := Nat → Int8

def Buffer.set (out : Buffer) (pos : Nat) (c : Int8) : Buffer := fun k => if k = pos then c else out k

/-- The characters in front of the NUL of a row of the table. -/
def strlen (row : Nat → Int8) : Nat := ((List.range SHELL_SEGMENT_MAX).takeWhile (row · ≠ 0)).length

/-- `out[pos++] = segments[i][j]` for the characters of a segment. -/
def copy_out (row : Nat → Int8) (pos seg_len : Nat) (out : Buffer) : Buffer :=
  (List.range seg_len).foldl (fun out j => out.set (pos + j) (row j)) out

/-- The loop over the segments; without a position it returns 0. -/
def write_out (segments : Table) (out_len : Int) : List Nat → (pos : Nat) → Buffer → Buffer × Option Nat
  | [], pos, out => (out, some pos)
  | i :: rest, pos, out =>
    let seg_len := strlen (segments i)
    if ((pos + (if pos > 1 then 1 else 0) + seg_len : Nat) : Int) ≥ out_len then (out, none)
    else
      let (out, pos) := if pos > 1 then (out.set pos SLASH, pos + 1) else (out, pos)
      write_out segments out_len rest (pos + seg_len) (copy_out (segments i) pos seg_len out)

/-- The segments of the current directory for a relative path, and then those of the input. -/
def collect (shell_cwd input : CString) (stack : Table) : Resolving (Table × Nat) := do
  let (segments, seg_count) ←
    if input.chars.head? ≠ some SLASH then seed stack 0 shell_cwd.chars else pure (stack, 0)
  apply_input segments seg_count input.chars

/-- Normalize an input path against the current working directory. -/
def shell_resolve_path (shell_cwd input : CString) (stack : Table) (out : Buffer) (out_len : Int) :
    Traced (Nat × Nat) (Int × Buffer) :=
  if out_len < 2 then pure (0, out)
  else do
    match ← (collect shell_cwd input stack).run with
    | none => pure (0, out)
    | some (segments, seg_count) =>
      match write_out segments out_len (List.range seg_count) 1 (out.set 0 SLASH) with
      | (out, none) => pure (0, out)
      | (out, some pos) =>
        -- root is not a valid file path
        pure (if pos = 1 then 0 else 1, out.set pos 0)

/-! ## The walk -/

/-- What a part of the input does to the segments. -/
def enter (ps : List (List Int8)) (p : List Int8) : Option (List (List Int8)) :=
  if p.length ≥ SHELL_SEGMENT_MAX then none
  else if p = [DOT] then some ps
  else if p = [DOT, DOT] then some ps.dropLast
  else if ps.length ≥ SHELL_MAX_SEGMENTS then none
  else some (ps ++ [p])

def walk (ps parts : List (List Int8)) : Option (List (List Int8)) := parts.foldlM enter ps

/-- The path with some segments. -/
def text (ps : List (List Int8)) : List Int8 := if ps = [] then [SLASH] else spelled SLASH ps

/-- The first segments whose path fits a buffer. -/
def fitting (out_len : Int) (found : List (List Int8)) : List (List Int8) → List (List Int8)
  | [] => found
  | p :: ps => if ((text (found ++ [p])).length : Int) ≥ out_len then found else fitting out_len (found ++ [p]) ps

/-- The buffer with characters at its start. -/
def Buffer.store (out : Buffer) (s : List Int8) : Buffer := fun k => s.getD k (out k)

end graceos.shell
