import GraceOS.Quill.Row

/-!
# Editing

The buffer and the cursor of `quill.c`, and what its keys do to them. The buffer notes whether a line behind its end
was ever written.
-/

namespace graceos.quill

def Q_MAX_LINES : Nat := 2048
def Q_COLS : Nat := 79
/-- `struct quill_buffer`. -/
structure Buffer where
  lines : Nat → Row := fun _ => {}
  line_count : Nat := 1
  modified : Bool := false
  filename : List UInt8 := []
  stray : Bool := false

/-- `struct quill_cursor`. -/
structure Cursor where
  x : Nat := 0
  y : Nat := 0

structure Editor where
  buffer : Buffer
  cursor : Cursor

def Buffer.set_line (b : Buffer) (y : Nat) (row : Row) : Buffer :=
  { b with lines := Function.update b.lines y row, stray := b.stray || Q_MAX_LINES ≤ y }

/-! ## Loading -/

/-- The loop of `quill_load` over the file, at `line` and `col`. -/
def load_loop (b : Buffer) (line col : Nat) : List UInt8 → Buffer
  | [] => b
  | c :: data =>
    if line ≥ Q_MAX_LINES then b
    else if c = 13 then load_loop b line col data
    else if c = 10 then
      let line := line + 1
      if line ≥ Q_MAX_LINES then b
      else load_loop { b with line_count := max b.line_count (line + 1) } line 0 data
    else if col < Q_MAX_COLS - 1 then
      let row := ((b.lines line).put col c).put (col + 1) 0
      load_loop (b.set_line line row) line (col + 1) data
    else load_loop b line col data

/-- `quill_load` where `bfs_read_file` returns `r` and leaves `data` in `file_data`. -/
def quill_load (filename : List UInt8) (r : Int) (data : List UInt8) : Buffer :=
  let b : Buffer := { filename := filename.take 127 }
  if filename.isEmpty then b
  else if r ≠ 0 then b
  else { load_loop b 0 0 data with modified := false }

/-- The editor with which `quill_run` begins. -/
def start (b : Buffer) : Editor := { buffer := b, cursor := {} }

/-! ## Keys -/

def quill_insert (c : UInt8) (e : Editor) : Editor :=
  if e.cursor.y ≥ Q_MAX_LINES then e
  else
    let line := e.buffer.lines e.cursor.y
    let len := strlen line.cells
    if len ≥ Q_COLS then e
    else
      let line := (shift_right line e.cursor.x (len + 1 - e.cursor.x)).put e.cursor.x c
      { buffer := { e.buffer.set_line e.cursor.y line with modified := true }
        cursor := { e.cursor with x := e.cursor.x + 1 } }

/-- The loop of `quill_backspace` that moves `n` lines up, from line `i` on. -/
def pull_up (b : Buffer) (i : Nat) : Nat → Buffer
  | 0 => b
  | n + 1 => pull_up (b.set_line i (strcpy (b.lines i) (b.lines (i + 1)).cells)) (i + 1) n

def quill_backspace (e : Editor) : Editor :=
  let x := e.cursor.x
  let y := e.cursor.y
  if x = 0 ∧ y = 0 then e
  else
    let line := e.buffer.lines y
    if x > 0 then
      let line := shift_left line (x - 1) (strlen line.cells - (x - 1))
      { buffer := { e.buffer.set_line y line with modified := true }, cursor := { e.cursor with x := x - 1 } }
    else
      let prev := e.buffer.lines (y - 1)
      let prev_len := strlen prev.cells
      if prev_len + strlen line.cells < Q_MAX_COLS then
        let b := e.buffer.set_line (y - 1) (strcat prev line.cells)
        let b := pull_up b y (b.line_count - 1 - y)
        { buffer := { b with line_count := b.line_count - 1, modified := true }
          cursor := { x := prev_len, y := y - 1 } }
      else e

/-- The loop of `quill_enter` that moves the `n` lines behind line `y + 1` down, the last one first. -/
def push_down (b : Buffer) (y : Nat) : Nat → Buffer
  | 0 => b
  | n + 1 => push_down (b.set_line (y + n + 2) (strcpy (b.lines (y + n + 2)) (b.lines (y + n + 1)).cells)) y n

def quill_enter (e : Editor) : Editor :=
  let x := e.cursor.x
  let y := e.cursor.y
  if e.buffer.line_count ≥ Q_MAX_LINES then e
  else
    let len := strlen (e.buffer.lines y).cells
    let b := push_down e.buffer y (e.buffer.line_count - (y + 1))
    let b :=
      if x < len then
        let line := b.lines y
        let b := b.set_line (y + 1) (strcpy (b.lines (y + 1)) fun k => line.cells (x + k))
        b.set_line y (line.put x 0)
      else b.set_line (y + 1) ((b.lines (y + 1)).put 0 0)
    { buffer := { b with line_count := b.line_count + 1, modified := true }, cursor := { x := 0, y := y + 1 } }

/-- Where the vertical part of `quill_move` puts the cursor. -/
def move_y (dy : Int) (e : Editor) : Nat :=
  if dy = 0 then e.cursor.y
  else
    let y := e.cursor.y + dy
    let y := if y < 0 then 0 else y
    (if y ≥ e.buffer.line_count then (e.buffer.line_count : Int) - 1 else y).toNat

/-- The horizontal part of `quill_move`. -/
def move_x (dx : Int) (b : Buffer) (cursor : Cursor) : Cursor :=
  if dx < 0 then
    if cursor.x > 0 then { cursor with x := cursor.x - 1 }
    else if cursor.y > 0 then { x := strlen (b.lines (cursor.y - 1)).cells, y := cursor.y - 1 }
    else cursor
  else if dx > 0 then
    if cursor.x < strlen (b.lines cursor.y).cells then { cursor with x := cursor.x + 1 }
    else if cursor.y + 1 < b.line_count then { x := 0, y := cursor.y + 1 }
    else cursor
  else cursor

def quill_move (dx dy : Int) (e : Editor) : Editor :=
  let cursor := move_x dx e.buffer { e.cursor with y := move_y dy e }
  { e with cursor := { cursor with x := min cursor.x (strlen (e.buffer.lines cursor.y).cells) } }

inductive Key where
  | insert (c : UInt8)
  | backspace
  | enter
  | move (dx dy : Int)
  | home
  | end_key

/-- The keys that insert are those of the printable characters. -/
def Key.Valid : Key → Prop
  | .insert c => 32 ≤ c ∧ c < 127
  | _ => True

def press (e : Editor) : Key → Editor
  | .insert c => quill_insert c e
  | .backspace => quill_backspace e
  | .enter => quill_enter e
  | .move dx dy => quill_move dx dy e
  | .home => { e with cursor := { e.cursor with x := 0 } }
  | .end_key => { e with cursor := { e.cursor with x := strlen (e.buffer.lines e.cursor.y).cells } }

/-! ## The text -/

/-- The string of a row. -/
def row_text (row : Row) : List UInt8 := (List.range (strlen row.cells)).map row.cells

def Buffer.line_texts (b : Buffer) : List (List UInt8) := (List.range b.line_count).map fun y => row_text (b.lines y)

/-- The lines joined by newlines. -/
def Buffer.text (b : Buffer) : List UInt8 := List.intercalate [10] b.line_texts

/-- The place of the cursor in the text. -/
def Editor.offset (e : Editor) : Nat := ((e.buffer.line_texts.take e.cursor.y).map (·.length + 1)).sum + e.cursor.x

end graceos.quill
