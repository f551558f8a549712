import GraceOS.Lib.Ring
import GraceOS.Video.Wrap
import Mathlib.Algebra.Order.Ring.Int

/-!
# Reading a line

`tty_readline` of `tty.c`, with the history of the lines that were read. The arrow keys go through the history, and the
line that was typed before comes back below it. With a full history the oldest entry is where the next one goes, and the
keys find nothing.
-/

namespace graceos.video.tty

open ring List

def HISTORY_SIZE : Nat := 32

def HISTORY_LINE_LEN : Nat := 256

def KEY_SPECIAL_UP : UInt8 := 0x80

def KEY_SPECIAL_DOWN : UInt8 := 0x81

/-- The entries of the history, with the text that each one holds. -/
structure Recall where
  history : Nat → List UInt8
  history_count : Nat
  history_write_idx : Nat
  history_browse_idx : Nat

def history_add (s : Recall) (cmd : List UInt8) : Recall :=
  if cmd = [] then s
  else if s.history_count > 0 ∧ cmd = s.history ((s.history_write_idx + HISTORY_SIZE - 1) % HISTORY_SIZE) then s
  else
    { s with
      history := Function.update s.history s.history_write_idx (cmd.take (HISTORY_LINE_LEN - 1))
      history_write_idx := (s.history_write_idx + 1) % HISTORY_SIZE
      history_count := if s.history_count < HISTORY_SIZE then s.history_count + 1 else s.history_count }

def clear_input_line (t : Tty) (start_x start_y len : Nat) : Tty :=
  let t := tty_set_cursor t start_x start_y
  let t := each len (fun _ t => tty_putchar t 0x20) t
  tty_set_cursor t start_x start_y

/-- The variables of `tty_readline`. The buffer is given by its characters before `pos`. -/
structure Reader where
  screen : Tty
  kept : Recall
  buffer : List UInt8
  start_x : Nat
  start_y : Nat
  temp_buffer : List UInt8
  saved_current : Bool
  /-- `temp_buffer` was written behind its end. -/
  overrun : Bool
  returned : Bool

/-- The loops that copy a text to the buffer and to the screen. -/
def load (max_len : Nat) (r : Reader) (text : List UInt8) : Reader :=
  let screen := clear_input_line r.screen r.start_x r.start_y r.buffer.length
  { r with screen := (text.take (max_len - 1)).foldl tty_putchar screen, buffer := text.take (max_len - 1) }

def save_current (r : Reader) : Reader :=
  if r.saved_current then r
  else
    { r with
      temp_buffer := r.buffer.take (HISTORY_LINE_LEN - 1)
      saved_current := true
      overrun := r.overrun ∨ r.buffer.length ≥ HISTORY_LINE_LEN }

def key_up (max_len : Nat) (r : Reader) : Reader :=
  if r.kept.history_count > 0 then
    let r := save_current r
    let prev_idx := (r.kept.history_browse_idx + HISTORY_SIZE - 1) % HISTORY_SIZE
    let start_idx := (r.kept.history_write_idx + HISTORY_SIZE - r.kept.history_count) % HISTORY_SIZE
    if r.kept.history_browse_idx ≠ start_idx then
      load max_len { r with kept := { r.kept with history_browse_idx := prev_idx } } (r.kept.history prev_idx)
    else r
  else r

def key_down (max_len : Nat) (r : Reader) : Reader :=
  if r.saved_current then
    if r.kept.history_browse_idx ≠ r.kept.history_write_idx then
      let next_idx := (r.kept.history_browse_idx + 1) % HISTORY_SIZE
      let r := { r with kept := { r.kept with history_browse_idx := next_idx } }
      if next_idx = r.kept.history_write_idx then { load max_len r r.temp_buffer with saved_current := false }
      else load max_len r (r.kept.history next_idx)
    else r
  else r

/-- One turn of the loop, with the character that the keyboard gives. `elapsed` is for the blinking cursor. -/
structure Key where
  elapsed : Bool
  c : UInt8

def readline_step (max_len : Nat) (r : Reader) (k : Key) : Reader :=
  if r.returned then r
  else
    let r := { r with screen := tty_cursor_blink_tick r.screen k.elapsed }
    if k.c = 0 then r
    else
      let r := { r with screen := tty_cursor_activity r.screen }
      if k.c = 0x03 then
        { r with buffer := [], screen := tty_newline (tty_print r.screen [0x5E, 0x43]), returned := true }
      else if k.c = 0x0A then
        { r with
          kept := if r.buffer.length > 0 then history_add r.kept r.buffer else r.kept
          screen := tty_newline r.screen
          returned := true }
      else if k.c = 0x08 then
        if r.buffer.length > 0 then { r with buffer := r.buffer.dropLast, screen := tty_putchar r.screen 0x08 } else r
      else if k.c = KEY_SPECIAL_UP then key_up max_len r
      else if k.c = KEY_SPECIAL_DOWN then key_down max_len r
      else if 32 ≤ k.c.toNat ∧ k.c.toNat < 127 then
        if r.buffer.length < max_len - 1 then
          { r with buffer := r.buffer ++ [k.c], screen := tty_putchar r.screen k.c } else r
      else r

/-- The state in which `tty_readline` comes to its loop. -/
def readline_start (t : Tty) (s : Recall) : Reader :=
  { screen := t, kept := { s with history_browse_idx := s.history_write_idx }, buffer := [], start_x := t.cursor_x
    start_y := t.cursor_y, temp_buffer := [], saved_current := false, overrun := false, returned := false }

def tty_readline (max_len : Nat) (t : Tty) (s : Recall) (keys : List Key) : Reader :=
  machine.run (readline_step max_len) (readline_start t s) keys

/-! ## An editor with a list of lines -/

/-- A line, the lines before it, and how many of these the editor has gone back. -/
structure Editor where
  past : List (List UInt8)
  back : Nat
  draft : List UInt8
  line : List UInt8
  returned : Bool

namespace Editor

/-- The lines that the arrow keys find. -/
def found (e : Editor) : List (List UInt8) := if e.past.length < HISTORY_SIZE then e.past else []

/-- A line is kept, unless it is empty or repeats the last one. -/
def keep (past : List (List UInt8)) (line : List UInt8) : List (List UInt8) :=
  if line = [] ∨ past.getLast? = some line then past else past ++ [line]

def up (max_len : Nat) (e : Editor) : Editor :=
  match e.found.reverse[e.back]? with
  | some line =>
    { e with back := e.back + 1, draft := if e.back = 0 then e.line else e.draft, line := line.take (max_len - 1) }
  | none => e

def down (max_len : Nat) (e : Editor) : Editor :=
  match e.back with
  | 0 => e
  | 1 => { e with back := 0, line := e.draft.take (max_len - 1) }
  | k + 2 => { e with back := k + 1, line := ((e.found.reverse[k]?).getD []).take (max_len - 1) }

def step (max_len : Nat) (e : Editor) (c : UInt8) : Editor :=
  if e.returned then e
  else if c = 0x03 then { e with line := [], returned := true }
  else if c = 0x0A then { e with past := keep e.past e.line, returned := true }
  else if c = 0x08 then { e with line := e.line.dropLast }
  else if c = KEY_SPECIAL_UP then e.up max_len
  else if c = KEY_SPECIAL_DOWN then e.down max_len
  else if 32 ≤ c.toNat ∧ c.toNat < 127 ∧ e.line.length < max_len - 1 then { e with line := e.line ++ [c] }
  else e

def start (past : List (List UInt8)) : Editor := ⟨past, 0, [], [], false⟩

end Editor

/-! ## The reader and the editor -/

/-- The lines `past` were written through the history. -/
structure Stored (s : Recall) (past : List (List UInt8)) : Prop where
  latest : Latest s.history HISTORY_SIZE past
  write : s.history_write_idx = past.length % HISTORY_SIZE
  count : s.history_count = min HISTORY_SIZE past.length
  short : ∀ l ∈ past, l.length < HISTORY_LINE_LEN

/-- What the reader is in the middle of is what the editor is. -/
structure Edits (max_len : Nat) (r : Reader) (e : Editor) : Prop where
  stored : Stored r.kept e.past
  line : r.buffer = e.line
  returned : r.returned = e.returned
  overrun : r.overrun = false
  short : e.line.length < max_len
  back_le : e.returned = false → e.back ≤ e.found.length
  browse : e.returned = false → r.kept.history_browse_idx = (e.past.length - e.back) % HISTORY_SIZE
  saved : e.returned = false → 0 < e.back → r.saved_current = true ∧ r.temp_buffer = e.draft
  fresh : e.returned = false → e.back = 0 → r.saved_current = true → HISTORY_SIZE ≤ e.past.length

variable {max_len : Nat} {r : Reader} {e : Editor} {s : Recall} {past : List (List UInt8)}

theorem Stored.add (h : Stored s past) {line : List UInt8} (hlen : line.length < HISTORY_LINE_LEN) :
    Stored (history_add s line) (Editor.keep past line) := by
  have hcount := h.count
  have hwrite := h.write
  unfold history_add Editor.keep
  by_cases hempty : line = []
  · rw [if_pos hempty, if_pos (Or.inl hempty)]
    exact h
  rw [if_neg hempty]
  have hlast : (s.history_count > 0 ∧ line = s.history ((s.history_write_idx + HISTORY_SIZE - 1) % HISTORY_SIZE)) ↔
      past.getLast? = some line := by
    by_cases hnil : past = []
    · subst hnil
      simp [hcount]
    · have hpos := List.length_pos_iff.mpr hnil
      have hlt : past.length - 1 < past.length := by omega
      have hat := h.latest (past.length - 1) _ (List.getElem?_eq_getElem hlt) (by simp only [HISTORY_SIZE]; omega)
      have hidx : (s.history_write_idx + HISTORY_SIZE - 1) % HISTORY_SIZE = (past.length - 1) % HISTORY_SIZE := by
        simp only [HISTORY_SIZE] at hwrite ⊢
        omega
      have hcount' : s.history_count > 0 := by
        simp only [HISTORY_SIZE] at hcount
        omega
      rw [hidx, hat, List.getLast?_eq_getElem?, List.getElem?_eq_getElem hlt, Option.some_inj]
      exact ⟨fun hboth => hboth.2.symm, fun heq => ⟨hcount', heq.symm⟩⟩
  by_cases hsame : past.getLast? = some line
  · rw [if_pos (hlast.mpr hsame), if_pos (Or.inr hsame)]
    exact h
  · rw [if_neg (fun hin => hsame (hlast.mp hin)), if_neg (not_or.mpr ⟨hempty, hsame⟩)]
    refine ⟨?_, ?_, ?_, fun l hl => ?_⟩
    · dsimp only
      rw [hwrite, take_of_length_le (by omega)]
      exact h.latest.push line
    · dsimp only
      rw [hwrite, Nat.mod_add_mod, length_append, length_singleton]
    · dsimp only
      rw [length_append, length_singleton]
      split <;> omega
    · rcases List.mem_append.mp hl with hl | hl
      · exact h.short l hl
      · rw [List.mem_singleton.mp hl]
        exact hlen

theorem length_found (e : Editor) :
    e.found.length = if e.past.length < HISTORY_SIZE then e.past.length else 0 := by
  unfold Editor.found
  split <;> rfl

theorem Stored.entry (h : Stored s e.past) {k : Nat} (hk : k < e.found.length) :
    e.found.reverse[k]? = some (s.history ((e.past.length - (k + 1)) % HISTORY_SIZE)) ∧
      e.past.length < HISTORY_SIZE := by
  have hlength := length_found e
  by_cases hfew : e.past.length < HISTORY_SIZE
  · rw [if_pos hfew] at hlength
    have hin : e.past.length - (k + 1) < e.past.length := by omega
    rw [h.latest _ _ (List.getElem?_eq_getElem hin) (by omega), List.getElem?_reverse hk, Editor.found, if_pos hfew,
      ← List.getElem?_eq_getElem hin]
    refine ⟨?_, hfew⟩
    congr 1
    omega
  · rw [if_neg hfew] at hlength
    omega

theorem Edits.edit (h : Edits max_len r e) {line : List UInt8} (hlen : line.length < max_len) (screen : Tty) :
    Edits max_len { r with screen := screen, buffer := line } { e with line := line } :=
  ⟨h.stored, rfl, h.returned, h.overrun, hlen, h.back_le, h.browse, h.saved, h.fresh⟩

theorem length_take_short (hpos : 0 < max_len) (text : List UInt8) : (text.take (max_len - 1)).length < max_len := by
  rw [length_take]
  omega

theorem Edits.up (h : Edits max_len r e) (hlen : 0 < max_len ∧ max_len ≤ HISTORY_LINE_LEN) (hnot : e.returned = false) :
    Edits max_len (key_up max_len r) (e.up max_len) := by
  have hcount := h.stored.count
  have hwrite := h.stored.write
  have hback := h.back_le hnot
  have hbrowse := h.browse hnot
  have hlength := length_found e
  unfold key_up Editor.up
  by_cases hnone : e.past.length = 0
  · rw [if_neg (by omega), List.getElem?_eq_none (by rw [length_reverse, hlength]; split <;> omega)]
    exact h
  rw [if_pos (by simp only [HISTORY_SIZE] at hcount; omega)]
  have hsave : (save_current r).kept = r.kept ∧ (save_current r).buffer = r.buffer ∧
      (save_current r).saved_current = true ∧ (save_current r).overrun = false ∧
        (save_current r).returned = r.returned ∧
      (save_current r).temp_buffer = if r.saved_current then r.temp_buffer else r.buffer := by
    have hshort : r.buffer.length < HISTORY_LINE_LEN := by
      have := h.short
      rw [h.line]
      omega
    unfold save_current
    split
    · exact ⟨rfl, rfl, ‹_›, h.overrun, rfl, rfl⟩
    · refine ⟨rfl, rfl, rfl, ?_, rfl, take_of_length_le (by omega)⟩
      simp only [h.overrun, Bool.false_eq_true, false_or, decide_eq_false_iff_not]
      omega
  obtain ⟨hrecall, hbuffer, hsaved, hoverrun, hreturned, htemp⟩ := hsave
  generalize save_current r = r1 at hrecall hbuffer hsaved hoverrun hreturned htemp
  dsimp only
  rw [hrecall]
  by_cases hmore : e.back < e.found.length
  · obtain ⟨hentry, hfew⟩ := h.stored.entry hmore
    rw [if_pos hfew] at hlength
    have hmoves : r.kept.history_browse_idx ≠
        (r.kept.history_write_idx + HISTORY_SIZE - r.kept.history_count) % HISTORY_SIZE := by
      rw [hbrowse, hwrite, hcount]
      simp only [HISTORY_SIZE] at hfew ⊢
      omega
    have hprev : (r.kept.history_browse_idx + HISTORY_SIZE - 1) % HISTORY_SIZE =
        (e.past.length - (e.back + 1)) % HISTORY_SIZE := by
      rw [hbrowse]
      simp only [HISTORY_SIZE] at hfew ⊢
      omega
    rw [if_pos hmoves, hentry, hprev]
    refine ⟨⟨h.stored.latest, h.stored.write, h.stored.count, h.stored.short⟩, rfl,
      hreturned.trans h.returned, hoverrun,
      length_take_short hlen.1 _, fun _ => hmore, fun _ => rfl, fun _ _ => ⟨hsaved, ?_⟩, fun _ hzero => by cases hzero⟩
    change r1.temp_buffer = if e.back = 0 then e.line else e.draft
    rw [htemp]
    by_cases hzero : e.back = 0
    · rw [if_pos hzero, if_neg, h.line]
      intro htrue
      have := h.fresh hnot hzero htrue
      omega
    · obtain ⟨htrue, hdraft⟩ := h.saved hnot (by omega)
      rw [if_neg hzero, if_pos htrue, hdraft]
  · have hstays : ¬ r.kept.history_browse_idx ≠
        (r.kept.history_write_idx + HISTORY_SIZE - r.kept.history_count) % HISTORY_SIZE := by
      rw [hbrowse, hwrite, hcount]
      by_cases hfew : e.past.length < HISTORY_SIZE
      · rw [if_pos hfew] at hlength
        simp only [HISTORY_SIZE] at hfew ⊢
        omega
      · rw [if_neg hfew] at hlength
        simp only [HISTORY_SIZE] at hfew ⊢
        omega
    rw [if_neg hstays, List.getElem?_eq_none (by rw [length_reverse]; omega)]
    dsimp only
    refine ⟨by rw [hrecall]; exact h.stored, hbuffer.trans h.line, hreturned.trans h.returned, hoverrun,
      h.short, h.back_le,
      by rw [hrecall]; exact h.browse, fun hr hpos => ⟨hsaved, ?_⟩, fun hr hzero _ => ?_⟩
    · obtain ⟨htrue, hdraft⟩ := h.saved hr hpos
      rw [htemp, if_pos htrue, hdraft]
    · change e.back = 0 at hzero
      by_contra hfew
      rw [if_pos (by omega)] at hlength
      omega

theorem Edits.down (h : Edits max_len r e) (hlen : 0 < max_len ∧ max_len ≤ HISTORY_LINE_LEN)
    (hnot : e.returned = false) :
    Edits max_len (key_down max_len r) (e.down max_len) := by
  have hcount := h.stored.count
  have hwrite := h.stored.write
  have hback := h.back_le hnot
  have hbrowse := h.browse hnot
  have hlength := length_found e
  unfold key_down Editor.down
  match hzero : e.back with
  | 0 =>
    have hsame : ¬ r.kept.history_browse_idx ≠ r.kept.history_write_idx := by
      rw [hbrowse, hwrite, hzero]
      simp
    rw [if_neg hsame, ite_self]
    exact h
  | k + 1 =>
    obtain ⟨htrue, hdraft⟩ := h.saved hnot (by omega)
    have hfew : e.past.length < HISTORY_SIZE := by
      by_contra hfull
      rw [if_neg hfull] at hlength
      omega
    rw [if_pos hfew] at hlength
    have hmoves : r.kept.history_browse_idx ≠ r.kept.history_write_idx := by
      rw [hbrowse, hwrite, hzero]
      simp only [HISTORY_SIZE] at hfew ⊢
      omega
    have hnext : (r.kept.history_browse_idx + 1) % HISTORY_SIZE = (e.past.length - k) % HISTORY_SIZE := by
      rw [hbrowse, hzero]
      simp only [HISTORY_SIZE] at hfew ⊢
      omega
    rw [if_pos htrue, if_pos hmoves]
    dsimp only
    rw [hnext]
    cases k with
    | zero =>
      rw [if_pos (by rw [hwrite]; rfl), hdraft]
      exact ⟨⟨h.stored.latest, h.stored.write, h.stored.count, h.stored.short⟩, rfl, h.returned, h.overrun,
        length_take_short hlen.1 _, fun _ => Nat.zero_le _, fun _ => rfl, fun _ hpos => absurd hpos (lt_irrefl 0),
        fun _ _ hsaved => by cases hsaved⟩
    | succ k =>
      have hne : (e.past.length - (k + 1)) % HISTORY_SIZE ≠ r.kept.history_write_idx := by
        rw [hwrite]
        simp only [HISTORY_SIZE] at hfew ⊢
        omega
      obtain ⟨hentry, -⟩ := h.stored.entry (k := k) (by omega)
      rw [if_neg hne]
      dsimp only
      rw [hentry]
      exact ⟨⟨h.stored.latest, h.stored.write, h.stored.count, h.stored.short⟩, rfl, h.returned, h.overrun,
        length_take_short hlen.1 _, fun _ => by change k + 1 ≤ e.found.length; omega, fun _ => rfl,
        fun _ _ => ⟨htrue, hdraft⟩, fun _ hz => by cases hz⟩

theorem length_dropLast_short {line : List UInt8} (h : line.length < max_len) : line.dropLast.length < max_len := by
  rw [length_dropLast]
  omega

/-- Every key does to the reader what it does to the editor. -/
theorem Edits.step (h : Edits max_len r e) (hlen : 0 < max_len ∧ max_len ≤ HISTORY_LINE_LEN) (k : Key) :
    Edits max_len (readline_step max_len r k) (e.step max_len k.c) := by
  have hdrawn : ∀ screen, Edits max_len { r with screen := screen } e := fun screen =>
    ⟨h.stored, h.line, h.returned, h.overrun, h.short, h.back_le, h.browse, h.saved, h.fresh⟩
  have hline := h.line
  unfold readline_step Editor.step
  by_cases hreturned : e.returned
  · rw [if_pos (h.returned.trans hreturned), if_pos hreturned]
    exact h
  rw [if_neg (by rw [h.returned]; exact hreturned), if_neg hreturned]
  have hfalse : e.returned = false := by simpa using hreturned
  dsimp only
  by_cases hidle : k.c = 0
  · rw [if_pos hidle, if_neg (by rw [hidle]; decide), if_neg (by rw [hidle]; decide), if_neg (by rw [hidle]; decide),
      if_neg (by rw [hidle]; decide), if_neg (by rw [hidle]; decide), if_neg (by rw [hidle]; simp)]
    exact hdrawn _
  rw [if_neg hidle]
  generalize tty_cursor_activity (tty_cursor_blink_tick r.screen k.elapsed) = screen
  have hend : ∀ {s : Recall} {past : List (List UInt8)} {line : List UInt8} (screen : Tty), Stored s past →
      line.length < max_len → Edits max_len { r with kept := s, screen := screen, buffer := line, returned := true }
        { e with past := past, line := line, returned := true } := fun _ hs hl =>
    ⟨hs, rfl, rfl, h.overrun, hl, fun hr => Bool.noConfusion hr, fun hr => Bool.noConfusion hr,
      fun hr => Bool.noConfusion hr, fun hr => Bool.noConfusion hr⟩
  by_cases hctrl : k.c = 0x03
  · rw [if_pos hctrl, if_pos hctrl]
    exact hend _ h.stored hlen.1
  rw [if_neg hctrl, if_neg hctrl]
  by_cases henter : k.c = 0x0A
  · rw [if_pos henter, if_pos henter]
    have hshort := h.short
    have hadd : Stored (if r.buffer.length > 0 then history_add r.kept r.buffer else r.kept)
        (Editor.keep e.past e.line) := by
      rw [hline]
      split
      · exact h.stored.add (by omega)
      · have hnil : e.line = [] := List.length_eq_zero_iff.mp (by omega)
        rw [Editor.keep, if_pos (Or.inl hnil)]
        exact h.stored
    have hdone := hend (tty_newline screen) hadd hshort
    rw [← hline] at hdone ⊢
    exact hdone
  rw [if_neg henter, if_neg henter]
  by_cases hback : k.c = 0x08
  · rw [if_pos hback, if_pos hback, hline]
    by_cases hpos : e.line.length > 0
    · rw [if_pos hpos]
      exact h.edit (length_dropLast_short h.short) _
    · have hnil : e.line.dropLast = e.line := by rw [List.length_eq_zero_iff.mp (by omega : e.line.length = 0)]; rfl
      rw [if_neg hpos, hnil]
      exact h.edit h.short screen
  rw [if_neg hback, if_neg hback]
  by_cases hup : k.c = KEY_SPECIAL_UP
  · rw [if_pos hup, if_pos hup]
    exact (hdrawn screen).up hlen hfalse
  rw [if_neg hup, if_neg hup]
  by_cases hdown : k.c = KEY_SPECIAL_DOWN
  · rw [if_pos hdown, if_pos hdown]
    exact (hdrawn screen).down hlen hfalse
  rw [if_neg hdown, if_neg hdown]
  by_cases hprint : 32 ≤ k.c.toNat ∧ k.c.toNat < 127
  · rw [if_pos hprint, hline]
    by_cases hroom : e.line.length < max_len - 1
    · rw [if_pos hroom, if_pos ⟨hprint.1, hprint.2, hroom⟩]
      exact h.edit (by rw [length_append, length_singleton]; omega) _
    · rw [if_neg hroom, if_neg (fun hin => hroom hin.2.2)]
      exact h.edit h.short screen
  · rw [if_neg hprint, if_neg (fun hin => hprint ⟨hin.1, hin.2.1⟩)]
    exact hdrawn _

/-! ## Sessions -/

/-- A call of `tty_readline`, with the keys that it is given. -/
structure Call where
  max_len : Nat
  keys : List Key

/-- Calls one after the other, with the line that each returns, and whether `temp_buffer` was overrun. The program
writes to the screen in between. -/
def readlines (t : Nat → Tty) (s : Recall) : List Call → List (List UInt8 × Bool)
  | [] => []
  | call :: calls =>
    let r := tty_readline call.max_len (t calls.length) s call.keys
    (r.buffer, r.overrun) :: readlines t r.kept calls

def Editor.lines (past : List (List UInt8)) : List Call → List (List UInt8 × Bool)
  | [] => []
  | call :: calls =>
    let e := machine.run (Editor.step call.max_len) (Editor.start past) (call.keys.map Key.c)
    (e.line, false) :: Editor.lines e.past calls

def recall_static : Recall := ⟨fun _ => [], 0, 0, 0⟩

theorem edits_start (h : Stored s past) (hlen : 0 < max_len) (t : Tty) :
    Edits max_len (readline_start t s) (Editor.start past) :=
  ⟨⟨h.latest, h.write, h.count, h.short⟩, rfl, rfl, rfl, hlen, fun _ => Nat.zero_le _, fun _ => h.write,
    fun _ hpos => absurd hpos (lt_irrefl 0), fun _ _ hsaved => by cases hsaved⟩

theorem Edits.run (h : Edits max_len r e) (hlen : 0 < max_len ∧ max_len ≤ HISTORY_LINE_LEN) (keys : List Key) :
    Edits max_len (machine.run (readline_step max_len) r keys)
      (machine.run (Editor.step max_len) e (keys.map Key.c)) := by
  induction keys generalizing r e with
  | nil => exact h
  | cons k keys ih => exact ih (h.step hlen k)

theorem Stored.readlines (h : Stored s past) (t : Nat → Tty) {calls : List Call}
    (hcalls : ∀ call ∈ calls, 0 < call.max_len ∧ call.max_len ≤ HISTORY_LINE_LEN) :
    readlines t s calls = Editor.lines past calls := by
  induction calls generalizing s past with
  | nil => rfl
  | cons call calls ih =>
    have hlen := hcalls call mem_cons_self
    have hdone := (edits_start h hlen.1 (t calls.length)).run hlen call.keys
    rw [tty.readlines, Editor.lines, tty_readline, hdone.line, hdone.overrun,
      ih hdone.stored fun c hc => hcalls c (mem_cons_of_mem _ hc)]

theorem stored_static : Stored recall_static [] := ⟨Latest.nil, rfl, rfl, fun l hl => by cases hl⟩

/-- Whatever keys a sequence of calls is given, each call returns the line of the editor, whose arrow keys go through
the lines that were kept, as long as these are fewer than the history holds, and writes nothing behind `temp_buffer`. -/
theorem readlines_edit (t : Nat → Tty) (calls : List Call)
    (hcalls : ∀ call ∈ calls, 0 < call.max_len ∧ call.max_len ≤ HISTORY_LINE_LEN) :
    readlines t recall_static calls = Editor.lines [] calls :=
  stored_static.readlines t hcalls

/-- A line, and the same line again by the arrow key. -/
theorem readlines_edit_twice :
    readlines (fun _ => tty_static) recall_static
      [⟨256, [⟨false, 0x61⟩, ⟨false, 0x0A⟩]⟩, ⟨256, [⟨false, KEY_SPECIAL_UP⟩, ⟨false, 0x0A⟩]⟩] =
    Editor.lines [] [⟨256, [⟨false, 0x61⟩, ⟨false, 0x0A⟩]⟩, ⟨256, [⟨false, KEY_SPECIAL_UP⟩, ⟨false, 0x0A⟩]⟩] :=
  readlines_edit (fun _ => tty_static) _ (by decide)

end graceos.video.tty
