import GraceOS.Lib.Machine
import GraceOS.Lib.Ring

/-!
# The keyboard

The scan codes and the buffer of `keyboard.c`. What the driver makes of a key depends on the codes before it: the
prefix, the modifiers that are held, and the caps lock. The specification reads these off the whole history of codes.
-/

namespace graceos.keyboard

open List

def KB_BUFFER_SIZE : Nat := 256

/-- The state of `keyboard.c`. -/
structure Keyboard where
  kb_buffer : Nat → UInt8
  kb_read_pos : Nat
  kb_write_pos : Nat
  shift_pressed : Bool
  ctrl_pressed : Bool
  alt_pressed : Bool
  capslock_on : Bool
  extended_key : Bool
  kb_ctrl_c_pending : Bool

def scancode_to_ascii : List UInt8 :=
  [0, 0, 0x31, 0x32, 0x33, 0x34, 0x35, 0x36, 0x37, 0x38, 0x39, 0x30, 0x2D, 0x3D, 0x08, 0x09,
   0x71, 0x77, 0x65, 0x72, 0x74, 0x79, 0x75, 0x69, 0x6F, 0x70, 0x5B, 0x5D, 0x0A, 0, 0x61, 0x73,
   0x64, 0x66, 0x67, 0x68, 0x6A, 0x6B, 0x6C, 0x3B, 0x27, 0x60, 0, 0x5C, 0x7A, 0x78, 0x63, 0x76,
   0x62, 0x6E, 0x6D, 0x2C, 0x2E, 0x2F, 0, 0x2A, 0, 0x20, 0, 0, 0, 0, 0, 0,
   0, 0, 0, 0, 0, 0, 0, 0x37, 0x38, 0x39, 0x2D, 0x34, 0x35, 0x36, 0x2B, 0x31,
   0x32, 0x33, 0x30, 0x2E, 0, 0, 0, 0, 0, 0]

def scancode_to_ascii_shift : List UInt8 :=
  [0, 0, 0x21, 0x40, 0x23, 0x24, 0x25, 0x5E, 0x26, 0x2A, 0x28, 0x29, 0x5F, 0x2B, 0x08, 0x09,
   0x51, 0x57, 0x45, 0x52, 0x54, 0x59, 0x55, 0x49, 0x4F, 0x50, 0x7B, 0x7D, 0x0A, 0, 0x41, 0x53,
   0x44, 0x46, 0x47, 0x48, 0x4A, 0x4B, 0x4C, 0x3A, 0x22, 0x7E, 0, 0x7C, 0x5A, 0x58, 0x43, 0x56,
   0x42, 0x4E, 0x4D, 0x3C, 0x3E, 0x3F, 0, 0x2A, 0, 0x20, 0, 0, 0, 0, 0, 0,
   0, 0, 0, 0, 0, 0, 0, 0x37, 0x38, 0x39, 0x2D, 0x34, 0x35, 0x36, 0x2B, 0x31,
   0x32, 0x33, 0x30, 0x2E, 0, 0, 0, 0, 0, 0]

/-- The characters of `KEY_UP` to `KEY_DEL` and `KEY_SPACE` behind the prefix. -/
def special_char (scancode : UInt8) : Option UInt8 :=
  match scancode.toNat with
  | 0x48 => some 0x80
  | 0x50 => some 0x81
  | 0x4B => some 0x82
  | 0x4D => some 0x83
  | 0x47 => some 0x84
  | 0x4F => some 0x85
  | 0x49 => some 0x86
  | 0x51 => some 0x87
  | 0x52 => some 0x88
  | 0x53 => some 0x89
  | 0x39 => some 0x20
  | _ => none

/-- The control characters of the keys between `0x10` and `0x32`. -/
def control_char (scancode : UInt8) : UInt8 :=
  match scancode.toNat with
  | 0x2E => 0x03
  | 0x1F => 0x13
  | 0x2D => 0x18
  | _ => 0

def scancode_to_char (shift_pressed capslock_on : Bool) (scancode : UInt8) : UInt8 :=
  match scancode_to_ascii[scancode.toNat]?, scancode_to_ascii_shift[scancode.toNat]? with
  | some normal, some shifted =>
    if 0x61 ≤ normal.toNat ∧ normal.toNat ≤ 0x7A then if shift_pressed ^^ capslock_on then shifted else normal
    else if shift_pressed ∧ shifted ≠ 0 then shifted
    else normal
  | _, _ => 0

/-- The warning of a full buffer is not kept. -/
def kb_buffer_add (kb : Keyboard) (c : UInt8) : Keyboard :=
  let next_pos := (kb.kb_write_pos + 1) % KB_BUFFER_SIZE
  if next_pos = kb.kb_read_pos then kb
  else { kb with kb_buffer := Function.update kb.kb_buffer kb.kb_write_pos c, kb_write_pos := next_pos }

def process_release (kb : Keyboard) (scancode : UInt8) : Keyboard :=
  if kb.extended_key then
    let kb := { kb with extended_key := false }
    if scancode = 0x1D then { kb with ctrl_pressed := false }
    else if scancode = 0x38 then { kb with alt_pressed := false }
    else kb
  else if scancode = 0x2A ∨ scancode = 0x36 then { kb with shift_pressed := false }
  else if scancode = 0x1D then { kb with ctrl_pressed := false }
  else if scancode = 0x38 then { kb with alt_pressed := false }
  else kb

/-- A key behind the prefix. -/
def process_extended (kb : Keyboard) (scancode : UInt8) : Keyboard :=
  match special_char scancode with
  | some c => kb_buffer_add kb c
  | none =>
    if scancode = 0x1D then { kb with ctrl_pressed := true }
    else if scancode = 0x38 then { kb with alt_pressed := true }
    else kb

def process_press (kb : Keyboard) (scancode : UInt8) : Keyboard :=
  if kb.extended_key then process_extended { kb with extended_key := false } scancode
  else if scancode = 0x2A ∨ scancode = 0x36 then { kb with shift_pressed := true }
  else if scancode = 0x1D then { kb with ctrl_pressed := true }
  else if scancode = 0x38 then { kb with alt_pressed := true }
  else if scancode = 0x3A then { kb with capslock_on := !kb.capslock_on }
  else if kb.ctrl_pressed ∧ 0x10 ≤ scancode.toNat ∧ scancode.toNat ≤ 0x32 then
    let c := control_char scancode
    if c ≠ 0 then kb_buffer_add { kb with kb_ctrl_c_pending := c = 0x03 ∨ kb.kb_ctrl_c_pending } c else kb
  else
    let c := scancode_to_char kb.shift_pressed kb.capslock_on scancode
    if c ≠ 0 then kb_buffer_add kb c else kb

def keyboard_process_scancode (kb : Keyboard) (scancode : UInt8) : Keyboard :=
  if scancode = 0xE0 then { kb with extended_key := true }
  else if scancode &&& 0x80 ≠ 0 then process_release kb (scancode &&& 0x7F)
  else process_press kb scancode

def keyboard_haschar (kb : Keyboard) : Bool := kb.kb_read_pos ≠ kb.kb_write_pos

def keyboard_getchar_nonblocking (kb : Keyboard) : UInt8 × Keyboard :=
  if !keyboard_haschar kb then (0, kb)
  else (kb.kb_buffer kb.kb_read_pos, { kb with kb_read_pos := (kb.kb_read_pos + 1) % KB_BUFFER_SIZE })

def keyboard_consume_ctrl_c (kb : Keyboard) : Bool × Keyboard :=
  if kb.kb_ctrl_c_pending then (true, { kb with kb_ctrl_c_pending := false }) else (false, kb)

def keyboard_clear_ctrl_c (kb : Keyboard) : Keyboard := { kb with kb_ctrl_c_pending := false }

/-- The variables that `keyboard_init` sets. -/
def keyboard_init (kb_buffer : Nat → UInt8) : Keyboard :=
  { kb_buffer, kb_read_pos := 0, kb_write_pos := 0, shift_pressed := false, ctrl_pressed := false, alt_pressed := false
    capslock_on := false, extended_key := false, kb_ctrl_c_pending := false }

/-! ## The history of codes -/

/-- A key that goes down or up. -/
structure Event where
  extended : Bool
  release : Bool
  code : UInt8
deriving DecidableEq

/-- The events of the codes, the first of them behind a prefix or not. -/
def eventsFrom (extended : Bool) : List UInt8 → List Event
  | [] => []
  | c :: codes =>
    if c = 0xE0 then eventsFrom true codes
    else ⟨extended, c &&& 0x80 ≠ 0, if c &&& 0x80 ≠ 0 then c &&& 0x7F else c⟩ :: eventsFrom false codes

def events (codes : List UInt8) : List Event := eventsFrom false codes

/-- The last code is a prefix. -/
def prefixed (codes : List UInt8) : Bool := codes.getLast? = some 0xE0

/-- The last event of these keys was a press. -/
def held (key : Event → Bool) (es : List Event) : Bool := ((es.filter key).getLast?.map fun e => !e.release).getD false

def isShift (e : Event) : Bool := !e.extended && (e.code = 0x2A || e.code = 0x36)

def isCtrl (e : Event) : Bool := e.code = 0x1D

def isAlt (e : Event) : Bool := e.code = 0x38

/-- Presses of the caps lock, also those that the keyboard repeats. -/
def isCaps (e : Event) : Bool := !e.extended && !e.release && e.code = 0x3A

def capsOn (es : List Event) : Bool := es.countP isCaps % 2 = 1

/-- The character of an event, with the events before it. -/
def charOf (before : List Event) (e : Event) : Option UInt8 :=
  if e.release then none
  else if e.extended then special_char e.code
  else if isShift e || isCtrl e || isAlt e || isCaps e then none
  else
    let c := if held isCtrl before ∧ 0x10 ≤ e.code.toNat ∧ e.code.toNat ≤ 0x32 then control_char e.code
      else scancode_to_char (held isShift before) (capsOn before) e.code
    if c ≠ 0 then some c else none

/-- The characters of the events, behind those before. -/
def typedFrom (before : List Event) : List Event → List UInt8
  | [] => []
  | e :: es => (charOf before e).toList ++ typedFrom (before ++ [e]) es

def typed (codes : List UInt8) : List UInt8 := typedFrom [] (events codes)

/-! ## Appending to the history -/

theorem eventsFrom_append (extended : Bool) (codes : List UInt8) (c : UInt8) :
    eventsFrom extended (codes ++ [c]) = eventsFrom extended codes ++
      eventsFrom ((codes.getLast?.map (decide <| · = 0xE0)).getD extended) [c] := by
  induction codes generalizing extended with
  | nil => rfl
  | cons a codes ih =>
    have hlast : ((a :: codes).getLast?.map (decide <| · = 0xE0)).getD extended =
        (codes.getLast?.map (decide <| · = 0xE0)).getD (a = 0xE0) := by
      cases codes with
      | nil => rfl
      | cons b codes =>
        rw [List.getLast?_cons_cons]
        cases hb : (b :: codes).getLast? with
        | none => simp at hb
        | some => rfl
    rw [cons_append, eventsFrom, eventsFrom, hlast]
    by_cases ha : a = 0xE0
    · rw [if_pos ha, if_pos ha, ih]
      simp only [ha, decide_true]
    · rw [if_neg ha, if_neg ha, ih, cons_append]
      simp only [ha, decide_false]

theorem events_append (codes : List UInt8) (c : UInt8) :
    events (codes ++ [c]) = events codes ++ eventsFrom (prefixed codes) [c] := by
  rw [events, eventsFrom_append]
  congr 2
  unfold prefixed
  cases codes.getLast? <;> simp

theorem held_append (key : Event → Bool) (es : List Event) (e : Event) :
    held key (es ++ [e]) = if key e then !e.release else held key es := by
  unfold held
  by_cases h : key e <;> simp [h]

theorem capsOn_append (es : List Event) (e : Event) :
    capsOn (es ++ [e]) = if isCaps e then !capsOn es else capsOn es := by
  unfold capsOn
  rw [countP_append, countP_singleton]
  by_cases h : isCaps e
  · rw [if_pos h, if_pos h]
    by_cases hodd : es.countP isCaps % 2 = 1
    · rw [decide_eq_true hodd, decide_eq_false (by omega)]
      rfl
    · rw [decide_eq_false hodd, decide_eq_true (by omega)]
      rfl
  · rw [if_neg h, if_neg h, Nat.add_zero]

theorem typedFrom_append (before es : List Event) (e : Event) :
    typedFrom before (es ++ [e]) = typedFrom before es ++ (charOf (before ++ es) e).toList := by
  induction es generalizing before with
  | nil => simp [typedFrom]
  | cons a es ih => simp [typedFrom, ih]

/-! ## One code -/

variable {kb : Keyboard} {codes : List UInt8}

/-- The flags of the driver are those of the history. -/
structure Tracks (kb : Keyboard) (codes : List UInt8) : Prop where
  extended : kb.extended_key = prefixed codes
  shift : kb.shift_pressed = held isShift (events codes)
  ctrl : kb.ctrl_pressed = held isCtrl (events codes)
  alt : kb.alt_pressed = held isAlt (events codes)
  caps : kb.capslock_on = capsOn (events codes)

/-- The flags after an event. -/
def after (kb : Keyboard) (e : Event) : Keyboard :=
  { kb with
    extended_key := false
    shift_pressed := if isShift e then !e.release else kb.shift_pressed
    ctrl_pressed := if isCtrl e then !e.release else kb.ctrl_pressed
    alt_pressed := if isAlt e then !e.release else kb.alt_pressed
    capslock_on := if isCaps e then !kb.capslock_on else kb.capslock_on }

/-- The buffer with a character, if there is one. -/
def addAll (kb : Keyboard) : Option UInt8 → Keyboard
  | some c => kb_buffer_add kb c
  | none => kb

theorem Tracks.after (h : Tracks kb codes) {c : UInt8} (hc : c ≠ 0xE0) {e : Event}
    (he : eventsFrom (prefixed codes) [c] = [e]) : Tracks (after kb e) (codes ++ [c]) := by
  have hprefixed : prefixed (codes ++ [c]) = false := by simp [prefixed, hc]
  refine ⟨hprefixed.symm, ?_, ?_, ?_, ?_⟩
  · rw [events_append, he, held_append, ← h.shift]
    rfl
  · rw [events_append, he, held_append, ← h.ctrl]
    rfl
  · rw [events_append, he, held_append, ← h.alt]
    rfl
  · rw [events_append, he, capsOn_append, ← h.caps]
    rfl

theorem clear_prefix (h : ¬ kb.extended_key) : ({ kb with extended_key := false } : Keyboard) = kb := by
  cases kb
  simp_all

theorem process_release_eq (kb : Keyboard) (code : UInt8) :
    process_release kb code = after kb ⟨kb.extended_key, true, code⟩ := by
  unfold process_release after
  by_cases hext : kb.extended_key
  · by_cases hctrl : code = 0x1D
    · subst hctrl
      simp [hext, isShift, isCtrl, isAlt, isCaps]
    · by_cases halt : code = 0x38
      · subst halt
        simp [hext, isShift, isCtrl, isAlt, isCaps]
      · simp [hext, hctrl, halt, isShift, isCtrl, isAlt, isCaps]
  · have hsame := clear_prefix hext
    by_cases hshift : code = 0x2A ∨ code = 0x36
    · rcases hshift with rfl | rfl <;> simp [hext, isShift, isCtrl, isAlt, isCaps]
    · by_cases hctrl : code = 0x1D
      · subst hctrl
        simp [hext, isShift, isCtrl, isAlt, isCaps]
      · by_cases halt : code = 0x38
        · subst halt
          simp [hext, isShift, isCtrl, isAlt, isCaps]
        · have hleft : code ≠ 0x2A := fun heq => hshift (Or.inl heq)
          have hright : code ≠ 0x36 := fun heq => hshift (Or.inr heq)
          simp [hext, hleft, hright, hctrl, halt, hsame, isShift, isCtrl, isAlt, isCaps]

theorem after_plain {e : Event} (hext : ¬ kb.extended_key)
    (hkey : (isShift e || isCtrl e || isAlt e || isCaps e) = false) :
    after kb e = kb := by
  simp only [Bool.or_eq_false_iff] at hkey
  obtain ⟨⟨⟨hshift, hctrl⟩, halt⟩, hcaps⟩ := hkey
  unfold after
  simp only [hshift, hctrl, halt, hcaps, Bool.false_eq_true, if_false]
  exact clear_prefix hext

/-- A key that goes down adds the character that it has in the history. -/
theorem process_press_eq (h : Tracks kb codes) (code : UInt8) :
    ∃ pending, process_press kb code =
      addAll { after kb ⟨kb.extended_key, false, code⟩ with kb_ctrl_c_pending := pending }
        (charOf (events codes) ⟨kb.extended_key, false, code⟩) := by
  unfold process_press
  by_cases hext : kb.extended_key
  · refine ⟨kb.kb_ctrl_c_pending, ?_⟩
    rw [if_pos hext, charOf, if_neg (by simp), if_pos hext, process_extended]
    have hflags : ∀ c, special_char code = some c →
        after kb ⟨kb.extended_key, false, code⟩ = { kb with extended_key := false } := by
      intro c hc
      have hctrl : code ≠ 0x1D := fun heq => by rw [heq] at hc; cases hc
      have halt : code ≠ 0x38 := fun heq => by rw [heq] at hc; cases hc
      simp [after, hext, hctrl, halt, isShift, isCtrl, isAlt, isCaps]
    cases hc : special_char code with
    | some c =>
      rw [hflags c hc]
      rfl
    | none =>
      by_cases hctrl : code = 0x1D
      · subst hctrl
        simp [addAll, after, hext, isShift, isCtrl, isAlt, isCaps]
      · by_cases halt : code = 0x38
        · subst halt
          simp [addAll, after, hext, isShift, isCtrl, isAlt, isCaps]
        · simp [addAll, after, hext, hctrl, halt, isShift, isCtrl, isAlt, isCaps]
  · have hfalse : kb.extended_key = false := by simpa using hext
    rw [if_neg hext, hfalse]
    by_cases hshift : code = 0x2A ∨ code = 0x36
    · refine ⟨kb.kb_ctrl_c_pending, ?_⟩
      rcases hshift with rfl | rfl <;> simp [addAll, after, charOf, isShift, isCtrl, isAlt, isCaps]
    by_cases hctrl : code = 0x1D
    · refine ⟨kb.kb_ctrl_c_pending, ?_⟩
      subst hctrl
      simp [addAll, after, charOf, isShift, isCtrl, isAlt, isCaps]
    by_cases halt : code = 0x38
    · refine ⟨kb.kb_ctrl_c_pending, ?_⟩
      subst halt
      simp [addAll, after, charOf, isShift, isCtrl, isAlt, isCaps]
    by_cases hcaps : code = 0x3A
    · refine ⟨kb.kb_ctrl_c_pending, ?_⟩
      subst hcaps
      simp [addAll, after, charOf, isShift, isCtrl, isAlt, isCaps]
    have hplain : (isShift ⟨false, false, code⟩ || isCtrl ⟨false, false, code⟩ || isAlt ⟨false, false, code⟩ ||
        isCaps ⟨false, false, code⟩) = false := by
      simp [isShift, isCtrl, isAlt, isCaps, hctrl, halt, hcaps]
      exact ⟨fun heq => hshift (Or.inl heq), fun heq => hshift (Or.inr heq)⟩
    have hchar : charOf (events codes) ⟨false, false, code⟩ =
        let c := if kb.ctrl_pressed ∧ 0x10 ≤ code.toNat ∧ code.toNat ≤ 0x32 then control_char code
          else scancode_to_char kb.shift_pressed kb.capslock_on code
        if c ≠ 0 then some c else none := by
      rw [h.ctrl, h.shift, h.caps, charOf, if_neg (by simp), if_neg (by simp), if_neg (by rw [hplain]; simp)]
    rw [if_neg hshift, if_neg hctrl, if_neg halt, if_neg hcaps, after_plain hext hplain, hchar]
    by_cases hcontrol : kb.ctrl_pressed ∧ 0x10 ≤ code.toNat ∧ code.toNat ≤ 0x32
    · rw [if_pos hcontrol, if_pos hcontrol]
      by_cases hchar : control_char code = 0
      · exact ⟨kb.kb_ctrl_c_pending, by simp [hchar, addAll]⟩
      · exact ⟨control_char code = 0x03 ∨ kb.kb_ctrl_c_pending, by simp [hchar, addAll, hfalse]⟩
    · refine ⟨kb.kb_ctrl_c_pending, ?_⟩
      rw [if_neg hcontrol, if_neg hcontrol]
      by_cases hchar : scancode_to_char kb.shift_pressed kb.capslock_on code = 0 <;> simp [hchar, addAll]

/-! ## The buffer -/

/-- The characters that wait to be read. -/
def queue (kb : Keyboard) : List UInt8 :=
  ring.contents kb.kb_buffer KB_BUFFER_SIZE kb.kb_read_pos
    ((kb.kb_write_pos + KB_BUFFER_SIZE - kb.kb_read_pos) % KB_BUFFER_SIZE)

/-- The positions are cells of the buffer. -/
structure Ring (kb : Keyboard) : Prop where
  read_lt : kb.kb_read_pos < KB_BUFFER_SIZE
  write_lt : kb.kb_write_pos < KB_BUFFER_SIZE

theorem length_queue (kb : Keyboard) :
    (queue kb).length = (kb.kb_write_pos + KB_BUFFER_SIZE - kb.kb_read_pos) % KB_BUFFER_SIZE := ring.length_contents

theorem haschar_iff (h : Ring kb) : keyboard_haschar kb = true ↔ queue kb ≠ [] := by
  have hread := h.read_lt
  have hwrite := h.write_lt
  rw [keyboard_haschar, ← length_pos_iff, length_queue, decide_eq_true_iff]
  unfold KB_BUFFER_SIZE at *
  omega

/-- One cell stays free, so that a full buffer is no empty one. -/
theorem kb_buffer_add_spec (h : Ring kb) (c : UInt8) :
    Ring (kb_buffer_add kb c) ∧ queue (kb_buffer_add kb c) =
      if (queue kb).length < KB_BUFFER_SIZE - 1 then queue kb ++ [c] else queue kb := by
  have hread := h.read_lt
  have hwrite := h.write_lt
  have hlength := length_queue kb
  unfold kb_buffer_add
  dsimp only
  by_cases hfull : (kb.kb_write_pos + 1) % KB_BUFFER_SIZE = kb.kb_read_pos
  · rw [if_pos hfull, if_neg]
    · exact ⟨h, rfl⟩
    · unfold KB_BUFFER_SIZE at *
      omega
  · have hroom : (queue kb).length < KB_BUFFER_SIZE - 1 := by
      unfold KB_BUFFER_SIZE at *
      omega
    rw [if_neg hfull, if_pos hroom]
    refine ⟨⟨hread, Nat.mod_lt _ (by decide)⟩, ?_⟩
    have hcount : ((kb.kb_write_pos + 1) % KB_BUFFER_SIZE + KB_BUFFER_SIZE - kb.kb_read_pos) % KB_BUFFER_SIZE =
        (kb.kb_write_pos + KB_BUFFER_SIZE - kb.kb_read_pos) % KB_BUFFER_SIZE + 1 := by
      unfold KB_BUFFER_SIZE at *
      omega
    have hend : (kb.kb_read_pos +
        (kb.kb_write_pos + KB_BUFFER_SIZE - kb.kb_read_pos) % KB_BUFFER_SIZE) % KB_BUFFER_SIZE =
        kb.kb_write_pos := by
      unfold KB_BUFFER_SIZE at *
      omega
    have hpush := @ring.contents_push _ kb.kb_buffer KB_BUFFER_SIZE kb.kb_read_pos
      ((kb.kb_write_pos + KB_BUFFER_SIZE - kb.kb_read_pos) % KB_BUFFER_SIZE) (Nat.mod_lt _ (by decide)) c
    rw [hend] at hpush
    simp only [queue, hcount]
    exact hpush

theorem getchar_spec (h : Ring kb) :
    (queue kb = [] ∧ keyboard_getchar_nonblocking kb = (0, kb)) ∨
      ∃ c kb', keyboard_getchar_nonblocking kb = (c, kb') ∧ queue kb = c :: queue kb' ∧ Ring kb' ∧
        (∀ codes, Tracks kb codes → Tracks kb' codes) := by
  have hread := h.read_lt
  have hwrite := h.write_lt
  by_cases hchar : keyboard_haschar kb
  · right
    refine ⟨kb.kb_buffer kb.kb_read_pos, { kb with kb_read_pos := (kb.kb_read_pos + 1) % KB_BUFFER_SIZE },
      by simp [keyboard_getchar_nonblocking, hchar], ?_, ⟨Nat.mod_lt _ (by decide), hwrite⟩,
      fun codes ht => ⟨ht.extended, ht.shift, ht.ctrl, ht.alt, ht.caps⟩⟩
    have hne : kb.kb_read_pos ≠ kb.kb_write_pos := by simpa [keyboard_haschar] using hchar
    have hcount : (kb.kb_write_pos + KB_BUFFER_SIZE - kb.kb_read_pos) % KB_BUFFER_SIZE =
        (kb.kb_write_pos + KB_BUFFER_SIZE - (kb.kb_read_pos + 1) % KB_BUFFER_SIZE) % KB_BUFFER_SIZE + 1 := by
      unfold KB_BUFFER_SIZE at *
      omega
    rw [queue, hcount, ring.contents_pop, Nat.mod_eq_of_lt hread]
    rfl
  · left
    refine ⟨?_, by simp [keyboard_getchar_nonblocking, hchar]⟩
    by_contra hne
    exact hchar ((haschar_iff h).mpr hne)

theorem addAll_spec (h : Ring kb) (ht : Tracks kb codes) (c : Option UInt8) :
    Tracks (addAll kb c) codes ∧ Ring (addAll kb c) ∧ queue (addAll kb c) =
      if (queue kb).length < KB_BUFFER_SIZE - 1 then queue kb ++ c.toList else queue kb := by
  cases c with
  | none => exact ⟨ht, h, by simp [addAll]⟩
  | some c =>
    obtain ⟨hring, hqueue⟩ := kb_buffer_add_spec h c
    refine ⟨?_, hring, hqueue⟩
    unfold addAll kb_buffer_add
    dsimp only
    split
    · exact ht
    · exact ⟨ht.extended, ht.shift, ht.ctrl, ht.alt, ht.caps⟩

/-- A code adds the character that it has in the history, if the buffer has room for it. -/
theorem process_spec (h : Ring kb) (ht : Tracks kb codes) (c : UInt8) :
    ∃ new : List UInt8, typed (codes ++ [c]) = typed codes ++ new ∧
      Tracks (keyboard_process_scancode kb c) (codes ++ [c]) ∧ Ring (keyboard_process_scancode kb c) ∧
      queue (keyboard_process_scancode kb c) =
        if (queue kb).length < KB_BUFFER_SIZE - 1 then queue kb ++ new else queue kb := by
  unfold keyboard_process_scancode
  by_cases hprefix : c = 0xE0
  · subst hprefix
    have hevents : events (codes ++ [0xE0]) = events codes := by
      rw [events_append]
      exact append_nil _
    refine ⟨[], by rw [typed, hevents, append_nil]; rfl, ⟨by simp [prefixed], ?_, ?_, ?_, ?_⟩,
      ⟨h.read_lt, h.write_lt⟩, by simp [queue]⟩
    · rw [hevents]
      exact ht.shift
    · rw [hevents]
      exact ht.ctrl
    · rw [hevents]
      exact ht.alt
    · rw [hevents]
      exact ht.caps
  rw [if_neg hprefix]
  by_cases hrelease : c &&& 0x80 ≠ 0
  · have hevent : eventsFrom (prefixed codes) [c] = [⟨prefixed codes, true, c &&& 0x7F⟩] := by
      simp [eventsFrom, hprefix, hrelease]
    rw [if_pos hrelease, process_release_eq, ht.extended]
    refine ⟨[], ?_, ht.after hprefix hevent, ⟨h.read_lt, h.write_lt⟩, by simp [queue, after]⟩
    rw [typed, events_append, hevent, typedFrom_append]
    rfl
  · have hevent : eventsFrom (prefixed codes) [c] = [⟨prefixed codes, false, c⟩] := by
      simp only [ne_eq, not_not] at hrelease
      simp [eventsFrom, hprefix, hrelease]
    obtain ⟨pending, hpress⟩ := process_press_eq ht c
    rw [if_neg hrelease, hpress, ht.extended]
    have hafter := ht.after hprefix hevent
    refine ⟨(charOf (events codes) ⟨prefixed codes, false, c⟩).toList, ?_, ?_⟩
    · rw [typed, events_append, hevent, typedFrom_append]
      rfl
    · have hring : Ring { after kb ⟨prefixed codes, false, c⟩ with kb_ctrl_c_pending := pending } :=
        ⟨h.read_lt, h.write_lt⟩
      exact addAll_spec hring ⟨hafter.extended, hafter.shift, hafter.ctrl, hafter.alt, hafter.caps⟩ _

/-! ## Runs -/

/-- An interrupt, or a call of the driver. -/
inductive Op where
  | scancode (c : UInt8)
  | getchar
  | consume_ctrl_c
  | clear_ctrl_c

/-- The driver, with the codes that it has seen and the characters that it has returned. -/
structure Session where
  kb : Keyboard
  codes : List UInt8
  returned : List UInt8

def Session.step (s : Session) : Op → Session
  | .scancode c => { s with kb := keyboard_process_scancode s.kb c, codes := s.codes ++ [c] }
  | .getchar =>
    let (c, kb) := keyboard_getchar_nonblocking s.kb
    -- `0` stands for no character
    { s with kb, returned := if c = 0 then s.returned else s.returned ++ [c] }
  | .consume_ctrl_c => { s with kb := (keyboard_consume_ctrl_c s.kb).2 }
  | .clear_ctrl_c => { s with kb := keyboard_clear_ctrl_c s.kb }

def Session.init (kb_buffer : Nat → UInt8) : Session := ⟨keyboard_init kb_buffer, [], []⟩

/-- A code that types a character finds room for it. -/
def Session.Room (s : Session) : Op → Prop
  | .scancode c => typed (s.codes ++ [c]) ≠ typed s.codes → (queue s.kb).length < KB_BUFFER_SIZE - 1
  | _ => True

/-- The flags are those of the history, and what was typed comes in its order. -/
structure Session.Sound (s : Session) : Prop where
  ring : Ring s.kb
  tracks : Tracks s.kb s.codes
  sublist : (s.returned ++ queue s.kb).Sublist (typed s.codes)

theorem special_char_ne_zero {code c : UInt8} (h : special_char code = some c) : c ≠ 0 := by
  unfold special_char at h
  split at h <;> cases h <;> decide

theorem charOf_ne_zero {before : List Event} {e : Event} {c : UInt8} (h : charOf before e = some c) : c ≠ 0 := by
  unfold charOf at h
  split at h
  · cases h
  split at h
  · exact special_char_ne_zero h
  split at h
  · cases h
  dsimp only at h
  generalize (if held isCtrl before ∧ 0x10 ≤ e.code.toNat ∧ e.code.toNat ≤ 0x32 then control_char e.code
    else scancode_to_char (held isShift before) (capsOn before) e.code) = code at h
  split at h
  · cases h
    assumption
  · cases h

theorem typedFrom_ne_zero {before es : List Event} {c : UInt8} (h : c ∈ typedFrom before es) : c ≠ 0 := by
  induction es generalizing before with
  | nil => cases h
  | cons e es ih =>
    rcases List.mem_append.mp h with h | h
    · exact charOf_ne_zero (Option.mem_toList.mp h)
    · exact ih h

variable {s : Session}

theorem Session.Sound.queue_ne_zero (h : s.Sound) {c : UInt8} (hc : c ∈ queue s.kb) : c ≠ 0 :=
  typedFrom_ne_zero (h.sublist.subset (mem_append_right _ hc))

/-- Nothing typed is lost. -/
def Session.Exact (s : Session) : Prop := s.returned ++ queue s.kb = typed s.codes

theorem Session.Sound.scancode (h : s.Sound) (c : UInt8) :
    (s.step (.scancode c)).Sound ∧ (s.Exact → s.Room (.scancode c) → (s.step (.scancode c)).Exact) := by
  obtain ⟨new, htyped, htracks, hring, hqueue⟩ := process_spec h.ring h.tracks c
  refine ⟨⟨hring, htracks, ?_⟩, fun hexact hroom => ?_⟩
  · change (s.returned ++ queue (keyboard_process_scancode s.kb c)).Sublist (typed (s.codes ++ [c]))
    rw [hqueue, htyped]
    split
    · rw [← append_assoc]
      exact h.sublist.append (List.Sublist.refl _)
    · exact h.sublist.trans (sublist_append_left _ _)
  · change s.returned ++ queue (keyboard_process_scancode s.kb c) = typed (s.codes ++ [c])
    by_cases hnone : new = []
    · rw [hqueue, htyped, hnone, append_nil, append_nil, ite_self]
      exact hexact
    · have hfits : (queue s.kb).length < KB_BUFFER_SIZE - 1 := hroom (by rwa [htyped, ne_eq, append_right_eq_self])
      rw [hqueue, if_pos hfits, htyped, ← append_assoc, hexact]

theorem Session.Sound.getchar (h : s.Sound) :
    (s.step .getchar).Sound ∧ (s.Exact → (s.step .getchar).Exact) := by
  rcases getchar_spec h.ring with ⟨-, hnone⟩ | ⟨c, kb, hsome, hqueue, hring, htracks⟩
  · have hsame : s.step .getchar = s := by simp [Session.step, hnone]
    rw [hsame]
    exact ⟨h, id⟩
  · have hne : c ≠ 0 := h.queue_ne_zero (by rw [hqueue]; exact mem_cons_self)
    have hstep : s.step .getchar = { s with kb, returned := s.returned ++ [c] } := by
      simp [Session.step, hsome, hne]
    have hall : s.returned ++ [c] ++ queue kb = s.returned ++ queue s.kb := by
      rw [hqueue, append_assoc]
      rfl
    rw [hstep]
    refine ⟨⟨hring, htracks _ h.tracks, ?_⟩, fun hexact => ?_⟩
    · change (s.returned ++ [c] ++ queue kb).Sublist _
      rw [hall]
      exact h.sublist
    · change s.returned ++ [c] ++ queue kb = _
      rw [hall]
      exact hexact

theorem Session.Sound.flag (h : s.Sound) (pending : Bool) :
    ({ s with kb := { s.kb with kb_ctrl_c_pending := pending } } : Session).Sound :=
  ⟨⟨h.ring.read_lt, h.ring.write_lt⟩, ⟨h.tracks.extended, h.tracks.shift, h.tracks.ctrl, h.tracks.alt, h.tracks.caps⟩,
    h.sublist⟩

theorem Session.Sound.step (h : s.Sound) (op : Op) :
    (s.step op).Sound ∧ (s.Exact → s.Room op → (s.step op).Exact) := by
  cases op with
  | scancode c => exact h.scancode c
  | getchar => exact ⟨h.getchar.1, fun hexact _ => h.getchar.2 hexact⟩
  | consume_ctrl_c =>
    have hconsume : (keyboard_consume_ctrl_c s.kb).2 = { s.kb with kb_ctrl_c_pending := false } := by
      unfold keyboard_consume_ctrl_c
      split
      · rfl
      · cases hkb : s.kb
        simp_all
    have hstep : s.step .consume_ctrl_c = { s with kb := { s.kb with kb_ctrl_c_pending := false } } := by
      rw [← hconsume]
      rfl
    rw [hstep]
    exact ⟨h.flag false, fun hexact _ => hexact⟩
  | clear_ctrl_c => exact ⟨h.flag false, fun hexact _ => hexact⟩

theorem init_sound (kb_buffer : Nat → UInt8) : (Session.init kb_buffer).Sound ∧ (Session.init kb_buffer).Exact := by
  have hpos : 0 < KB_BUFFER_SIZE := by decide
  have hempty : queue (Session.init kb_buffer).kb = [] := List.length_eq_zero_iff.mp (by
    rw [length_queue]
    simp [Session.init, keyboard_init])
  have hexact : (Session.init kb_buffer).Exact := by
    rw [Session.Exact, hempty]
    rfl
  exact ⟨⟨⟨hpos, hpos⟩, ⟨rfl, rfl, rfl, rfl, rfl⟩, hexact ▸ List.Sublist.refl _⟩, hexact⟩

/-- In every run of interrupts and calls the flags are those of the history of codes, and what was returned and what
waits are typed characters in their order. They are all of them when the buffer has had room for each. -/
theorem keyboard_delivers (kb_buffer : Nat → UInt8) (ops : List Op) :
    let s := machine.run Session.step (Session.init kb_buffer) ops
    Tracks s.kb s.codes ∧ (s.returned ++ queue s.kb).Sublist (typed s.codes) ∧
      (machine.Along Session.step Session.Room (Session.init kb_buffer) ops →
        s.returned ++ queue s.kb = typed s.codes) := by
  have hsound : (machine.run Session.step (Session.init kb_buffer) ops).Sound :=
    (machine.Along.of_forall (P := fun _ _ => True) (fun _ _ => trivial) ops).invariant (fun _ op h _ => (h.step op).1)
      (init_sound kb_buffer).1
  refine ⟨hsound.tracks, hsound.sublist, fun hroom => ?_⟩
  have hboth := hroom.invariant (I := fun s => s.Sound ∧ s.Exact)
    (fun _ op h hop => ⟨(h.1.step op).1, (h.1.step op).2 h.2 hop⟩) (init_sound kb_buffer)
  exact hboth.2

end graceos.keyboard
