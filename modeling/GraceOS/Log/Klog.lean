import GraceOS.Lib.Machine
import GraceOS.Lib.Ring
import GraceOS.Lib.Word
import Mathlib.Algebra.Order.Ring.Int

/-!
# The kernel log

The ring that all log functions write to, and its readers. A reader keeps a position of its own in the stream of all
bytes that were ever written.
-/

namespace graceos.klog

open machine ring List

@[irreducible] def KLOG_RING_SIZE : Nat := 128 * 1024

/-- `klog_ring` and `klog_write_pos`. -/
structure Klog where
  ring : Nat → UInt8
  write_pos : UInt64

def ring_putchar (s : Klog) (c : UInt8) : Klog where
  ring := Function.update s.ring (s.write_pos.toNat % KLOG_RING_SIZE) c
  write_pos := s.write_pos + 1

def ring_puts (s : Klog) (str : List UInt8) : Klog := str.foldl ring_putchar s

def ring_write_entry (s : Klog) (tag msg : List UInt8) : Klog :=
  let s := ring_putchar s '['.toUInt8
  let s := ring_puts s tag
  let s := ring_putchar s ']'.toUInt8
  let s := ring_putchar s ' '.toUInt8
  let s := ring_puts s msg
  ring_putchar s '\n'.toUInt8

/-- The digits of `klog_hex` from the bit `4 * i` down, without leading zeros. -/
def hex_digits (value : UInt64) (started : Bool) : Nat → List UInt8
  | 0 => [(word.ascii "0123456789ABCDEF").getD (value.toNat % 16) 0]
  | i + 1 =>
    let digit := value.toNat / 16 ^ (i + 1) % 16
    if digit ≠ 0 ∨ started then
      (word.ascii "0123456789ABCDEF").getD digit 0 :: hex_digits value true i
    else hex_digits value started i

/-- The part of `klog_hex` that goes to the ring. -/
def klog_hex (s : Klog) (value : UInt64) : Klog := ring_puts (ring_puts s (word.ascii "0x")) (hex_digits value false 15)

/-- The count that is returned, the position, and the buffer up to the terminating NUL, if anything was written to
it. -/
structure ReadResult where
  count : Nat
  pos : UInt64
  buf : List UInt8
  deriving DecidableEq

def klog_read_new (s : Klog) (pos : UInt64) (size : Int) : ReadResult :=
  if size < 2 then ⟨0, pos, []⟩
  else if s.write_pos ≤ pos then ⟨0, pos, []⟩
  else
    let available := s.write_pos - pos
    let lapped := available > UInt64.ofNat KLOG_RING_SIZE
    let pos := if lapped then s.write_pos - UInt64.ofNat KLOG_RING_SIZE else pos
    let available := if lapped then UInt64.ofNat KLOG_RING_SIZE else available
    let to_copy := if available.toNat < (size - 1).toNat then available.toNat else (size - 1).toNat
    ⟨to_copy, pos + UInt64.ofNat to_copy, contents s.ring KLOG_RING_SIZE pos.toNat to_copy ++ [0]⟩

/-! ## Runs -/

/-- The log functions write an entry, a text or a number; a reader drains the log into a buffer of some size. -/
inductive Op where
  | entry (tag msg : List UInt8)
  | text (msg : List UInt8)
  | hex (value : UInt64)
  | read (reader : Nat) (size : Int)

/-- The log and the positions of its readers. -/
structure System where
  log : Klog
  pos : Nat → UInt64

def step (s : System) : Op → System
  | .entry tag msg => { s with log := ring_write_entry s.log tag msg }
  | .text msg => { s with log := ring_puts s.log msg }
  | .hex value => { s with log := klog_hex s.log value }
  | .read reader size => { s with pos := Function.update s.pos reader (klog_read_new s.log (s.pos reader) size).pos }

/-- What an operation writes to the log. -/
def Op.written : Op → List UInt8
  | .entry tag msg => word.ascii "[" ++ tag ++ word.ascii "] " ++ msg ++ word.ascii "\n"
  | .text msg => msg
  | .hex value => word.ascii "0x" ++ hex_digits value false 15
  | .read _ _ => []

/-- Every byte that a run writes, in order. -/
def stream (ops : List Op) : List UInt8 := ops.flatMap Op.written

/-- A call of a reader: how many bytes had been written, the size of its buffer, and what it got. -/
structure Call where
  written : Nat
  size : Int
  result : ReadResult

/-- The calls of one reader in a run, behind `written` bytes of the stream. -/
def calls (reader : Nat) : (written : Nat) → System → List Op → List Call
  | _, _, [] => []
  | written, s, .read r size :: ops =>
    (if r = reader then [⟨written, size, klog_read_new s.log (s.pos r) size⟩] else []) ++
      calls reader written (step s (.read r size)) ops
  | written, s, op :: ops => calls reader (written + op.written.length) (step s op) ops

/-! ## Writing -/

variable {s : Klog} {written : List UInt8}

/-- The ring holds the end of the stream, and the counter its length. -/
structure Records (s : Klog) (written : List UInt8) : Prop where
  length : s.write_pos.toNat = written.length
  latest : Latest s.ring KLOG_RING_SIZE written

theorem Records.putchar (h : Records s written) (hlt : written.length + 1 < 2 ^ 64) (c : UInt8) :
    Records (ring_putchar s c) (written ++ [c]) where
  length := by
    change (s.write_pos + 1).toNat = _
    rw [UInt64.toNat_add, h.length, length_append, length_singleton]
    change (written.length + 1) % 2 ^ 64 = _
    omega
  latest := by
    have hpush := h.latest.push c
    rwa [← h.length] at hpush

theorem Records.puts {str : List UInt8} (h : Records s written) (hlt : written.length + str.length < 2 ^ 64) :
    Records (ring_puts s str) (written ++ str) := by
  induction str generalizing s written with
  | nil =>
    rw [append_nil]
    exact h
  | cons c str ih =>
    rw [length_cons] at hlt
    have hnext := ih (h.putchar (by omega) c) (by rw [length_append, length_singleton]; omega)
    rwa [append_assoc, singleton_append] at hnext

theorem ring_puts_append (s : Klog) (first second : List UInt8) :
    ring_puts s (first ++ second) = ring_puts (ring_puts s first) second := foldl_append

theorem ring_write_entry_eq (s : Klog) (tag msg : List UInt8) :
    ring_write_entry s tag msg = ring_puts s (Op.entry tag msg).written := by
  rw [Op.written, ring_puts_append, ring_puts_append, ring_puts_append, ring_puts_append]
  rfl

theorem step_log (s : System) (op : Op) : (step s op).log = ring_puts s.log op.written := by
  cases op with
  | entry tag msg => exact ring_write_entry_eq s.log tag msg
  | text msg => rfl
  | hex value => exact (ring_puts_append s.log _ _).symm
  | read reader size => rfl

/-! ## Reading -/

/-- The bytes of a call, without the terminating NUL. -/
def Call.bytes (c : Call) : List UInt8 := c.result.buf.take c.result.count

/-- Where a call that gets bytes starts to read: at the position of the reader, or at the oldest byte in the ring when
the reader has fallen behind by more than the ring holds. -/
def start_of (written : Nat) (pos : Nat) : Nat :=
  if pos + KLOG_RING_SIZE < written then written - KLOG_RING_SIZE else pos

/-- The calls deliver the stream from a position on. -/
def Delivers (stream : List UInt8) : Nat → List Call → Prop
  | _, [] => True
  | pos, c :: rest =>
    let start := if pos < c.written then start_of c.written pos else pos
    c.result.count = min (c.written - start) (c.size - 1).toNat ∧
      c.bytes = (stream.drop start).take c.result.count ∧ c.bytes.length = c.result.count ∧
      (0 < c.result.count → c.result.buf = c.bytes ++ [0]) ∧
      c.result.pos.toNat = start + c.result.count ∧ Delivers stream (start + c.result.count) rest

theorem ring_size_toNat : (UInt64.ofNat KLOG_RING_SIZE).toNat = KLOG_RING_SIZE := by
  rw [UInt64.toNat_ofNat']
  unfold KLOG_RING_SIZE
  rfl

/-- One call, by the position of the reader and the number of bytes that were written. -/
theorem klog_read_new_eq {pos : UInt64} {size : Int} (h : Records s written) (hsize : 2 ≤ size)
    (hpos : pos.toNat < written.length) :
    let start := start_of written.length pos.toNat
    let count := min (written.length - start) (size - 1).toNat
    (klog_read_new s pos size).count = count ∧ (klog_read_new s pos size).pos.toNat = start + count ∧
      (klog_read_new s pos size).buf = (written.drop start).take count ++ [0] := by
  have hlength := h.length
  have hlt := s.write_pos.toNat_lt
  have hnew : ¬ s.write_pos ≤ pos := by
    rw [UInt64.le_iff_toNat_le]
    omega
  have hle : pos ≤ s.write_pos := by
    rw [UInt64.le_iff_toNat_le]
    omega
  have hrange : written.length ≤ start_of written.length pos.toNat + KLOG_RING_SIZE ∧
      start_of written.length pos.toNat ≤ written.length := by
    unfold start_of
    split <;> omega
  have hend : start_of written.length pos.toNat + min (written.length - start_of written.length pos.toNat)
      (size - 1).toNat ≤ written.length := by
    have hcount := min_le_left (written.length - start_of written.length pos.toNat) (size - 1).toNat
    omega
  have hring := ring_size_toNat
  have hbehind : (s.write_pos - pos).toNat = written.length - pos.toNat := by
    rw [UInt64.toNat_sub_of_le _ _ hle, hlength]
  have hlapped : s.write_pos - pos > UInt64.ofNat KLOG_RING_SIZE ↔ pos.toNat + KLOG_RING_SIZE < written.length := by
    rw [gt_iff_lt, UInt64.lt_iff_toNat_lt, hring, hbehind]
    exact Nat.lt_sub_iff_add_lt'
  -- the position and the number of bytes after the reader was moved to the oldest byte
  have hstart : (if s.write_pos - pos > UInt64.ofNat KLOG_RING_SIZE then s.write_pos - UInt64.ofNat KLOG_RING_SIZE
      else pos).toNat = start_of written.length pos.toNat := by
    rw [start_of]
    by_cases hfar : pos.toNat + KLOG_RING_SIZE < written.length
    · have hold : UInt64.ofNat KLOG_RING_SIZE ≤ s.write_pos := by
        rw [UInt64.le_iff_toNat_le, hring, hlength]
        exact le_of_lt (lt_of_le_of_lt (Nat.le_add_left _ _) hfar)
      rw [if_pos (hlapped.mpr hfar), if_pos hfar, UInt64.toNat_sub_of_le _ _ hold, hring, hlength]
    · rw [if_neg (mt hlapped.mp hfar), if_neg hfar]
  have havailable : (if s.write_pos - pos > UInt64.ofNat KLOG_RING_SIZE then UInt64.ofNat KLOG_RING_SIZE
      else s.write_pos - pos).toNat = written.length - start_of written.length pos.toNat := by
    rw [start_of]
    by_cases hfar : pos.toNat + KLOG_RING_SIZE < written.length
    · rw [if_pos (hlapped.mpr hfar), if_pos hfar, hring]
      exact (Nat.sub_sub_self (le_of_lt (lt_of_le_of_lt (Nat.le_add_left _ _) hfar))).symm
    · rw [if_neg (mt hlapped.mp hfar), if_neg hfar, hbehind]
  have hsum := lt_of_le_of_lt hend (lt_of_eq_of_lt hlength.symm hlt)
  unfold klog_read_new
  dsimp only
  rw [if_neg (not_lt.mpr hsize), if_neg hnew]
  dsimp only
  rw [hstart, havailable, ← min_def_lt]
  refine ⟨rfl, ?_, ?_⟩
  · rw [UInt64.toNat_add, hstart, UInt64.toNat_ofNat', Nat.mod_eq_of_lt (lt_of_le_of_lt (Nat.le_add_left _ _) hsum),
      Nat.mod_eq_of_lt hsum]
  · rw [h.latest.contents hrange.1 hend]

/-- A call delivers the next bytes of the stream. -/
theorem read_delivers {pos : UInt64} {size : Int} {later : List UInt8} {rest : List Call} (h : Records s written)
    (hsize : 2 ≤ size)
    (hrest : Delivers (written ++ later) (klog_read_new s pos size).pos.toNat rest) :
    Delivers (written ++ later) pos.toNat (⟨written.length, size, klog_read_new s pos size⟩ :: rest) := by
  unfold Delivers Call.bytes
  dsimp only
  by_cases hpos : pos.toNat < written.length
  · obtain ⟨hcount, hnext, hbuf⟩ := klog_read_new_eq h hsize hpos
    rw [hnext] at hrest
    generalize hstart : start_of written.length pos.toNat = start at hcount hnext hbuf hrest
    generalize hn : min (written.length - start) (size - 1).toNat = count at hcount hnext hbuf hrest
    have hfits : start + count ≤ written.length := by
      unfold start_of at hstart
      split at hstart <;> omega
    have hslice : ((written.drop start).take count).length = count := by
      rw [length_take, length_drop]
      omega
    have hbytes : (klog_read_new s pos size).buf.take (klog_read_new s pos size).count =
        (written.drop start).take count := by
      rw [hcount, hbuf, take_append_of_le_length (by omega), take_of_length_le (by omega)]
    have hstream : ((written ++ later).drop start).take count = (written.drop start).take count := by
      rw [drop_append_of_le_length (by omega), take_append_of_le_length]
      rw [length_drop]
      omega
    rw [if_pos hpos, hbytes, hcount, hstream]
    exact ⟨hn.symm, rfl, hslice, fun _ => hbuf, hnext, hrest⟩
  · have hnone : klog_read_new s pos size = ⟨0, pos, []⟩ := by
      rw [klog_read_new, if_neg (by omega), if_pos]
      rw [UInt64.le_iff_toNat_le, h.length]
      omega
    rw [hnone] at hrest ⊢
    rw [if_neg hpos]
    refine ⟨?_, rfl, rfl, fun hzero => absurd hzero (lt_irrefl 0), rfl, hrest⟩
    change 0 = min (written.length - pos.toNat) _
    omega

theorem calls_delivers {s : System} {written : List UInt8} {reader : Nat} {ops : List Op} (h : Records s.log written)
    (hsizes : ∀ r size, Op.read r size ∈ ops → 2 ≤ size) (hlt : (written ++ stream ops).length < 2 ^ 64) :
    Delivers (written ++ stream ops) (s.pos reader).toNat (calls reader written.length s ops) := by
  induction ops generalizing s written with
  | nil => trivial
  | cons op ops ih =>
    have hstream : written ++ stream (op :: ops) = written ++ op.written ++ stream ops := by
      rw [stream, flatMap_cons, ← stream, append_assoc]
    rw [hstream] at hlt ⊢
    have hnext : Records (step s op).log (written ++ op.written) := by
      rw [step_log]
      refine h.puts ?_
      rw [length_append, length_append] at hlt
      omega
    have hrest := ih hnext (fun r size hmem => hsizes r size (mem_cons_of_mem op hmem)) hlt
    rw [length_append] at hrest
    cases op with
    | entry tag msg => exact hrest
    | text msg => exact hrest
    | hex value => exact hrest
    | read r size =>
      change Delivers _ _ ((if r = reader then _ else _) ++ _)
      rw [show (Op.read r size).written = [] from rfl, append_nil] at hrest ⊢
      rw [length_nil, Nat.add_zero] at hrest
      by_cases hr : r = reader
      · subst hr
        rw [if_pos rfl]
        refine read_delivers h (hsizes r size mem_cons_self) ?_
        rwa [show (step s (.read r size)).pos r = (klog_read_new s.log (s.pos r) size).pos from
          Function.update_self _ _ _] at hrest
      · rw [if_neg hr, nil_append]
        rwa [show (step s (.read r size)).pos reader = s.pos reader from
          Function.update_of_ne (Ne.symm hr) _ _] at hrest

/-- The log before anything was written. -/
def fresh (pos : Nat → UInt64) : System := ⟨⟨fun _ => 0, 0⟩, pos⟩

/-- Every reader of every run gets the stream from its position on, and falls forward only to the oldest byte of the
ring and only when it was further behind. -/
theorem klog_read_new_delivers (pos : Nat → UInt64) (reader : Nat) (ops : List Op)
    (hsizes : ∀ r size, Op.read r size ∈ ops → 2 ≤ size) (hlt : (stream ops).length < 2 ^ 64) :
    Delivers (stream ops) (pos reader).toNat (calls reader 0 (fresh pos) ops) := by
  have hempty : Records (fresh pos).log [] := ⟨rfl, .nil⟩
  exact calls_delivers hempty hsizes hlt

/-- A reader that the log has lapped, and that drains a part of what is left. -/
theorem klog_read_new_delivers_lapped :
    let ops := [.text (List.replicate (KLOG_RING_SIZE + 5) 0x41), .read 0 4, .text (word.ascii "!"), .read 0 1024]
    Delivers (stream ops) 0 (calls 0 0 (fresh fun _ => 0) ops) :=
  klog_read_new_delivers (fun _ => 0) 0
    [.text (List.replicate (KLOG_RING_SIZE + 5) 0x41), .read 0 4, .text (word.ascii "!"), .read 0 1024]
    (by
      intro r size hmem
      simp only [mem_cons, not_mem_nil, or_false, reduceCtorEq, Op.read.injEq, false_or] at hmem
      omega)
    (by
      have hring : KLOG_RING_SIZE < 2 ^ 20 := by
        unfold KLOG_RING_SIZE
        decide
      have hlast : (word.ascii "!").length = 1 := rfl
      simp only [stream, flatMap_cons, flatMap_nil, Op.written, length_append, length_replicate, length_nil]
      omega)

end graceos.klog
