import GraceOS.Lib.Word
import Mathlib.Algebra.Order.Ring.Int
import Mathlib.Data.Nat.Digits.Defs
import Mathlib.Logic.Function.Basic

/-!
# Formatting

`llm_snprintf` of `llama-impl.c`. Characters are counted whether there is room for them or not.
-/

namespace graceos.llm.snprintf

open List

/-- Arithmetic of `int`. -/
def int (v : Int) : Int := (v + 2 ^ 31) % 2 ^ 32 - 2 ^ 31

/-- A position with a count added to it. -/
def size_t (pos : Nat) (written : Int) : Nat := ((pos + written) % 2 ^ 64).toNat

abbrev Buffer := Nat → UInt8

/-! ## Putting characters -/

/-- The count is always 1. -/
def put_char (buf : Buffer) (max pos : Nat) (c : UInt8) : Int × Buffer :=
  (1, if size_t pos 1 < max then Function.update buf pos c else buf)

/-- The loops that put one character after the other, from the count `written` on. -/
def put_chars (buf : Buffer) (max pos : Nat) (written : Int) : List UInt8 → Int × Buffer
  | [] => (written, buf)
  | c :: s =>
    let (n, buf) := put_char buf max (size_t pos written) c
    put_chars buf max pos (int (written + n)) s

def put_str (buf : Buffer) (max pos : Nat) (s : List UInt8) : Int × Buffer := put_chars buf max pos 0 s

/-- The loop that fills `tmp`, which has room for 24 digits. -/
def tmp_digits (digits : List UInt8) (base : Nat) : (room v : Nat) → List UInt8
  | 0, _ => []
  | room + 1, v => if v = 0 then [] else digits.getD (v % base) 0 :: tmp_digits digits base room (v / base)

def lower : List UInt8 := word.ascii "0123456789abcdef"
def upper : List UInt8 := word.ascii "0123456789ABCDEF"

def put_uint64 (buf : Buffer) (max pos v base : Nat) (is_upper : Bool) : Int × Buffer :=
  let digits := if is_upper then upper else lower
  let tmp := if v = 0 then [48] else tmp_digits digits base 24 v
  put_chars buf max pos 0 tmp.reverse

/-- A number of 64 bits as a signed one. -/
def int64 (v : Int) : Int := (v + 2 ^ 63) % 2 ^ 64 - 2 ^ 63

def put_int64 (buf : Buffer) (max pos : Nat) (v : Int) : Int × Buffer :=
  if v < 0 then
    let (n, buf) := put_char buf max pos 45
    let v := int64 (-v)
    let (k, buf) := put_uint64 buf max (size_t pos n) (v % 2 ^ 64).toNat 10 false
    (int (n + k), buf)
  else put_uint64 buf max pos (v % 2 ^ 64).toNat 10 false

/-! ## The loop over the format -/

/-- The arguments: the words that `va_arg` takes, the strings that words point to, and what `put_float` puts for the
floating-point arguments. -/
structure Args where
  word : Nat → UInt64
  string : UInt64 → List UInt8
  float : Nat → List UInt8

/-- The format position, the last position that was read, the count, the buffer, and the arguments that were taken. -/
structure State where
  fmt : Nat
  last : Nat
  written : Int
  buf : Buffer
  words : Nat
  floats : Nat

/-- What a helper put is counted. -/
def State.put (st : State) (r : Int × Buffer) : State := { st with written := int (st.written + r.1), buf := r.2 }

/-- `va_arg` of a signed type: `int`, or one of 64 bits. -/
def signed (is_long : Nat) (w : UInt64) : Int := if is_long = 0 then int w.toNat else int64 w.toNat

def unsigned (is_long : Nat) (w : UInt64) : Nat := if is_long = 0 then w.toNat % 2 ^ 32 else w.toNat

section
variable (max : Nat) (fmt : Nat → UInt8) (args : Args)

/-- The `switch`, with the position that is next. -/
def directive (st : State) (is_long : Nat) (c : UInt8) : State :=
  let pos := size_t 0 st.written
  let w := args.word st.words
  if c = 115 then
    { st.put (put_str st.buf max pos (if w = 0 then word.ascii "(null)" else args.string w)) with
      words := st.words + 1 }
  else if c = 100 then { st.put (put_int64 st.buf max pos (signed is_long w)) with words := st.words + 1 }
  else if c = 117 then { st.put (put_uint64 st.buf max pos (unsigned is_long w) 10 false) with words := st.words + 1 }
  else if c = 120 then { st.put (put_uint64 st.buf max pos (unsigned is_long w) 16 false) with words := st.words + 1 }
  else if c = 88 then { st.put (put_uint64 st.buf max pos (unsigned is_long w) 16 true) with words := st.words + 1 }
  else if c = 102 then { st.put (put_str st.buf max pos (args.float st.floats)) with floats := st.floats + 1 }
  else if c = 37 then st.put (put_char st.buf max pos 37)
  else st.put (put_char st.buf max pos 63)

/-- One turn, in front of a character that is not the NUL. -/
def turn (st : State) : State :=
  if fmt st.fmt ≠ 37 then
    { st.put (put_char st.buf max (size_t 0 st.written) (fmt st.fmt)) with fmt := st.fmt + 1 }
  else
    let at' := st.fmt + 1
    let (is_long, at') := if fmt at' = 108 then (1, at' + 1) else (0, at')
    let (is_long, at') := if fmt at' = 108 then (is_long + 1, at' + 1) else (is_long, at')
    { directive max args st is_long (fmt at') with fmt := at' + 1, last := at' }

/-- The loop; `none` where the fuel does not suffice. -/
def loop : (fuel : Nat) → State → Option State
  | 0, _ => none
  | fuel + 1, st =>
    let st := { st with last := st.fmt }
    if fmt st.fmt = 0 then some st else loop fuel (turn max fmt args st)

def llm_snprintf (fuel : Nat) (buf : Buffer) : Option State :=
  (loop max fmt args fuel ⟨0, 0, 0, buf, 0, 0⟩).map fun st =>
    let last := size_t 0 st.written
    if max > 0 then { st with buf := Function.update st.buf (if last < max then last else max - 1) 0 } else st

end

/-! ## Formats -/

inductive Conversion where
  | s | d | u | x | X | percent

def Conversion.char : Conversion → UInt8
  | .s => 115
  | .d => 100
  | .u => 117
  | .x => 120
  | .X => 88
  | .percent => 37

/-- A character that stands for itself, or a directive with its length. -/
inductive Piece where
  | plain (c : UInt8) (h : c ≠ 0 ∧ c ≠ 37)
  | directive (is_long : Fin 3) (conversion : Conversion)

def Piece.chars : Piece → List UInt8
  | .plain c _ => [c]
  | .directive is_long conversion => 37 :: (List.replicate is_long 108 ++ [conversion.char])

/-- A directive that the format ends in. -/
inductive Tail where
  | none
  | incomplete (is_long : Fin 3)

def Tail.chars : Tail → List UInt8
  | .none => []
  | .incomplete is_long => 37 :: List.replicate is_long 108

structure Format where
  pieces : List Piece
  tail : Tail

def Format.chars (f : Format) : List UInt8 := f.pieces.flatMap Piece.chars ++ f.tail.chars

/-- The format with its NUL, in a memory that goes on behind it. -/
def Format.memory (f : Format) (behind : Nat → UInt8) (i : Nat) : UInt8 :=
  if i < f.chars.length then f.chars.getD i 0 else if i = f.chars.length then 0 else behind i

/-- The numeral of a number, with the characters of its digits. -/
def numeral (digits : List UInt8) (base v : Nat) : List UInt8 :=
  if v = 0 then [48] else (Nat.digits base v).reverse.map (digits.getD · 0)

/-- A number with its sign. -/
def decimal (v : Int) : List UInt8 := if v < 0 then 45 :: numeral lower 10 v.natAbs else numeral lower 10 v.natAbs

/-- What a piece stands for, with the next argument. -/
def Piece.expansion (args : Args) (w : UInt64) : Piece → List UInt8
  | .plain c _ => [c]
  | .directive _ .s => if w = 0 then word.ascii "(null)" else args.string w
  | .directive is_long .d => decimal (signed is_long w)
  | .directive is_long .u => numeral lower 10 (unsigned is_long w)
  | .directive is_long .x => numeral lower 16 (unsigned is_long w)
  | .directive is_long .X => numeral upper 16 (unsigned is_long w)
  | .directive _ .percent => [37]

/-- The arguments that a piece takes. -/
def Piece.words : Piece → Nat
  | .plain _ _ => 0
  | .directive _ .percent => 0
  | .directive _ _ => 1

/-- The full expansion of pieces, from an argument on. -/
def expansion (args : Args) : (words : Nat) → List Piece → List UInt8
  | _, [] => []
  | words, p :: pieces => p.expansion args (args.word words) ++ expansion args (words + p.words) pieces

/-- The format is read up to its NUL, the buffer gets the start of the expansion and a NUL, and the length of the
expansion is returned. -/
structure Exact (nul max : Nat) (text : List UInt8) (buf : Buffer) (st : State) : Prop where
  last : st.last ≤ nul
  outside : ∀ i, max ≤ i → st.buf i = buf i
  inside : ∀ i, i < max - 1 → i < text.length → st.buf i = text.getD i 0
  nul : st.buf (min text.length (max - 1)) = 0
  written : st.written = text.length

/-! ## What the helpers put -/

/-- The buffer with a text at a position, as far as there is room. -/
def deposit (buf : Buffer) (max pos : Nat) (text : List UInt8) : Buffer := fun i =>
  if pos ≤ i ∧ i < pos + text.length ∧ i + 1 < max then text.getD (i - pos) 0 else buf i

theorem deposit_nil (buf : Buffer) (max pos : Nat) : deposit buf max pos [] = buf := by
  funext i
  exact if_neg (by simp; omega)

theorem deposit_append (buf : Buffer) (max pos : Nat) (a b : List UInt8) :
    deposit (deposit buf max pos a) max (pos + a.length) b = deposit buf max pos (a ++ b) := by
  funext i
  simp only [deposit, length_append, getD_eq_getElem?_getD, List.getElem?_append]
  by_cases hb : pos + a.length ≤ i ∧ i < pos + a.length + b.length ∧ i + 1 < max
  · rw [if_pos hb, if_pos (by omega), if_neg (by omega), Nat.sub_sub]
  · rw [if_neg hb]
    by_cases ha : pos ≤ i ∧ i < pos + a.length ∧ i + 1 < max
    · rw [if_pos ha, if_pos (by omega), if_pos (by omega)]
    · rw [if_neg ha, if_neg (by omega)]

variable {buf : Buffer} {max pos : Nat}

theorem size_t_eq {written : Nat} (h : pos + written < 2 ^ 64) : size_t pos written = pos + written := by
  rw [size_t]
  omega

theorem int_eq {v : Int} (hleast : -2 ^ 31 ≤ v) (hlimit : v < 2 ^ 31) : int v = v := by
  rw [int]
  omega

theorem int_lt (v : Int) : int v < 2 ^ 31 := by
  rw [int]
  omega

theorem put_char_eq (hpos : pos < 2 ^ 31) (c : UInt8) : put_char buf max pos c = (1, deposit buf max pos [c]) := by
  rw [put_char]
  refine Prod.ext rfl (funext fun i => ?_)
  have hnext : size_t pos 1 = pos + 1 := @size_t_eq pos 1 (by omega)
  dsimp only [deposit, length_singleton]
  rw [hnext]
  by_cases hroom : pos + 1 < max
  · rw [if_pos hroom]
    by_cases hi : i = pos
    · subst hi
      rw [Function.update_self, if_pos (by omega), Nat.sub_self]
      rfl
    · rw [Function.update_of_ne hi, if_neg (by omega)]
  · rw [if_neg hroom, if_neg (by omega)]

theorem put_chars_eq {written : Nat} {s : List UInt8} (h : pos + written + s.length < 2 ^ 31) :
    put_chars buf max pos written s = (((written + s.length : Nat) : Int), deposit buf max (pos + written) s) := by
  induction s generalizing buf written with
  | nil => rw [put_chars, deposit_nil, length_nil, Nat.add_zero]
  | cons c s ih =>
    rw [length_cons] at h
    have hcount : int ((written : Int) + 1) = ((written + 1 : Nat) : Int) := by
      rw [int]
      omega
    rw [put_chars, size_t_eq (by omega), put_char_eq (by omega)]
    dsimp only
    rw [hcount, ih (by omega)]
    have hjoin := deposit_append buf max (pos + written) [c] s
    rw [length_singleton, singleton_append] at hjoin
    rw [← Nat.add_assoc, hjoin, length_cons, Nat.add_assoc, Nat.add_comm 1]

theorem put_str_eq {s : List UInt8} (h : pos + s.length < 2 ^ 31) :
    put_str buf max pos s = ((s.length : Int), deposit buf max pos s) := by
  have hput := @put_chars_eq buf max pos 0 s h
  rwa [Nat.zero_add] at hput

theorem tmp_digits_eq (digits : List UInt8) {base room v : Nat} (hbase : 1 < base) (hroom : v < base ^ room) :
    tmp_digits digits base room v = (Nat.digits base v).map (digits.getD · 0) := by
  induction room generalizing v with
  | zero =>
    obtain rfl : v = 0 := by simpa using hroom
    rw [tmp_digits, Nat.digits_zero, map_nil]
  | succ room ih =>
    rw [tmp_digits]
    by_cases hv : v = 0
    · subst hv
      rw [if_pos rfl, Nat.digits_zero, map_nil]
    · have hdiv : v / base < base ^ room := Nat.div_lt_of_lt_mul (by rwa [Nat.pow_succ, Nat.mul_comm] at hroom)
      rw [if_neg hv, ih hdiv, Nat.digits_def' hbase (Nat.pos_of_ne_zero hv), map_cons]

theorem put_uint64_eq {v base : Nat} {is_upper : Bool} (hbase : 10 ≤ base) (hv : v < 2 ^ 64)
    (h : pos + (numeral (if is_upper then upper else lower) base v).length < 2 ^ 31) :
    put_uint64 buf max pos v base is_upper = (((numeral (if is_upper then upper else lower) base v).length : Int),
      deposit buf max pos (numeral (if is_upper then upper else lower) base v)) := by
  have hroom : v < base ^ 24 := hv.trans_le ((by decide : 2 ^ 64 ≤ 10 ^ 24).trans (Nat.pow_le_pow_left hbase 24))
  have htext : (if v = 0 then [48] else tmp_digits (if is_upper then upper else lower) base 24 v).reverse =
      numeral (if is_upper then upper else lower) base v := by
    rw [numeral, tmp_digits_eq _ (by omega) hroom]
    by_cases hzero : v = 0
    · rw [if_pos hzero, if_pos hzero]
      rfl
    · rw [if_neg hzero, if_neg hzero, map_reverse]
  rw [put_uint64, htext]
  exact put_str_eq h

theorem put_int64_eq {v : Int} (hleast : -2 ^ 63 ≤ v) (hlimit : v < 2 ^ 63) (h : pos + (decimal v).length < 2 ^ 31) :
    put_int64 buf max pos v = (((decimal v).length : Int), deposit buf max pos (decimal v)) := by
  rw [put_int64]
  by_cases hneg : v < 0
  · have hdecimal : decimal v = 45 :: numeral lower 10 v.natAbs := if_pos hneg
    rw [hdecimal] at h ⊢
    rw [if_pos hneg]
    rw [length_cons] at h
    -- also the least number is its own negation with the right bits
    have habs : (int64 (-v) % 2 ^ 64).toNat = v.natAbs := by
      rw [int64]
      omega
    have hnext : size_t pos 1 = pos + 1 := @size_t_eq pos 1 (by omega)
    have hput := @put_uint64_eq (deposit buf max pos [45]) max (pos + 1) v.natAbs 10 false (by decide) (by omega)
      (by simpa [Nat.add_assoc, Nat.add_comm 1] using h)
    rw [put_char_eq (by omega)]
    dsimp only
    rw [habs, hnext, hput]
    dsimp only
    refine Prod.ext ?_ ?_
    · dsimp only
      rw [length_cons, int]
      simp only [Bool.false_eq_true, if_false]
      omega
    · exact deposit_append buf max pos [45] (numeral lower 10 v.natAbs)
  · have habs : (v % 2 ^ 64).toNat = v.natAbs := by omega
    have hdecimal : decimal v = numeral lower 10 v.natAbs := if_neg hneg
    rw [hdecimal] at h ⊢
    rw [if_neg hneg, habs]
    exact @put_uint64_eq buf max pos v.natAbs 10 false (by decide) (by omega) h

/-! ## One turn -/

variable {args : Args} {fmt : Nat → UInt8} {st : State}

/-- A text lies in the memory of the format. -/
def Spells (fmt : Nat → UInt8) (pos : Nat) (chars : List UInt8) : Prop :=
    ∀ i < chars.length, fmt (pos + i) = chars.getD i 0

theorem Spells.append {a b : List UInt8} (h : Spells fmt pos (a ++ b)) : Spells fmt pos a ∧ Spells fmt
    (pos + a.length) b := by
  refine ⟨fun i hi => ?_, fun i hi => ?_⟩
  · rw [h i (by rw [length_append]; omega), getD_eq_getElem?_getD, getD_eq_getElem?_getD,
      List.getElem?_append_left hi]
  · rw [Nat.add_assoc, h (a.length + i) (by rw [length_append]; omega), getD_eq_getElem?_getD,
      getD_eq_getElem?_getD, List.getElem?_append_right (by omega), Nat.add_sub_cancel_left]

theorem Spells.head {c : UInt8} {chars : List UInt8} (h : Spells fmt pos (c :: chars)) : fmt pos = c :=
  h 0 (Nat.succ_pos _)

/-- The turn at a percent sign goes behind the length and one more character, whatever it is. -/
theorem turn_percent {is_long : Fin 3} (h : Spells fmt st.fmt (37 :: List.replicate is_long 108))
    (hend : fmt (st.fmt + 1 + is_long) ≠ 108) :
    turn max fmt args st = { directive max args st is_long (fmt (st.fmt + 1 + is_long)) with
      fmt := st.fmt + 1 + is_long + 1, last := st.fmt + 1 + is_long } := by
  have hpercent := h.head
  rw [turn, if_neg (not_not_intro hpercent)]
  match is_long, h, hend with
  | 0, h, hend =>
    have hfirst : ¬ fmt (st.fmt + 1) = 108 := hend
    dsimp only
    rw [if_neg hfirst, if_neg hfirst]
    rfl
  | 1, h, hend =>
    have hfirst : fmt (st.fmt + 1) = 108 := h 1 (by decide)
    have hsecond : ¬ fmt (st.fmt + 1 + 1) = 108 := hend
    dsimp only
    rw [if_pos hfirst]
    dsimp only
    rw [if_neg hsecond]
    rfl
  | 2, h, hend =>
    have hfirst : fmt (st.fmt + 1) = 108 := h 1 (by decide)
    have hsecond : fmt (st.fmt + 1 + 1) = 108 := h 2 (by decide)
    dsimp only
    rw [if_pos hfirst]
    dsimp only
    rw [if_pos hsecond]
    rfl

theorem unsigned_lt (is_long : Nat) (w : UInt64) : unsigned is_long w < 2 ^ 64 := by
  have hw := w.toNat_lt
  rw [unsigned]
  split_ifs <;> omega

theorem signed_range (is_long : Nat) (w : UInt64) : -2 ^ 63 ≤ signed is_long w ∧ signed is_long w < 2 ^ 63 := by
  rw [signed, int, int64]
  split_ifs <;> omega

/-- What a directive puts is the expansion of its piece. -/
theorem directive_eq {n : Nat} (hn : st.written = n) {is_long : Fin 3} {conversion : Conversion}
    (h : n + ((Piece.directive is_long conversion).expansion args (args.word st.words)).length < 2 ^ 31) :
    directive max args st is_long conversion.char =
      { st with
        written := ((n + ((Piece.directive is_long conversion).expansion args (args.word st.words)).length : Nat) : Int)
        buf := deposit st.buf max n ((Piece.directive is_long conversion).expansion args (args.word st.words))
        words := st.words + (Piece.directive is_long conversion).words } := by
  have hpos : size_t 0 st.written = n := by
    rw [hn, size_t_eq (by omega)]
    omega
  have hput : ∀ text : List UInt8, n + text.length < 2 ^ 31 →
      st.put ((text.length : Int), deposit st.buf max n text) =
        { st with written := ((n + text.length : Nat) : Int), buf := deposit st.buf max n text } := by
    intro text htext
    rw [State.put, hn, int_eq (by omega) (by omega)]
    rfl
  have htake : ∀ (r : Int × Buffer) (text : List UInt8), r = ((text.length : Int), deposit st.buf max n text) →
      n + text.length < 2 ^ 31 → ({ st.put r with words := st.words + 1 } : State) =
        { st with
          written := ((n + text.length : Nat) : Int), buf := deposit st.buf max n text, words := st.words + 1 } := by
    rintro r text rfl htext
    rw [hput text htext]
  have hsigned := signed_range is_long (args.word st.words)
  have hunsigned := unsigned_lt is_long (args.word st.words)
  cases conversion with
  | s =>
    rw [Conversion.char, directive, if_pos rfl, hpos]
    exact htake _ _ (put_str_eq h) h
  | d =>
    rw [Conversion.char, directive, if_neg (by decide), if_pos rfl, hpos]
    exact htake _ _ (put_int64_eq hsigned.1 hsigned.2 h) h
  | u =>
    rw [Conversion.char, directive, if_neg (by decide), if_neg (by decide), if_pos rfl, hpos]
    exact htake _ _ (@put_uint64_eq st.buf max n _ 10 false (by decide) hunsigned h) h
  | x =>
    rw [Conversion.char, directive, if_neg (by decide), if_neg (by decide), if_neg (by decide), if_pos rfl, hpos]
    exact htake _ _ (@put_uint64_eq st.buf max n _ 16 false (by decide) hunsigned h) h
  | X =>
    rw [Conversion.char, directive, if_neg (by decide), if_neg (by decide), if_neg (by decide), if_neg (by decide),
      if_pos rfl, hpos]
    exact htake _ _ (@put_uint64_eq st.buf max n _ 16 true (by decide) hunsigned h) h
  | percent =>
    have hone : n + [(37 : UInt8)].length < 2 ^ 31 := h
    rw [Conversion.char, directive, if_neg (by decide), if_neg (by decide), if_neg (by decide), if_neg (by decide),
      if_neg (by decide), if_neg (by decide), if_pos rfl, hpos, put_char_eq (by rw [length_singleton] at hone; omega)]
    exact hput [37] hone

theorem Piece.head (p : Piece) : ∃ c rest, p.chars = c :: rest ∧ c ≠ 0 := by
  cases p with
  | plain c h => exact ⟨c, [], rfl, h.1⟩
  | directive is_long conversion => exact ⟨37, _, rfl, by decide⟩

/-- One turn takes a piece of the format and puts its expansion. -/
theorem turn_eq {n : Nat} (hn : st.written = n) {p : Piece} (hspells : Spells fmt st.fmt p.chars)
    (h : n + (p.expansion args (args.word st.words)).length < 2 ^ 31) :
    ∃ last, turn max fmt args st =
      { fmt := st.fmt + p.chars.length, last := last
        written := ((n + (p.expansion args (args.word st.words)).length : Nat) : Int)
        buf := deposit st.buf max n (p.expansion args (args.word st.words))
        words := st.words + p.words, floats := st.floats } := by
  cases p with
  | plain c hc =>
    have hchar : fmt st.fmt = c := hspells.head
    have hone : n + 1 < 2 ^ 31 := h
    have hpos : size_t 0 st.written = n := by
      rw [hn, size_t_eq (by omega)]
      omega
    refine ⟨st.last, ?_⟩
    rw [turn, if_pos (by rw [hchar]; exact hc.2), hchar, hpos, put_char_eq (by omega), State.put, hn,
      int_eq (by omega) (by omega)]
    rfl
  | directive is_long conversion =>
    have hparts : Spells fmt st.fmt ((37 :: List.replicate is_long 108) ++ [conversion.char]) := hspells
    obtain ⟨hlength, hlast⟩ := hparts.append
    have hchar := hlast.head
    rw [length_cons, length_replicate, Nat.add_comm is_long.val 1, ← Nat.add_assoc] at hchar
    have hend : fmt (st.fmt + 1 + is_long) ≠ 108 := by
      rw [hchar]
      cases conversion <;> decide
    refine ⟨st.fmt + 1 + is_long, ?_⟩
    rw [turn_percent hlength hend, hchar, directive_eq hn h]
    simp only [Piece.chars, length_cons, length_append, length_replicate, length_nil]
    congr 1
    omega

/-- The loop over whole pieces. -/
theorem loop_pieces {pieces : List Piece} {n : Nat} (fuel : Nat) (hn : st.written = n)
    (hspells : Spells fmt st.fmt (pieces.flatMap Piece.chars))
    (h : n + (expansion args st.words pieces).length < 2 ^ 31) :
    ∃ last words, loop max fmt args (fuel + pieces.length) st =
      loop max fmt args fuel
        { fmt := st.fmt + (pieces.flatMap Piece.chars).length, last := last
          written := ((n + (expansion args st.words pieces).length : Nat) : Int)
          buf := deposit st.buf max n (expansion args st.words pieces)
          words := words, floats := st.floats } := by
  induction pieces generalizing st n with
  | nil =>
    refine ⟨st.last, st.words, ?_⟩
    rw [expansion, deposit_nil]
    simp only [flatMap_nil, length_nil, Nat.add_zero]
    rw [← hn]
  | cons p pieces ih =>
    rw [flatMap_cons] at hspells
    rw [expansion, length_append] at h
    obtain ⟨hp, hrest⟩ := hspells.append
    obtain ⟨c, rest, hchars, hc⟩ := p.head
    have hnul : fmt st.fmt ≠ 0 := by
      rw [hchars] at hp
      rwa [hp.head]
    obtain ⟨last, hturn⟩ := @turn_eq max args fmt { st with last := st.fmt } n hn p hp (by dsimp only; omega)
    rw [length_cons, ← Nat.add_assoc, loop]
    dsimp only
    rw [if_neg hnul, hturn]
    obtain ⟨last', words, hloop⟩ := @ih ⟨_, last, _, _, st.words + p.words, st.floats⟩
      (n + (p.expansion args (args.word st.words)).length) rfl hrest (by dsimp only; omega)
    refine ⟨last', words, ?_⟩
    rw [hloop]
    dsimp only
    rw [deposit_append, expansion, flatMap_cons, length_append, length_append, Nat.add_assoc, Nat.add_assoc]

/-! ## Where the format ends -/

variable {f : Format} {behind : Nat → UInt8}

theorem Format.spells (f : Format) (behind : Nat → UInt8) : Spells (f.memory behind) 0 f.chars := fun i hi => by
  rw [Format.memory, Nat.zero_add, if_pos hi]

theorem Format.nul (f : Format) (behind : Nat → UInt8) : f.memory behind f.chars.length = 0 := by
  rw [Format.memory, if_neg (Nat.lt_irrefl _), if_pos rfl]

theorem directive_written_lt (max : Nat) (args : Args) (st : State) (is_long : Nat) (c : UInt8) :
    (directive max args st is_long c).written < 2 ^ 31 := by
  rw [directive]
  split_ifs <;> exact int_lt _

theorem turn_written_lt (max : Nat) (args : Args) (fmt : Nat → UInt8) (st : State) :
    (turn max fmt args st).written < 2 ^ 31 := by
  rw [turn]
  split_ifs
  · exact int_lt _
  · exact directive_written_lt max args st _ _

theorem turn_fmt_lt (max : Nat) (args : Args) (fmt : Nat → UInt8) (st : State) :
    st.fmt < (turn max fmt args st).fmt := by
  rw [turn]
  dsimp only
  split_ifs
  all_goals
    dsimp only
    omega

theorem loop_result {fuel : Nat} {r : State} (h : loop max fmt args fuel st = some r) (hst : st.written < 2 ^ 31) :
    st.fmt ≤ r.last ∧ r.written < 2 ^ 31 := by
  induction fuel generalizing st with
  | zero => cases h
  | succ fuel ih =>
    rw [loop] at h
    dsimp only at h
    by_cases hnul : fmt st.fmt = 0
    · rw [if_pos hnul] at h
      cases h
      exact ⟨le_refl _, hst⟩
    · rw [if_neg hnul] at h
      obtain ⟨hlast, hwritten⟩ := ih h (turn_written_lt max args fmt _)
      exact ⟨(turn_fmt_lt max args fmt { st with last := st.fmt }).le.trans hlast, hwritten⟩

theorem turn_fmt {p : Piece} (hspells : Spells fmt st.fmt p.chars) :
    (turn max fmt args st).fmt = st.fmt + p.chars.length := by
  cases p with
  | plain c hc =>
    have hchar : fmt st.fmt = c := hspells.head
    rw [turn, if_pos (by rw [hchar]; exact hc.2)]
    rfl
  | directive is_long conversion =>
    have hparts : Spells fmt st.fmt ((37 :: List.replicate is_long 108) ++ [conversion.char]) := hspells
    obtain ⟨hlength, hlast⟩ := hparts.append
    have hchar := hlast.head
    rw [length_cons, length_replicate, Nat.add_comm is_long.val 1, ← Nat.add_assoc] at hchar
    have hend : fmt (st.fmt + 1 + is_long) ≠ 108 := by
      rw [hchar]
      cases conversion <;> decide
    rw [turn_percent hlength hend]
    simp only [Piece.chars, length_cons, length_append, length_replicate, length_nil]
    omega

/-- Where the format ends in an incomplete directive, the loop goes on behind the NUL. -/
theorem loop_incomplete {pieces : List Piece} {is_long : Fin 3} {fuel : Nat} {r : State}
    (h : loop max fmt args fuel st = some r) (hst : st.written < 2 ^ 31)
    (hspells : Spells fmt st.fmt (pieces.flatMap Piece.chars ++ (Tail.incomplete is_long).chars))
    (hnul : fmt (st.fmt + (pieces.flatMap Piece.chars ++ (Tail.incomplete is_long).chars).length) = 0) :
    st.fmt + (pieces.flatMap Piece.chars ++ (Tail.incomplete is_long).chars).length < r.last := by
  induction pieces generalizing st fuel with
  | nil =>
    rw [flatMap_nil, nil_append] at hspells hnul ⊢
    rw [Tail.chars, length_cons, length_replicate] at hnul ⊢
    have hpercent := hspells.head
    cases fuel with
    | zero => cases h
    | succ fuel =>
      rw [loop] at h
      dsimp only at h
      rw [if_neg (by rw [hpercent]; decide)] at h
      obtain ⟨hlast, -⟩ := loop_result h (turn_written_lt max args fmt _)
      have hend : fmt (st.fmt + 1 + is_long) = 0 := by
        rw [Nat.add_assoc, Nat.add_comm 1]
        exact hnul
      rw [@turn_percent max args fmt
        { st with last := st.fmt } is_long hspells (by dsimp only; rw [hend]; decide)] at hlast
      dsimp only at hlast
      omega
  | cons p pieces ih =>
    rw [flatMap_cons, append_assoc] at hspells hnul ⊢
    rw [length_append, ← Nat.add_assoc] at hnul ⊢
    obtain ⟨hp, hrest⟩ := hspells.append
    obtain ⟨c, rest, hchars, hc⟩ := p.head
    have hhead : fmt st.fmt ≠ 0 := by
      have hfirst := hp
      rw [hchars] at hfirst
      rwa [hfirst.head]
    have hfmt := @turn_fmt max args fmt { st with last := st.fmt } p hp
    dsimp only at hfmt
    cases fuel with
    | zero => cases h
    | succ fuel =>
      rw [loop] at h
      dsimp only at h
      rw [if_neg hhead] at h
      rw [← hfmt] at hrest hnul ⊢
      exact ih h (turn_written_lt max args fmt _) hrest hnul

/-- The format is read up to its NUL, and the buffer and the result are as they should be, if and only if the format
does not end in an incomplete directive and its expansion is short enough for an `int`. -/
theorem llm_snprintf_exact_iff (f : Format) (behind : Nat → UInt8) (args : Args) (max : Nat) (hmax : 1 ≤ max)
    (buf : Buffer) :
    (∃ fuel st, llm_snprintf max (f.memory behind) args fuel buf = some st ∧
        Exact f.chars.length max (expansion args 0 f.pieces) buf st) ↔
      f.tail = .none ∧ (expansion args 0 f.pieces).length < 2 ^ 31 := by
  constructor
  · rintro ⟨fuel, st, hrun, hexact⟩
    have start_lt : (0 : Int) < 2 ^ 31 := by decide
    obtain ⟨r, hloop, rfl⟩ := Option.map_eq_some_iff.mp hrun
    have hlast : r.last ≤ f.chars.length := by
      have hle := hexact.last
      rwa [apply_ite State.last, ite_self] at hle
    have hwritten : r.written = (expansion args 0 f.pieces).length := by
      have heq := hexact.written
      rwa [apply_ite State.written, ite_self] at heq
    constructor
    · cases htail : f.tail with
      | none => rfl
      | incomplete is_long =>
        have hspells := f.spells behind
        have hnul := f.nul behind
        have hchars : f.chars = f.pieces.flatMap Piece.chars ++ (Tail.incomplete is_long).chars := by
          rw [Format.chars, htail]
        rw [hchars] at hspells hnul hlast
        have hbeyond := @loop_incomplete max args (f.memory behind) ⟨0, 0, 0, buf, 0, 0⟩ f.pieces is_long fuel
            r hloop start_lt
          hspells (by rwa [Nat.zero_add])
        rw [Nat.zero_add] at hbeyond
        omega
    · have hint := (loop_result hloop start_lt).2
      omega
  · rintro ⟨htail, hlength⟩
    have hchars : f.chars = f.pieces.flatMap Piece.chars := by
      rw [Format.chars, htail, Tail.chars, append_nil]
    have hspells := f.spells behind
    have hnul := f.nul behind
    rw [hchars] at hspells hnul
    obtain ⟨last, words, hloop⟩ := @loop_pieces max args (f.memory behind) ⟨0, 0, 0, buf, 0, 0⟩ f.pieces 0 1 rfl hspells
      (by rwa [Nat.zero_add])
    rw [loop] at hloop
    dsimp only at hloop
    rw [Nat.zero_add, if_pos hnul, Nat.zero_add] at hloop
    refine ⟨1 + f.pieces.length, _, by rw [llm_snprintf, hloop]; rfl, ?_⟩
    have hsize : size_t 0 ((expansion args 0 f.pieces).length : Nat) = (expansion args 0 f.pieces).length := by
      rw [size_t_eq (by omega), Nat.zero_add]
    dsimp only
    rw [if_pos (Nat.lt_of_succ_le hmax), hsize]
    have hat : (if (expansion args 0 f.pieces).length < max then (expansion args 0 f.pieces).length else max - 1) =
        min (expansion args 0 f.pieces).length (max - 1) := by
      split_ifs <;> omega
    rw [hat]
    refine ⟨?_, fun i hi => ?_, fun i hi hin => ?_, ?_, rfl⟩
    · rw [hchars]
    · dsimp only
      rw [Function.update_of_ne (by omega), deposit, if_neg (by omega)]
    · dsimp only
      rw [Function.update_of_ne (by omega), deposit, if_pos (by omega), Nat.sub_zero]
    · dsimp only
      rw [Function.update_self]

/-- Arguments of which the first one is `w`. -/
def one_word (w : UInt64) : Args := ⟨fun _ => w, fun _ => [], fun _ => []⟩

/-- The format `%lx!` with the word of all bits, and room for four characters. -/
theorem llm_snprintf_exact_hex :
    ∃ fuel st, llm_snprintf 5 (Format.memory ⟨[.directive 1 .x, .plain 33 (by decide)], .none⟩ fun _ => 65)
        (one_word 0xffffffffffffffff) fuel (fun _ => 7) = some st ∧
      Exact 4 5 (expansion (one_word 0xffffffffffffffff) 0 [.directive 1 .x, .plain 33 (by decide)]) (fun _ => 7) st :=
  (llm_snprintf_exact_iff ⟨[.directive 1 .x, .plain 33 (by decide)], .none⟩
    (fun _ => 65) (one_word 0xffffffffffffffff) 5
    (by decide) fun _ => 7).mpr ⟨rfl, by simp [expansion, Piece.expansion, numeral, one_word, unsigned]⟩

/-- The format `%` is read behind its NUL. -/
theorem percent_reads_behind :
    ¬ ∃ fuel st,
      llm_snprintf 8 (Format.memory ⟨[], .incomplete 0⟩ fun _ => 0) (one_word 0) fuel (fun _ => 0) = some st ∧
      Exact 1 8 (expansion (one_word 0) 0 []) (fun _ => 0) st := by
  rintro ⟨fuel, st, hrun, hexact⟩
  obtain ⟨r, hloop, rfl⟩ := Option.map_eq_some_iff.mp hrun
  have hlast : r.last ≤ 1 := hexact.last
  have hbeyond := @loop_incomplete 8 (one_word 0) _ ⟨0, 0, 0, fun _ => 0, 0, 0⟩ [] 0 fuel r hloop
    (show (0 : Int) < 2 ^ 31 by decide) (Format.spells ⟨[], .incomplete 0⟩ _) (Format.nul ⟨[], .incomplete 0⟩ _)
  change 0 + 1 < r.last at hbeyond
  omega

end graceos.llm.snprintf
