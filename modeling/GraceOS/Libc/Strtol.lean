import GraceOS.Lib.Numeral
import GraceOS.Lib.Word
import Mathlib.Algebra.Order.Ring.Int
import Mathlib.Data.List.TakeWhile

/-!
# Reading numbers

`strtol` and `strtoul` of `stdlib.c`. Both step over a prefix before they know whether a digit follows it.
-/

namespace graceos.libc

open List

/-! ## The functions -/

/-- A character of a string, with the NUL behind it. -/
def chr (s : List UInt8) (i : Nat) : UInt8 := s.getD i 0

def isspace (c : UInt8) : Bool := c = 32 ∨ c = 9 ∨ c = 10 ∨ c = 13 ∨ c = 12 ∨ c = 11

def digit_value (c : UInt8) : Int :=
  if 48 ≤ c ∧ c ≤ 57 then c.toNat - 48
  else if 65 ≤ c ∧ c ≤ 90 then c.toNat - 65 + 10
  else if 97 ≤ c ∧ c ≤ 122 then c.toNat - 97 + 10
  else -1

/-- The number that is returned, and how far behind `nptr` the pointer lies that `endptr` gets, if it is not null. -/
structure Parsed where
  value : Int
  endptr : Option Nat
  deriving DecidableEq

/-- The bits of an unsigned number as a `long`. -/
def long (v : Int) : Int := (v + 2 ^ 63) % 2 ^ 64 - 2 ^ 63

/-- `x` or `X`. -/
def is_x (c : UInt8) : Bool := c = 120 ∨ c = 88

/-- The base, and the string behind the prefix. -/
def detect (base : Int) (s : List UInt8) : Int × List UInt8 :=
  if base = 0 then
    if chr s 0 = 48 ∧ is_x (chr s 1) then (16, s.drop 2)
    else if chr s 0 = 48 then (8, s.drop 1)
    else (10, s)
  else if base = 16 ∧ chr s 0 = 48 ∧ is_x (chr s 1) then (16, s.drop 2)
  else (base, s)

/-- The loop over the digits, with `acc` and `any`. -/
def digits_loop (base : Int) : (acc : Nat) → (any : Bool) → List UInt8 → Nat × Bool × List UInt8
  | acc, any, [] => (acc, any, [])
  | acc, any, c :: s =>
    let v := digit_value c
    if v < 0 ∨ base ≤ v then (acc, any, c :: s)
    else digits_loop base ((acc * base.toNat + v.toNat) % 2 ^ 64) true s

/-- The text that the two functions share: whether there is a minus sign, and what is returned. -/
def parse (minus : Bool) (result : Bool → Nat → Int) (nptr : Option (List UInt8)) (base : Int) : Parsed :=
  match nptr with
  | none => ⟨0, none⟩
  | some nptr =>
    let s := nptr.dropWhile isspace
    if base ≠ 0 ∧ (base < 2 ∨ 36 < base) then ⟨0, some 0⟩
    else
      let neg := minus && chr s 0 = 45
      let s := if chr s 0 = 43 ∨ neg = true then s.drop 1 else s
      let (base, s) := detect base s
      let (acc, any, s) := digits_loop base 0 false s
      if any = false then ⟨0, some 0⟩ else ⟨result neg acc, some (nptr.length - s.length)⟩

def strtol (nptr : Option (List UInt8)) (base : Int) : Parsed :=
  parse true (fun neg acc => if neg then long (-(long acc)) else long acc) nptr base

def strtoul (nptr : Option (List UInt8)) (base : Int) : Parsed := parse false (fun _ acc => acc) nptr base

/-! ## Numerals -/

/-- A digit of a base. -/
def IsDigit (base : Int) (c : UInt8) : Bool := 0 ≤ digit_value c ∧ digit_value c < base

/-- The longest run of digits. -/
def run (base : Int) (s : List UInt8) : List UInt8 := s.takeWhile (IsDigit base)

/-- The prefix `0x`, in front of a digit. -/
def HexPrefix (s : List UInt8) : Bool := chr s 0 = 48 ∧ is_x (chr s 1) ∧ IsDigit 16 (chr s 2)

/-- The base of a numeral, its prefix, and its digits. The digit zero in front of octal digits is itself one. -/
structure Numeral where
  base : Int
  front : Nat
  digits : List UInt8

def numeral_at (base : Int) (s : List UInt8) : Numeral :=
  if (base = 0 ∨ base = 16) ∧ HexPrefix s then ⟨16, 2, run 16 (s.drop 2)⟩
  else if base ≠ 0 then ⟨base, 0, run base s⟩
  else if chr s 0 = 48 then ⟨8, 0, run 8 s⟩
  else ⟨10, 0, run 10 s⟩

def Numeral.value (n : Numeral) : Nat := numeral.read n.base.toNat 0 (n.digits.map fun c => (digit_value c).toNat)

/-- The length of the white space, and of the sign behind it. -/
def blank (nptr : List UInt8) : Nat := (nptr.takeWhile isspace).length

def sign (minus : Bool) (s : List UInt8) : Nat := if chr s 0 = 43 ∨ minus = true ∧ chr s 0 = 45 then 1 else 0

/-- What is behind the white space, and what is behind the sign. -/
def unsigned (minus : Bool) (nptr : List UInt8) : List UInt8 :=
  (nptr.dropWhile isspace).drop (sign minus (nptr.dropWhile isspace))

def negative (minus : Bool) (nptr : List UInt8) : Bool := minus && chr (nptr.dropWhile isspace) 0 = 45

/-- The longest numeral is read, up to its end and with its value, if that is one of the type of the result. -/
def Exact (minus : Bool) (least limit : Int) (nptr : List UInt8) (base : Int) (r : Parsed) : Prop :=
  let n := numeral_at base (unsigned minus nptr)
  if n.digits = [] then r.endptr = some 0
  else
    r.endptr = some (blank nptr + sign minus (nptr.dropWhile isspace) + n.front + n.digits.length) ∧
      let v : Int := if negative minus nptr then -n.value else n.value
      least ≤ v → v < limit → r.value = v

/-- A zero that is taken for a prefix, with no digit behind it. -/
def LoneZero (base : Int) (s : List UInt8) : Prop :=
  chr s 0 = 48 ∧
    ((base = 0 ∨ base = 16) ∧ is_x (chr s 1) = true ∧ IsDigit 16 (chr s 2) = false ∨
      base = 0 ∧ is_x (chr s 1) = false ∧ IsDigit 8 (chr s 1) = false)

/-! ## The loop -/

variable {base : Int} {t : List UInt8}

theorem digits_loop_eq (base : Int) (acc : Nat) (any : Bool) (s : List UInt8) :
    digits_loop base (acc % 2 ^ 64) any s =
      (numeral.read base.toNat acc ((run base s).map fun c => (digit_value c).toNat) % 2 ^ 64,
        any || !(run base s).isEmpty, s.drop (run base s).length) := by
  induction s generalizing acc any with
  | nil => simp [digits_loop, run]
  | cons c s ih =>
    rw [digits_loop]
    by_cases hdigit : IsDigit base c = true
    · have hrun : run base (c :: s) = c :: run base s := takeWhile_cons_of_pos hdigit
      have hrange : 0 ≤ digit_value c ∧ digit_value c < base := of_decide_eq_true hdigit
      rw [if_neg (by omega), numeral.step_mod, ih, hrun]
      simp
    · have hrun : run base (c :: s) = [] := takeWhile_cons_of_neg hdigit
      have hrange : ¬ (0 ≤ digit_value c ∧ digit_value c < base) := fun h => hdigit (decide_eq_true h)
      rw [if_pos (by omega), hrun]
      simp

theorem length_run_le (base : Int) (s : List UInt8) : (run base s).length ≤ s.length :=
  ( takeWhile_prefix _).length_le

theorem run_eq_nil_iff {s : List UInt8} : run base s = [] ↔ IsDigit base (chr s 0) = false := by
  cases s with
  | nil =>
    have hnul : digit_value 0 = -1 := by decide
    simp [run, chr, IsDigit, hnul]
  | cons c s =>
    rw [run, takeWhile_cons]
    cases hdigit : IsDigit base c with
    | true => simp [chr, hdigit]
    | false => simp [chr, hdigit]

theorem chr_drop (s : List UInt8) (i k : Nat) : chr (s.drop i) k = chr s (i + k) := by
  rw [chr, chr, getD_eq_getElem?_getD, getD_eq_getElem?_getD, List.getElem?_drop]

theorem length_of_chr {s : List UInt8} {i : Nat} (h : chr s i ≠ 0) : i < s.length := by
  by_contra hout
  exact h (by rw [chr, getD_eq_getElem?_getD, List.getElem?_eq_none (by omega)]; rfl)

/-- The loop behind the detected prefix reads the numeral. -/
structure ReadsNumeral (base : Int) (t : List UInt8) : Prop where
  value : numeral.read (detect base t).1.toNat 0
    ((run (detect base t).1 (detect base t).2).map fun c => (digit_value c).toNat) = (numeral_at base t).value
  empty : run (detect base t).1 (detect base t).2 = [] ↔ (numeral_at base t).digits = []
  length : (detect base t).2.length - (run (detect base t).1 (detect base t).2).length +
    ((numeral_at base t).front + (numeral_at base t).digits.length) = t.length

theorem readsNumeral_hex (hbase : base = 0 ∨ base = 16) (hzero : chr t 0 = 48)
    (hisx : is_x (chr t 1) = true) (hdigit : IsDigit 16 (chr t 2) = true) : ReadsNumeral base t := by
  have hprefix : HexPrefix t = true := decide_eq_true ⟨hzero, hisx, hdigit⟩
  have hdetect : detect base t = (16, t.drop 2) := by
    obtain rfl | rfl := hbase
    · rw [detect, if_pos rfl, if_pos ⟨hzero, hisx⟩]
    · rw [detect, if_neg (by decide), if_pos ⟨rfl, hzero, hisx⟩]
  have hlength : 1 < t.length := length_of_chr (fun hnul => by rw [hnul] at hisx; cases hisx)
  have hrun := length_run_le 16 (t.drop 2)
  rw [length_drop] at hrun
  have hnumeral := numeral_at.eq_def base t
  rw [if_pos ⟨hbase, hprefix⟩] at hnumeral
  refine ⟨?_, ?_, ?_⟩
  · rw [hnumeral, hdetect]
    rfl
  · rw [hnumeral, hdetect]
  · rw [hnumeral, hdetect]
    dsimp only
    rw [length_drop]
    omega

/-- The zero is the first one of the octal digits. -/
theorem readsNumeral_octal (hzero : chr t 0 = 48) (hnox : is_x (chr t 1) = false)
    (hdigit : IsDigit 8 (chr t 1) = true) : ReadsNumeral 0 t := by
  cases t with
  | nil => cases hzero
  | cons c rest =>
    obtain rfl : c = 48 := hzero
    have hfirst : chr ((48 : UInt8) :: rest) 0 = 48 := rfl
    have hdetect : detect 0 ((48 : UInt8) :: rest) = (8, rest) := by
      rw [detect, if_pos rfl, if_neg (by simp [hnox]), if_pos hfirst]
      rfl
    have hplain : HexPrefix ((48 : UInt8) :: rest) = false := decide_eq_false fun h => by simp [hnox] at h
    have hnumeral := numeral_at.eq_def 0 ((48 : UInt8) :: rest)
    rw [if_neg (by simp [hplain]), if_neg (by simp), if_pos hfirst] at hnumeral
    have hrun : run 8 ((48 : UInt8) :: rest) = 48 :: run 8 rest := takeWhile_cons_of_pos (by decide)
    have hne : run 8 rest ≠ [] := fun hnil => by
      rw [run_eq_nil_iff] at hnil
      exact absurd (hnil.symm.trans hdigit) (by decide)
    have hle := length_run_le 8 rest
    refine ⟨?_, ?_, ?_⟩
    · rw [hnumeral, hdetect, Numeral.value]
      dsimp only
      rw [hrun]
      rfl
    · rw [hnumeral, hdetect]
      dsimp only
      rw [hrun]
      exact iff_of_false hne (by simp)
    · rw [hnumeral, hdetect]
      dsimp only
      rw [hrun, length_cons, length_cons]
      omega

/-- There is no prefix. -/
theorem readsNumeral_plain
    (hx : ¬ ((base = 0 ∨ base = 16) ∧ chr t 0 = 48 ∧ is_x (chr t 1) = true)) (hoctal : base = 0 → chr t 0 ≠ 48) :
    ReadsNumeral base t := by
  have hplain : ¬ ((base = 0 ∨ base = 16) ∧ HexPrefix t = true) := by
    rintro ⟨hbase, hprefix⟩
    obtain ⟨hzero, hisx, -⟩ := of_decide_eq_true hprefix
    exact hx ⟨hbase, hzero, hisx⟩
  have hnumeral := numeral_at.eq_def base t
  have hdetect := detect.eq_def base t
  rw [if_neg hplain] at hnumeral
  by_cases hbase : base = 0
  · subst hbase
    rw [if_neg (by simp), if_neg (hoctal rfl)] at hnumeral
    rw [if_pos rfl, if_neg fun h => hx ⟨Or.inl rfl, h⟩, if_neg (hoctal rfl)] at hdetect
    have hle := length_run_le 10 t
    refine ⟨?_, ?_, ?_⟩
    · rw [hnumeral, hdetect]
      rfl
    · rw [hnumeral, hdetect]
    · rw [hnumeral, hdetect]
      dsimp only
      omega
  · rw [if_pos hbase] at hnumeral
    rw [if_neg hbase, if_neg fun h => hx ⟨Or.inr h.1, h.2⟩] at hdetect
    have hle := length_run_le base t
    refine ⟨?_, ?_, ?_⟩
    · rw [hnumeral, hdetect]
      rfl
    · rw [hnumeral, hdetect]
    · rw [hnumeral, hdetect]
      dsimp only
      omega

theorem detect_eq_numeral (hlone : ¬ LoneZero base t) : ReadsNumeral base t := by
  by_cases hx : (base = 0 ∨ base = 16) ∧ chr t 0 = 48 ∧ is_x (chr t 1) = true
  · obtain ⟨hbase, hzero, hisx⟩ := hx
    apply readsNumeral_hex hbase hzero hisx
    by_contra hnot
    exact hlone ⟨hzero, Or.inl ⟨hbase, hisx, Bool.eq_false_iff.mpr hnot⟩⟩
  by_cases hoctal : base = 0 ∧ chr t 0 = 48
  · obtain ⟨rfl, hzero⟩ := hoctal
    have hnox : is_x (chr t 1) = false := Bool.eq_false_iff.mpr fun h => hx ⟨Or.inl rfl, hzero, h⟩
    apply readsNumeral_octal hzero hnox
    by_contra hnot
    exact hlone ⟨hzero, Or.inr ⟨rfl, hnox, Bool.eq_false_iff.mpr hnot⟩⟩
  · exact readsNumeral_plain hx fun hbase hzero => hoctal ⟨hbase, hzero⟩

/-- Behind a lone zero the loop finds no digit, although the zero is a numeral. -/
theorem lone_zero (hlone : LoneZero base t) :
    run (detect base t).1 (detect base t).2 = [] ∧ (numeral_at base t).digits ≠ [] := by
  obtain ⟨hzero, hcase⟩ := hlone
  have hplain : HexPrefix t = false := by
    obtain ⟨-, -, hnot⟩ | ⟨-, hnox, -⟩ := hcase
    · exact decide_eq_false fun h => absurd (h.2.2.symm.trans hnot) (by decide)
    · exact decide_eq_false fun h => absurd (h.2.1.symm.trans hnox) (by decide)
  have hdigits : ∀ b : Int, 0 < b → run b t ≠ [] := by
    intro b hb hnil
    have hvalue : digit_value 48 = 0 := by decide
    rw [run_eq_nil_iff, hzero] at hnil
    exact absurd (of_decide_eq_false hnil) (by rw [hvalue]; simp [hb])
  have hnumeral : (base = 0 ∨ base = 16) → (numeral_at base t).digits ≠ [] := by
    intro hbase
    rw [numeral_at, if_neg (by simp [hplain])]
    obtain rfl | rfl := hbase
    · rw [if_neg (by simp), if_pos hzero]
      exact hdigits 8 (by decide)
    · rw [if_pos (by decide)]
      exact hdigits 16 (by decide)
  obtain ⟨hbase, hisx, hnot⟩ | ⟨rfl, hnox, hnot⟩ := hcase
  · refine ⟨?_, hnumeral hbase⟩
    have hdetect : detect base t = (16, t.drop 2) := by
      obtain rfl | rfl := hbase
      · rw [detect, if_pos rfl, if_pos ⟨hzero, hisx⟩]
      · rw [detect, if_neg (by decide), if_pos ⟨rfl, hzero, hisx⟩]
    rw [hdetect, run_eq_nil_iff, chr_drop]
    exact hnot
  · refine ⟨?_, hnumeral (Or.inl rfl)⟩
    rw [detect, if_pos rfl, if_neg (by simp [hnox]), if_pos hzero, run_eq_nil_iff, chr_drop]
    exact hnot

theorem blank_length (minus : Bool) (nptr : List UInt8) :
    blank nptr + sign minus (nptr.dropWhile isspace) + (unsigned minus nptr).length = nptr.length := by
  have hsplit := congrArg List.length (@List.takeWhile_append_dropWhile _ isspace nptr)
  rw [length_append] at hsplit
  rw [unsigned, length_drop, blank]
  have hsign : sign minus (nptr.dropWhile isspace) ≤ (nptr.dropWhile isspace).length := by
    rw [sign]
    split_ifs with hsome
    · refine length_of_chr fun hnul => ?_
      rw [hnul] at hsome
      simp at hsome
    · exact Nat.zero_le _
  omega

theorem parse_eq (minus : Bool) (result : Bool → Nat → Int) (nptr : List UInt8)
    (hbase : base = 0 ∨ 2 ≤ base ∧ base ≤ 36) :
    parse minus result (some nptr) base =
      let u := detect base (unsigned minus nptr)
      let digits := run u.1 u.2
      if digits = [] then ⟨0, some 0⟩
      else ⟨result (negative minus nptr)
        (numeral.read u.1.toNat 0 (digits.map fun c => (digit_value c).toNat) % 2 ^ 64),
        some (nptr.length - (u.2.length - digits.length))⟩ := by
  have hsign : (if chr (nptr.dropWhile isspace) 0 = 43 ∨ (minus && chr (nptr.dropWhile isspace) 0 = 45) = true then
      (nptr.dropWhile isspace).drop 1 else nptr.dropWhile isspace) = unsigned minus nptr := by
    rw [unsigned, sign]
    simp only [Bool.and_eq_true, decide_eq_true_eq]
    split_ifs <;> rfl
  have hloop := digits_loop_eq (detect base (unsigned minus nptr)).1 0 false (detect base (unsigned minus nptr)).2
  rw [Nat.zero_mod] at hloop
  rw [parse]
  dsimp only
  rw [if_neg (by omega), hsign, hloop]
  dsimp only
  rw [Bool.false_or, length_drop]
  by_cases hnil : run (detect base (unsigned minus nptr)).1 (detect base (unsigned minus nptr)).2 = []
  · rw [if_pos hnil, if_pos (by rw [hnil]; rfl)]
  · rw [if_neg hnil, if_neg (by simp [hnil])]
    rfl

/-- A call is exact if and only if no lone zero is there, provided that the result has the value where it can. -/
theorem parse_exact_iff (minus : Bool) {result : Bool → Nat → Int} {least limit : Int}
    (hresult : ∀ (neg : Bool) (v : Nat), (neg = true → minus = true) → least ≤ (if neg = true then -(v : Int) else v) →
      (if neg = true then -(v : Int) else v) < limit → result neg (v % 2 ^ 64) = if neg = true then -(v : Int) else v)
    (nptr : List UInt8) (hbase : base = 0 ∨ 2 ≤ base ∧ base ≤ 36) :
    Exact minus least limit nptr base (parse minus result (some nptr) base) ↔
        ¬ LoneZero base (unsigned minus nptr) := by
  rw [Exact, parse_eq minus result nptr hbase]
  dsimp only
  by_cases hlone : LoneZero base (unsigned minus nptr)
  · obtain ⟨hnil, hdigits⟩ := lone_zero hlone
    rw [if_neg hdigits, if_pos hnil]
    refine iff_of_false (fun h => ?_) (fun h => h hlone)
    have hend := Option.some.inj h.1
    have hpos := List.length_pos_iff.mpr hdigits
    omega
  refine iff_of_true ?_ hlone
  obtain ⟨hvalue, hnil, hlength⟩ := detect_eq_numeral hlone
  by_cases hdigits : (numeral_at base (unsigned minus nptr)).digits = []
  · rw [if_pos hdigits, if_pos (hnil.mpr hdigits)]
  · rw [if_neg hdigits, if_neg (mt hnil.mp hdigits)]
    have hall := blank_length minus nptr
    refine ⟨congrArg some ?_, fun hleast hlimit => ?_⟩
    · omega
    · dsimp only
      rw [hvalue]
      refine hresult _ _ (fun hneg => ?_) hleast hlimit
      exact (Bool.and_eq_true _ _ ▸ hneg).1

/-- `strtol` and `strtoul` read the longest numeral if and only if no zero is taken for a prefix without a digit behind
it. -/
theorem strtol_strtoul_exact_iff (nptr : List UInt8) (base : Int) (hbase : base = 0 ∨ 2 ≤ base ∧ base ≤ 36) :
    (Exact true (-2 ^ 63) (2 ^ 63) nptr base (strtol (some nptr) base) ↔ ¬ LoneZero base (unsigned true nptr)) ∧
      (Exact false 0 (2 ^ 64) nptr base (strtoul (some nptr) base) ↔ ¬ LoneZero base (unsigned false nptr)) := by
  constructor
  · refine parse_exact_iff true (fun neg v _ hleast hlimit => ?_) nptr hbase
    cases neg with
    | false =>
      simp only [Bool.false_eq_true, if_false, long] at hleast hlimit ⊢
      omega
    | true =>
      simp only [if_true, long] at hleast hlimit ⊢
      omega
  · refine parse_exact_iff false (fun neg v hneg hleast hlimit => ?_) nptr hbase
    cases neg with
    | false =>
      simp only [Bool.false_eq_true, if_false] at hleast hlimit ⊢
      omega
    | true => cases hneg rfl

theorem strtol_strtoul_exact_hex :
    Exact true (-2 ^ 63) (2 ^ 63) (word.ascii " -0x1fz") 0 (strtol (some (word.ascii " -0x1fz")) 0) ∧
      strtol (some (word.ascii " -0x1fz")) 0 = ⟨-31, some 6⟩ :=
  ⟨(strtol_strtoul_exact_iff (word.ascii " -0x1fz") 0 (Or.inl rfl)).1.mpr (by simp [LoneZero]; decide), by decide⟩

/-- The string `0` has a numeral, but `strtol` finds none when it chooses the base. -/
theorem strtol_misses_zero :
    strtol (some (word.ascii "0")) 0 = ⟨0, some 0⟩ ∧
      ¬ Exact true (-2 ^ 63) (2 ^ 63) (word.ascii "0") 0 (strtol (some (word.ascii "0")) 0) := by
  have hrun : strtol (some (word.ascii "0")) 0 = ⟨0, some 0⟩ := by decide
  refine ⟨hrun, fun h => ?_⟩
  rw [hrun] at h
  exact absurd h.1 (by decide)

end graceos.libc
