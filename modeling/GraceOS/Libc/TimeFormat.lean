import GraceOS.Libc.Time

/-!
# Formatting a time

`format_time` and `strftime` go through a format piece by piece. Both test only that there is room for one byte and
subtract the width of a piece after they have written it, so the last piece may pass the end of the buffer.
-/

namespace graceos.libc

open List

/-! ## Numbers -/

/-- The digits of the loop of `append_int`, the last one first. The loop runs at most `value` times. -/
def digits : (fuel v : Nat) → List UInt8
  | 0, _ => []
  | fuel + 1, v => if v = 0 then [] else ('0'.toUInt8 + UInt8.ofNat (v % 10)) :: digits fuel (v / 10)

/-- What `append_int` writes. -/
def append_int (value : Int) (width : Nat) (pad : UInt8) : List UInt8 :=
  let temp := if value = 0 then ['0'.toUInt8] else digits value.toNat value.toNat
  (temp ++ List.replicate (width - temp.length) pad).reverse

theorem append_int_length (value : Int) (width : Nat) (pad : UInt8) : width ≤ (append_int value width pad).length := by
  unfold append_int
  dsimp only
  rw [length_reverse, length_append, length_replicate]
  omega

/-! ## Pieces of a format -/

/-- What one turn of a loop writes, what it subtracts from `remaining`, and the format behind it. -/
structure Piece where
  bytes : List UInt8
  width : UInt64
  rest : List UInt8

/-- The 12-hour form of an hour. -/
def hour12 (tm : Tm) : Int := if tm.tm_hour.tmod 12 = 0 then 12 else tm.tm_hour.tmod 12

def ampm (tm : Tm) : List UInt8 := if tm.tm_hour < 12 then word.ascii "AM" else word.ascii "PM"

/-- A number of the format: its value, and its width. -/
def number (value : Int) (width : Nat) (rest : List UInt8) : Piece :=
  ⟨append_int value width '0'.toUInt8, UInt64.ofNat width, rest⟩

/-- One turn of the loop of `format_time`, in front of a format that does not end here. -/
def format_piece (tm : Tm) (f : List UInt8) : Piece :=
  if (word.ascii "YYYY").isPrefixOf f then number (tm.tm_year + 1900) 4 (f.drop 4)
  else if (word.ascii "MM").isPrefixOf f then number (tm.tm_mon + 1) 2 (f.drop 2)
  else if (word.ascii "DD").isPrefixOf f then number tm.tm_mday 2 (f.drop 2)
  else if (word.ascii "HH").isPrefixOf f then number tm.tm_hour 2 (f.drop 2)
  else if (word.ascii "hh").isPrefixOf f then number (hour12 tm) 2 (f.drop 2)
  else if (word.ascii "mm").isPrefixOf f then number tm.tm_min 2 (f.drop 2)
  else if (word.ascii "ss").isPrefixOf f then number tm.tm_sec 2 (f.drop 2)
  else if (word.ascii "A").isPrefixOf f then ⟨ampm tm, 2, f.drop 1⟩
  else ⟨f.take 1, 1, f.drop 1⟩

/-- The conversion behind a percent sign. -/
def conversion (tm : Tm) (c : UInt8) (rest : List UInt8) : Piece :=
  if c = 'Y'.toUInt8 then number (tm.tm_year + 1900) 4 rest
  else if c = 'm'.toUInt8 then number (tm.tm_mon + 1) 2 rest
  else if c = 'd'.toUInt8 then number tm.tm_mday 2 rest
  else if c = 'H'.toUInt8 then number tm.tm_hour 2 rest
  else if c = 'I'.toUInt8 then number (hour12 tm) 2 rest
  else if c = 'M'.toUInt8 then number tm.tm_min 2 rest
  else if c = 'S'.toUInt8 then number tm.tm_sec 2 rest
  else if c = 'p'.toUInt8 then ⟨ampm tm, 2, rest⟩
  else if c = '%'.toUInt8 then ⟨word.ascii "%", 1, rest⟩
  else ⟨['%'.toUInt8, c], 2, rest⟩

/-- One turn of the loop of `strftime`. A percent sign at the end of the format is copied. -/
def strftime_piece (tm : Tm) (f : List UInt8) : Piece :=
  match f with
  | p :: c :: rest => if p = '%'.toUInt8 then conversion tm c rest else ⟨[p], 1, c :: rest⟩
  | f => ⟨f.take 1, 1, f.drop 1⟩

/-- The loop of both functions: what it writes while the format goes on and `remaining` is not 0. -/
def fill (piece : List UInt8 → Piece) : (fuel : Nat) → (f : List UInt8) → (remaining : UInt64) → List UInt8
  | 0, _, _ => []
  | fuel + 1, f, remaining =>
    if f = [] ∨ ¬ remaining > 0 then []
    else (piece f).bytes ++ fill piece fuel (piece f).rest (remaining - (piece f).width)

/-- The bytes that were written and the returned number. -/
structure Formatted where
  ret : Int
  out : List UInt8
  deriving DecidableEq

/-- The length of the output is returned as an `int`. -/
def format_time (tm : Tm) (fmt : List UInt8) (max : UInt64) : Formatted :=
  if max = 0 then ⟨-1, []⟩
  else
    let p := fill (format_piece tm) fmt.length fmt (max - 1)
    ⟨int32 p.length, p ++ [0]⟩

def strftime (max : UInt64) (format : List UInt8) (tm : Tm) : Formatted :=
  if max = 0 then ⟨0, []⟩
  else
    let p := fill (strftime_piece tm) format.length format (max - 1)
    ⟨(UInt64.ofNat p.length).toNat, p ++ [0]⟩

/-! ## The pieces of a whole format -/

/-- All pieces of a format, whatever the room. -/
def pieces (piece : List UInt8 → Piece) : (fuel : Nat) → List UInt8 → List Piece
  | 0, _ => []
  | fuel + 1, f => if f = [] then [] else piece f :: pieces piece fuel (piece f).rest

def widths (ps : List Piece) : Nat := (ps.map fun p => p.width.toNat).sum

def bytes (ps : List Piece) : Nat := (ps.map fun p => p.bytes.length).sum

/-- Every piece that begins before the widths have used up the room ends within the limit. -/
def EndsWithin (room limit : Nat) (ps : List Piece) : Prop :=
  ∀ front p back, ps = front ++ p :: back → widths front < room → bytes front + p.bytes.length ≤ limit

/-- A loop whose turns go forward and write at least what they subtract. -/
structure Forward (piece : List UInt8 → Piece) : Prop where
  shorter : ∀ f, f ≠ [] → (piece f).rest.length < f.length
  width_le : ∀ f, f ≠ [] → (piece f).width.toNat ≤ (piece f).bytes.length

/-- A turn that goes forward and writes at least what it subtracts. -/
def Piece.Steps (p : Piece) (f : List UInt8) : Prop := p.rest.length < f.length ∧ p.width.toNat ≤ p.bytes.length

theorem Forward.of_steps {piece : List UInt8 → Piece} (h : ∀ f, f ≠ [] → (piece f).Steps f) : Forward piece :=
  ⟨fun f hf => (h f hf).1, fun f hf => (h f hf).2⟩

theorem Piece.Steps.ite {c : Prop} [Decidable c] {p q : Piece} {f : List UInt8} (hp : p.Steps f) (hq : q.Steps f) :
    (if c then p else q).Steps f := by
  split
  · exact hp
  · exact hq

theorem number_steps {value : Int} {width : Nat} {rest f : List UInt8} (hwidth : width < 2 ^ 64)
    (hrest : rest.length < f.length) : (number value width rest).Steps f := by
  refine ⟨hrest, ?_⟩
  change (UInt64.ofNat width).toNat ≤ (append_int value width _).length
  rw [UInt64.toNat_ofNat_of_lt' hwidth]
  exact append_int_length value width _

theorem ampm_length (tm : Tm) : (ampm tm).length = 2 := by
  unfold ampm
  split <;> rfl

theorem format_piece_forward (tm : Tm) : Forward (format_piece tm) := by
  refine .of_steps fun f hf => ?_
  have hlen := List.length_pos_iff.mpr hf
  have hdrop : ∀ n, 0 < n → (f.drop n).length < f.length := by
    intro n hn
    rw [length_drop]
    omega
  have hnumber : ∀ value width, 0 < width → width < 2 ^ 64 → (number value width (f.drop width)).Steps f :=
    fun value width hpos hwidth => number_steps hwidth (hdrop width hpos)
  have htwo := fun value => hnumber value 2 (by decide) (by decide)
  have hletter : Piece.Steps ⟨f.take 1, 1, f.drop 1⟩ f := by
    refine ⟨hdrop 1 (by decide), ?_⟩
    change 1 ≤ (f.take 1).length
    rw [length_take]
    omega
  unfold format_piece
  refine .ite (hnumber _ 4 (by decide) (by decide)) (.ite (htwo _) (.ite (htwo _) (.ite (htwo _) (.ite (htwo _)
    (.ite (htwo _) (.ite (htwo _) (.ite ⟨hdrop 1 (by decide), (ampm_length tm).ge⟩ hletter)))))))

theorem conversion_steps (tm : Tm) (c : UInt8) {rest f : List UInt8} (hrest : rest.length < f.length) :
    (conversion tm c rest).Steps f := by
  have hnumber : ∀ value width, width < 2 ^ 64 → (number value width rest).Steps f :=
    fun value width hwidth => number_steps hwidth hrest
  have htwo := fun value => hnumber value 2 (by decide)
  unfold conversion
  refine .ite (hnumber _ 4 (by decide)) (.ite (htwo _) (.ite (htwo _) (.ite (htwo _) (.ite (htwo _)
    (.ite (htwo _) (.ite (htwo _) (.ite ⟨hrest, (ampm_length tm).ge⟩ (.ite ⟨hrest, le_refl 1⟩
      ⟨hrest, le_refl 2⟩))))))))

theorem strftime_piece_forward (tm : Tm) : Forward (strftime_piece tm) := by
  refine .of_steps fun f hf => ?_
  match f with
  | [] => exact absurd rfl hf
  | [p] => exact ⟨Nat.zero_lt_one, le_refl 1⟩
  | p :: c :: rest =>
    have hrest : rest.length < (p :: c :: rest).length := Nat.lt_succ_of_lt (Nat.lt_succ_self _)
    exact .ite (conversion_steps tm c hrest) ⟨Nat.lt_succ_self _, le_refl 1⟩

/-! ## The end of the buffer -/

/-- Behind `taken` bytes of which `counted` were subtracted, the loop writes up to the limit exactly where no piece
that it begins ends behind the limit. -/
theorem fill_length_iff {piece : List UInt8 → Piece} (h : Forward piece) {fuel : Nat} {f : List UInt8}
    {remaining : UInt64} {room limit counted taken : Nat} (hroom : remaining.toNat + counted = room)
    (hcounted : counted ≤ taken) (htaken : taken ≤ limit) (hlimit : limit ≤ room) :
    taken + (fill piece fuel f remaining).length ≤ limit ↔
      ∀ front p back, pieces piece fuel f = front ++ p :: back → counted + widths front < room →
        taken + bytes front + p.bytes.length ≤ limit := by
  induction fuel generalizing f remaining counted taken with
  | zero =>
    refine ⟨fun _ front p back hsplit => ?_, fun _ => htaken⟩
    simp [pieces] at hsplit
  | succ fuel ih =>
    rw [fill, pieces]
    by_cases hf : f = []
    · rw [if_pos (.inl hf), if_pos hf]
      refine ⟨fun _ front p back hsplit => ?_, fun _ => htaken⟩
      simp at hsplit
    by_cases hzero : remaining > 0
    · have hwidth := h.width_le f hf
      have hpos : 0 < remaining.toNat := UInt64.lt_iff_toNat_lt.mp hzero
      rw [if_neg (by simp [hf, hzero]), if_neg hf, length_append]
      by_cases hpast : limit < taken + (piece f).bytes.length
      · -- the first piece already ends behind the limit
        constructor
        · intro hle
          omega
        · intro hall
          have hfirst := hall [] (piece f) _ rfl (by simp only [widths, map_nil, sum_nil]; omega)
          simp only [bytes, map_nil, sum_nil] at hfirst
          omega
      have hle : (piece f).width ≤ remaining := UInt64.le_iff_toNat_le.mpr (by omega)
      have hsub : (remaining - (piece f).width).toNat = remaining.toNat - (piece f).width.toNat :=
        UInt64.toNat_sub_of_le _ _ hle
      have hle' := UInt64.le_iff_toNat_le.mp hle
      rw [← Nat.add_assoc, @ih (piece f).rest (remaining - (piece f).width) (counted + (piece f).width.toNat)
        (taken + (piece f).bytes.length) (by omega) (by omega) (by omega)]
      constructor
      · intro hall front p back hsplit hlt
        cases front with
        | nil =>
          obtain ⟨rfl, -⟩ := List.cons_eq_cons.mp hsplit
          simp only [bytes, map_nil, sum_nil]
          omega
        | cons q front =>
          obtain ⟨rfl, hrest⟩ := List.cons_eq_cons.mp hsplit
          have hnext := hall front p back hrest
          simp only [widths, bytes, map_cons, sum_cons] at hnext hlt ⊢
          omega
      · intro hall front p back hsplit hlt
        have hnext := hall (piece f :: front) p back (congrArg (List.cons (piece f)) hsplit)
        simp only [widths, bytes, map_cons, sum_cons] at hnext hlt ⊢
        omega
    · -- the room is used up
      rw [if_pos (.inr hzero)]
      refine ⟨fun _ front p back _ hlt => ?_, fun _ => htaken⟩
      have hnone : remaining.toNat = 0 := by
        rw [gt_iff_lt, UInt64.lt_iff_toNat_lt] at hzero
        exact Nat.eq_zero_of_not_pos hzero
      omega

/-- The output fits into the buffer with its NUL, and the returned number is that of the bytes before it. -/
structure Respects (r : Formatted) (max : UInt64) : Prop where
  fits : r.out.length ≤ max.toNat
  ret : r.ret = r.out.length - 1

theorem fill_le_iff {piece : List UInt8 → Piece} (h : Forward piece) {f : List UInt8} {room : UInt64} {limit : Nat}
    (hlimit : limit ≤ room.toNat) : (fill piece f.length f room).length ≤ limit ↔
      EndsWithin room.toNat limit (pieces piece f.length f) := by
  have hfill := @fill_length_iff piece h f.length f room room.toNat limit 0 0 (by omega) (le_refl 0) (by omega) hlimit
  simpa only [EndsWithin, Nat.zero_add] using hfill

theorem int32_length (n : Nat) : int32 n = n ↔ n ≤ 2 ^ 31 - 1 := by
  unfold int32
  rw [Int.bmod_def]
  omega

/-- Both functions respect the buffer exactly where no piece that begins in it ends behind it; `format_time` returns an
`int` and needs its output to be shorter than 2 GiB as well. -/
theorem time_formatting_respects_iff (tm : Tm) (fmt : List UInt8) {max : UInt64} (hmax : 1 ≤ max) :
    (Respects (format_time tm fmt max) max ↔ EndsWithin (max.toNat - 1) (min (max.toNat - 1) (2 ^ 31 - 1))
      (pieces (format_piece tm) fmt.length fmt)) ∧
    (Respects (strftime max fmt tm) max ↔ EndsWithin (max.toNat - 1) (max.toNat - 1)
      (pieces (strftime_piece tm) fmt.length fmt)) := by
  have hmax' : 1 ≤ max.toNat := UInt64.le_iff_toNat_le.mp hmax
  have hlt := max.toNat_lt
  have hne : max ≠ 0 := fun hzero => by
    rw [hzero] at hmax'
    exact absurd hmax' (by decide)
  have hroom : (max - 1).toNat = max.toNat - 1 := UInt64.toNat_sub_of_le _ _ hmax
  constructor
  · have hfill := @fill_le_iff _ (format_piece_forward tm) fmt (max - 1) (min (max.toNat - 1) (2 ^ 31 - 1))
      (by rw [hroom]; exact min_le_left _ _)
    rw [hroom] at hfill
    rw [← hfill, format_time, if_neg hne]
    generalize fill (format_piece tm) fmt.length fmt (max - 1) = p
    have hint := int32_length p.length
    constructor
    · intro hr
      have hfits := hr.fits
      have hret := hr.ret
      simp only [length_append, length_singleton, Nat.cast_add, Nat.cast_one, add_sub_cancel_right] at hfits hret
      exact le_min (by omega) (hint.mp hret)
    · intro hle
      have hle' := le_min_iff.mp hle
      refine ⟨?_, ?_⟩
      · simp only [length_append, length_singleton]
        omega
      · simp only [length_append, length_singleton, Nat.cast_add, Nat.cast_one, add_sub_cancel_right]
        exact hint.mpr hle'.2
  · have hfill := @fill_le_iff _ (strftime_piece_forward tm) fmt (max - 1) (max.toNat - 1) (le_of_eq hroom.symm)
    rw [hroom] at hfill
    rw [← hfill, strftime, if_neg hne]
    generalize fill (strftime_piece tm) fmt.length fmt (max - 1) = p
    constructor
    · intro hr
      have hfits := hr.fits
      simp only [length_append, length_singleton] at hfits
      omega
    · intro hle
      refine ⟨?_, ?_⟩
      · simp only [length_append, length_singleton]
        omega
      · simp only [length_append, length_singleton, Nat.cast_add, Nat.cast_one, add_sub_cancel_right]
        rw [UInt64.toNat_ofNat_of_lt' (show p.length < 2 ^ 64 by omega)]

/-- New year 2024. -/
def new_year : Tm where
  tm_sec := 0
  tm_min := 0
  tm_hour := 0
  tm_mday := 1
  tm_mon := 0
  tm_year := 124
  tm_wday := 1
  tm_yday := 0
  tm_isdst := 0

/-- A date that ends just before the NUL. -/
theorem time_formatting_respects_date :
    Respects (format_time new_year (word.ascii "DD-MM-YYYY") 11) 11 ↔
      EndsWithin 10 10 (pieces (format_piece new_year) 10 (word.ascii "DD-MM-YYYY")) :=
  (time_formatting_respects_iff new_year (word.ascii "DD-MM-YYYY") (by decide)).1

/-- The year is written behind the end of a buffer of two bytes, in both formats. -/
theorem time_formatting_overruns :
    format_time new_year (word.ascii "YYYY") 2 = ⟨4, word.ascii "2024" ++ [0]⟩ ∧
      strftime 2 (word.ascii "%Y") new_year = ⟨4, word.ascii "2024" ++ [0]⟩ ∧
      ¬ Respects (format_time new_year (word.ascii "YYYY") 2) 2 ∧
          ¬ Respects (strftime 2 (word.ascii "%Y") new_year) 2 := by
  have hformat : format_time new_year (word.ascii "YYYY") 2 = ⟨4, word.ascii "2024" ++ [0]⟩ := by decide +kernel
  have hstrftime : strftime 2 (word.ascii "%Y") new_year = ⟨4, word.ascii "2024" ++ [0]⟩ := by decide +kernel
  refine ⟨hformat, hstrftime, fun h => ?_, fun h => ?_⟩
  · rw [hformat] at h
    exact absurd h.fits (by decide)
  · rw [hstrftime] at h
    exact absurd h.fits (by decide)

end graceos.libc
