import GraceOS.Chivm.RoundTrip
import Mathlib.Data.List.Forall2

/-!
# A digit that is changed

What the two decoders do with a text of records in which one digit has another value. The sum of the bytes of a record
is zero, so the decoder of `exec.c` notices; the decoder of `chivm.c` steps over the checksum.
-/

namespace graceos.chivm

open List

/-! ## Digits that spell bytes -/

/-- Digits, of either case, and the bytes that they spell. -/
inductive Spells : (cs bs : List UInt8) → Prop where
  | nil : Spells [] []
  | cons {a b h l : UInt8} {cs bs : List UInt8} (hhigh : ihex_nibble a = some h) (hlow : ihex_nibble b = some l)
      (hrest : Spells cs bs) : Spells (a :: b :: cs) ((h <<< 4 ||| l) :: bs)

theorem ihex_byte_pair {a b h l : UInt8} {cs : List UInt8} (hhigh : ihex_nibble a = some h)
    (hlow : ihex_nibble b = some l) : ihex_byte (a :: b :: cs) = some (h <<< 4 ||| l) := by
  simp only [ihex_byte, peek, getD_cons_zero, getD_cons_succ, hhigh, hlow, Option.bind_eq_bind, Option.bind_some]

theorem parse_hex_byte_eq (p : List UInt8) : parse_hex_byte p = ihex_byte p := by
  rw [parse_hex_byte, ihex_byte, hex_val_eq, hex_val_eq]

theorem Spells.length {cs bs : List UInt8} (h : Spells cs bs) : cs.length = 2 * bs.length := by
  induction h with
  | nil => rfl
  | cons _ _ _ ih =>
    rw [length_cons, length_cons, length_cons, ih]
    omega

theorem spells_hex (bs : List UInt8) : Spells (bs.flatMap hex) bs := by
  induction bs with
  | nil => exact .nil
  | cons b bs ih =>
    have hcons := Spells.cons (ihex_nibble_hex_digit (b >>> 4)) (ihex_nibble_hex_digit (b &&& 0x0F)) ih
    rw [nibbles_join] at hcons
    exact hcons

theorem ihex_nibble_not_newline {c v : UInt8} (h : ihex_nibble c = some v) : c ≠ '\n'.toUInt8 := by
  rintro rfl
  have hnone : ihex_nibble '\n'.toUInt8 = none := by decide
  rw [hnone] at h
  cases h

theorem Spells.no_newline {cs bs : List UInt8} (h : Spells cs bs) : '\n'.toUInt8 ∉ cs := by
  induction h with
  | nil => exact not_mem_nil
  | cons hhigh hlow _ ih =>
    rw [mem_cons, mem_cons, not_or, not_or]
    exact ⟨(ihex_nibble_not_newline hhigh).symm, (ihex_nibble_not_newline hlow).symm, ih⟩

theorem byte_halves {h l : UInt8} (hh : h < 16) (hl : l < 16) :
    (h <<< 4 ||| l) >>> 4 = h ∧ (h <<< 4 ||| l) &&& 0x0F = l := by
  have hall : ∀ m < 16, ∀ n < 16, (UInt8.ofNat m <<< 4 ||| UInt8.ofNat n) >>> 4 = UInt8.ofNat m ∧
      (UInt8.ofNat m <<< 4 ||| UInt8.ofNat n) &&& 0x0F = UInt8.ofNat n := by decide +kernel
  simpa using hall h.toNat hh l.toNat hl

theorem ihex_nibble_lt {c v : UInt8} (h : ihex_nibble c = some v) : v < 16 := by
  have hall : ∀ n < 256, (ihex_nibble (UInt8.ofNat n)).all (· < 16) = true := by decide +kernel
  have hsmall := hall c.toNat c.toNat_lt
  rw [UInt8.ofNat_toNat, h, Option.all_some, decide_eq_true_eq] at hsmall
  exact hsmall

theorem Spells.set {cs bs : List UInt8} (hs : Spells cs bs) {k : Nat} (hk : k < cs.length) {c v : UInt8}
    (hc : ihex_nibble c = some v) (hne : ihex_nibble cs[k] ≠ some v) :
    ∃ b, Spells (cs.set k c) (bs.set (k / 2) b) ∧ ∃ old, bs[k / 2]? = some old ∧ b ≠ old := by
  induction hs generalizing k with
  | nil => exact absurd hk (Nat.not_lt_zero k)
  | @cons a b h l cs bs hhigh hlow hrest ih =>
    have hh := ihex_nibble_lt hhigh
    have hl := ihex_nibble_lt hlow
    have hv := ihex_nibble_lt hc
    match k, hk, hne with
    | 0, _, hne =>
      refine ⟨v <<< 4 ||| l, .cons hc hlow hrest, h <<< 4 ||| l, rfl, fun heq => hne ?_⟩
      have hsame : v = h := by rw [← (byte_halves hv hl).1, heq, (byte_halves hh hl).1]
      rw [getElem_cons_zero, hhigh, hsame]
    | 1, _, hne =>
      refine ⟨h <<< 4 ||| v, .cons hhigh hc hrest, h <<< 4 ||| l, rfl, fun heq => hne ?_⟩
      have hsame : v = l := by rw [← (byte_halves hh hv).2, heq, (byte_halves hh hl).2]
      rw [getElem_cons_succ, getElem_cons_zero, hlow, hsame]
    | k + 2, hk, hne =>
      rw [length_cons, length_cons] at hk
      obtain ⟨b', hspells, old, hold, hchange⟩ := ih (show k < cs.length by omega) hne
      have hhalf : (k + 2) / 2 = k / 2 + 1 := by omega
      rw [hhalf]
      exact ⟨b', .cons hhigh hlow hspells, old, hold, hchange⟩

theorem Spells.drop {cs bs : List UInt8} (h : Spells cs bs) (i : Nat) : Spells (cs.drop (2 * i)) (bs.drop i) := by
  induction i generalizing cs bs with
  | zero => exact h
  | succ i ih =>
    cases h with
    | nil => exact .nil
    | cons _ _ hrest => exact ih hrest

theorem Spells.byte {cs bs : List UInt8} (h : Spells cs bs) {i : Nat} {b : UInt8} (hb : bs[i]? = some b)
    (rest : List UInt8) : ihex_byte (cs.drop (2 * i) ++ rest) = some b := by
  have hdrop := h.drop i
  have hhead : (bs.drop i)[0]? = some b := by
    rw [List.getElem?_drop]
    exact hb
  cases hbytes : bs.drop i with
  | nil =>
    rw [hbytes] at hhead
    cases hhead
  | cons b' bs' =>
    rw [hbytes] at hhead hdrop
    cases hhead
    cases hdigits : cs.drop (2 * i) with
    | nil =>
      rw [hdigits] at hdrop
      cases hdrop
    | cons c cs' =>
      rw [hdigits] at hdrop
      cases hdrop with
      | cons hhigh hlow _ => exact ihex_byte_pair hhigh hlow

/-! ## The sum of the bytes -/

theorem foldl_add_start (bs : List UInt8) (s : UInt8) : bs.foldl (· + ·) s = s + bs.foldl (· + ·) 0 := by
  induction bs generalizing s with
  | nil => exact (UInt8.add_zero s).symm
  | cons b bs ih =>
    rw [foldl_cons, foldl_cons, ih (s + b), ih (0 + b), UInt8.zero_add, UInt8.add_assoc]

theorem sum_set {bs : List UInt8} {i : Nat} {b old : UInt8} (hold : bs[i]? = some old) (hne : b ≠ old) (s : UInt8) :
    (bs.set i b).foldl (· + ·) s ≠ bs.foldl (· + ·) s := by
  induction bs generalizing i s with
  | nil => cases hold
  | cons x bs ih =>
    cases i with
    | zero =>
      rw [List.getElem?_cons_zero, Option.some.injEq] at hold
      rw [set_cons_zero, foldl_cons, foldl_cons, foldl_add_start bs (s + b), foldl_add_start bs (s + x)]
      intro heq
      rw [UInt8.add_left_inj, UInt8.add_right_inj] at heq
      exact hne (heq.trans hold)
    | succ i => exact ih hold (s + x)

/-! ## Records -/

/-- A record as the compiler writes it, of any type and length. -/
structure HexRecord where
  addr : UInt16
  rectype : UInt8
  data : List UInt8
  short : data.length ≤ 255

def end_record : HexRecord := ⟨0, 0x01, [], by decide⟩

def HexRecord.digits (r : HexRecord) : List UInt8 := chivm.digits r.addr r.rectype r.data

/-- The line of a record. -/
def hex_line (cs : List UInt8) : List UInt8 := ':'.toUInt8 :: (cs ++ ['\n'.toUInt8])

def text_of (rs : List HexRecord) : List UInt8 := rs.flatMap fun r => hex_line r.digits

/-- The digits of a record spell its fields, and the bytes add up to `total`. -/
def SpellsRecord (cs : List UInt8) (rectype : UInt8) (data : List UInt8) (total : UInt8) : Prop :=
  ∃ count hi lo chk, Spells cs (count :: hi :: lo :: rectype :: (data ++ [chk])) ∧ count.toNat = data.length ∧
    (hi :: lo :: rectype :: (data ++ [chk])).foldl (· + ·) count = total

theorem HexRecord.spells (r : HexRecord) :
    Spells r.digits (fields r.addr r.rectype r.data ++ [checksum r.addr r.rectype r.data]) := spells_hex _

theorem HexRecord.count_toNat (r : HexRecord) : (UInt8.ofNat r.data.length).toNat = r.data.length := by
  have hshort := r.short
  rw [UInt8.toNat_ofNat']
  omega

/-- The bytes of a record behind its count. -/
def HexRecord.rest (r : HexRecord) : List UInt8 :=
  (r.addr >>> 8).toUInt8 :: r.addr.toUInt8 :: r.rectype :: (r.data ++ [checksum r.addr r.rectype r.data])

theorem HexRecord.sum_rest (r : HexRecord) : r.rest.foldl (· + ·) (UInt8.ofNat r.data.length) = 0 := by
  rw [HexRecord.rest, foldl_cons, foldl_cons, foldl_cons, foldl_append, foldl_cons,
    foldl_nil, checksum, UInt8.zero_sub, UInt8.add_neg_eq_sub, UInt8.sub_self]

theorem HexRecord.spells_record (r : HexRecord) : SpellsRecord r.digits r.rectype r.data 0 :=
  ⟨_, _, _, _, r.spells, r.count_toNat, r.sum_rest⟩

theorem HexRecord.corrupted (r : HexRecord) {k : Nat} (hlo : 2 ≤ k) (hk : k < r.digits.length) {c v : UInt8}
    (hc : ihex_nibble c = some v) (hne : ihex_nibble r.digits[k] ≠ some v) :
    ∃ rectype data total, SpellsRecord (r.digits.set k c) rectype data total ∧ data.length = r.data.length ∧
        total ≠ 0 := by
  obtain ⟨b, hspells, old, hold, hchange⟩ := r.spells.set hk hc hne
  have hbytes : fields r.addr r.rectype r.data ++ [checksum r.addr r.rectype r.data] =
      UInt8.ofNat r.data.length :: r.rest := rfl
  rw [hbytes, show k / 2 = (k / 2 - 1) + 1 by omega, set_cons_succ] at hspells
  rw [hbytes, show k / 2 = (k / 2 - 1) + 1 by omega, List.getElem?_cons_succ] at hold
  have hsum := sum_set hold hchange (UInt8.ofNat r.data.length)
  rw [r.sum_rest] at hsum
  have hlen : (r.rest.set (k / 2 - 1) b).length = r.data.length + 4 := by
    rw [length_set, HexRecord.rest]
    simp
  match hrest : r.rest.set (k / 2 - 1) b, hlen with
  | hi :: lo :: rectype :: tail, hlen =>
    have htail : tail.length = r.data.length + 1 := by simpa using hlen
    have hne : tail ≠ [] := ne_nil_of_length_pos (by omega)
    have hdata : tail.dropLast.length = r.data.length := by
      rw [length_dropLast]
      omega
    rw [hrest, ← dropLast_append_getLast hne] at hspells hsum
    exact ⟨rectype, tail.dropLast, _, ⟨_, hi, lo, _, hspells, by rw [r.count_toNat, hdata], rfl⟩, hdata, hsum⟩

/-! ## The decoder of `exec.c` -/

section Cmdt

variable {out_cap : Nat} {cs : List UInt8} {rectype : UInt8} {data : List UInt8} {total : UInt8}

theorem parse_data_spells {data more cs : List UInt8} (h : Spells cs (data ++ more)) :
    parse_data data.length cs = some data := by
  induction data generalizing cs with
  | nil => rfl
  | cons b data ih =>
    cases h with
    | cons hhigh hlow hrest =>
      rw [length_cons, parse_data, parse_hex_byte_eq, ihex_byte_pair hhigh hlow, Option.bind_eq_bind,
        Option.bind_some, drop_succ_cons, drop_succ_cons, drop_zero, ih hrest, Option.bind_eq_bind,
        Option.bind_some]

/-- A line is looked at further only if its bytes add up to zero, and it ends the text only by its type. -/
theorem decode_line_spells (h : SpellsRecord cs rectype data total) (image : Image) :
    (total ≠ 0 → decode_line out_cap image (':'.toUInt8 :: cs) = none) ∧
      (rectype ≠ 0x01 → decode_line out_cap image (':'.toUInt8 :: cs) ≠ some .stop) := by
  obtain ⟨count, hi, lo, chk, hspells, hcount, htotal⟩ := h
  have hlen := hspells.length
  simp only [length_cons, length_append, length_nil] at hlen
  have hbyte : ∀ i b, (count :: hi :: lo :: rectype :: (data ++ [chk]))[i]? = some b →
      parse_hex_byte ((':'.toUInt8 :: cs).drop (2 * i + 1)) = some b := by
    intro i b hb
    have hspelled := hspells.byte hb []
    rw [append_nil] at hspelled
    rw [drop_succ_cons, parse_hex_byte_eq, hspelled]
  have h₀ : parse_hex_byte ((':'.toUInt8 :: cs).drop 1) = some count := hbyte 0 count rfl
  have h₁ : parse_hex_byte ((':'.toUInt8 :: cs).drop 3) = some hi := hbyte 1 hi rfl
  have h₂ : parse_hex_byte ((':'.toUInt8 :: cs).drop 5) = some lo := hbyte 2 lo rfl
  have h₃ : parse_hex_byte ((':'.toUInt8 :: cs).drop 7) = some rectype := hbyte 3 rectype rfl
  have hchk : parse_hex_byte ((':'.toUInt8 :: cs).drop (9 + data.length * 2)) = some chk := by
    rw [show 9 + data.length * 2 = 2 * (data.length + 4) + 1 by omega]
    apply hbyte
    simp
  have hdata : parse_data data.length ((':'.toUInt8 :: cs).drop 9) = some data := parse_data_spells (hspells.drop 4)
  have hsum : data.foldl (· + ·) (count + hi + lo + rectype) + chk = total := by
    rw [← htotal, foldl_cons, foldl_cons, foldl_cons, foldl_append]
    rfl
  rw [decode_line, if_neg (by rw [length_cons]; omega)]
  simp only [h₀, h₁, h₂, h₃, Option.bind_eq_bind, Option.bind_some]
  rw [if_neg (by rw [length_cons]; omega), hcount, hdata, Option.bind_some, hchk, Option.bind_some, hsum]
  refine ⟨fun hne => if_pos hne, fun htype => ?_⟩
  by_cases hne : total ≠ 0
  · rw [if_pos hne]
    exact fun h => by cases h
  · rw [if_neg hne, if_neg htype]
    intro h
    split_ifs at h <;> cases h

/-- A pass through the loop, at a line. -/
theorem decode_lines_line (hline : '\n'.toUInt8 ∉ cs) (fuel : Nat) (text : List UInt8) (image : Image) :
    decode_lines out_cap (fuel + 1) (hex_line cs ++ text) image =
      (decode_line out_cap image (':'.toUInt8 :: cs)).bind fun
        | .stop => some image
        | .next image => decode_lines out_cap fuel text image := by
  have hnone : ∀ c ∈ ':'.toUInt8 :: cs, decide (c ≠ '\n'.toUInt8) = true := by
    intro c hc
    rw [decide_eq_true_eq]
    rintro rfl
    cases List.mem_cons.mp hc with
    | inl hcolon => exact absurd hcolon (by decide)
    | inr hmem => exact hline hmem
  have hsplit : hex_line cs ++ text = (':'.toUInt8 :: cs) ++ '\n'.toUInt8 :: text := by simp [hex_line]
  have htake : ((':'.toUInt8 :: cs) ++ '\n'.toUInt8 :: text).takeWhile (· ≠ '\n'.toUInt8) = ':'.toUInt8 :: cs := by
    rw [takeWhile_append_of_pos hnone, takeWhile_cons_of_neg (by decide), append_nil]
  have hdrop : ((':'.toUInt8 :: cs) ++ '\n'.toUInt8 :: text).dropWhile (· ≠ '\n'.toUInt8) = '\n'.toUInt8 :: text := by
    rw [dropWhile_append_of_pos hnone, dropWhile_cons_of_neg (by decide)]
  have hskip : ((':'.toUInt8 :: cs) ++ '\n'.toUInt8 :: text).dropWhile
      (fun c => c = '\r'.toUInt8 ∨ c = '\n'.toUInt8) = (':'.toUInt8 :: cs) ++ '\n'.toUInt8 :: text :=
    dropWhile_cons_of_neg (by decide)
  have hcolon : peek ((':'.toUInt8 :: cs) ++ '\n'.toUInt8 :: text) 0 = ':'.toUInt8 := rfl
  rw [decode_lines, hsplit, hskip, if_neg (append_ne_nil_of_left_ne_nil (cons_ne_nil _ _) _), hcolon,
    if_neg (not_not_intro rfl), htake, hdrop]
  cases decode_line out_cap image (':'.toUInt8 :: cs) with
  | none => rfl
  | some line =>
    cases line with
    | stop => rfl
    | next image => exact decode_lines_newline fuel text image

/-- What is decoded up to a record, where the records in front of it do not end the text: nothing, or the loop is at the
record with the records in front of it taken over. -/
theorem decode_lines_before {before : List HexRecord} (hbefore : ∀ q ∈ before, q.rectype ≠ 0x01) (fuel : Nat)
    (image : Image) :
    (∀ text, decode_lines out_cap (fuel + before.length) (text_of before ++ text) image = none) ∨
      ∃ image', ∀ text, decode_lines out_cap (fuel + before.length) (text_of before ++ text) image =
        decode_lines out_cap fuel text image' := by
  induction before generalizing image with
  | nil => exact .inr ⟨image, fun text => rfl⟩
  | cons q before ih =>
    rw [forall_mem_cons] at hbefore
    have hline : ∀ text, decode_lines out_cap (fuel + (q :: before).length) (text_of (q :: before) ++ text) image =
        (decode_line out_cap image (':'.toUInt8 :: q.digits)).bind fun
          | .stop => some image
          | .next image => decode_lines out_cap (fuel + before.length) (text_of before ++ text) image := by
      intro text
      rw [text_of, flatMap_cons, append_assoc, length_cons, ← Nat.add_assoc]
      exact decode_lines_line q.spells.no_newline _ _ _
    simp only [hline]
    cases hdecode : decode_line out_cap image (':'.toUInt8 :: q.digits) with
    | none => exact .inl fun text => rfl
    | some line =>
      cases line with
      | stop => exact absurd hdecode ((decode_line_spells q.spells_record image).2 hbefore.1)
      | next image' => exact ih hbefore.2 image'

theorem decode_lines_corrupted {before : List HexRecord} (hbefore : ∀ q ∈ before, q.rectype ≠ 0x01)
    (h : SpellsRecord cs rectype data total) (htotal : total ≠ 0) (text : List UInt8) (fuel : Nat) (image : Image) :
    decode_lines out_cap (fuel + 1 + before.length) (text_of before ++ (hex_line cs ++ text)) image = none := by
  have hline : '\n'.toUInt8 ∉ cs := by
    obtain ⟨_, _, _, _, hspells, -⟩ := h
    exact hspells.no_newline
  cases @decode_lines_before out_cap before hbefore (fuel + 1) image with
  | inl hnone => exact hnone _
  | inr hreach =>
    obtain ⟨image', hreach⟩ := hreach
    rw [hreach, decode_lines_line hline, (decode_line_spells h image').1 htotal]
    rfl

end Cmdt

/-! ## The decoder of `chivm.c` -/

section Ihex

variable {out_cap : Nat}

/-- What `ihex_decode` makes of records, by their types and data. -/
def ihex_run (out_cap : Nat) : List (UInt8 × List UInt8) → List UInt8 → Option (List UInt8)
  | [], out => some out
  | (rectype, data) :: rs, out =>
    if rectype = 0x01 then some out
    else if rectype = 0x00 then
      if out.length + data.length ≤ out_cap - 1 then ihex_run out_cap rs (out ++ data) else none
    else ihex_run out_cap rs out

/-- How many bytes records add to the output, by their types and lengths, up to the first that ends the text. -/
def data_size : List (UInt8 × Nat) → Nat
  | [] => 0
  | (rectype, count) :: rs => if rectype = 0x01 then 0 else (if rectype = 0x00 then count else 0) + data_size rs

theorem ihex_run_none {rs : List (UInt8 × List UInt8)} {out : List UInt8} (hout : out.length ≤ out_cap - 1) :
    ihex_run out_cap rs out = none ↔
      out_cap - 1 < out.length + data_size (rs.map fun r => (r.1, r.2.length)) := by
  induction rs generalizing out with
  | nil =>
    rw [ihex_run, map_nil, data_size]
    constructor
    · intro h
      cases h
    · intro h
      omega
  | cons r rs ih =>
    obtain ⟨rectype, data⟩ := r
    rw [ihex_run, map_cons, data_size]
    dsimp only
    by_cases hend : rectype = 0x01
    · rw [if_pos hend, if_pos hend]
      constructor
      · intro h
        cases h
      · intro h
        omega
    · rw [if_neg hend, if_neg hend]
      by_cases hdata : rectype = 0x00
      · rw [if_pos hdata, if_pos hdata]
        by_cases hroom : out.length + data.length ≤ out_cap - 1
        · rw [if_pos hroom, ih (by rw [length_append]; exact hroom), length_append, Nat.add_assoc]
        · rw [if_neg hroom]
          exact ⟨fun _ => by omega, fun _ => rfl⟩
      · rw [if_neg hdata, if_neg hdata, ih hout, Nat.zero_add]

theorem ihex_data_spells {data more cs rest : List UInt8} (h : Spells cs (data ++ more)) {out : List UInt8}
    (hout : out.length ≤ out_cap - 1) :
    ihex_data out_cap data.length (cs ++ rest) out =
      if out.length + data.length ≤ out_cap - 1 then some (cs.drop (2 * data.length) ++ rest, out ++ data)
          else none := by
  induction data generalizing cs out with
  | nil =>
    rw [length_nil, ihex_data, if_pos (by omega), append_nil]
    rfl
  | cons b data ih =>
    cases h with
    | @cons a b' _ _ cs _ hhigh hlow hrest =>
      rw [length_cons, ihex_data, cons_append, cons_append, ihex_byte_pair hhigh hlow,
        Option.bind_eq_bind, Option.bind_some]
      by_cases hfull : out.length ≥ out_cap - 1
      · rw [if_pos hfull, if_neg (by omega)]
      · rw [if_neg hfull, drop_succ_cons, drop_succ_cons, drop_zero,
          ih hrest (by rw [length_append, length_singleton]; omega), length_append, length_singleton,
          show out.length + 1 + data.length = out.length + (data.length + 1) by omega, append_assoc]
        rfl

/-- A pass through the loop, at a line. -/
theorem ihex_records_line {cs : List UInt8} {rectype total : UInt8} {data : List UInt8}
    (h : SpellsRecord cs rectype data total) (fuel : Nat) (rest : List UInt8) {out : List UInt8}
    (hout : out.length ≤ out_cap - 1) :
    ihex_records out_cap (fuel + 1) (hex_line cs ++ rest) out =
      if rectype = 0x01 then some out
      else if rectype = 0x00 then
        if out.length + data.length ≤ out_cap - 1 then ihex_records out_cap fuel rest (out ++ data) else none
      else ihex_records out_cap fuel rest out := by
  obtain ⟨count, hi, lo, chk, hspells, hcount, -⟩ := h
  have hlen := hspells.length
  simp only [length_cons, length_append, length_nil] at hlen
  have hbyte := fun i b hb => hspells.byte (i := i) (b := b) hb ('\n'.toUInt8 :: rest)
  have hdrop : ∀ n, n ≤ cs.length → (cs ++ '\n'.toUInt8 :: rest).drop n = cs.drop n ++ '\n'.toUInt8 :: rest :=
    fun n hn => drop_append_of_le_length hn
  have h₀ : ihex_byte (cs ++ '\n'.toUInt8 :: rest) = some count := hbyte 0 count rfl
  have h₁ : ihex_byte ((cs ++ '\n'.toUInt8 :: rest).drop 2) = some hi := by
    rw [hdrop 2 (by omega)]
    exact hbyte 1 hi rfl
  have h₂ : ihex_byte ((cs ++ '\n'.toUInt8 :: rest).drop 4) = some lo := by
    rw [hdrop 4 (by omega)]
    exact hbyte 2 lo rfl
  have h₃ : ihex_byte ((cs ++ '\n'.toUInt8 :: rest).drop 6) = some rectype := by
    rw [hdrop 6 (by omega)]
    exact hbyte 3 rectype rfl
  have hdata : ihex_data out_cap data.length ((cs ++ '\n'.toUInt8 :: rest).drop 8) out =
      if out.length + data.length ≤ out_cap - 1 then
        some ((cs.drop 8).drop (2 * data.length) ++ '\n'.toUInt8 :: rest, out ++ data)
      else none := by
    rw [hdrop 8 (by omega)]
    exact ihex_data_spells (hspells.drop 4) hout
  have hsplit : hex_line cs ++ rest = ':'.toUInt8 :: (cs ++ '\n'.toUInt8 :: rest) := by simp [hex_line]
  have hskip : (':'.toUInt8 :: (cs ++ '\n'.toUInt8 :: rest)).dropWhile
      (fun c => c = '\r'.toUInt8 ∨ c = '\n'.toUInt8 ∨ c = ' '.toUInt8) = ':'.toUInt8 :: (cs ++ '\n'.toUInt8 :: rest) :=
    dropWhile_cons_of_neg (by decide)
  have hcolon : peek (':'.toUInt8 :: (cs ++ '\n'.toUInt8 :: rest)) 0 = ':'.toUInt8 := rfl
  -- the checksum is all that is left of the record, and it is stepped over
  have hbehind : ∀ n, n = cs.length → (cs ++ '\n'.toUInt8 :: rest).drop n = '\n'.toUInt8 :: rest := by
    rintro n rfl
    exact drop_left
  have hstop : ('\n'.toUInt8 :: rest).dropWhile (fun c => c ≠ 0 ∧ c ≠ '\n'.toUInt8) = '\n'.toUInt8 :: rest :=
    dropWhile_cons_of_neg (by decide)
  rw [ihex_records, hsplit, hskip, hcolon, if_neg (by decide), if_neg (by decide)]
  simp only [drop_succ_cons, drop_zero, h₀, h₁, h₂, h₃, Option.bind_eq_bind, Option.bind_some]
  by_cases hend : rectype = 0x01
  · rw [if_pos hend, if_pos hend]
  rw [if_neg hend, if_neg hend]
  by_cases htype : rectype = 0x00
  · rw [if_pos htype, if_pos htype, hcount, hdata]
    by_cases hroom : out.length + data.length ≤ out_cap - 1
    · rw [if_pos hroom, if_pos hroom, Option.bind_some]
      dsimp only
      rw [drop_drop, ← hdrop _ (by omega), drop_drop, hbehind _ (by omega), hstop, ihex_records_newline]
    · rw [if_neg hroom, if_neg hroom]
      rfl
  · rw [if_neg htype, if_neg htype]
    change ihex_records out_cap fuel (List.dropWhile _ (List.drop 2 (List.drop _ (List.drop 8 _)))) out = _
    rw [drop_drop, drop_drop, hbehind _ (by omega), hstop, ihex_records_newline]

theorem ihex_records_lines {css : List (List UInt8)} {rs : List (UInt8 × List UInt8)}
    (h : List.Forall₂ (fun cs r => ∃ total, SpellsRecord cs r.1 r.2 total) css rs) {fuel : Nat}
    (hfuel : css.length < fuel) (junk : List UInt8) {out : List UInt8} (hout : out.length ≤ out_cap - 1) :
    ihex_records out_cap fuel (css.flatMap hex_line ++ 0 :: junk) out = ihex_run out_cap rs out := by
  induction h generalizing fuel out with
  | nil =>
    obtain ⟨fuel, rfl⟩ : ∃ n, fuel = n + 1 := ⟨fuel - 1, by omega⟩
    rfl
  | @cons cs r css rs hhead _ ih =>
    obtain ⟨total, hspells⟩ := hhead
    rw [length_cons] at hfuel
    obtain ⟨fuel, rfl⟩ : ∃ n, fuel = n + 1 := ⟨fuel - 1, by omega⟩
    rw [flatMap_cons, append_assoc, ihex_records_line hspells fuel _ hout, ihex_run]
    split
    · rfl
    · split
      · split
        next hroom => exact ih (by omega) (by rw [length_append]; exact hroom)
        next => rfl
      · exact ih (by omega) hout

end Ihex

/-! ## A changed digit -/

/-- The type of a record as its digits give it. -/
def record_type (cs : List UInt8) : UInt8 := (ihex_byte (cs.drop 6)).getD 0

theorem SpellsRecord.type_eq {cs : List UInt8} {rectype total : UInt8} {data : List UInt8}
    (h : SpellsRecord cs rectype data total) : record_type cs = rectype := by
  obtain ⟨_, _, _, _, hspells, -⟩ := h
  have hbyte := @Spells.byte _ _ hspells 3 rectype rfl []
  rw [append_nil] at hbyte
  rw [record_type, hbyte, Option.getD_some]

/-- The type of a record and the length of its data. -/
def HexRecord.size (r : HexRecord) : UInt8 × Nat := (r.rectype, r.data.length)

theorem length_le_lines (css : List (List UInt8)) : css.length ≤ (css.flatMap hex_line).length := by
  induction css with
  | nil => exact Nat.le_refl 0
  | cons cs css ih =>
    rw [flatMap_cons, length_append, length_cons, hex_line, length_cons]
    omega

theorem lines_fuel (css : List (List UInt8)) (junk : List UInt8) :
    css.length < (css.flatMap hex_line ++ 0 :: junk).length + 1 := by
  have hlines := length_le_lines css
  rw [length_append]
  omega

theorem records_spell (rs : List HexRecord) :
    List.Forall₂ (fun cs r => ∃ total, SpellsRecord cs r.1 r.2 total) (rs.map HexRecord.digits)
      (rs.map fun r => (r.rectype, r.data)) := by
  induction rs with
  | nil => exact .nil
  | cons r rs ih => exact .cons ⟨0, r.spells_record⟩ ih

theorem text_of_eq (rs : List HexRecord) : text_of rs = (rs.map HexRecord.digits).flatMap hex_line := by
  rw [text_of, flatMap_map]

/-- The decoder of `exec.c` rejects every text in which a digit behind the count of a record is changed. The decoder of
`chivm.c` rejects such a text only if the data do not fit its buffer. -/
theorem corrupted_digit {before after : List HexRecord} {r : HexRecord} {out_cap cap k : Nat} {c v : UInt8}
    (hbefore : ∀ q ∈ before, q.rectype ≠ 0x01) (hlo : 2 ≤ k) (hk : k < r.digits.length) (hc : ihex_nibble c = some v)
    (hne : ihex_nibble r.digits[k] ≠ some v) :
    cmdt_decode_source (text_of before ++ (hex_line (r.digits.set k c) ++ text_of after)) out_cap = none ∧
      ∀ junk,
        (ihex_decode ((text_of before ++ (hex_line (r.digits.set k c) ++ text_of after)) ++ 0 :: junk) cap = none ↔
        cap - 1 < data_size (before.map HexRecord.size ++
          (record_type (r.digits.set k c), r.data.length) :: after.map HexRecord.size)) := by
  obtain ⟨rectype, data, total, hspells, hdata, htotal⟩ := r.corrupted hlo hk hc hne
  have hcount := length_le_lines (before.map HexRecord.digits)
  rw [← text_of_eq, length_map] at hcount
  constructor
  · have hlen : before.length + 1 ≤ (text_of before ++ (hex_line (r.digits.set k c) ++ text_of after)).length := by
      rw [length_append, length_append, hex_line, length_cons]
      omega
    obtain ⟨fuel, hfuel⟩ : ∃ fuel, (text_of before ++ (hex_line (r.digits.set k c) ++ text_of after)).length + 1 =
        fuel + 1 + before.length :=
      ⟨(text_of before ++ (hex_line (r.digits.set k c) ++ text_of after)).length - before.length, by omega⟩
    rw [cmdt_decode_source, hfuel, decode_lines_corrupted hbefore hspells htotal]
    rfl
  · intro junk
    let css := before.map HexRecord.digits ++ r.digits.set k c :: after.map HexRecord.digits
    let rs := before.map (fun q => (q.rectype, q.data)) ++ (rectype, data) :: after.map fun q => (q.rectype, q.data)
    have htext : text_of before ++ (hex_line (r.digits.set k c) ++ text_of after) = css.flatMap hex_line := by
      rw [text_of_eq, text_of_eq, flatMap_append, flatMap_cons]
    have hall : List.Forall₂ (fun cs r => ∃ total, SpellsRecord cs r.1 r.2 total) css rs :=
      rel_append (records_spell before) (.cons ⟨total, hspells⟩ (records_spell after))
    rw [htext, ihex_decode, ihex_records_lines hall (lines_fuel css junk) junk (Nat.zero_le _),
      ihex_run_none (Nat.zero_le _), length_nil, Nat.zero_add, map_append, map_cons, map_map,
      map_map, hdata, hspells.type_eq]
    rfl

/-- The records of a source of one letter. -/
def letter_record : HexRecord := ⟨0, 0x00, [65], by decide⟩

theorem corrupted_digit_letter :
    cmdt_decode_source (hex_line (letter_record.digits.set 8 53) ++ text_of [end_record]) 8192 = none ∧
      ∀ junk,
        (ihex_decode ((hex_line (letter_record.digits.set 8 53) ++ text_of [end_record]) ++ 0 :: junk) 8192 = none ↔
        8192 - 1 < data_size [(record_type (letter_record.digits.set 8 53), letter_record.data.length),
            end_record.size]) :=
  @corrupted_digit [] [end_record] letter_record 8192 8192 8 53 5 (fun q hq => by cases hq) (by decide)
    (by decide +kernel) (by decide +kernel) (by decide +kernel)

/-- In the text that the compiler writes for one letter a digit of the data is changed: the decoder of `exec.c` rejects
the text, and the decoder of `chivm.c` takes another letter. -/
theorem changed_letter_runs :
    chivm_compile [65] = some (hex_line letter_record.digits ++ text_of [end_record]) ∧
      cmdt_decode_source (hex_line letter_record.digits ++ text_of [end_record]) 8192 ≠ none ∧
      2 ≤ 8 ∧ ihex_nibble 53 = some 5 ∧ letter_record.digits[8]? = some 52 ∧ ihex_nibble 52 = some 4 ∧
      cmdt_decode_source (hex_line (letter_record.digits.set 8 53) ++ text_of [end_record]) 8192 = none ∧
      ihex_decode (hex_line (letter_record.digits.set 8 53) ++ text_of [end_record]) 8192 = some [81] := by
  refine ⟨?_, ?_, by decide, by decide, by decide +kernel, by decide, ?_, by decide +kernel⟩
  · rw [chivm_compile, if_neg (by decide), compile_records, if_neg (by decide)]
    have hemit : emit_hex_record CHIVM_MAX_CMDT [] (UInt8.ofNat (List.take 16 [(65 : UInt8)]).length) 0 0x00
        (List.take 16 [65]) = some (hex_line letter_record.digits) := by decide +kernel
    have hend : emit_hex_record CHIVM_MAX_CMDT (hex_line letter_record.digits) 0 0 0x01 [] =
        some (hex_line letter_record.digits ++ text_of [end_record]) := by decide +kernel
    simp only [hemit, Option.bind_eq_bind, Option.bind_some]
    rw [compile_records, if_pos (by decide), hend]
  · intro hnone
    have hsome : (cmdt_decode_source (hex_line letter_record.digits ++ text_of [end_record]) 8192).isSome = true := by
      decide +kernel
    rw [hnone] at hsome
    cases hsome
  · rw [← Option.isNone_iff_eq_none]
    decide +kernel

end graceos.chivm
