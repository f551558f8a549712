import GraceOS.Chivm.Cmdt
import GraceOS.Lib.Word
import Mathlib.Data.List.GetD

/-!
# What is compiled is decoded

The compiler writes a sequence of records, each with the address behind the data before it. Both decoders
take such a sequence apart again.
-/

namespace graceos.chivm

open List

/-! ## Records -/

/-- Two digits for a byte. -/
def hex (b : UInt8) : List UInt8 := [hex_digit (b >>> 4), hex_digit (b &&& 0x0F)]

/-- The bytes of a record in front of the checksum. -/
def fields (addr : UInt16) (rectype : UInt8) (data : List UInt8) : List UInt8 :=
  [UInt8.ofNat data.length, (addr >>> 8).toUInt8, addr.toUInt8, rectype] ++ data

def checksum (addr : UInt16) (rectype : UInt8) (data : List UInt8) : UInt8 :=
  (0 : UInt8) - data.foldl (· + ·) (UInt8.ofNat data.length + (addr >>> 8).toUInt8 + addr.toUInt8 + rectype)

/-- The digits of a record, between the colon and the end of the line. -/
def digits (addr : UInt16) (rectype : UInt8) (data : List UInt8) : List UInt8 :=
  (fields addr rectype data ++ [checksum addr rectype data]).flatMap hex

/-- A source from an address on, as records. -/
inductive Records : (source : List UInt8) → (addr : UInt16) → (text : List UInt8) → Prop where
  | done (addr : UInt16) : Records [] addr (':'.toUInt8 :: (digits 0 0x01 [] ++ ['\n'.toUInt8]))
  | chunk {data source text : List UInt8} {addr : UInt16} (hpos : 0 < data.length) (hshort : data.length ≤ 16)
      (h : Records source (addr + UInt16.ofNat data.length) text) :
      Records (data ++ source) addr (':'.toUInt8 :: (digits addr 0x00 data ++ '\n'.toUInt8 :: text))

theorem length_digits (addr : UInt16) (rectype : UInt8) (data : List UInt8) :
    (digits addr rectype data).length = 10 + 2 * data.length := by
  have hflat : ∀ l : List UInt8, (l.flatMap hex).length = 2 * l.length := by
    intro l
    induction l with
    | nil => rfl
    | cons b l ih =>
      rw [flatMap_cons, length_append, ih, length_cons]
      simp only [hex, length_cons, length_nil]
      omega
  rw [digits, hflat]
  simp only [fields, length_append, length_cons, length_nil]
  omega

/-! ## Compiling -/

variable {cap : Nat} {out : List UInt8}

theorem out_ch_spec (c : UInt8) (hroom : out.length + 1 < cap) : out_ch cap out c = some (out ++ [c]) := by
  rw [out_ch, if_neg (by omega)]

theorem out_hex_byte_spec (b : UInt8) (hroom : out.length + 2 < cap) : out_hex_byte cap out b =
    some (out ++ hex b) := by
  rw [out_hex_byte, out_ch_spec _ (by omega), Option.bind_eq_bind, Option.bind_some, out_ch_spec _ (by simp; omega)]
  simp [hex]

theorem out_data_spec (sum : UInt8) (data : List UInt8) (hroom : out.length + 2 * data.length < cap) :
    out_data cap out sum data = some (out ++ data.flatMap hex, data.foldl (· + ·) sum) := by
  induction data generalizing out sum with
  | nil => simp [out_data]
  | cons b data ih =>
    rw [length_cons] at hroom
    have hnext : (out ++ hex b).length + 2 * data.length < cap := by
      simp only [hex, length_append, length_cons, length_nil]
      omega
    rw [out_data, out_hex_byte_spec b (by omega), Option.bind_eq_bind, Option.bind_some, ih _ hnext]
    simp

theorem emit_hex_record_spec (addr : UInt16) (rectype : UInt8) (data : List UInt8)
    (hroom : out.length + 12 + 2 * data.length < cap) :
    emit_hex_record cap out (UInt8.ofNat data.length) addr rectype data =
      some (out ++ ':'.toUInt8 :: (digits addr rectype data ++ ['\n'.toUInt8])) := by
  have hlen : ∀ b, (hex b).length = 2 := fun _ => rfl
  unfold emit_hex_record
  simp only [Option.bind_eq_bind]
  rw [out_ch_spec _ (by omega), Option.bind_some,
    out_hex_byte_spec _ (by simp; omega), Option.bind_some,
    out_hex_byte_spec _ (by simp [hlen]; omega), Option.bind_some,
    out_hex_byte_spec _ (by simp [hlen]; omega), Option.bind_some,
    out_hex_byte_spec _ (by simp [hlen]; omega), Option.bind_some,
    out_data_spec _ _ (by simp [hlen]; omega), Option.bind_some]
  have hdata : (data.flatMap hex).length = 2 * data.length := by
    have h := length_digits addr rectype data
    simp only [digits, fields, flatMap_append, flatMap_cons, length_append, hlen, flatMap_nil,
      length_nil] at h
    omega
  rw [out_hex_byte_spec _ (by simp [hlen, hdata]; omega), Option.bind_some,
    out_ch_spec _ (by simp [hlen, hdata]; omega)]
  simp [digits, fields, checksum]

/-- The compiler writes records, 44 characters for each chunk and 12 for the end. -/
theorem compile_records_spec (source : List UInt8) (addr : UInt16) (out : List UInt8)
    (hroom : out.length + 44 * ((source.length + 15) / 16) + 12 < CHIVM_MAX_CMDT) :
    ∃ text, compile_records source addr out = some (out ++ text) ∧ Records source addr text ∧
      text.length ≤ 44 * ((source.length + 15) / 16) + 12 := by
  rw [compile_records]
  split
  · next hnil =>
    subst hnil
    refine ⟨_, emit_hex_record_spec 0 0x01 [] (by simpa using hroom), .done addr, ?_⟩
    simp [length_digits]
  · next hne =>
    have hpos := length_pos_of_ne_nil hne
    have hlen : (source.take 16).length = min 16 source.length := length_take
    have hdrop : (source.drop 16).length = source.length - 16 := length_drop
    have hemit := @emit_hex_record_spec CHIVM_MAX_CMDT out addr 0x00 (source.take 16) (by omega)
    obtain ⟨text, htext, hrecords, hbound⟩ := compile_records_spec (source.drop 16)
      (addr + UInt16.ofNat (source.take 16).length)
      (out ++ ':'.toUInt8 :: (digits addr 0x00 (source.take 16) ++ ['\n'.toUInt8]))
      (by simp only [length_append, length_cons, length_nil, length_digits]; omega)
    have hchunk := Records.chunk (by omega) (by omega) hrecords
    rw [take_append_drop] at hchunk
    refine ⟨_, ?_, hchunk, ?_⟩
    · dsimp only
      rw [hemit, Option.bind_eq_bind, Option.bind_some, htext]
      simp
    · simp only [length_append, length_cons, length_digits]
      omega
termination_by source.length
decreasing_by
  rw [hdrop]
  omega

/-! ## Decoding a byte -/

theorem ihex_nibble_hex_digit (v : UInt8) : ihex_nibble (hex_digit v) = some (v &&& 0x0F) := by
  have hall : ∀ n < 256, ihex_nibble (hex_digit (UInt8.ofNat n)) = some (UInt8.ofNat n &&& 0x0F) := by decide +kernel
  simpa using hall v.toNat v.toNat_lt

example : ihex_nibble (hex_digit 10) = some 10 := by decide +kernel

theorem hex_val_eq (c : UInt8) : hex_val c = ihex_nibble c := by
  have hall : ∀ n < 256, hex_val (UInt8.ofNat n) = ihex_nibble (UInt8.ofNat n) := by decide +kernel
  simpa using hall c.toNat c.toNat_lt

theorem nibbles_join (b : UInt8) : (b >>> 4 &&& 0x0F) <<< 4 ||| (b &&& 0x0F &&& 0x0F) = b := by
  have hall : ∀ n < 256, (UInt8.ofNat n >>> 4 &&& 0x0F) <<< 4 ||| (UInt8.ofNat n &&& 0x0F &&& 0x0F) =
      UInt8.ofNat n := by
    decide +kernel
  simpa using hall b.toNat b.toNat_lt

@[simp] theorem ihex_byte_hex (b : UInt8) (rest : List UInt8) : ihex_byte (hex b ++ rest) = some b := by
  simp only [ihex_byte, hex, peek, cons_append, getD_cons_zero, getD_cons_succ, ihex_nibble_hex_digit,
    Option.bind_eq_bind, Option.bind_some, nibbles_join]

@[simp] theorem parse_hex_byte_hex (b : UInt8) (rest : List UInt8) : parse_hex_byte (hex b ++ rest) = some b := by
  have h := ihex_byte_hex b rest
  rw [ihex_byte] at h
  rw [parse_hex_byte, hex_val_eq, hex_val_eq, h]

@[simp] theorem drop_two_hex (b : UInt8) (rest : List UInt8) : (hex b ++ rest).drop 2 = rest := rfl

theorem toNat_count {data : List UInt8} (hshort : data.length ≤ 16) : (UInt8.ofNat data.length).toNat =
    data.length := by
  rw [UInt8.toNat_ofNat']
  omega

theorem digits_append (addr : UInt16) (rectype : UInt8) (data rest : List UInt8) :
    digits addr rectype data ++ rest = hex (UInt8.ofNat data.length) ++ (hex (addr >>> 8).toUInt8 ++
      (hex addr.toUInt8 ++ (hex rectype ++ (data.flatMap hex ++ (hex (checksum addr rectype data) ++ rest))))) := by
  simp [digits, fields]

/-! ## The decoder of `chivm.c` -/

section Ihex

variable {out_cap : Nat}

theorem ihex_data_spec (data rest out : List UInt8) (hroom : out.length + data.length < out_cap) :
    ihex_data out_cap data.length (data.flatMap hex ++ rest) out = some (rest, out ++ data) := by
  induction data generalizing out with
  | nil => simp [ihex_data]
  | cons b data ih =>
    rw [length_cons] at hroom
    rw [length_cons, ihex_data, flatMap_cons, append_assoc, ihex_byte_hex, Option.bind_eq_bind,
      Option.bind_some, if_neg (by omega), drop_two_hex, ih _ (by simp; omega)]
    simp

theorem ihex_records_newline (fuel : Nat) (p out : List UInt8) :
    ihex_records out_cap fuel ('\n'.toUInt8 :: p) out = ihex_records out_cap fuel p out := by
  cases fuel with
  | zero => rfl
  | succ fuel =>
    have hskip : ('\n'.toUInt8 :: p).dropWhile (fun c => c = '\r'.toUInt8 ∨ c = '\n'.toUInt8 ∨ c = ' '.toUInt8) =
        p.dropWhile fun c => c = '\r'.toUInt8 ∨ c = '\n'.toUInt8 ∨ c = ' '.toUInt8 :=
      dropWhile_cons_of_pos (by decide)
    rw [ihex_records, ihex_records, hskip]

theorem skip_at_colon (p : List UInt8) : (':'.toUInt8 :: p).dropWhile
    (fun c => c = '\r'.toUInt8 ∨ c = '\n'.toUInt8 ∨ c = ' '.toUInt8) = ':'.toUInt8 :: p :=
  dropWhile_cons_of_neg (by decide)

theorem peek_colon (p : List UInt8) : peek (':'.toUInt8 :: p) 0 = ':'.toUInt8 := rfl

theorem drop_hex (n : Nat) (b : UInt8) (p : List UInt8) : (hex b ++ p).drop (n + 2) = p.drop n := rfl

theorem ihex_records_data (fuel : Nat) (addr : UInt16) {data : List UInt8} (rest out : List UInt8)
    (hshort : data.length ≤ 16) (hroom : out.length + data.length < out_cap) :
    ihex_records out_cap (fuel + 1) (':'.toUInt8 :: (digits addr 0x00 data ++ '\n'.toUInt8 :: rest)) out =
      ihex_records out_cap fuel rest (out ++ data) := by
  rw [digits_append, ihex_records]
  have hstop : ∀ p : List UInt8, ('\n'.toUInt8 :: p).dropWhile (fun c => c ≠ 0 ∧ c ≠ '\n'.toUInt8) =
      '\n'.toUInt8 :: p :=
    fun p => dropWhile_cons_of_neg (by decide)
  rw [skip_at_colon, peek_colon, if_neg (by decide), if_neg (by decide)]
  simp only [drop_succ_cons, drop_zero, ihex_byte_hex, drop_hex _, Option.bind_eq_bind, Option.bind_some]
  rw [if_neg (by decide), if_pos trivial, toNat_count hshort, ihex_data_spec data _ out hroom, Option.bind_some]
  dsimp only
  rw [drop_two_hex, hstop, ihex_records_newline]

theorem ihex_records_done (fuel : Nat) (addr : UInt16) (rest out : List UInt8) :
    ihex_records out_cap (fuel + 1) (':'.toUInt8 :: (digits addr 0x01 [] ++ rest)) out = some out := by
  rw [digits_append, ihex_records]
  rw [skip_at_colon, peek_colon, if_neg (by decide), if_neg (by decide)]
  simp only [drop_succ_cons, drop_zero, ihex_byte_hex, drop_hex _, Option.bind_eq_bind, Option.bind_some]
  rw [if_pos trivial]

theorem ihex_records_spec {source text : List UInt8} {addr : UInt16} (h : Records source addr text) {fuel : Nat}
    (hfuel : text.length < fuel) (junk out : List UInt8) (hroom : out.length + source.length < out_cap) :
    ihex_records out_cap fuel (text ++ 0 :: junk) out = some (out ++ source) := by
  induction h generalizing fuel out with
  | done addr =>
    obtain ⟨fuel, rfl⟩ : ∃ n, fuel = n + 1 := ⟨fuel - 1, by omega⟩
    rw [cons_append, append_assoc, ihex_records_done, append_nil]
  | chunk hpos hshort _ ih =>
    obtain ⟨fuel, rfl⟩ : ∃ n, fuel = n + 1 := ⟨fuel - 1, by omega⟩
    rw [length_append] at hroom
    simp only [length_cons, length_append] at hfuel
    rw [cons_append, append_assoc, cons_append, ihex_records_data fuel _ _ out hshort (by omega),
      ih (by omega) _ (by rw [length_append]; omega), append_assoc]

end Ihex

/-! ## The decoder of `exec.c` -/

section Cmdt

variable {out_cap : Nat}

theorem parse_data_spec (data rest : List UInt8) : parse_data data.length (data.flatMap hex ++ rest) = some data := by
  induction data with
  | nil => rfl
  | cons b data ih =>
    rw [length_cons, parse_data, flatMap_cons, append_assoc, parse_hex_byte_hex, Option.bind_eq_bind,
      Option.bind_some, drop_two_hex, ih, Option.bind_eq_bind, Option.bind_some]

theorem hex_digit_ne_newline (v : UInt8) : hex_digit v ≠ '\n'.toUInt8 := by
  have hall : ∀ n < 256, hex_digit (UInt8.ofNat n) ≠ '\n'.toUInt8 := by decide +kernel
  simpa using hall v.toNat v.toNat_lt

theorem newline_not_mem_digits (addr : UInt16) (rectype : UInt8) (data : List UInt8) :
    '\n'.toUInt8 ∉ digits addr rectype data := by
  intro hmem
  rw [digits, mem_flatMap] at hmem
  obtain ⟨b, _, hb⟩ := hmem
  simp only [hex, mem_cons, not_mem_nil, or_false] at hb
  rcases hb with hb | hb
  · exact hex_digit_ne_newline _ hb.symm
  · exact hex_digit_ne_newline _ hb.symm

theorem line_split (addr : UInt16) (rectype : UInt8) (data rest : List UInt8) :
    (':'.toUInt8 :: (digits addr rectype data ++ '\n'.toUInt8 :: rest)).takeWhile (· ≠ '\n'.toUInt8) =
        ':'.toUInt8 :: digits addr rectype data ∧
      (':'.toUInt8 :: (digits addr rectype data ++ '\n'.toUInt8 :: rest)).dropWhile (· ≠ '\n'.toUInt8) =
        '\n'.toUInt8 :: rest := by
  have hnone : ∀ c ∈ ':'.toUInt8 :: digits addr rectype data, decide (c ≠ '\n'.toUInt8) = true := by
    intro c hc
    rw [decide_eq_true_eq]
    rintro rfl
    rcases List.mem_cons.mp hc with hc | hc
    · exact absurd hc (by decide)
    · exact newline_not_mem_digits addr rectype data hc
  rw [← cons_append]
  refine ⟨?_, ?_⟩
  · rw [takeWhile_append_of_pos hnone, takeWhile_cons_of_neg (by decide), append_nil]
  · rw [dropWhile_append_of_pos hnone, dropWhile_cons_of_neg (by decide)]

/-- What the loop does with the line of a record, whose bytes add up to zero. -/
theorem decode_line_digits (image : Image) (addr : UInt16) (rectype : UInt8) {data : List UInt8}
    (hshort : data.length ≤ 16) :
    decode_line out_cap image (':'.toUInt8 :: digits addr rectype data) =
      let abs_addr := (image.upper + addr.toUInt32).toNat
      if rectype = 0x00 then
        if abs_addr + data.length ≥ out_cap then none
        else some (.next { image with
          out_src := write_at image.out_src abs_addr data, max_written :=
            max image.max_written (abs_addr + data.length) })
      else if rectype = 0x01 then some .stop
      else if rectype = 0x04 then
        if UInt8.ofNat data.length ≠ 2 then none
        else some (.next { image with upper := ((peek data 0).toUInt32 <<< 8 ||| (peek data 1).toUInt32) <<< 16 })
      else some (.next image) := by
  have hlen := length_digits addr rectype data
  have hfields := digits_append addr rectype data []
  rw [append_nil] at hfields
  have hdrop : ∀ (n : Nat) (b : UInt8) (p : List UInt8), (hex b ++ p).drop (n + 2) = p.drop n := fun _ _ _ => rfl
  have hdata : ∀ p : List UInt8, (data.flatMap hex ++ p).drop (data.length * 2) = p := by
    intro p
    have hflat : (data.flatMap hex).length = data.length * 2 := by
      have h := congrArg List.length hfields
      rw [hlen] at h
      simp only [hex, length_append, length_cons, length_nil] at h
      omega
    rw [← hflat, drop_left]
  have hchk : (':'.toUInt8 :: digits addr rectype data).drop (9 + data.length * 2) =
      hex (checksum addr rectype data) := by
    rw [Nat.add_comm, show data.length * 2 + 9 = data.length * 2 + 2 + 2 + 2 + 2 + 1 by omega, drop_succ_cons, hfields,
      hdrop, hdrop, hdrop, hdrop, hdata, append_nil]
  have hbyte : ∀ b, parse_hex_byte (hex b) = some b := fun b => by
    have h := parse_hex_byte_hex b []
    rwa [append_nil] at h
  have hcount : parse_hex_byte ((':'.toUInt8 :: digits addr rectype data).drop 1) = some (UInt8.ofNat data.length) := by
    rw [drop_succ_cons, drop_zero, hfields, parse_hex_byte_hex]
  have hhi : parse_hex_byte ((':'.toUInt8 :: digits addr rectype data).drop 3) = some (addr >>> 8).toUInt8 := by
    rw [drop_succ_cons, hfields, hdrop, drop_zero, parse_hex_byte_hex]
  have hlo : parse_hex_byte ((':'.toUInt8 :: digits addr rectype data).drop 5) = some addr.toUInt8 := by
    rw [drop_succ_cons, hfields, hdrop, hdrop, drop_zero, parse_hex_byte_hex]
  have htype : parse_hex_byte ((':'.toUInt8 :: digits addr rectype data).drop 7) = some rectype := by
    rw [drop_succ_cons, hfields, hdrop, hdrop, hdrop, drop_zero, parse_hex_byte_hex]
  have hdatas : parse_data data.length ((':'.toUInt8 :: digits addr rectype data).drop 9) = some data := by
    rw [drop_succ_cons, hfields, hdrop, hdrop, hdrop, hdrop, drop_zero, parse_data_spec]
  have hzero : data.foldl (· + ·) (UInt8.ofNat data.length + (addr >>> 8).toUInt8 + addr.toUInt8 + rectype) +
      checksum addr rectype data = 0 := by
    rw [checksum, UInt8.zero_sub, UInt8.add_neg_eq_sub, UInt8.sub_self]
  rw [decode_line, if_neg (by rw [length_cons, hlen]; omega)]
  simp only [hcount, hhi, hlo, htype, Option.bind_eq_bind, Option.bind_some, toNat_count hshort]
  rw [if_neg (by rw [length_cons, hlen]; omega), hdatas, Option.bind_some, hchk, hbyte, Option.bind_some,
    if_neg (not_not_intro hzero), word.join_bytes]

theorem decode_lines_newline (fuel : Nat) (text : List UInt8) (image : Image) :
    decode_lines out_cap fuel ('\n'.toUInt8 :: text) image = decode_lines out_cap fuel text image := by
  cases fuel with
  | zero => rfl
  | succ fuel =>
    have hskip : ('\n'.toUInt8 :: text).dropWhile (fun c => c = '\r'.toUInt8 ∨ c = '\n'.toUInt8) =
        text.dropWhile fun c => c = '\r'.toUInt8 ∨ c = '\n'.toUInt8 :=
      dropWhile_cons_of_pos (by decide)
    rw [decode_lines, decode_lines, hskip]

theorem decode_lines_record (fuel : Nat) (addr : UInt16) (rectype : UInt8) (data text : List UInt8) (image : Image) :
    decode_lines out_cap (fuel + 1) (':'.toUInt8 :: (digits addr rectype data ++ '\n'.toUInt8 :: text)) image =
      (decode_line out_cap image (':'.toUInt8 :: digits addr rectype data)).bind fun
        | .stop => some image
        | .next image => decode_lines out_cap fuel text image := by
  obtain ⟨htake, hdrop⟩ := line_split addr rectype data text
  have hskip : ∀ p : List UInt8, (':'.toUInt8 :: p).dropWhile (fun c => c = '\r'.toUInt8 ∨ c = '\n'.toUInt8) =
      ':'.toUInt8 :: p := fun p => dropWhile_cons_of_neg (by decide)
  have hcolon : ∀ p : List UInt8, peek (':'.toUInt8 :: p) 0 = ':'.toUInt8 := fun _ => rfl
  rw [decode_lines, hskip, if_neg (cons_ne_nil _ _), hcolon, if_neg (not_not_intro rfl), htake, hdrop]
  cases decode_line out_cap image (':'.toUInt8 :: digits addr rectype data) with
  | none => rfl
  | some line =>
    cases line with
    | stop => rfl
    | next image => exact decode_lines_newline fuel text image

theorem write_at_nil (out_src : Nat → UInt8) (addr : Nat) : write_at out_src addr [] = out_src := by
  funext i
  rw [write_at, if_neg (by simp)]

theorem write_at_append (out_src : Nat → UInt8) (addr : Nat) (data source : List UInt8) :
    write_at (write_at out_src addr data) (addr + data.length) source = write_at out_src addr (data ++ source) := by
  funext i
  simp only [write_at, length_append]
  by_cases hlow : i < addr + data.length
  · rw [if_neg (by omega)]
    by_cases haddr : addr ≤ i
    · rw [if_pos ⟨haddr, hlow⟩, if_pos (by omega), getD_append _ _ _ _ (by omega)]
    · rw [if_neg (by omega), if_neg (by omega)]
  · by_cases hhigh : i < addr + data.length + source.length
    · rw [if_pos (by omega), if_pos (by omega), getD_append_right _ _ _ _ (by omega)]
      congr 1
      omega
    · rw [if_neg (by omega), if_neg (by omega), if_neg (by omega)]

/-- The records of a source at an address fill the output from there on. -/
theorem decode_lines_spec {source text : List UInt8} {addr : UInt16} (h : Records source addr text) {fuel : Nat}
    (hfuel : text.length < fuel) {image : Image} (hupper : image.upper = 0) (hwritten : image.max_written = addr.toNat)
    (hroom : addr.toNat + source.length < out_cap) (hspace : addr.toNat + source.length < 2 ^ 16) :
    ∃ image', decode_lines out_cap fuel text image = some image' ∧
      image'.max_written = addr.toNat + source.length ∧ image'.out_src = write_at image.out_src addr.toNat source := by
  induction h generalizing fuel image with
  | done addr =>
    obtain ⟨fuel, rfl⟩ : ∃ n, fuel = n + 1 := ⟨fuel - 1, by omega⟩
    have hstop := @decode_line_digits out_cap image 0 0x01 [] (by simp)
    rw [decode_lines_record, hstop]
    exact ⟨image, rfl, hwritten, (write_at_nil _ _).symm⟩
  | @chunk data source text addr hpos hshort _ ih =>
    obtain ⟨fuel, rfl⟩ : ∃ n, fuel = n + 1 := ⟨fuel - 1, by omega⟩
    rw [length_append] at hroom hspace
    simp only [length_cons, length_append] at hfuel
    have haddr : (addr + UInt16.ofNat data.length).toNat = addr.toNat + data.length := by
      rw [UInt16.toNat_add, UInt16.toNat_ofNat']
      omega
    have habs : (image.upper + addr.toUInt32).toNat = addr.toNat := by
      rw [hupper, UInt32.zero_add, UInt16.toNat_toUInt32]
    have hline := @decode_line_digits out_cap image addr 0x00 _ hshort
    dsimp only at hline
    rw [habs, if_pos rfl, if_neg (by omega)] at hline
    rw [decode_lines_record, hline, Option.bind_some]
    obtain ⟨image', hdecode, hmax, hout⟩ := @ih fuel (by omega)
      { image with
        out_src := write_at image.out_src addr.toNat data
        max_written := max image.max_written (addr.toNat + data.length) }
      hupper (by rw [haddr, hwritten]; dsimp only; omega) (by omega) (by omega)
    refine ⟨image', hdecode, by rw [hmax, haddr, length_append]; omega, ?_⟩
    rw [hout, haddr, write_at_append]

end Cmdt

/-- What the compiler writes fits its buffer, and both decoders give the source back: the one of `chivm.c`
whatever is in the buffer behind the text, the one of `exec.c` with a terminator behind the source. -/
theorem cmdt_round_trip (source : List UInt8) (hpos : 1 ≤ source.length) (hmax : source.length ≤ 8191) :
    ∃ cmdt, chivm_compile source = some cmdt ∧ cmdt.length < CHIVM_MAX_CMDT ∧
      (∀ junk, ihex_decode (cmdt ++ 0 :: junk) 8192 = some source) ∧
      ∃ out_src, cmdt_decode_source cmdt 8192 = some out_src ∧
        (∀ i, (hi : i < source.length) → out_src i = source[i]) ∧ out_src source.length = 0 := by
  have hbound : 44 * ((source.length + 15) / 16) + 12 < CHIVM_MAX_CMDT := by
    rw [CHIVM_MAX_CMDT]
    omega
  obtain ⟨text, htext, hrecords, hlen⟩ := compile_records_spec source 0 [] (by simpa using hbound)
  rw [nil_append] at htext
  refine ⟨text, ?_, by omega, fun junk => ?_, ?_⟩
  · rw [chivm_compile, if_neg (by rw [CHIVM_MAX_SOURCE]; omega), htext]
  · exact ihex_records_spec hrecords (by rw [length_append, length_cons]; omega) junk [] (by rw [length_nil]; omega)
  · obtain ⟨image, hdecode, hwritten, hout⟩ := @decode_lines_spec 8192 _ _ _ hrecords _ (Nat.lt_succ_self _)
      ⟨0, 0, fun _ => 0⟩ rfl rfl (by rw [UInt16.toNat_zero]; omega) (by rw [UInt16.toNat_zero]; omega)
    have hzero : image.max_written = source.length := by simpa using hwritten
    refine ⟨Function.update image.out_src source.length 0, ?_, fun i hi => ?_, Function.update_self _ _ _⟩
    · rw [cmdt_decode_source, hdecode, Option.bind_eq_bind, Option.bind_some, if_neg (by omega), hzero]
    · rw [Function.update_of_ne (by omega), hout, write_at, if_pos (by simpa using hi)]
      simp [hi]

/-- A source that takes two records. -/
theorem cmdt_round_trip_two_records :
    let source := word.ascii "int x = 10;\nint y = 7;\n"
    16 < source.length ∧ ∃ cmdt, chivm_compile source = some cmdt ∧ cmdt.length < CHIVM_MAX_CMDT ∧
      (∀ junk, ihex_decode (cmdt ++ 0 :: junk) 8192 = some source) ∧
      ∃ out_src, cmdt_decode_source cmdt 8192 = some out_src ∧
        (∀ i, (hi : i < source.length) → out_src i = source[i]) ∧ out_src source.length = 0 :=
  ⟨by decide, cmdt_round_trip _ (by decide) (by decide)⟩

end graceos.chivm
