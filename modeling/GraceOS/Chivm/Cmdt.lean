import Mathlib.Algebra.Group.Int.Defs
import Mathlib.Algebra.Group.Nat.Defs
import Mathlib.Data.List.Basic
import Mathlib.Logic.Function.Basic

/-!
# Compiled programs

`chivm build` writes a source text as Intel HEX records. `chivm.c` and `exec.c` each have a decoder. A
pointer into a text is the rest of the text from there on, and reads zero behind the end.
-/

namespace graceos.chivm

/-- The character `p[i]`. -/
def peek (p : List UInt8) (i : Nat) : UInt8 := p.getD i 0

/-! ## The compiler -/

def hex_digit (v : UInt8) : UInt8 :=
  let v := v &&& 0x0F
  if v < 10 then '0'.toUInt8 + v else 'A'.toUInt8 + (v - 10)

/-- `out_ch`; the buffer of `cap` bytes holds `out`. -/
def out_ch (cap : Nat) (out : List UInt8) (c : UInt8) : Option (List UInt8) :=
  if out.length ≥ cap - 1 then none else some (out ++ [c])

def out_hex_byte (cap : Nat) (out : List UInt8) (b : UInt8) : Option (List UInt8) := do
  let out ← out_ch cap out (hex_digit (b >>> 4))
  out_ch cap out (hex_digit (b &&& 0x0F))

/-- The loop of `emit_hex_record` over the data, with the sum it adds up. -/
def out_data (cap : Nat) : (out : List UInt8) → (sum : UInt8) → (data : List UInt8) → Option (List UInt8 × UInt8)
  | out, sum, [] => some (out, sum)
  | out, sum, b :: data => do
    let out ← out_hex_byte cap out b
    out_data cap out (sum + b) data

def emit_hex_record (cap : Nat) (out : List UInt8) (count : UInt8) (addr : UInt16) (rectype : UInt8)
    (data : List UInt8) : Option (List UInt8) := do
  let sum := count + (addr >>> 8).toUInt8 + addr.toUInt8 + rectype
  let out ← out_ch cap out ':'.toUInt8
  let out ← out_hex_byte cap out count
  let out ← out_hex_byte cap out (addr >>> 8).toUInt8
  let out ← out_hex_byte cap out addr.toUInt8
  let out ← out_hex_byte cap out rectype
  let (out, sum) ← out_data cap out sum data
  let out ← out_hex_byte cap out (0 - sum)
  out_ch cap out '\n'.toUInt8

def CHIVM_MAX_SOURCE : Nat := 8192
def CHIVM_MAX_CMDT : Nat := 32768

/-- The record loop of `chivm_compile_file` on the rest of the source, and the record at the end. -/
def compile_records (source : List UInt8) (addr : UInt16) (out : List UInt8) : Option (List UInt8) :=
  if source = [] then emit_hex_record CHIVM_MAX_CMDT out 0 0 0x01 []
  else do
    let chunk := source.take 16
    let out ← emit_hex_record CHIVM_MAX_CMDT out (UInt8.ofNat chunk.length) addr 0x00 chunk
    compile_records (source.drop 16) (addr + UInt16.ofNat chunk.length) out
termination_by source.length
decreasing_by
  have := List.length_pos_of_ne_nil ‹source ≠ []›
  simp only [List.length_drop]
  omega

/-- `chivm_compile_file` on the contents of the source file. -/
def chivm_compile (source : List UInt8) : Option (List UInt8) :=
  if source.length = 0 ∨ source.length ≥ CHIVM_MAX_SOURCE then none else compile_records source 0 []

/-! ## The decoder of `chivm.c` -/

def ihex_nibble (c : UInt8) : Option UInt8 :=
  if '0'.toUInt8 ≤ c ∧ c ≤ '9'.toUInt8 then some (c - '0'.toUInt8)
  else if 'A'.toUInt8 ≤ c ∧ c ≤ 'F'.toUInt8 then some (c - 'A'.toUInt8 + 10)
  else if 'a'.toUInt8 ≤ c ∧ c ≤ 'f'.toUInt8 then some (c - 'a'.toUInt8 + 10)
  else none

def ihex_byte (p : List UInt8) : Option UInt8 := do
  let hi ← ihex_nibble (peek p 0)
  let lo ← ihex_nibble (peek p 1)
  some (hi <<< 4 ||| lo)

/-- The loop of `ihex_decode` over the data of a record; `out` is what was decoded before. -/
def ihex_data (out_cap : Nat) : (count : Nat) → (p out : List UInt8) → Option (List UInt8 × List UInt8)
  | 0, p, out => some (p, out)
  | count + 1, p, out => do
    let b ← ihex_byte p
    if out.length ≥ out_cap - 1 then none else ihex_data out_cap count (p.drop 2) (out ++ [b])

/-- The loop of `ihex_decode` over the records. Each takes a character at least. -/
def ihex_records (out_cap : Nat) : (fuel : Nat) → (p out : List UInt8) → Option (List UInt8)
  | 0, _, _ => none
  | fuel + 1, p, out => do
    let p := p.dropWhile fun c => c = '\r'.toUInt8 ∨ c = '\n'.toUInt8 ∨ c = ' '.toUInt8
    if peek p 0 = 0 then some out
    else if peek p 0 ≠ ':'.toUInt8 then none
    else
      let p := p.drop 1
      let count ← ihex_byte p
      let _addrhi ← ihex_byte (p.drop 2)
      let _addrlo ← ihex_byte (p.drop 4)
      let rectype ← ihex_byte (p.drop 6)
      let p := p.drop 8
      if rectype = 0x01 then some out
      else
        let (p, out) ←
          if rectype = 0x00 then ihex_data out_cap count.toNat p out else some (p.drop (count.toNat * 2), out)
        let p := p.drop 2
        ihex_records out_cap fuel (p.dropWhile fun c => c ≠ 0 ∧ c ≠ '\n'.toUInt8) out

def ihex_decode (hex : List UInt8) (out_cap : Nat) : Option (List UInt8) := ihex_records out_cap (hex.length + 1) hex []

/-! ## The decoder of `exec.c` -/

def hex_val (c : UInt8) : Option UInt8 :=
  if '0'.toUInt8 ≤ c ∧ c ≤ '9'.toUInt8 then some (c - '0'.toUInt8)
  else if 'a'.toUInt8 ≤ c ∧ c ≤ 'f'.toUInt8 then some (c - 'a'.toUInt8 + 10)
  else if 'A'.toUInt8 ≤ c ∧ c ≤ 'F'.toUInt8 then some (c - 'A'.toUInt8 + 10)
  else none

def parse_hex_byte (p : List UInt8) : Option UInt8 := do
  let hi ← hex_val (peek p 0)
  let lo ← hex_val (peek p 1)
  some (hi <<< 4 ||| lo)

/-- The loop over the data of a record. -/
def parse_data : (count : Nat) → (p : List UInt8) → Option (List UInt8)
  | 0, _ => some []
  | count + 1, p => do
    let b ← parse_hex_byte p
    let data ← parse_data count (p.drop 2)
    some (b :: data)

/-- The local variables of `cmdt_decode_source`, and its output buffer. -/
structure Image where
  upper : UInt32
  max_written : Nat
  out_src : Nat → UInt8

/-- `memcpy` to the output buffer. -/
def write_at (out_src : Nat → UInt8) (addr : Nat) (data : List UInt8) : Nat → UInt8 := fun i =>
  if addr ≤ i ∧ i < addr + data.length then data.getD (i - addr) 0 else out_src i

/-- What a line that passes the checks of its fields does: nothing more is read behind it, or it is
taken over. -/
inductive Line where
  | stop
  | next (image : Image)

/-- A pass through the loop of `cmdt_decode_source`. -/
def decode_line (out_cap : Nat) (image : Image) (line : List UInt8) : Option Line := do
  if line.length < 11 then none
  else
    let count ← parse_hex_byte (line.drop 1)
    let addr_hi ← parse_hex_byte (line.drop 3)
    let addr_lo ← parse_hex_byte (line.drop 5)
    let rectype ← parse_hex_byte (line.drop 7)
    if line.length < 11 + count.toNat * 2 then none
    else
      let data ← parse_data count.toNat (line.drop 9)
      let sum := data.foldl (· + ·) (count + addr_hi + addr_lo + rectype)
      let chk ← parse_hex_byte (line.drop (9 + count.toNat * 2))
      if sum + chk ≠ 0 then none
      else
        let addr := addr_hi.toUInt32 <<< 8 ||| addr_lo.toUInt32
        let abs_addr := (image.upper + addr).toNat
        if rectype = 0x00 then
          if abs_addr + count.toNat ≥ out_cap then none
          else some (.next { image with
            out_src := write_at image.out_src abs_addr data, max_written :=
              max image.max_written (abs_addr + count.toNat) })
        else if rectype = 0x01 then some .stop
        else if rectype = 0x04 then
          if count ≠ 2 then none
          else some (.next { image with upper := ((peek data 0).toUInt32 <<< 8 ||| (peek data 1).toUInt32) <<< 16 })
        else some (.next image)

/-- The loop of `cmdt_decode_source` over the lines. Each takes a character at least. -/
def decode_lines (out_cap : Nat) : (fuel : Nat) → (text : List UInt8) → Image → Option Image
  | 0, _, _ => none
  | fuel + 1, text, image => do
    let text := text.dropWhile fun c => c = '\r'.toUInt8 ∨ c = '\n'.toUInt8
    if text = [] then some image
    else if peek text 0 ≠ ':'.toUInt8 then none
    else
      match ← decode_line out_cap image (text.takeWhile (· ≠ '\n'.toUInt8)) with
      | .stop => some image
      | .next image => decode_lines out_cap fuel (text.dropWhile (· ≠ '\n'.toUInt8)) image

def cmdt_decode_source (text : List UInt8) (out_cap : Nat) : Option (Nat → UInt8) := do
  let image ← decode_lines out_cap (text.length + 1) text ⟨0, 0, fun _ => 0⟩
  if image.max_written ≥ out_cap then none else some (Function.update image.out_src image.max_written 0)

end graceos.chivm
