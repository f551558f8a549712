import GraceOS.Chivm.Cmdt
import GraceOS.Lib.Traced

/-!
# Where the decoder reads

`ihex_byte` and `ihex_decode` of `chivm.c` over a memory that holds a text and its terminator, with the places they
read. Whether the decoder stays in front of the end is a question about where the text is cut.
-/

namespace graceos.chivm

open traced List

/-! ## The decoder over a memory -/

/-- Both digits are read before either is looked at. -/
def ihex_byte_at (m : Nat → UInt8) (p : Nat) : Traced Nat (Option UInt8) := do
  let a ← read m p
  let b ← read m (p + 1)
  pure (do
    let hi ← ihex_nibble a
    let lo ← ihex_nibble b
    some (hi <<< 4 ||| lo))

/-- Bytes that follow each other, up to the first that is not there. -/
def ihex_bytes_at (m : Nat → UInt8) : (n : Nat) → (p : Nat) → Traced Nat (Option (List UInt8))
  | 0, _ => pure (some [])
  | n + 1, p => do
    match ← ihex_byte_at m p with
    | none => pure none
    | some b => do
      let bytes ← ihex_bytes_at m n (p + 2)
      pure (bytes.map (b :: ·))

/-- The loop over the data of a record, as `ihex_data`. -/
def ihex_data_at (m : Nat → UInt8) (out_cap : Nat) :
    (count : Nat) → (p : Nat) → (out : List UInt8) → Traced Nat (Option (Nat × List UInt8))
  | 0, p, out => pure (some (p, out))
  | count + 1, p, out => do
    match ← ihex_byte_at m p with
    | none => pure none
    | some b =>
      if out.length ≥ out_cap - 1 then pure none else ihex_data_at m out_cap count (p + 2) (out ++ [b])

/-- A loop that goes on while the character at `p` is one of some characters; it may not end. -/
def skip_at (m : Nat → UInt8) (goes_on : UInt8 → Bool) : (fuel : Nat) → (p : Nat) → Traced Nat (Option Nat)
  | 0, _ => pure none
  | fuel + 1, p => do
    let c ← read m p
    if goes_on c then skip_at m goes_on fuel (p + 1) else pure (some p)

def is_blank (c : UInt8) : Bool := c = '\r'.toUInt8 ∨ c = '\n'.toUInt8 ∨ c = ' '.toUInt8

def in_line (c : UInt8) : Bool := c ≠ 0 ∧ c ≠ '\n'.toUInt8

/-- How the decoder ends: it is still running, it returns -1, or it returns the length of its output. -/
inductive Decoded where
  | running
  | failed
  | done (out : List UInt8)
  deriving DecidableEq

/-- The loop of `ihex_decode` over the records, as `ihex_records`. -/
def ihex_records_at (m : Nat → UInt8) (out_cap : Nat) : (fuel : Nat) → (p : Nat) → (out : List UInt8) →
    Traced Nat Decoded
  | 0, _, _ => pure .running
  | fuel + 1, p, out => do
    let some p ← skip_at m is_blank fuel p | pure .running
    let c ← read m p
    if c = 0 then pure (.done out)
    else if c ≠ ':'.toUInt8 then pure .failed
    else
      let p := p + 1
      let some [count, _addrhi, _addrlo, rectype] ← ihex_bytes_at m 4 p | pure .failed
      let p := p + 8
      if rectype = 0x01 then pure (.done out)
      else
        let some (p, out) ←
          if rectype = 0x00 then ihex_data_at m out_cap count.toNat p out else pure (some (p + count.toNat * 2, out))
          | pure .failed
        let p := p + 2
        let some p ← skip_at m in_line fuel p | pure .running
        ihex_records_at m out_cap fuel p out

/-- A text of characters with its terminator, and any memory behind it. -/
def memory (text : List UInt8) (behind : Nat → UInt8) (i : Nat) : UInt8 :=
  if i < text.length then text.getD i 0 else if i = text.length then 0 else behind i

/-! ## Texts that are cut -/

/-- The text ends in front of one of `n` bytes, and those before it are there. -/
def cut_bytes : (n : Nat) → (t : List UInt8) → Bool
  | 0, _ => false
  | n + 1, t =>
    if t = [] then true
    else match ihex_byte t with
      | none => false
      | some _ => cut_bytes n (t.drop 2)

def ihex_bytes : (n : Nat) → (t : List UInt8) → Option (List UInt8)
  | 0, _ => some []
  | n + 1, t => do
    let b ← ihex_byte t
    let bytes ← ihex_bytes n (t.drop 2)
    some (b :: bytes)

/-- A record in front of the end of the text is cut: in front of a byte of its header or of its data, or in the data
that are stepped over, or in its checksum. -/
def cut_record (out_cap : Nat) : (fuel : Nat) → (t out : List UInt8) → Bool
  | 0, _, _ => false
  | fuel + 1, t, out =>
    let t := t.dropWhile is_blank
    if peek t 0 ≠ ':'.toUInt8 then false
    else
      let t := t.drop 1
      if cut_bytes 4 t then true
      else match ihex_bytes 4 t with
        | some [count, _, _, rectype] =>
          let t := t.drop 8
          if rectype = 0x01 then false
          else if rectype = 0x00 then
            if cut_bytes (min count.toNat (out_cap - 1 - out.length + 1)) t then true
            else match ihex_data out_cap count.toNat t out with
              | none => false
              | some (t, out) => t.length < 2 || cut_record out_cap fuel ((t.drop 2).dropWhile in_line) out
          else
            t.length < count.toNat * 2 + 2 ||
              cut_record out_cap fuel ((t.drop (count.toNat * 2 + 2)).dropWhile in_line) out
        | _ => false

/-! ## Reading in front of the end -/

variable {t : List UInt8} {fuel bound : Nat}

variable {text : List UInt8} {behind : Nat → UInt8} {p : Nat}

theorem memory_peek {k : Nat} (hk : p + k ≤ text.length) : memory text behind (p + k) = peek (text.drop p) k := by
  rw [peek, getD_eq_getElem?_getD, List.getElem?_drop, memory]
  by_cases hlt : p + k < text.length
  · rw [if_pos hlt, getD_eq_getElem?_getD]
  · rw [if_neg hlt, if_pos (by omega), List.getElem?_eq_none (by omega)]
    rfl

theorem memory_head (hp : p ≤ text.length) : memory text behind p = peek (text.drop p) 0 :=
  @memory_peek text behind p 0 hp

theorem ihex_nibble_zero : ihex_nibble 0 = none := by decide

theorem ihex_byte_length {b : UInt8} (h : ihex_byte t = some b) : 2 ≤ t.length := by
  match t, h with
  | [], h => simp [ihex_byte, peek, ihex_nibble_zero] at h
  | [a], h =>
    rw [ihex_byte] at h
    cases ha : ihex_nibble (peek [a] 0) with
    | none => simp [ha] at h
    | some hi => simp [ha, show peek [a] 1 = 0 from rfl, ihex_nibble_zero] at h
  | a :: b :: t, _ => simp

theorem ihex_byte_at_inside (hp : p < text.length) :
    (ihex_byte_at (memory text behind) p).Within (text.length + 1) ∧
      (ihex_byte_at (memory text behind) p).value = ihex_byte (text.drop p) := by
  have hfirst : memory text behind p = peek (text.drop p) 0 := memory_head (by omega)
  have hsecond : memory text behind (p + 1) = peek (text.drop p) 1 := memory_peek (by omega)
  constructor
  · simp only [ihex_byte_at, Traced.within_bind, within_read, Traced.within_pure, and_true]
    omega
  · simp only [ihex_byte_at, Traced.value_bind, value_read, Traced.value_pure, hfirst, hsecond]
    rfl

theorem ihex_byte_at_end (hp : text.length ≤ p) (m : Nat → UInt8) :
    ¬ (ihex_byte_at m p).Within (text.length + 1) := by
  simp only [ihex_byte_at, Traced.within_bind, within_read, Traced.within_pure, and_true]
  omega

theorem ihex_byte_next {b : UInt8} (h : ihex_byte (text.drop p) = some b) : p + 2 ≤ text.length := by
  have hlen := ihex_byte_length h
  rw [length_drop] at hlen
  omega

/-- Bytes that follow each other: either the text is cut in front of one, or they are read in front of the end. -/
theorem ihex_bytes_at_spec {n : Nat} (hp : p ≤ text.length) :
    (cut_bytes n (text.drop p) = true → ¬ (ihex_bytes_at (memory text behind) n p).Within (text.length + 1)) ∧
    (cut_bytes n (text.drop p) = false →
      (ihex_bytes_at (memory text behind) n p).Within (text.length + 1) ∧
      (ihex_bytes_at (memory text behind) n p).value = ihex_bytes n (text.drop p) ∧
      (∀ bytes, ihex_bytes n (text.drop p) = some bytes → p + 2 * n ≤ text.length)) := by
  induction n generalizing p with
  | zero =>
    rw [cut_bytes]
    exact ⟨fun h => (by cases h), fun _ => ⟨Traced.within_pure _, rfl, fun _ _ => by omega⟩⟩
  | succ n ih =>
    rw [cut_bytes, ihex_bytes_at, ihex_bytes]
    by_cases hend : text.drop p = []
    · rw [if_pos hend]
      have hlen : text.length ≤ p := by simpa using hend
      refine ⟨fun _ h => ?_, fun h => by cases h⟩
      exact ihex_byte_at_end hlen _ (Traced.within_bind.mp h).1
    · have hlt : p < text.length := by simpa using hend
      obtain ⟨hwithin, hvalue⟩ := @ihex_byte_at_inside text behind p hlt
      rw [if_neg hend, Traced.within_bind, Traced.value_bind, hvalue]
      cases hbyte : ihex_byte (text.drop p) with
      | none =>
        refine ⟨fun h => (by cases h), fun _ => ⟨⟨hwithin, Traced.within_pure _⟩, rfl, fun bytes h => ?_⟩⟩
        cases h
      | some b =>
        obtain ⟨hcut, hok⟩ := ih (ihex_byte_next hbyte)
        simp only [Option.bind_eq_bind, Option.bind_some, drop_drop, Traced.within_bind, Traced.within_pure,
          and_true, Traced.value_bind, Traced.value_pure]
        refine ⟨fun h hin => hcut h hin.2, fun h => ?_⟩
        obtain ⟨hin, hval, hlen⟩ := hok h
        refine ⟨⟨hwithin, hin⟩, ?_, fun bytes hbytes => ?_⟩
        · rw [hval]
          cases ihex_bytes n (text.drop (p + 2)) <;> rfl
        · obtain ⟨rest, hrest, -⟩ := Option.bind_eq_some_iff.mp hbytes
          have := hlen rest hrest
          omega

/-- The data of a record: either the text is cut in them, or they are read in front of the end. -/
theorem ihex_data_at_spec {out_cap count : Nat} {out : List UInt8} (hp : p ≤ text.length)
    (hout : out.length ≤ out_cap - 1) :
    (cut_bytes (min count (out_cap - 1 - out.length + 1)) (text.drop p) = true →
      ¬ (ihex_data_at (memory text behind) out_cap count p out).Within (text.length + 1)) ∧
    (cut_bytes (min count (out_cap - 1 - out.length + 1)) (text.drop p) = false →
      (ihex_data_at (memory text behind) out_cap count p out).Within (text.length + 1) ∧
      match (ihex_data_at (memory text behind) out_cap count p out).value with
      | none => ihex_data out_cap count (text.drop p) out = none
      | some (p', out') => ihex_data out_cap count (text.drop p) out = some (text.drop p', out') ∧ p ≤ p' ∧
          p' ≤ text.length ∧ out'.length ≤ out_cap - 1) := by
  induction count generalizing p out with
  | zero =>
    rw [Nat.zero_min, cut_bytes]
    exact ⟨fun h => (by cases h), fun _ => ⟨Traced.within_pure _, rfl, Nat.le_refl p, hp, hout⟩⟩
  | succ count ih =>
    rw [Nat.succ_min_succ, cut_bytes, ihex_data_at, ihex_data]
    by_cases hend : text.drop p = []
    · rw [if_pos hend]
      have hlen : text.length ≤ p := by simpa using hend
      refine ⟨fun _ h => ?_, fun h => by cases h⟩
      exact ihex_byte_at_end hlen _ (Traced.within_bind.mp h).1
    · have hlt : p < text.length := by simpa using hend
      obtain ⟨hwithin, hvalue⟩ := @ihex_byte_at_inside text behind p hlt
      rw [if_neg hend, Traced.within_bind, Traced.value_bind, hvalue]
      cases hbyte : ihex_byte (text.drop p) with
      | none => exact ⟨fun h => (by cases h), fun _ => ⟨⟨hwithin, Traced.within_pure _⟩, rfl⟩⟩
      | some b =>
        have hnext := ihex_byte_next hbyte
        simp only [Option.bind_eq_bind, Option.bind_some]
        by_cases hfull : out.length ≥ out_cap - 1
        · rw [if_pos hfull, if_pos hfull, show min count (out_cap - 1 - out.length) = 0 by omega, cut_bytes]
          exact ⟨fun h => (by cases h), fun _ => ⟨⟨hwithin, Traced.within_pure _⟩, rfl⟩⟩
        · have hroom : (out ++ [b]).length ≤ out_cap - 1 := by
            rw [length_append, length_singleton]
            omega
          have hask : out_cap - 1 - out.length = out_cap - 1 - (out ++ [b]).length + 1 := by
            rw [length_append, length_singleton]
            omega
          obtain ⟨hcut, hok⟩ := ih hnext hroom
          rw [if_neg hfull, if_neg hfull, drop_drop, hask]
          refine ⟨fun h hin => hcut h hin.2, fun h => ?_⟩
          obtain ⟨hin, hval⟩ := hok h
          refine ⟨⟨hwithin, hin⟩, ?_⟩
          cases hdata : (ihex_data_at (memory text behind) out_cap count (p + 2) (out ++ [b])).value with
          | none =>
            rw [hdata] at hval
            exact hval
          | some r =>
            rw [hdata] at hval
            exact ⟨hval.1, by have := hval.2.1; omega, hval.2.2⟩

/-- A loop over characters ends in front of the terminator or at it. -/
theorem skip_at_spec {goes_on : UInt8 → Bool} (hzero : goes_on 0 = false) {fuel : Nat} (hp : p ≤ text.length)
    (hfuel : text.length - p < fuel) :
    (skip_at (memory text behind) goes_on fuel p).Within (text.length + 1) ∧
      ∃ p', (skip_at (memory text behind) goes_on fuel p).value = some p' ∧ p ≤ p' ∧ p' ≤ text.length ∧
        text.drop p' = (text.drop p).dropWhile goes_on := by
  induction fuel generalizing p with
  | zero => omega
  | succ fuel ih =>
    rw [skip_at, Traced.within_bind, Traced.value_bind, value_read, within_read, memory_head hp]
    cases hdrop : text.drop p with
    | nil =>
      have hhead : peek ([] : List UInt8) 0 = 0 := rfl
      rw [hhead, hzero, if_neg Bool.false_ne_true]
      exact ⟨⟨by omega, Traced.within_pure _⟩, p, rfl, Nat.le_refl p, hp, hdrop⟩
    | cons c t =>
      have hhead : peek (c :: t) 0 = c := rfl
      have hlt : p < text.length := by
        have hlen := congrArg List.length hdrop
        rw [length_drop, length_cons] at hlen
        omega
      rw [hhead]
      cases hgo : goes_on c with
      | false =>
        rw [if_neg Bool.false_ne_true]
        refine ⟨⟨by omega, Traced.within_pure _⟩, p, rfl, Nat.le_refl p, hp, ?_⟩
        rw [dropWhile_cons_of_neg (by rw [hgo]; exact Bool.false_ne_true), hdrop]
      | true =>
        obtain ⟨hwithin, p', hvalue, hge, hle, hrest⟩ := @ih (p + 1) hlt (by omega)
        rw [if_pos rfl]
        refine ⟨⟨by omega, hwithin⟩, p', hvalue, by omega, hle, ?_⟩
        rw [dropWhile_cons_of_pos hgo, hrest]
        congr 1
        rw [← drop_drop, hdrop, drop_succ_cons, drop_zero]

theorem skip_at_behind {goes_on : UInt8 → Bool} (hp : bound ≤ p) (hfuel : 0 < fuel)
    (m : Nat → UInt8) : ¬ (skip_at m goes_on fuel p).Within bound := by
  cases fuel with
  | zero => omega
  | succ fuel =>
    rw [skip_at, Traced.within_bind, within_read]
    omega

theorem ihex_bytes_length {n : Nat} {bytes : List UInt8} (h : ihex_bytes n t = some bytes) : bytes.length = n := by
  induction n generalizing t bytes with
  | zero =>
    cases h
    rfl
  | succ n ih =>
    rw [ihex_bytes] at h
    obtain ⟨b, _, h⟩ := Option.bind_eq_some_iff.mp h
    obtain ⟨rest, hrest, h⟩ := Option.bind_eq_some_iff.mp h
    cases h
    rw [length_cons, ih hrest]

/-! ## The whole text -/

variable {out_cap : Nat} {out : List UInt8}

/-- How the decoder ends with a result of the list model. -/
def decoded : Option (List UInt8) → Decoded
  | none => .failed
  | some out => .done out

/-- A pass through the list model, at a record. -/
theorem ihex_records_header {t' : List UInt8} (hstart : t.dropWhile is_blank = ':'.toUInt8 :: t') :
    ihex_records out_cap (fuel + 1) t out =
      match ihex_bytes 4 t' with
      | some [count, _, _, rectype] =>
        if rectype = 0x01 then some out
        else if rectype = 0x00 then
          (ihex_data out_cap count.toNat (t'.drop 8) out).bind fun r =>
            ihex_records out_cap fuel ((r.1.drop 2).dropWhile in_line) r.2
        else ihex_records out_cap fuel (((t'.drop 8).drop (count.toNat * 2 + 2)).dropWhile in_line) out
      | _ => none := by
  have hblank : (t.dropWhile fun c => c = '\r'.toUInt8 ∨ c = '\n'.toUInt8 ∨ c = ' '.toUInt8) =
      ':'.toUInt8 :: t' := hstart
  have hcolon : peek (':'.toUInt8 :: t') 0 = ':'.toUInt8 := rfl
  rw [ihex_records, hblank, hcolon, if_neg (by decide), if_neg (by decide)]
  simp only [ihex_bytes, Option.bind_eq_bind, drop_drop, drop_succ_cons, drop_zero, Nat.reduceAdd]
  cases ihex_byte t' with
  | none => rfl
  | some count =>
    cases ihex_byte (t'.drop 2) with
    | none => rfl
    | some addrhi =>
      cases ihex_byte (t'.drop 4) with
      | none => rfl
      | some addrlo =>
        cases ihex_byte (t'.drop 6) with
        | none => rfl
        | some rectype =>
          simp only [Option.bind_some]
          by_cases hend : rectype = 0x01
          · rw [if_pos hend, if_pos hend]
          rw [if_neg hend, if_neg hend]
          by_cases hdata : rectype = 0x00
          · rw [if_pos hdata, if_pos hdata]
            rfl
          · rw [if_neg hdata, if_neg hdata]
            simp only [drop_drop]
            rfl

/-- A computation reads behind the end if the text is cut, and otherwise gives the result of the list model. -/
def Agrees (bound : Nat) (x : Traced Nat Decoded) (cut : Bool) (result : Option (List UInt8)) : Prop :=
  (cut = true → ¬ x.Within bound) ∧ (cut = false → x.Within bound ∧ x.value = decoded result)

theorem Agrees.pure (result : Option (List UInt8)) : Agrees bound (pure (decoded result)) false result :=
  ⟨fun h => (by cases h), fun _ => ⟨Traced.within_pure _, rfl⟩⟩

theorem Agrees.bind_within {α : Type} {x : Traced Nat α} {f : α → Traced Nat Decoded} {cut : Bool}
    {result : Option (List UInt8)} (hx : x.Within bound) (h : Agrees bound (f x.value) cut result) :
    Agrees bound (x >>= f) cut result :=
  ⟨fun hcut hin => h.1 hcut (Traced.within_bind.mp hin).2,
    fun hcut => ⟨Traced.within_bind.mpr ⟨hx, (h.2 hcut).1⟩, (h.2 hcut).2⟩⟩

theorem Agrees.bind_behind {α : Type} {x : Traced Nat α} {f : α → Traced Nat Decoded}
    {result : Option (List UInt8)} (hx : ¬ x.Within bound) : Agrees bound (x >>= f) true result :=
  ⟨fun _ hin => hx (Traced.within_bind.mp hin).1, fun h => by cases h⟩

/-- The rest of a line, and the records behind it. -/
def after_record (m : Nat → UInt8) (out_cap fuel p : Nat) (out : List UInt8) : Traced Nat Decoded := do
  let some p ← skip_at m in_line fuel p | pure .running
  ihex_records_at m out_cap fuel p out

theorem after_record_agrees (hpos : 0 < fuel) (hfuel : text.length - p < fuel)
    (hnext : ∀ p', p ≤ p' → p' ≤ text.length → Agrees (text.length + 1)
      (ihex_records_at (memory text behind) out_cap fuel p' out) (cut_record out_cap fuel (text.drop p') out)
      (ihex_records out_cap fuel (text.drop p') out)) :
    Agrees (text.length + 1) (after_record (memory text behind) out_cap fuel p out)
      (decide (text.length < p) || cut_record out_cap fuel ((text.drop p).dropWhile in_line) out)
      (ihex_records out_cap fuel ((text.drop p).dropWhile in_line) out) := by
  by_cases hout : text.length < p
  · rw [decide_eq_true hout, Bool.true_or]
    exact Agrees.bind_behind (skip_at_behind hout hpos _)
  · obtain ⟨hwithin, p', hvalue, hge, hle, hdrop⟩ :=
      @skip_at_spec text behind p in_line (by decide) fuel (by omega) hfuel
    rw [decide_eq_false hout, Bool.false_or, ← hdrop]
    refine Agrees.bind_within hwithin ?_
    rw [hvalue]
    exact hnext p' hge hle

/-- The data of a record, and what follows it. -/
theorem data_record_agrees {count : Nat} (hp : p ≤ text.length)
    (hfuel : text.length - p < fuel) (hout : out.length ≤ out_cap - 1)
    (hnext : ∀ p' out', p ≤ p' → p' ≤ text.length → out'.length ≤ out_cap - 1 → Agrees (text.length + 1)
      (ihex_records_at (memory text behind) out_cap fuel p' out') (cut_record out_cap fuel (text.drop p') out')
      (ihex_records out_cap fuel (text.drop p') out')) :
    Agrees (text.length + 1)
      (do
        let some (p, out) ← ihex_data_at (memory text behind) out_cap count p out | pure .failed
        after_record (memory text behind) out_cap fuel (p + 2) out)
      (if cut_bytes (min count (out_cap - 1 - out.length + 1)) (text.drop p) then true
        else match ihex_data out_cap count (text.drop p) out with
          | none => false
          | some (t, out) => t.length < 2 || cut_record out_cap fuel ((t.drop 2).dropWhile in_line) out)
      ((ihex_data out_cap count (text.drop p) out).bind fun r =>
        ihex_records out_cap fuel ((r.1.drop 2).dropWhile in_line) r.2) := by
  obtain ⟨hcut, hok⟩ := @ihex_data_at_spec text behind p out_cap count out hp hout
  by_cases hcutdata : cut_bytes (min count (out_cap - 1 - out.length + 1)) (text.drop p) = true
  · rw [if_pos hcutdata]
    exact Agrees.bind_behind (hcut hcutdata)
  obtain ⟨hin, hvalue⟩ := hok (Bool.not_eq_true _ ▸ hcutdata)
  rw [if_neg hcutdata]
  refine Agrees.bind_within hin ?_
  cases hval : (ihex_data_at (memory text behind) out_cap count p out).value with
  | none =>
    rw [hval] at hvalue
    simp only [hvalue]
    exact Agrees.pure none
  | some r =>
    rw [hval] at hvalue
    obtain ⟨hlist, hge, hle, hroom⟩ := hvalue
    simp only [hlist, Option.bind_some, drop_drop]
    have hshort : decide ((text.drop r.1).length < 2) = decide (text.length < r.1 + 2) := by
      rw [length_drop]
      exact decide_eq_decide.mpr (by omega)
    rw [hshort]
    exact after_record_agrees (by omega) (by omega) fun p' hge' hle' => hnext p' r.2 (by omega) hle' hroom

/-- From a place in front of the end: either a record behind it is cut, or the decoder reads in front of the end and
decodes as the list model does. -/
theorem ihex_records_at_agrees {out_cap fuel : Nat} {out : List UInt8} (hp : p ≤ text.length)
    (hfuel : text.length - p + 1 < fuel) (hout : out.length ≤ out_cap - 1) :
    Agrees (text.length + 1) (ihex_records_at (memory text behind) out_cap fuel p out)
      (cut_record out_cap fuel (text.drop p) out) (ihex_records out_cap fuel (text.drop p) out) := by
  induction fuel generalizing p out with
  | zero => omega
  | succ fuel ih =>
    obtain ⟨hskip, p₁, hvalue₁, hge₁, hle₁, hdrop₁⟩ :=
      @skip_at_spec text behind p is_blank (by decide) fuel hp (by omega)
    have hread : (read (memory text behind) p₁).Within (text.length + 1) := within_read.mpr (by omega)
    rw [ihex_records_at, cut_record, ← hdrop₁]
    refine Agrees.bind_within hskip ?_
    rw [hvalue₁]
    refine Agrees.bind_within hread ?_
    rw [value_read, memory_head hle₁]
    by_cases hzero : peek (text.drop p₁) 0 = 0
    · have hnot : peek (text.drop p₁) 0 ≠ ':'.toUInt8 := by rw [hzero]; decide
      have hlist : ihex_records out_cap (fuel + 1) (text.drop p) out = some out := by
        rw [ihex_records]
        change (if peek ((text.drop p).dropWhile is_blank) 0 = 0 then _ else _) = _
        rw [← hdrop₁, if_pos hzero]
      rw [if_pos hzero, if_pos hnot, hlist]
      exact Agrees.pure (some out)
    by_cases hcolon : peek (text.drop p₁) 0 ≠ ':'.toUInt8
    · have hlist : ihex_records out_cap (fuel + 1) (text.drop p) out = none := by
        rw [ihex_records]
        change (if peek ((text.drop p).dropWhile is_blank) 0 = 0 then _ else
          if peek ((text.drop p).dropWhile is_blank) 0 ≠ ':'.toUInt8 then _ else _) = _
        rw [← hdrop₁, if_neg hzero, if_pos hcolon]
      rw [if_pos hcolon, if_neg hzero, if_pos hcolon, hlist]
      exact Agrees.pure none
    have hlt : p₁ < text.length := by
      refine Nat.lt_of_le_of_ne hle₁ fun heq => hzero ?_
      rw [heq, drop_length]
      rfl
    have hstart : text.drop p₁ = ':'.toUInt8 :: text.drop (p₁ + 1) := by
      rw [drop_eq_getElem_cons hlt] at hcolon ⊢
      rw [show text[p₁] = ':'.toUInt8 from not_not.mp hcolon]
    obtain ⟨hcut, hok⟩ := @ihex_bytes_at_spec text behind (p₁ + 1) 4 hlt
    rw [if_neg hcolon, if_neg hzero, if_neg hcolon, ihex_records_header (hdrop₁ ▸ hstart), drop_drop]
    by_cases hheader : cut_bytes 4 (text.drop (p₁ + 1)) = true
    · rw [if_pos hheader]
      exact Agrees.bind_behind (hcut hheader)
    obtain ⟨hin, hvalue, hlen⟩ := hok (Bool.not_eq_true _ ▸ hheader)
    rw [if_neg hheader]
    refine Agrees.bind_within hin ?_
    rw [hvalue]
    cases hbytes : ihex_bytes 4 (text.drop (p₁ + 1)) with
    | none => exact Agrees.pure none
    | some bytes =>
    have hnext := hlen bytes hbytes
    match bytes, ihex_bytes_length hbytes with
    | [count, addrhi, addrlo, rectype], _ =>
    by_cases hend : rectype = 0x01
    · simp only [if_pos hend]
      exact Agrees.pure (some out)
    simp only [if_neg hend, drop_drop]
    by_cases hdata : rectype = 0x00
    · simp only [if_pos hdata]
      exact data_record_agrees hnext (by omega) hout fun p' out' hge' hle' hroom => ih hle' (by omega) hroom
    · simp only [if_neg hdata]
      have hshort : decide ((text.drop (p₁ + 1 + 8)).length < count.toNat * 2 + 2) =
          decide (text.length < p₁ + 1 + 8 + (count.toNat * 2 + 2)) := by
        rw [length_drop]
        exact decide_eq_decide.mpr (by omega)
      rw [hshort]
      exact after_record_agrees (by omega) (by omega) fun p' hge' hle' => ih hle' (by omega) hout

theorem ihex_data_length {count : Nat} {t' out' : List UInt8} (hout : out.length ≤ out_cap - 1)
    (h : ihex_data out_cap count t out = some (t', out')) : out'.length ≤ out_cap - 1 := by
  induction count generalizing t out with
  | zero =>
    cases h
    exact hout
  | succ count ih =>
    rw [ihex_data] at h
    obtain ⟨b, _, h⟩ := Option.bind_eq_some_iff.mp h
    split at h
    next => cases h
    next hroom =>
      refine ih ?_ h
      rw [length_append, length_singleton]
      omega

/-- The output leaves room for a terminator. -/
theorem ihex_records_length {out' : List UInt8} (hout : out.length ≤ out_cap - 1)
    (h : ihex_records out_cap fuel t out = some out') : out'.length ≤ out_cap - 1 := by
  induction fuel generalizing t out with
  | zero => cases h
  | succ fuel ih =>
    by_cases hcolon : peek (t.dropWhile is_blank) 0 = ':'.toUInt8
    · cases hstart : t.dropWhile is_blank with
      | nil =>
        rw [hstart] at hcolon
        exact absurd hcolon (by decide)
      | cons c t' =>
        rw [hstart] at hcolon
        have hc : c = ':'.toUInt8 := hcolon
        rw [ihex_records_header (hc ▸ hstart)] at h
        split at h
        next =>
          split at h
          next =>
            cases h
            exact hout
          next =>
            split at h
            next =>
              obtain ⟨r, hdata, h⟩ := Option.bind_eq_some_iff.mp h
              exact ih (ihex_data_length hout hdata) h
            next => exact ih hout h
        next => cases h
    · rw [ihex_records] at h
      change (if peek (t.dropWhile is_blank) 0 = 0 then some out else
        if peek (t.dropWhile is_blank) 0 ≠ ':'.toUInt8 then none else _) = some out' at h
      rw [if_pos hcolon] at h
      split at h
      next =>
        cases h
        exact hout
      next => cases h

/-- `ihex_decode` on a memory that holds a text of `n` characters. -/
def ihex_decode_at (m : Nat → UInt8) (n out_cap : Nat) : Traced Nat Decoded := ihex_records_at m out_cap (n + 2) 0 []

/-- A record of the text is cut. -/
def text_cut (out_cap : Nat) (text : List UInt8) : Bool := cut_record out_cap (text.length + 2) text []

/-- The decoder reads nothing behind the terminator, and ends with -1 or with a length that leaves room for a
terminator, exactly on the texts of which no record is cut. -/
theorem ihex_decode_reads (text : List UInt8) (behind : Nat → UInt8) (out_cap : Nat) :
    ((ihex_decode_at (memory text behind) text.length out_cap).Within (text.length + 1) ∧
      ((ihex_decode_at (memory text behind) text.length out_cap).value = .failed ∨
        ∃ out, (ihex_decode_at (memory text behind) text.length out_cap).value = .done out ∧
          out.length ≤ out_cap - 1)) ↔
      text_cut out_cap text = false := by
  have hagrees := @ihex_records_at_agrees text behind 0 out_cap (text.length + 2) [] (Nat.zero_le _) (by omega)
    (Nat.zero_le _)
  rw [drop_zero] at hagrees
  constructor
  · rintro ⟨hwithin, -⟩
    cases hcut : text_cut out_cap text with
    | false => rfl
    | true => exact absurd hwithin (hagrees.1 hcut)
  · intro hcut
    obtain ⟨hwithin, hvalue⟩ := hagrees.2 hcut
    refine ⟨hwithin, ?_⟩
    rw [ihex_decode_at, hvalue]
    cases hresult : ihex_records out_cap (text.length + 2) text [] with
    | none => exact .inl rfl
    | some out => exact .inr ⟨out, rfl, ihex_records_length (Nat.zero_le _) hresult⟩

/-- A text of one colon: the first byte is looked for at the terminator, and its second digit behind it. -/
theorem ihex_decode_colon : ¬ (ihex_decode_at (memory [58] fun _ => 0) 1 8192).Within 2 := by
  intro h
  exact absurd (h 2 (by decide)) (by decide)

end graceos.chivm
