import GraceOS.Lib.Traced
import GraceOS.Lib.Word
import Mathlib.Algebra.Order.Ring.Int
import Mathlib.Tactic.SplitIfs

/-!
# WAV files

`wav_open` and `wav_decode_chunk` of `voicebox_server.c`. The sizes of the chunks come from the file, and the cursor is
a `uint32_t`.
-/

namespace graceos.audio

open traced

/-! ## The scan -/

/-- The bytes from the start of the file on. -/
abbrev File := Nat → UInt8

def wav_read16 (data : File) (p : Nat) : Traced Nat Nat := ⟨[p, p + 1], word.load data p 2⟩

def wav_read32 (data : File) (p : Nat) : Traced Nat Nat := ⟨[p, p + 1, p + 2, p + 3], word.load data p 4⟩

/-- The comparisons of bytes with characters, which end at the first byte that is another one. -/
def spells (data : File) : (p : Nat) → List UInt8 → Traced Nat Bool
  | _, [] => pure true
  | p, c :: s => do
    let b ← read data p
    if b = c then spells data (p + 1) s else pure false

structure Cursor where
  offset : Nat
  fmt_offset : Nat
  data_offset : Nat
  data_size : Nat

def uint32 (n : Nat) : Nat := n % 2 ^ 32

/-- The body of the loop. -/
def turn (data : File) (c : Cursor) : Traced Nat Cursor := do
  let chunk_size ← wav_read32 data (c.offset + 4)
  let is_fmt ← spells data c.offset (word.ascii "fmt ")
  let is_data ← if is_fmt then pure false else spells data c.offset (word.ascii "data")
  let offset := uint32 (c.offset + uint32 (8 + chunk_size))
  pure
    { offset := if chunk_size % 2 = 1 then uint32 (offset + 1) else offset
      fmt_offset := if is_fmt then uint32 (c.offset + 8) else c.fmt_offset
      data_offset := if is_data then uint32 (c.offset + 8) else c.data_offset
      data_size := if is_data then chunk_size else c.data_size }

/-- The loop; `none` where the fuel does not suffice. -/
def scan_loop (data : File) (size : Nat) : (fuel : Nat) → Cursor → Traced Nat (Option Cursor)
  | 0, _ => pure none
  | fuel + 1, c => if uint32 (c.offset + 8) ≤ size then turn data c >>= scan_loop data size fuel else pure (some c)

/-- The part of `voicebox_unit_t` for a WAV file; `data` is an offset in the file. -/
structure Wav where
  data : Nat
  size : Nat
  pos : Nat
  sample_rate : Nat
  channels : Nat
  bits_per_sample : Nat

/-- What follows the scan. -/
def wav_check (u : Wav) (data : File) (c : Cursor) : Traced Nat (Int × Wav) :=
  if c.fmt_offset = 0 ∨ c.data_offset = 0 then pure (-1, u)
  else do
    let audio_fmt ← wav_read16 data c.fmt_offset
    let channels ← wav_read16 data (c.fmt_offset + 2)
    let sample_rate ← wav_read32 data (c.fmt_offset + 4)
    let bits ← wav_read16 data (c.fmt_offset + 14)
    if audio_fmt ≠ 1 then pure (-1, u)
    else if channels < 1 ∨ channels > 8 then pure (-1, u)
    else if bits ≠ 8 ∧ bits ≠ 16 ∧ bits ≠ 24 then pure (-1, u)
    else
      pure (0,
        { data := c.data_offset
          size := c.data_size
          pos := 0
          sample_rate := sample_rate
          channels := channels
          bits_per_sample := bits })

def wav_open (fuel : Nat) (u : Wav) (data : Option File) (size : Nat) : Traced Nat (Option (Int × Wav)) :=
  match data with
  | none => pure (some (-1, u))
  | some data =>
    if size < 44 then pure (some (-1, u))
    else do
      let riff ← spells data 0 (word.ascii "RIFF")
      if riff = false then pure (some (-1, u))
      else do
        let wave ← spells data 8 (word.ascii "WAVE")
        if wave = false then pure (some (-1, u))
        else do
          let c ← scan_loop data size fuel ⟨12, 0, 0, 0⟩
          match c with
          | none => pure none
          | some c => do
            let r ← wav_check u data c
            pure (some r)

/-- The bytes that are passed to the audio backend, by their offset and number, the unit afterwards, and the answer. -/
structure Decoded where
  region : Option (Nat × Nat)
  wav : Wav
  count : Nat

def wav_decode_chunk (audio_out_write_raw : Nat → Nat → Int) (u : Wav) (max_bytes : Nat) : Decoded :=
  if u.pos ≥ u.size then ⟨none, u, 0⟩
  else
    let remaining := u.size - u.pos
    let to_write := if remaining < max_bytes then remaining else max_bytes
    let written := audio_out_write_raw (u.data + u.pos) to_write
    { region := some (u.data + u.pos, to_write)
      wav := if written > 0 then { u with pos := uint32 (u.pos + written.toNat) } else u
      count := if written > 0 then written.toNat else 0 }

/-- The bytes that a run of calls passes on. -/
def passed : Wav → List ((Nat → Nat → Int) × Nat) → List (Nat × Nat)
  | _, [] => []
  | u, (backend, max_bytes) :: calls =>
    (wav_decode_chunk backend u max_bytes).region.toList ++ passed (wav_decode_chunk backend u max_bytes).wav calls

/-! ## The chunks of a file -/

def holds (data : File) : (p : Nat) → List UInt8 → Bool
  | _, [] => true
  | p, c :: s => data p = c && holds data (p + 1) s

/-- The chunk at the cursor, and the place of the next one. -/
def advance (data : File) (c : Cursor) : Cursor :=
  let chunk_size := word.load data (c.offset + 4) 4
  let is_fmt := holds data c.offset (word.ascii "fmt ")
  let is_data := !is_fmt && holds data c.offset (word.ascii "data")
  { offset := uint32 (c.offset + 8 + chunk_size + chunk_size % 2)
    fmt_offset := if is_fmt then uint32 (c.offset + 8) else c.fmt_offset
    data_offset := if is_data then uint32 (c.offset + 8) else c.data_offset
    data_size := if is_data then chunk_size else c.data_size }

/-- The chunks come to an end, at a place with no room for another header. -/
inductive Ends (data : File) (size : Nat) : Cursor → Cursor → Prop
  | last {c : Cursor} : size < c.offset + 8 → Ends data size c c
  | next {c c' : Cursor} : c.offset + 8 ≤ size → Ends data size (advance data c) c' → Ends data size c c'

/-- The file is long enough and starts as a WAV file does. -/
def Riff (data : File) (size : Nat) : Prop :=
  44 ≤ size ∧ holds data 0 (word.ascii "RIFF") = true ∧ holds data 8 (word.ascii "WAVE") = true

/-- The format is one that is played. -/
def Accepts (data : File) (fmt : Nat) : Prop :=
  word.load data fmt 2 = 1 ∧ (1 ≤ word.load data (fmt + 2) 2 ∧ word.load data (fmt + 2) 2 ≤ 8) ∧
    (word.load data (fmt + 14) 2 = 8 ∨ word.load data (fmt + 14) 2 = 16 ∨ word.load data (fmt + 14) 2 = 24)

instance (data : File) (fmt : Nat) : Decidable (Accepts data fmt) := inferInstanceAs (Decidable (_ ∧ _ ∧ _))

/-- Where the last chunks with the format and with the samples lie in the file. -/
structure Placed (data : File) (size : Nat) (c : Cursor) : Prop where
  fmt : c.fmt_offset + 16 ≤ size
  samples : Accepts data c.fmt_offset → c.data_offset + c.data_size ≤ size

/-- The chunks of the file end before the last headers that a cursor can point to, and lie in the file where they are
used. -/
def WellPlaced (data : File) (size : Nat) : Prop :=
  Riff data size → ∃ c, Ends data size ⟨12, 0, 0, 0⟩ c ∧ c.offset + 8 < 2 ^ 32 ∧
    (c.fmt_offset ≠ 0 → c.data_offset ≠ 0 → Placed data size c)

/-- The call returns and reads the file only; the samples that it finds lie in the file, and so does all that is passed
on. -/
def Confined (u : Wav) (data : File) (size : Nat) : Prop :=
  ∃ fuel r, (wav_open fuel u (some data) size).Within size ∧ (wav_open fuel u (some data) size).value = some r ∧
    (r.1 = 0 → r.2.data + r.2.size ≤ size ∧ ∀ calls, ∀ p ∈ passed r.2 calls, p.1 + p.2 ≤ size)

/-! ## Reading -/

variable {data : File} {size : Nat}

@[simp] theorem value_read16 (p : Nat) : (wav_read16 data p).value = word.load data p 2 := rfl

@[simp] theorem value_read32 (p : Nat) : (wav_read32 data p).value = word.load data p 4 := rfl

theorem within_read16 {p : Nat} : (wav_read16 data p).Within size ↔ p + 1 < size := by
  simp only [Traced.Within, Traced.All, wav_read16, List.mem_cons, List.not_mem_nil, or_false,
    forall_eq_or_imp, forall_eq]
  omega

theorem within_read32 {p : Nat} : (wav_read32 data p).Within size ↔ p + 3 < size := by
  simp only [Traced.Within, Traced.All, wav_read32, List.mem_cons, List.not_mem_nil, or_false,
    forall_eq_or_imp, forall_eq]
  omega

@[simp] theorem value_spells (p : Nat) (s : List UInt8) : (spells data p s).value = holds data p s := by
  induction s generalizing p with
  | nil => rfl
  | cons c s ih =>
    rw [spells, holds, Traced.value_bind, value_read]
    by_cases hc : data p = c
    · rw [if_pos hc, ih, decide_eq_true hc, Bool.true_and]
    · rw [if_neg hc, decide_eq_false hc, Bool.false_and]
      rfl

theorem within_spells {p : Nat} {s : List UInt8} (h : p + s.length ≤ size) : (spells data p s).Within size := by
  induction s generalizing p with
  | nil => exact Traced.within_pure true
  | cons c s ih =>
    rw [List.length_cons] at h
    rw [spells, Traced.within_bind]
    refine ⟨within_read.mpr (by omega), ?_⟩
    split_ifs
    · exact ih (by omega)
    · exact Traced.within_pure false

/-! ## The loop -/

theorem uint32_of_lt {n : Nat} (h : n < 2 ^ 32) : uint32 n = n := Nat.mod_eq_of_lt h

theorem uint32_lt (n : Nat) : uint32 n < 2 ^ 32 := Nat.mod_lt n (by decide)

theorem advance_offset_lt (c : Cursor) : (advance data c).offset < 2 ^ 32 := uint32_lt _

theorem value_turn (c : Cursor) : (turn data c).value = advance data c := by
  have hoffset (n : Nat) : (if n % 2 = 1 then uint32 (uint32 (c.offset + uint32 (8 + n)) + 1)
      else uint32 (c.offset + uint32 (8 + n))) = uint32 (c.offset + 8 + n + n % 2) := by
    unfold uint32
    split_ifs
    · omega
    · omega
  unfold turn advance
  simp only [Traced.value_bind, value_read32, value_spells, hoffset]
  cases holds data c.offset (word.ascii "fmt ") with
  | true => rfl
  | false => simp

theorem within_turn {c : Cursor} (h : c.offset + 8 ≤ size) : (turn data c).Within size := by
  have hlength : (word.ascii "fmt ").length = 4 ∧ (word.ascii "data").length = 4 := by decide
  unfold turn
  rw [Traced.within_bind, Traced.within_bind]
  refine ⟨within_read32.mpr (by omega), within_spells (by omega), ?_⟩
  have hdata : (spells data c.offset (word.ascii "data")).Within size := within_spells (by omega)
  dsimp only
  split
  · exact Traced.within_bind.mpr ⟨Traced.within_pure false, Traced.within_pure _⟩
  · exact Traced.within_bind.mpr ⟨hdata, Traced.within_pure _⟩

theorem turn_inside {c : Cursor} (h : (turn data c).Within size) : c.offset + 8 ≤ size := by
  unfold turn at h
  rw [Traced.within_bind, within_read32] at h
  omega

theorem scan_loop_ends (hsize : size < 2 ^ 32) {c c' : Cursor} (h : Ends data size c c') (hc : c'.offset + 8 < 2 ^ 32) :
    ∃ fuel, (scan_loop data size fuel c).Within size ∧ (scan_loop data size fuel c).value = some c' := by
  induction h with
  | @last c hlast =>
    refine ⟨1, ?_⟩
    rw [scan_loop, uint32_of_lt hc, if_neg (by omega)]
    exact ⟨Traced.within_pure _, rfl⟩
  | @next c c' hnext _ ih =>
    obtain ⟨fuel, hwithin, hvalue⟩ := ih hc
    refine ⟨fuel + 1, ?_⟩
    rw [scan_loop, uint32_of_lt (by omega), if_pos hnext, Traced.within_bind, Traced.value_bind, value_turn]
    exact ⟨⟨within_turn hnext, hwithin⟩, hvalue⟩

theorem ends_of_scan_loop (hsize : 44 ≤ size) {fuel : Nat} {c c' : Cursor} (hc : c.offset < 2 ^ 32)
    (hwithin : (scan_loop data size fuel c).Within size) (hvalue : (scan_loop data size fuel c).value = some c') :
    Ends data size c c' ∧ c'.offset + 8 < 2 ^ 32 := by
  induction fuel generalizing c with
  | zero => cases hvalue
  | succ fuel ih =>
    rw [scan_loop] at hwithin hvalue
    by_cases hmore : uint32 (c.offset + 8) ≤ size
    · rw [if_pos hmore, Traced.within_bind, value_turn] at hwithin
      rw [if_pos hmore, Traced.value_bind, value_turn] at hvalue
      have hrest := ih (advance_offset_lt c) hwithin.2 hvalue
      exact ⟨.next (turn_inside hwithin.1) hrest.1, hrest.2⟩
    · rw [if_neg hmore] at hvalue
      cases hvalue
      unfold uint32 at hmore
      exact ⟨.last (by omega), by omega⟩

/-! ## Opening -/

theorem within_wav_check {u : Wav} {c : Cursor} :
    (wav_check u data c).Within size ↔ (c.fmt_offset ≠ 0 → c.data_offset ≠ 0 → c.fmt_offset + 16 ≤ size) := by
  unfold wav_check
  by_cases hnone : c.fmt_offset = 0 ∨ c.data_offset = 0
  · rw [if_pos hnone]
    exact iff_of_true (Traced.within_pure _) fun hfmt hdata => (hnone.elim hfmt hdata).elim
  · rw [if_neg hnone]
    rw [Traced.within_bind, Traced.within_bind, Traced.within_bind, Traced.within_bind, within_read16, within_read16,
      within_read32, within_read16]
    constructor
    · rintro ⟨-, -, -, hbits, -⟩ - -
      omega
    · intro h
      have hfmt := h (by omega) (by omega)
      refine ⟨by omega, by omega, by omega, by omega, ?_⟩
      split_ifs
      all_goals exact Traced.within_pure _

theorem value_wav_check (u : Wav) (c : Cursor) : (wav_check u data c).value =
    if (c.fmt_offset ≠ 0 ∧ c.data_offset ≠ 0) ∧ Accepts data c.fmt_offset then
      (0, ⟨c.data_offset, c.data_size, 0, word.load data (c.fmt_offset + 4) 4, word.load data (c.fmt_offset + 2) 2,
        word.load data (c.fmt_offset + 14) 2⟩)
    else (-1, u) := by
  unfold wav_check
  by_cases hnone : c.fmt_offset = 0 ∨ c.data_offset = 0
  · rw [if_pos hnone, if_neg (by omega)]
    rfl
  · rw [if_neg hnone]
    rw [Traced.value_bind, Traced.value_bind, Traced.value_bind, Traced.value_bind]
    split
    · next hpcm =>
      rw [value_read16] at hpcm
      rw [if_neg fun h => hpcm h.2.1]
      rfl
    next hpcm =>
    split
    · next hchannels =>
      rw [value_read16] at hchannels
      rw [if_neg fun h => by have := h.2.2.1; omega]
      rfl
    next hchannels =>
    split
    · next hbits =>
      rw [value_read16] at hbits
      rw [if_neg fun h => by have := h.2.2.2; omega]
      rfl
    · next hbits =>
      rw [value_read16] at hpcm hchannels hbits
      rw [if_pos ⟨by omega, by omega, by omega, by omega⟩]
      rfl

theorem wav_open_riff (fuel : Nat) (u : Wav) (h : Riff data size) :
    ((wav_open fuel u (some data) size).Within size ↔ (scan_loop data size fuel ⟨12, 0, 0, 0⟩).Within size ∧
      ∀ c, (scan_loop data size fuel ⟨12, 0, 0, 0⟩).value = some c → (wav_check u data c).Within size) ∧
    (wav_open fuel u (some data) size).value =
      (scan_loop data size fuel ⟨12, 0, 0, 0⟩).value.map fun c => (wav_check u data c).value := by
  obtain ⟨hlong, hriff, hwave⟩ := h
  have hlength : (word.ascii "RIFF").length = 4 ∧ (word.ascii "WAVE").length = 4 := by decide
  have hreads : (spells data 0 (word.ascii "RIFF")).Within size ∧ (spells data 8 (word.ascii "WAVE")).Within size :=
    ⟨within_spells (by omega), within_spells (by omega)⟩
  unfold wav_open
  dsimp only
  rw [if_neg (by omega), Traced.within_bind, Traced.value_bind, value_spells, hriff, if_neg (by decide),
    Traced.within_bind,
    Traced.value_bind, value_spells, hwave, if_neg (by decide), Traced.within_bind, Traced.value_bind]
  cases (scan_loop data size fuel ⟨12, 0, 0, 0⟩).value with
  | none => simp [hreads]
  | some c => simp [hreads]

theorem wav_open_other (fuel : Nat) (u : Wav) (h : ¬ Riff data size) :
    (wav_open fuel u (some data) size).Within size ∧ (wav_open fuel u (some data) size).value = some (-1, u) := by
  have hlength : (word.ascii "RIFF").length = 4 ∧ (word.ascii "WAVE").length = 4 := by decide
  unfold wav_open
  dsimp only
  by_cases hlong : size < 44
  · rw [if_pos hlong]
    exact ⟨Traced.within_pure _, rfl⟩
  rw [if_neg hlong, Traced.within_bind, Traced.value_bind, value_spells]
  cases hriff : holds data 0 (word.ascii "RIFF") with
  | false => exact ⟨⟨within_spells (by omega), Traced.within_pure _⟩, rfl⟩
  | true =>
    rw [if_neg (by decide), Traced.within_bind, Traced.value_bind, value_spells]
    cases hwave : holds data 8 (word.ascii "WAVE") with
    | false => exact ⟨⟨within_spells (by omega), within_spells (by omega), Traced.within_pure _⟩, rfl⟩
    | true => exact absurd ⟨by omega, hriff, hwave⟩ h

/-! ## Playing -/

/-- What is passed on lies in the samples, whatever the backend answers. -/
theorem passed_inside (u : Wav) (calls : List ((Nat → Nat → Int) × Nat)) :
    ∀ p ∈ passed u calls, p.1 + p.2 ≤ u.data + u.size := by
  induction calls generalizing u with
  | nil =>
    intro p hp
    cases hp
  | cons call calls ih =>
    obtain ⟨backend, max_bytes⟩ := call
    intro p hp
    rw [passed, List.mem_append] at hp
    have hsame : (wav_decode_chunk backend u max_bytes).wav.data = u.data ∧
        (wav_decode_chunk backend u max_bytes).wav.size = u.size := by
      unfold wav_decode_chunk
      dsimp only
      split_ifs
      all_goals exact ⟨rfl, rfl⟩
    cases hp with
    | inl hp =>
      unfold wav_decode_chunk at hp
      dsimp only at hp
      split_ifs at hp with hdone hless
      · cases hp
      all_goals
        rw [Option.toList_some, List.mem_singleton] at hp
        subst hp
        dsimp only
        omega
    | inr hp =>
      have hrest := ih _ p hp
      rwa [hsame.1, hsame.2] at hrest

theorem confined_of_wellPlaced (u : Wav) (hsize : size < 2 ^ 32) (h : WellPlaced data size) : Confined u data size := by
  by_cases hriff : Riff data size
  · obtain ⟨c, hends, hlast, hplaced⟩ := h hriff
    obtain ⟨fuel, hwithin, hvalue⟩ := scan_loop_ends hsize hends hlast
    obtain ⟨hreads, hresult⟩ := wav_open_riff fuel u hriff
    rw [hvalue] at hresult
    refine ⟨fuel, (wav_check u data c).value, hreads.mpr ⟨hwithin, ?_⟩, hresult, ?_⟩
    · intro c' hc'
      rw [hvalue] at hc'
      cases hc'
      exact within_wav_check.mpr fun hfmt hdata => (hplaced hfmt hdata).fmt
    · rw [value_wav_check]
      split_ifs with haccepts
      · rintro -
        have hsamples := (hplaced haccepts.1.1 haccepts.1.2).samples haccepts.2
        exact ⟨hsamples, fun calls p hp => (passed_inside _ calls p hp).trans hsamples⟩
      · intro hzero
        cases hzero
  · obtain ⟨hwithin, hvalue⟩ := wav_open_other 0 u hriff
    refine ⟨0, (-1, u), hwithin, hvalue, ?_⟩
    intro hzero
    cases hzero

theorem wellPlaced_of_confined {u : Wav} (h : Confined u data size) : WellPlaced data size := by
  intro hriff
  obtain ⟨fuel, r, hwithin, hvalue, hinside⟩ := h
  obtain ⟨hreads, hresult⟩ := wav_open_riff fuel u hriff
  obtain ⟨hscan, hcheck⟩ := hreads.mp hwithin
  rw [hvalue] at hresult
  cases hc : (scan_loop data size fuel ⟨12, 0, 0, 0⟩).value with
  | none =>
    rw [hc] at hresult
    cases hresult
  | some c =>
    obtain ⟨hends, hlast⟩ := ends_of_scan_loop hriff.1 (by decide) hscan hc
    refine ⟨c, hends, hlast, ?_⟩
    intro hfmt hdata
    refine ⟨within_wav_check.mp (hcheck c hc) hfmt hdata, ?_⟩
    intro haccepts
    rw [hc, Option.map_some, value_wav_check, if_pos ⟨⟨hfmt, hdata⟩, haccepts⟩] at hresult
    cases hresult
    exact (hinside rfl).1

/-- Opening a file is safe exactly where its chunks end in time and lie in it. -/
theorem wav_open_confined_iff (data : File) {size : Nat} (hsize : size < 2 ^ 32) (u : Wav) :
    Confined u data size ↔ WellPlaced data size :=
  ⟨wellPlaced_of_confined, confined_of_wellPlaced u hsize⟩

/-- A file of 44 bytes with one channel of 8 bits, and `data_size` in its last word. -/
def file (data_size : UInt8) : File := fun i =>
  (word.ascii "RIFF" ++ [36, 0, 0, 0] ++ word.ascii "WAVE" ++ word.ascii "fmt " ++
    [16, 0, 0, 0, 1, 0, 1, 0, 64, 31, 0, 0,
    64, 31, 0, 0, 1, 0, 8, 0] ++ word.ascii "data" ++ [data_size, 0, 0, 0]).getD i 0

def no_wav : Wav := ⟨0, 0, 0, 0, 0, 0⟩

/-- Four samples, all of them in the file. -/
theorem wav_open_confined_samples : 48 < 2 ^ 32 ∧ (Confined no_wav (file 4) 48 ↔ WellPlaced (file 4) 48) :=
  ⟨by decide, wav_open_confined_iff (file 4) (by decide) no_wav⟩

/-- The 100 bytes that the last chunk claims to hold are not in the file, and are played. -/
theorem missing_samples_played :
    (∃ fuel r, (wav_open fuel no_wav (some (file 100)) 44).value = some r ∧ r.1 = 0 ∧
      (wav_decode_chunk (fun _ n => n) r.2 100).region = some (44, 100)) ∧ ¬ Confined no_wav (file 100) 44 := by
  have hopen (n : Nat) : (wav_open (n + 3) no_wav (some (file 100)) 44).value = some (0, ⟨44, 100, 0, 8000, 1, 8⟩) := by
    rfl
  refine ⟨⟨3, _, hopen 0, rfl, by decide⟩, ?_⟩
  rintro ⟨fuel, r, -, hvalue, hinside⟩
  match fuel with
  | 0 => cases show none = some r from hvalue
  | 1 => cases show none = some r from hvalue
  | 2 => cases show none = some r from hvalue
  | fuel + 3 =>
    rw [hopen] at hvalue
    cases hvalue
    exact absurd (hinside rfl).1 (by decide)

end graceos.audio
