import GraceOS.Net.HttpChunks
import GraceOS.Net.HttpLengths

/-!
# Chunked bodies are decoded as they were encoded

The encoding is written over chunks that carry their size lines. `Expects` says which bytes a decoder waits for and
which of them it will deliver, and a call keeps it for the bytes behind its own.
-/

namespace graceos.http

open word numeral List

/-! ## The encoding -/

/-- The characters of a digit, in either case. -/
def HexDigit (c : UInt8) (d : Nat) : Prop :=
  (ascii "0123456789abcdef")[d]? = some c ∨ (ascii "0123456789ABCDEF")[d]? = some c

instance (c : UInt8) (d : Nat) : Decidable (HexDigit c d) := inferInstanceAs (Decidable (_ ∨ _))

/-- A size line without its line end. -/
structure HexLine (size : Nat) where
  digits : List UInt8
  values : List Nat
  extension : List UInt8
  spelled : List.Forall₂ HexDigit digits values
  nonempty : digits ≠ []
  value : read 16 0 values = size
  behind : extension = [] ∨ extension.head? = some ';'.toUInt8
  no_line_end : ∀ c ∈ extension, c ≠ '\r'.toUInt8 ∧ c ≠ '\n'.toUInt8
  short : (digits ++ extension).length ≤ 31

def HexLine.bytes {size : Nat} (line : HexLine size) : List UInt8 := line.digits ++ line.extension

structure Chunk where
  data : List UInt8
  nonempty : data ≠ []
  line : HexLine data.length

def crlf : List UInt8 := ['\r'.toUInt8, '\n'.toUInt8]

def encode_chunks (last : HexLine 0) : List Chunk → List UInt8
  | [] => last.bytes ++ crlf
  | chunk :: chunks => chunk.line.bytes ++ crlf ++ (chunk.data ++ crlf ++ encode_chunks last chunks)

def bodies (chunks : List Chunk) : List UInt8 := (chunks.map Chunk.data).flatten

/-- One call after the other: what they return, and where the decoder ends. -/
def decode_calls {σ : Type} (sink : http_sink_fn σ) (dec : http_chunk_decoder) (ctx : σ) :
    List (List UInt8) → List Int × http_chunk_decoder × σ
  | [] => ([], dec, ctx)
  | data :: parts =>
    let (ret, dec, ctx) := decode_chunked_bytes sink dec ctx data
    let (rets, last) := decode_calls sink dec ctx parts
    (ret :: rets, last)

/-- 1 for the part with the last byte of all parts, 0 for the others. -/
def ends_in : List (List UInt8) → List Int
  | [] => []
  | data :: parts => (if data ≠ [] ∧ parts.flatten = [] then 1 else 0) :: ends_in parts

/-- A sink with a record of what it was given. -/
def recording {σ : Type} (sink : http_sink_fn σ) : http_sink_fn (σ × List UInt8) := fun ctx data =>
  ((sink ctx.1 data).1, (sink ctx.1 data).2, ctx.2 ++ data)

/-! ## Size lines -/

theorem hexDigit_facts {c : UInt8} {d : Nat} (h : HexDigit c d) : (hex_value c).map UInt64.toNat = some d ∧
    blank c = false ∧ hex_end c = false ∧ c ≠ '\r'.toUInt8 ∧ c ≠ '\n'.toUInt8 := by
  have hlt : d < 16 := by
    by_contra hge
    have hlower : (ascii "0123456789abcdef")[d]? = none := List.getElem?_eq_none (Nat.not_lt.mp hge)
    have hupper : (ascii "0123456789ABCDEF")[d]? = none := List.getElem?_eq_none (Nat.not_lt.mp hge)
    rw [HexDigit, hlower, hupper] at h
    simp at h
  have hall : ∀ d : Fin 16, ([(ascii "0123456789abcdef")[d.val]?, (ascii "0123456789ABCDEF")[d.val]?].all fun c =>
      c.all fun x => decide ((hex_value x).map UInt64.toNat = some d.val ∧ blank x = false ∧ hex_end x = false ∧
        x ≠ '\r'.toUInt8 ∧ x ≠ '\n'.toUInt8)) = true := by
    decide +kernel
  have hfacts := List.all_eq_true.mp (hall ⟨d, hlt⟩) (some c) (by
    obtain h | h := h
    · exact h ▸ mem_cons_self
    · exact h ▸ mem_cons_of_mem _ mem_cons_self)
  rw [Option.all_some, decide_eq_true_eq] at hfacts
  exact hfacts

theorem digits_of_spelled {digits : List UInt8} {values : List Nat} (h : List.Forall₂ HexDigit digits values) :
    digits_of hex_value digits = some values := by
  induction h with
  | nil => rfl
  | cons hd _ ih =>
    obtain ⟨v, hv, rfl⟩ := Option.map_eq_some_iff.mp (hexDigit_facts hd).1
    rw [digits_of, ih, hv]
    rfl

theorem spelled_forall {digits : List UInt8} {values : List Nat} (h : List.Forall₂ HexDigit digits values) :
    ∀ c ∈ digits, ∃ d, HexDigit c d := by
  induction h with
  | nil => exact fun c hc => absurd hc (by simp)
  | cons hd _ ih => exact List.forall_mem_cons.mpr ⟨⟨_, hd⟩, ih⟩

section Line

variable {size : Nat} (line : HexLine size)

theorem HexLine.bytes_no_line_end : ∀ c ∈ line.bytes, c ≠ '\r'.toUInt8 ∧ c ≠ '\n'.toUInt8 := by
  intro c hc
  obtain hc | hc := List.mem_append.mp hc
  · obtain ⟨d, hd⟩ := spelled_forall line.spelled c hc
    exact (hexDigit_facts hd).2.2.2
  · exact line.no_line_end c hc

theorem HexLine.hex_digits_bytes : hex_digits line.bytes = some line.values := by
  have hdigit := spelled_forall line.spelled
  have hfield : field hex_end line.bytes = line.digits := by
    obtain ⟨c, cs, hcs⟩ := exists_cons_of_ne_nil line.nonempty
    obtain ⟨d, hd⟩ := hdigit c (by rw [hcs]; exact mem_cons_self)
    have hstart : line.bytes.dropWhile blank = line.bytes := by
      rw [HexLine.bytes, hcs]
      exact dropWhile_cons_of_neg (by rw [(hexDigit_facts hd).2.1]; decide)
    have hstop : (line.extension.takeWhile fun c => !hex_end c) = [] := by
      obtain hnil | hsemi := line.behind
      · rw [hnil]
        rfl
      · obtain ⟨ext, hext⟩ := List.head?_eq_some_iff.mp hsemi
        rw [hext]
        exact takeWhile_cons_of_neg (by decide)
    rw [field, hstart, HexLine.bytes, takeWhile_append_of_pos, hstop, append_nil]
    intro c hc
    obtain ⟨d, hd⟩ := hdigit c hc
    rw [(hexDigit_facts hd).2.2.1]
    rfl
  rw [hex_digits, hfield, if_neg line.nonempty]
  exact digits_of_spelled line.spelled

theorem HexLine.parse_hex_size (hsize : size < 2 ^ 64) : parse_hex_size line.bytes = some (UInt64.ofNat size) := by
  have hread := parse_hex_size_read line.bytes
  have hfits : read 16 0 line.values < 2 ^ 64 := line.value.symm ▸ hsize
  have hword := @read_word_eq 16 (2 ^ 64) 0 line.values
  rw [if_neg (not_drops_of_fits (by decide) hfits), Nat.mod_eq_of_lt hfits, line.value] at hword
  rw [line.hex_digits_bytes, Option.bind_some] at hread
  obtain ⟨v, hv, hvsize⟩ := Option.map_eq_some_iff.mp (hread.trans hword)
  rw [hv, ← hvsize, UInt64.ofNat_toNat]

end Line

/-! ## What the decoder waits for -/

variable {chunks : List Chunk} {dec : http_chunk_decoder} {todo : List UInt8}

/-- The sink accepts everything; `log` is what it was given. -/
structure Accepts {σ : Type} (sink : http_sink_fn σ) (log : σ → List UInt8) : Prop where
  ok : ∀ ctx data, (sink ctx data).1 = .HTTP_SINK_OK
  log_eq : ∀ ctx data, log (sink ctx data).2 = log ctx ++ data

theorem recording_accepts {σ : Type} {sink : http_sink_fn σ} (hok : ∀ ctx data, (sink ctx data).1 = .HTTP_SINK_OK) :
    Accepts (recording sink) Prod.snd :=
  ⟨fun ctx data => hok ctx.1 data, fun _ _ => rfl⟩

/-- The next size line. -/
def next_line (last : HexLine 0) : List Chunk → List UInt8
  | [] => last.bytes
  | chunk :: _ => chunk.line.bytes

/-- The bytes behind the next size line and its line end. -/
def behind_line (last : HexLine 0) : List Chunk → List UInt8
  | [] => []
  | chunk :: chunks => chunk.data ++ crlf ++ encode_chunks last chunks

theorem encode_chunks_eq (last : HexLine 0) (chunks : List Chunk) :
    encode_chunks last chunks = next_line last chunks ++ '\r'.toUInt8 :: '\n'.toUInt8 :: behind_line last chunks := by
  cases chunks with
  | nil => rfl
  | cons chunk chunks =>
    rw [encode_chunks, append_assoc]
    rfl

theorem next_line_facts (last : HexLine 0) (chunks : List Chunk) :
    (next_line last chunks).length ≤ 31 ∧ ∀ c ∈ next_line last chunks, c ≠ '\r'.toUInt8 ∧ c ≠ '\n'.toUInt8 := by
  cases chunks with
  | nil => exact ⟨last.short, last.bytes_no_line_end⟩
  | cons chunk chunks => exact ⟨chunk.line.short, chunk.line.bytes_no_line_end⟩

/-- Chunks whose sizes fit into a word. -/
def Sized (chunks : List Chunk) : Prop := ∀ chunk ∈ chunks, chunk.data.length < 2 ^ 64

/-- The bytes that a decoder waits for, up to the end of the body, and those of them that it will deliver. -/
inductive Expects (last : HexLine 0) : http_chunk_decoder → List UInt8 → List UInt8 → Prop
  | line {chunks : List Chunk} {dec : http_chunk_decoder} {more : List UInt8} (hsized : Sized chunks)
      (hstate : dec.state = .CHUNK_READ_SIZE) (hline : dec.size_line ++ more = next_line last chunks) :
      Expects last dec (more ++ '\r'.toUInt8 :: '\n'.toUInt8 :: behind_line last chunks) (bodies chunks)
  | line_feed {chunks : List Chunk} {dec : http_chunk_decoder} (hsized : Sized chunks)
      (hstate : dec.state = .CHUNK_READ_SIZE) (hline : dec.size_line = next_line last chunks) :
      Expects last dec ('\n'.toUInt8 :: behind_line last chunks) (bodies chunks)
  | data {chunks : List Chunk} {dec : http_chunk_decoder} {more : List UInt8} (hsized : Sized chunks)
      (hstate : dec.state = .CHUNK_READ_DATA) (hline : dec.size_line = []) (hmore : more ≠ [])
      (hremain : dec.remain = more.length) :
      Expects last dec (more ++ '\r'.toUInt8 :: '\n'.toUInt8 :: encode_chunks last chunks) (more ++ bodies chunks)
  | data_cr {chunks : List Chunk} {dec : http_chunk_decoder} (hsized : Sized chunks)
      (hstate : dec.state = .CHUNK_EXPECT_CR) (hline : dec.size_line = []) :
      Expects last dec ('\r'.toUInt8 :: '\n'.toUInt8 :: encode_chunks last chunks) (bodies chunks)
  | data_lf {chunks : List Chunk} {dec : http_chunk_decoder} (hsized : Sized chunks)
      (hstate : dec.state = .CHUNK_EXPECT_LF) (hline : dec.size_line = []) :
      Expects last dec ('\n'.toUInt8 :: encode_chunks last chunks) (bodies chunks)

theorem Expects.start {last : HexLine 0} (hsized : Sized chunks)
    (hstate : dec.state = .CHUNK_READ_SIZE) (hline : dec.size_line = []) :
    Expects last dec (encode_chunks last chunks) (bodies chunks) := by
  rw [encode_chunks_eq]
  exact .line hsized hstate (by rw [hline, nil_append])

theorem Expects.ne_nil {last : HexLine 0} {bytes : List UInt8} (h : Expects last dec bytes todo) : bytes ≠ [] := by
  cases h with
  | line hsized hstate hline => simp
  | line_feed hsized hstate hline => simp
  | data hsized hstate hline hmore hremain => simp
  | data_cr hsized hstate hline => simp
  | data_lf hsized hstate hline => simp

section Call

variable {σ : Type} {sink : http_sink_fn σ} {log : σ → List UInt8} {last : HexLine 0}

/-- The result of a call that was given the first of the bytes that were waited for, with `rest` to come. -/
structure Decoded (last : HexLine 0) (log : σ → List UInt8) (ctx : σ) (rest todo : List UInt8)
    (result : Int × http_chunk_decoder × σ) : Prop where
  delivered : ∃ todo', log result.2.2 ++ todo' = log ctx ++ todo ∧
    (rest = [] ∧ result.1 = 1 ∧ todo' = [] ∨ rest ≠ [] ∧ result.1 = 0 ∧ Expects last result.2.1 rest todo')

variable {rest : List UInt8}

theorem Decoded.paused {ctx : σ} (h : Expects last dec rest todo) :
    Decoded last log ctx rest todo (0, dec, ctx) :=
  ⟨todo, rfl, .inr ⟨h.ne_nil, rfl, h⟩⟩

theorem Decoded.after {ctx ctx' : σ} {bytes : List UInt8} {result : Int × http_chunk_decoder × σ}
    (hlog : log ctx' = log ctx ++ bytes) (h : Decoded last log ctx' rest todo result) :
    Decoded last log ctx rest (bytes ++ todo) result := by
  obtain ⟨todo', heq, hcases⟩ := h
  exact ⟨todo', by rw [heq, hlog, append_assoc], hcases⟩

variable {data : List UInt8}

/-- The line feed behind a size line. -/
theorem decode_line_feed {ctx : σ}
    (hsized : Sized chunks) (hstate : dec.state = .CHUNK_READ_SIZE) (hline : dec.size_line = next_line last chunks)
    (hbytes : behind_line last chunks = data ++ rest)
    (hnext : ∀ dec, Expects last dec (data ++ rest) (bodies chunks) →
      Decoded last log ctx rest (bodies chunks) (decode_chunked_bytes sink dec ctx data)) :
    Decoded last log ctx rest (bodies chunks) (decode_chunked_bytes sink dec ctx ('\n'.toUInt8 :: data)) := by
  cases chunks with
  | nil =>
    have hzero : parse_hex_size dec.size_line = some 0 := by
      rw [hline]
      exact last.parse_hex_size (by decide)
    obtain ⟨-, hrest⟩ := List.append_eq_nil_iff.mp hbytes.symm
    rw [decode_size_zero hstate hzero]
    exact ⟨[], rfl, .inl ⟨hrest, rfl, rfl⟩⟩
  | cons chunk chunks =>
    obtain ⟨hsize, hsized'⟩ := List.forall_mem_cons.mp hsized
    have hparse : parse_hex_size dec.size_line = some (UInt64.ofNat chunk.data.length) := by
      rw [hline]
      exact chunk.line.parse_hex_size hsize
    have hword : (UInt64.ofNat chunk.data.length).toNat = chunk.data.length := UInt64.toNat_ofNat_of_lt' hsize
    have hne : UInt64.ofNat chunk.data.length ≠ 0 := fun h => by
      rw [h] at hword
      exact chunk.nonempty (List.length_eq_zero_iff.mp hword.symm)
    rw [decode_size_chunk hstate hparse hne]
    refine hnext _ ?_
    have hdata : behind_line last (chunk :: chunks) =
        chunk.data ++ '\r'.toUInt8 :: '\n'.toUInt8 :: encode_chunks last chunks := append_assoc _ _ _
    rw [← hbytes, hdata]
    refine .data hsized' rfl rfl chunk.nonempty ?_
    rw [http_chunk_decoder.remain, UInt64.sub_zero, hword]

/-- The data of a chunk, which may end behind the bytes of the call. -/
theorem decode_data (hsink : Accepts sink log) {ctx : σ}
    {more : List UInt8} (hsized : Sized chunks) (hstate : dec.state = .CHUNK_READ_DATA)
    (hline : dec.size_line = []) (hmore : more ≠ []) (hremain : dec.remain = more.length) (hdata : data ≠ [])
    (hbytes : more ++ '\r'.toUInt8 :: '\n'.toUInt8 :: encode_chunks last chunks = data ++ rest)
    (hnext : ∀ dec ctx data', data = more ++ data' → Expects last dec (data' ++ rest) (bodies chunks) →
      Decoded last log ctx rest (bodies chunks) (decode_chunked_bytes sink dec ctx data')) :
    Decoded last log ctx rest (more ++ bodies chunks) (decode_chunked_bytes sink dec ctx data) := by
  have hmorepos := List.length_pos_iff.mpr hmore
  obtain ⟨ctx', hctx'⟩ : ∃ ctx', ctx' = (sink ctx (data.take (min data.length dec.remain))).2 := ⟨_, rfl⟩
  have hlog := hsink.log_eq ctx (data.take (min data.length dec.remain))
  have hok : sink ctx (data.take (min data.length dec.remain)) = (.HTTP_SINK_OK, ctx') :=
    Prod.ext (hsink.ok ctx _) hctx'.symm
  rw [← hctx'] at hlog
  -- the chunk goes on behind the call, or the call goes on behind the chunk
  have hsplit : (∃ x, x ≠ [] ∧ more = data ++ x ∧
      x ++ '\r'.toUInt8 :: '\n'.toUInt8 :: encode_chunks last chunks = rest) ∨
      ∃ y, data = more ++ y ∧ '\r'.toUInt8 :: '\n'.toUInt8 :: encode_chunks last chunks = y ++ rest := by
    obtain ⟨y, hy, hrest⟩ | ⟨x, hx, hrest⟩ := List.append_eq_append_iff.mp hbytes
    · exact .inr ⟨y, hy, hrest⟩
    · by_cases hnil : x = []
      · subst hnil
        exact .inr ⟨[], by rw [hx, append_nil, append_nil], hrest.symm⟩
      · exact .inl ⟨x, hnil, hx, hrest.symm⟩
  obtain ⟨x, hx, rfl, rfl⟩ | ⟨y, rfl, hrest⟩ := hsplit
  · have hxpos := List.length_pos_iff.mpr hx
    rw [length_append] at hremain
    rw [min_eq_left (by omega), take_length] at hok hlog
    rw [decode_data_ok_all hstate hdata (by omega) hok, append_assoc]
    refine .after hlog (.paused (.data hsized hstate hline hx ?_))
    rw [remain_sub (by omega), hremain]
    omega
  · rw [hremain, length_append, min_eq_right (Nat.le_add_right _ _), take_left] at hlog
    have htake : dec.remain = min (more ++ y).length dec.remain := by
      rw [hremain, length_append, min_eq_right (Nat.le_add_right _ _)]
    rw [← htake] at hok
    rw [decode_data_ok hstate htake (by omega) hok, hremain, drop_left]
    refine .after hlog (hnext _ ctx' y rfl ?_)
    have hend : { dec with chunk_read := dec.chunk_read + UInt64.ofNat more.length }.remain = 0 := by
      rw [remain_sub hremain.ge, hremain, Nat.sub_self]
    have hafter : ({ dec with chunk_read := dec.chunk_read + UInt64.ofNat more.length } :
        http_chunk_decoder).after_data =
        { dec with chunk_read := dec.chunk_read + UInt64.ofNat more.length, state := .CHUNK_EXPECT_CR } :=
      if_pos ((http_chunk_decoder.chunk_read_eq_iff _).mpr hend)
    rw [hafter, ← hrest]
    exact .data_cr hsized rfl hline

/-- One call keeps what the decoder waits for. -/
theorem decode_expected (hsink : Accepts sink log) {ctx : σ} (h : Expects last dec (data ++ rest) todo) :
    Decoded last log ctx rest todo (decode_chunked_bytes sink dec ctx data) := by
  induction hn : data.length using Nat.strongRecOn generalizing dec ctx data todo with
  | ind n ih =>
    subst hn
    by_cases hdata : data = []
    · subst hdata
      rw [decode_nil]
      exact .paused h
    have hpos := List.length_pos_iff.mpr hdata
    obtain ⟨bytes, hbytes⟩ : ∃ bytes, bytes = data ++ rest := ⟨_, rfl⟩
    rw [← hbytes] at h
    cases h with
    | @line chunks _ more hsized hstate hline =>
      cases more with
      | nil =>
        obtain ⟨data', rfl, hrest⟩ := (List.cons_eq_append_iff.mp hbytes).resolve_left fun h => hdata h.1
        rw [decode_size_cr hstate]
        refine ih _ (Nat.lt_succ_self _) ?_ rfl
        rw [← hrest]
        exact .line_feed hsized hstate (by rw [← hline, append_nil])
      | cons c more =>
        obtain ⟨data', rfl, hrest⟩ := (List.cons_eq_append_iff.mp hbytes).resolve_left fun h => hdata h.1
        obtain ⟨hshort, hchars⟩ := next_line_facts last chunks
        rw [← hline] at hshort hchars
        obtain ⟨hcr, hlf⟩ := hchars c (by simp)
        rw [length_append, length_cons] at hshort
        rw [decode_size_char hstate hcr hlf (by omega)]
        refine ih _ (Nat.lt_succ_self _) ?_ rfl
        rw [← hrest]
        exact .line hsized hstate (by rw [← hline, append_assoc, singleton_append])
    | @line_feed chunks _ hsized hstate hline =>
      obtain ⟨data', rfl, hrest⟩ := (List.cons_eq_append_iff.mp hbytes).resolve_left fun h => hdata h.1
      exact decode_line_feed hsized hstate hline hrest fun dec h => ih _ (Nat.lt_succ_self _) h rfl
    | @data chunks _ more hsized hstate hline hmore hremain =>
      refine decode_data hsink hsized hstate hline hmore hremain hdata hbytes fun dec ctx data' hd h => ?_
      refine ih _ ?_ h rfl
      rw [hd, length_append]
      have := List.length_pos_iff.mpr hmore
      omega
    | data_cr hsized hstate hline =>
      obtain ⟨data', rfl, hrest⟩ := (List.cons_eq_append_iff.mp hbytes).resolve_left fun h => hdata h.1
      rw [decode_cr hstate]
      refine ih _ (Nat.lt_succ_self _) ?_ rfl
      rw [← hrest]
      exact .data_lf hsized rfl hline
    | data_lf hsized hstate hline =>
      obtain ⟨data', rfl, hrest⟩ := (List.cons_eq_append_iff.mp hbytes).resolve_left fun h => hdata h.1
      rw [decode_lf hstate]
      refine ih _ (Nat.lt_succ_self _) ?_ rfl
      rw [← hrest]
      exact .start hsized rfl hline

theorem decode_calls_nothing {ctx : σ} {parts : List (List UInt8)}
    (hparts : parts.flatten = []) : decode_calls sink dec ctx parts = (ends_in parts, dec, ctx) := by
  induction parts with
  | nil => rfl
  | cons data parts ih =>
    obtain ⟨rfl, hrest⟩ := List.append_eq_nil_iff.mp hparts
    rw [decode_calls, decode_nil]
    dsimp only
    rw [ih hrest]
    rfl

theorem decode_calls_expected (hsink : Accepts sink log) {dec : http_chunk_decoder} {ctx : σ}
    {parts : List (List UInt8)} {todo : List UInt8} (h : Expects last dec parts.flatten todo) :
    (decode_calls sink dec ctx parts).1 = ends_in parts ∧
    log (decode_calls sink dec ctx parts).2.2 = log ctx ++ todo := by
  induction parts generalizing dec ctx todo with
  | nil => exact absurd rfl h.ne_nil
  | cons data parts ih =>
    have hcall : Decoded last log ctx parts.flatten todo (decode_chunked_bytes sink dec ctx data) :=
      decode_expected hsink h
    rw [decode_calls, ends_in]
    generalize decode_chunked_bytes sink dec ctx data = result at hcall ⊢
    obtain ⟨ret, dec', ctx'⟩ := result
    obtain ⟨todo', hlog, hcases⟩ := hcall
    dsimp only at hlog hcases ⊢
    obtain ⟨hrest, hret, rfl⟩ | ⟨hrest, hret, hnext⟩ := hcases
    · have hdata : data ≠ [] := by
        rintro rfl
        exact h.ne_nil hrest
      rw [if_pos ⟨hdata, hrest⟩, decode_calls_nothing hrest, hret]
      rw [append_nil] at hlog
      exact ⟨rfl, hlog⟩
    · obtain ⟨hrets, hall⟩ := @ih dec' ctx' _ hnext
      rw [if_neg fun h => hrest h.2, hret, hrets, hall, hlog]
      exact ⟨rfl, rfl⟩

end Call

/-! ## The record of a sink -/

section Recording

variable {σ : Type} (sink : http_sink_fn σ)

/-- A sink is not changed by a record of it. -/
theorem decode_recording (dec : http_chunk_decoder) (ctx : σ) (log data : List UInt8) :
    ∃ log', decode_chunked_bytes (recording sink) dec (ctx, log) data =
      ((decode_chunked_bytes sink dec ctx data).1, (decode_chunked_bytes sink dec ctx data).2.1,
        (decode_chunked_bytes sink dec ctx data).2.2, log') := by
  induction hn : data.length using Nat.strongRecOn generalizing dec ctx log data with
  | ind n ih =>
    subst hn
    cases data with
    | nil => exact ⟨log, by rw [decode_nil, decode_nil]⟩
    | cons c rest =>
      have hframe : ∀ dec : http_chunk_decoder, dec.state ≠ .CHUNK_READ_DATA →
          ∃ log', decode_chunked_bytes (recording sink) dec (ctx, log) (c :: rest) =
            ((decode_chunked_bytes sink dec ctx (c :: rest)).1, (decode_chunked_bytes sink dec ctx (c :: rest)).2.1,
              (decode_chunked_bytes sink dec ctx (c :: rest)).2.2, log') := by
        intro dec hstate
        obtain ⟨ret, dec', -, hall⟩ | ⟨dec', hall⟩ := decode_byte hstate c
        · exact ⟨log, by rw [hall, hall]⟩
        · rw [hall, hall]
          exact ih _ (Nat.lt_succ_self _) dec' ctx log rest rfl
      by_cases hstate : dec.state = .CHUNK_READ_DATA
      · by_cases hrem : dec.remain = 0
        · rw [decode_data_end hstate hrem, decode_data_end hstate hrem]
          exact hframe _ (by simp)
        obtain ⟨take, htake⟩ : ∃ take, take = min (c :: rest).length dec.remain := ⟨_, rfl⟩
        have hpos : 0 < take := by
          rw [length_cons] at htake
          omega
        obtain ⟨ret, ctx', hsink⟩ : ∃ ret ctx', sink ctx ((c :: rest).take take) = (ret, ctx') := ⟨_, _, rfl⟩
        have hrecord : recording sink (ctx, log) ((c :: rest).take take) =
            (ret, ctx', log ++ (c :: rest).take take) := by
          rw [recording, hsink]
        cases ret with
        | HTTP_SINK_OK =>
          rw [decode_data_ok hstate htake hpos hsink, decode_data_ok hstate htake hpos hrecord]
          refine ih _ ?_ _ ctx' _ _ rfl
          rw [length_drop, length_cons]
          omega
        | HTTP_SINK_FULL =>
          rw [decode_data_full hstate htake hpos hsink, decode_data_full hstate htake hpos hrecord]
          exact ⟨_, rfl⟩
        | HTTP_SINK_ERR =>
          rw [decode_data_err hstate htake hpos hsink, decode_data_err hstate htake hpos hrecord]
          exact ⟨_, rfl⟩
      · exact hframe dec hstate

theorem decode_calls_recording (dec : http_chunk_decoder) (ctx : σ) (log : List UInt8) (parts : List (List UInt8)) :
    (decode_calls (recording sink) dec (ctx, log) parts).1 = (decode_calls sink dec ctx parts).1 := by
  induction parts generalizing dec ctx log with
  | nil => rfl
  | cons data parts ih =>
    obtain ⟨log', hlog'⟩ := decode_recording sink dec ctx log data
    rw [decode_calls, decode_calls, hlog']
    dsimp only
    rw [ih]

end Recording

/-- The calls over the parts of an encoding deliver its chunks and return 1 at its end only. -/
theorem chunked_round_trip {σ : Type} (sink : http_sink_fn σ) (hok : ∀ ctx data, (sink ctx data).1 = .HTTP_SINK_OK)
    (ctx : σ) (last : HexLine 0) (chunks : List Chunk) (hsized : ∀ chunk ∈ chunks, chunk.data.length < 2 ^ 64)
    (parts : List (List UInt8)) (hparts : parts.flatten = encode_chunks last chunks) :
    (decode_calls sink .zero ctx parts).1 = ends_in parts ∧
    (decode_calls (recording sink) .zero (ctx, []) parts).2.2.2 = bodies chunks := by
  have hexpects : Expects last .zero parts.flatten (bodies chunks) := by
    rw [hparts]
    exact .start hsized rfl rfl
  obtain ⟨hrets, hlog⟩ := @decode_calls_expected _ _ _ _ (recording_accepts hok) _ (ctx, []) _ _ hexpects
  exact ⟨(decode_calls_recording sink .zero ctx [] parts).symm.trans hrets, hlog⟩

/-- The size line of the end. -/
def last_line : HexLine 0 where
  digits := ascii "0"
  values := [0]
  extension := []
  spelled := by decide
  nonempty := by decide
  value := rfl
  behind := .inl rfl
  no_line_end := by simp
  short := by decide

/-- A chunk whose data looks like the frame around it. -/
def framed_chunk : Chunk where
  data := ascii "\r\n0\r\n"
  nonempty := by decide
  line :=
    { digits := ascii "05", values := [0, 5], extension := ascii ";a=b", spelled := by decide +kernel,
      nonempty := by decide +kernel,
      value := by decide +kernel, behind := .inr rfl, no_line_end := by decide +kernel, short := by decide +kernel }

/-- Parts that end within the frame and within the data. -/
theorem chunked_round_trip_split :
    (decode_calls collect .zero [] [ascii "0", ascii "5;a=b\r", [], ascii "\n\r\n0", ascii "\r\n\r\n0\r",
      ascii "\n"]).1 = [0, 0, 0, 0, 0, 1] :=
  (chunked_round_trip collect (fun _ _ => rfl) [] last_line [framed_chunk] (by decide +kernel) _ (by decide +kernel)).1

theorem decode_size_chars {σ : Type} {sink : http_sink_fn σ} (ctx : σ)
    (hstate : dec.state = .CHUNK_READ_SIZE) {more : List UInt8} (rest : List UInt8)
    (hchars : ∀ c ∈ more, c ≠ '\r'.toUInt8 ∧ c ≠ '\n'.toUInt8) (hshort : dec.size_line.length + more.length ≤ 31) :
    decode_chunked_bytes sink dec ctx (more ++ rest) =
      decode_chunked_bytes sink { dec with size_line := dec.size_line ++ more } ctx rest := by
  induction more generalizing dec with
  | nil => rw [append_nil, nil_append]
  | cons c more ih =>
    obtain ⟨⟨hcr, hlf⟩, hmore⟩ := List.forall_mem_cons.mp hchars
    rw [length_cons] at hshort
    rw [cons_append, decode_size_char hstate hcr hlf (by omega), ih (by exact hstate) hmore]
    · simp only [append_assoc, singleton_append]
    · rw [length_append, length_singleton]
      omega

/-- A chunk of `2 ^ 64` bytes has a size line that is refused. -/
def large_chunk : Chunk where
  data := List.replicate (2 ^ 64) 0
  nonempty := ne_nil_of_length_pos (by rw [length_replicate]; decide)
  line :=
    { digits := ascii "10000000000000000", values := [1, 0, 0, 0, 0, 0, 0, 0, 0, 0, 0, 0, 0, 0, 0, 0, 0],
      extension := [], spelled := by decide, nonempty := by decide,
      value := by rw [length_replicate]; decide, behind := .inl rfl, no_line_end := by simp, short := by decide }

theorem large_chunk_refused : ¬ ∀ (last : HexLine 0) (chunks : List Chunk) (parts : List (List UInt8)),
    parts.flatten = encode_chunks last chunks → (decode_calls collect .zero [] parts).1 = ends_in parts := by
  intro h
  have hparts := h last_line [large_chunk]
    [large_chunk.line.bytes ++ crlf, large_chunk.data ++ crlf ++ encode_chunks last_line []] (by
      rw [flatten_cons, flatten_cons, flatten_nil, append_nil]
      rfl)
  have hline : large_chunk.line.bytes = ascii "10000000000000000" := append_nil (ascii "10000000000000000")
  have hbad : decode_chunked_bytes collect .zero [] (ascii "10000000000000000" ++ crlf) =
      (-1, { http_chunk_decoder.zero with size_line := ascii "10000000000000000" }, []) := by
    rw [decode_size_chars [] rfl crlf (by decide +kernel) (by decide +kernel), crlf, decode_size_cr (by rfl)]
    exact decode_size_bad rfl (by decide +kernel) [] []
  have hrest : ¬ ([large_chunk.data ++ crlf ++ encode_chunks last_line []].flatten = []) := by
    simp [crlf]
  rw [hline, decode_calls, hbad, ends_in, if_neg fun h => hrest h.2] at hparts
  have hfirst : (-1 : Int) = 0 := (List.cons.inj hparts).1
  exact absurd hfirst (by decide)

end graceos.http
