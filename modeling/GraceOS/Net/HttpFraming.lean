import GraceOS.Net.HttpReads

/-!
# What a response announces and what it brings

The framing of a response, said of its bytes alone: where the headers end, what the chunks of a body are, and when
the bytes stop before the body does.
-/

namespace graceos.http

open word List

variable {σ : Type} {E : Prop}

/-! ## Chunked bodies -/

/-- A size line without its carriage returns. -/
def size_text (line : List UInt8) : List UInt8 := line.filter (· ≠ '\r'.toUInt8)

/-- A line that announces a chunk of `size` bytes. -/
structure SizeLine (line : List UInt8) (size : UInt64) : Prop where
  no_lf : '\n'.toUInt8 ∉ line
  short : (size_text line).length ≤ 31
  value : parse_hex_size (size_text line) = some size

/-- A body of chunks up to the line of the zero chunk, and the bytes in the chunks. -/
inductive Chunks : (body data : List UInt8) → Prop
  | last {line : List UInt8} (hline : SizeLine line 0) (rest : List UInt8) : Chunks (line ++ '\n'.toUInt8 :: rest) []
  | chunk {line data body rest : List UInt8} {size : UInt64} (hline : SizeLine line size) (hsize : size ≠ 0)
      (hlen : data.length = size.toNat) (hrest : Chunks body rest) :
      Chunks (line ++ '\n'.toUInt8 :: (data ++ '\r'.toUInt8 :: '\n'.toUInt8 :: body)) (data ++ rest)

/-- A body that follows the grammar of `Chunks` but ends early. -/
inductive UnfinishedChunks : (body data : List UInt8) → Prop
  | size {line : List UInt8} (hlf : '\n'.toUInt8 ∉ line) (hshort : (size_text line).length ≤ 31) :
      UnfinishedChunks line []
  | data {line data : List UInt8} {size : UInt64} (hline : SizeLine line size) (hsize : size ≠ 0)
      (hlen : data.length ≤ size.toNat) : UnfinishedChunks (line ++ '\n'.toUInt8 :: data) data
  | cr {line data : List UInt8} {size : UInt64} (hline : SizeLine line size) (hsize : size ≠ 0)
      (hlen : data.length = size.toNat) :
      UnfinishedChunks (line ++ '\n'.toUInt8 :: (data ++ ['\r'.toUInt8])) data
  | chunk {line data body rest : List UInt8} {size : UInt64} (hline : SizeLine line size) (hsize : size ≠ 0)
      (hlen : data.length = size.toNat) (hrest : UnfinishedChunks body rest) :
      UnfinishedChunks (line ++ '\n'.toUInt8 :: (data ++ '\r'.toUInt8 :: '\n'.toUInt8 :: body)) (data ++ rest)

/-! ## Responses -/

/-- `stream` is `header`, which ends with the first empty line, and `body`. -/
structure Headers (stream header body : List UInt8) : Prop where
  split : stream = header ++ body
  short : header.length < HTTP_HEADER_BUF_SIZE
  last : ascii "\r\n\r\n" <:+ header
  first : ∀ before, before <+: header → ascii "\r\n\r\n" <:+ before → before = header

/-- Headers that may still go on. -/
structure UnfinishedHeaders (stream : List UInt8) : Prop where
  short : stream.length < HTTP_HEADER_BUF_SIZE
  none : ∀ before, before <+: stream → ¬ascii "\r\n\r\n" <:+ before

/-- The body bytes behind headers with the framing `m` are all of the body, which is `data`. -/
inductive WholeBody (m : http_meta) (body : List UInt8) : (data : List UInt8) → Prop
  | chunked {data : List UInt8} (hm : m.is_chunked = true) (hchunks : Chunks body data) : WholeBody m body data
  | length (hm : m.is_chunked = false) (hlen : m.has_content_length = true)
      (hle : m.content_length.toNat ≤ body.length) : WholeBody m body (body.take m.content_length.toNat)
  | close (hm : m.is_chunked = false) (hlen : m.has_content_length = false) : WholeBody m body body

/-- The bytes end before the body, after `data` of it. -/
inductive ShortBody (m : http_meta) (body : List UInt8) : (data : List UInt8) → Prop
  | chunked {data : List UInt8} (hm : m.is_chunked = true) (hchunks : UnfinishedChunks body data) :
      ShortBody m body data
  | length (hm : m.is_chunked = false) (hlen : m.has_content_length = true)
      (hlt : body.length < m.content_length.toNat) : ShortBody m body body

/-- `data` is the body of the response. -/
def Whole (stream data : List UInt8) : Prop :=
  ∃ header body m, Headers stream header body ∧ parse_headers header = some m ∧ WholeBody m body data

/-- The response is cut short, after `data` of its body. -/
inductive CutShort (stream : List UInt8) : (data : List UInt8) → Prop
  | headers (hheaders : UnfinishedHeaders stream) : CutShort stream []
  | body {header body data : List UInt8} {m : http_meta} (hheaders : Headers stream header body)
      (hparse : parse_headers header = some m) (hshort : ShortBody m body data) : CutShort stream data

/-! ## The sink of bounded size -/

/-- `n` bytes fit where there is a bound. -/
def Room (cap : Option Nat) (n : Nat) : Prop := ∀ c ∈ cap, n ≤ c

instance (cap : Option Nat) (n : Nat) : Decidable (Room cap n) :=
  inferInstanceAs (Decidable (∀ c ∈ cap, n ≤ c))

/-- The sink that keeps the bytes it has room for. -/
def capped (cap : Option Nat) : http_sink_fn (List UInt8) := fun log data =>
  if Room cap (log.length + data.length) then (.HTTP_SINK_OK, log ++ data)
  else (.HTTP_SINK_FULL, log ++ data.take (cap.getD 0 - log.length))

variable {cap : Option Nat} {log data : List UInt8}

theorem Room.mono {m n : Nat} (h : Room cap n) (hle : m ≤ n) : Room cap m :=
  fun c hc => Nat.le_trans hle (h c hc)

theorem Room.unbounded (n : Nat) : Room none n := fun c hc => by cases hc

theorem capped_ok (hroom : Room cap (log.length + data.length)) :
    capped cap log data = (.HTTP_SINK_OK, log ++ data) := if_pos hroom

theorem capped_full (hlog : Room cap log.length) (hroom : ¬Room cap (log.length + data.length)) :
    ∃ log', capped cap log data = (.HTTP_SINK_FULL, log') ∧ cap = some log'.length := by
  refine ⟨_, if_neg hroom, ?_⟩
  cases cap with
  | none => exact absurd (Room.unbounded _) hroom
  | some c =>
    have hle : log.length ≤ c := hlog c rfl
    have hlt : c < log.length + data.length := by
      by_contra hge
      refine hroom fun c' hc' => ?_
      cases hc'
      omega
    rw [Option.getD_some, length_append, length_take]
    congr 1
    omega

theorem capped_seamless (cap : Option Nat) : Seamless (capped cap) where
  joins := by
    intro s s' a b _ _ hok
    unfold capped at hok ⊢
    split at hok
    · cases hok
      rw [length_append, length_append, Nat.add_assoc, append_assoc, append_assoc]
      rename_i hroom
      split
      · rfl
      · cases cap with
        | none =>
          rename_i hover
          exact absurd (Room.unbounded _) hover
        | some c =>
          have hle : s.length + a.length ≤ c := hroom c rfl
          rw [Option.getD_some, take_append, take_of_length_le (by omega), Nat.sub_sub]
    · cases hok
  ends := by
    intro s a b _ hbad
    unfold capped at hbad ⊢
    split at hbad
    · exact absurd rfl hbad
    · rename_i hover
      rw [if_neg hover, if_neg]
      · cases cap with
        | none => exact absurd (Room.unbounded _) hover
        | some c =>
          have hlt : c < s.length + a.length := by
            by_contra hge
            refine hover fun c' hc' => ?_
            cases hc'
            omega
          rw [Option.getD_some, take_append_of_le_length (by omega)]
      · intro hroom
        refine hover (hroom.mono ?_)
        rw [length_append]
        omega

theorem http_buffer_sink_follows (c : Nat) :
    Follows False (fun s log => s.out = log ∧ s.cap = c) http_buffer_sink (capped (some c)) := by
  rintro s log data hdata ⟨rfl, rfl⟩
  refine Or.inr ?_
  rw [http_buffer_sink_eq s hdata, capped]
  have hiff : Room (some s.cap) (s.out.length + data.length) ↔ s.out.length + data.length ≤ s.cap :=
    ⟨fun h => h _ rfl, fun h c hc => by cases hc; exact h⟩
  by_cases hfits : s.out.length + data.length ≤ s.cap
  · rw [if_pos hfits, if_pos (hiff.2 hfits), take_of_length_le (by omega)]
    exact ⟨rfl, rfl, rfl⟩
  · rw [if_neg hfits, if_neg fun h => hfits (hiff.1 h)]
    exact ⟨rfl, rfl, rfl⟩

/-! ## The decoder on the grammar -/

section Decoder

variable {sink : http_sink_fn σ} {dec : http_chunk_decoder}

theorem size_text_cons_cr (line : List UInt8) : size_text ('\r'.toUInt8 :: line) = size_text line :=
  filter_cons_of_neg (by simp)

theorem size_text_cons {c : UInt8} (hc : c ≠ '\r'.toUInt8) (line : List UInt8) :
    size_text (c :: line) = c :: size_text line := filter_cons_of_pos (by simpa using hc)

theorem decode_line {line : List UInt8} (hstate : dec.state = .CHUNK_READ_SIZE) (hlf : '\n'.toUInt8 ∉ line)
    (hshort : dec.size_line.length + (size_text line).length ≤ 31) (ctx : σ) (rest : List UInt8) :
    decode_chunked_bytes sink dec ctx (line ++ rest) =
      decode_chunked_bytes sink { dec with size_line := dec.size_line ++ size_text line } ctx rest := by
  induction line generalizing dec with
  | nil => rw [nil_append, size_text, filter_nil, append_nil]
  | cons c line ih =>
    have hlf' : '\n'.toUInt8 ∉ line := fun h => hlf (mem_cons_of_mem c h)
    rw [cons_append]
    by_cases hcr : c = '\r'.toUInt8
    · subst hcr
      rw [size_text_cons_cr] at hshort ⊢
      rw [decode_size_cr hstate, ih hstate hlf' hshort]
    · have hc : c ≠ '\n'.toUInt8 := fun h => hlf (by rw [h]; exact mem_cons_self)
      rw [size_text_cons hcr, length_cons] at hshort
      rw [decode_size_char hstate hcr hc (by omega), ih (by exact hstate) hlf' (by
        rw [length_append, length_singleton]
        omega), size_text_cons hcr]
      simp only [append_assoc, singleton_append]

theorem decode_long_line {line : List UInt8} (hstate : dec.state = .CHUNK_READ_SIZE) (hlf : '\n'.toUInt8 ∉ line)
    (hle : dec.size_line.length ≤ 31) (hlong : 31 < dec.size_line.length + (size_text line).length) (ctx : σ)
    (rest : List UInt8) : (decode_chunked_bytes sink dec ctx (line ++ rest)).1 = -1 := by
  induction line generalizing dec with
  | nil =>
    rw [size_text, filter_nil, length_nil] at hlong
    omega
  | cons c line ih =>
    have hlf' : '\n'.toUInt8 ∉ line := fun h => hlf (mem_cons_of_mem c h)
    rw [cons_append]
    by_cases hcr : c = '\r'.toUInt8
    · subst hcr
      rw [size_text_cons_cr] at hlong
      rw [decode_size_cr hstate, ih hstate hlf' hle hlong]
    · have hc : c ≠ '\n'.toUInt8 := fun h => hlf (by rw [h]; exact mem_cons_self)
      rw [size_text_cons hcr, length_cons] at hlong
      by_cases hlen : 31 ≤ dec.size_line.length
      · rw [decode_size_long hstate hcr hc hlen]
      · rw [decode_size_char hstate hcr hc (by omega)]
        refine ih hstate hlf' ?_ ?_
        · rw [length_append, length_singleton]
          omega
        · rw [length_append, length_singleton]
          omega

/-- The decoder in front of a chunk. -/
structure AtChunk (dec : http_chunk_decoder) : Prop where
  state : dec.state = .CHUNK_READ_SIZE
  size_line : dec.size_line = []

theorem AtChunk.zero : AtChunk .zero := ⟨rfl, rfl⟩

theorem decode_size_line {line : List UInt8} {size : UInt64} (hdec : AtChunk dec) (hline : SizeLine line size)
    (hsize : size ≠ 0) (ctx : σ) (rest : List UInt8) :
    decode_chunked_bytes sink dec ctx (line ++ '\n'.toUInt8 :: rest) =
      decode_chunked_bytes sink ⟨.CHUNK_READ_DATA, size, 0, []⟩ ctx rest := by
  have hshort := hline.short
  have hvalue := hline.value
  rw [decode_line hdec.state hline.no_lf (by rw [hdec.size_line, length_nil]; omega), hdec.size_line,
    nil_append]
  exact decode_size_chunk (by exact hdec.state) (by exact hvalue) hsize ctx rest

theorem decode_last_line {line : List UInt8} (hdec : AtChunk dec) (hline : SizeLine line 0) (ctx : σ)
    (rest : List UInt8) :
    decode_chunked_bytes sink dec ctx (line ++ '\n'.toUInt8 :: rest) = (1, ⟨.CHUNK_DONE, 0, 0, []⟩, ctx) := by
  have hshort := hline.short
  have hvalue := hline.value
  rw [decode_line hdec.state hline.no_lf (by rw [hdec.size_line, length_nil]; omega), hdec.size_line,
    nil_append]
  exact decode_size_zero (by exact hdec.state) (by exact hvalue) ctx rest

theorem remain_fresh (state : http_chunk_state) (size : UInt64) (line : List UInt8) :
    (http_chunk_decoder.mk state size 0 line).remain = size.toNat := by
  rw [http_chunk_decoder.remain, UInt64.sub_zero]

variable {size : UInt64} {data : List UInt8} {ctx ctx' : σ}

theorem decode_whole_chunk (hsize : size ≠ 0) (hlen : data.length = size.toNat)
    (hsink : sink ctx data = (.HTTP_SINK_OK, ctx')) (rest : List UInt8) :
    decode_chunked_bytes sink ⟨.CHUNK_READ_DATA, size, 0, []⟩ ctx (data ++ rest) =
      decode_chunked_bytes sink ⟨.CHUNK_EXPECT_CR, size, size, []⟩ ctx' rest := by
  have hpos : 0 < data.length := by
    rw [hlen]
    exact Nat.pos_of_ne_zero fun h => hsize (UInt64.toNat_inj.1 h)
  have htake : data.length = min (data ++ rest).length
      (http_chunk_decoder.mk .CHUNK_READ_DATA size 0 []).remain := by
    rw [remain_fresh, length_append]
    omega
  have hread : (0 : UInt64) + UInt64.ofNat data.length = size := by
    rw [hlen, UInt64.ofNat_toNat, UInt64.zero_add]
  rw [decode_data_ok rfl htake hpos (by rw [take_left, hsink]), drop_left, hread,
    http_chunk_decoder.after_data, if_pos rfl]

theorem decode_chunk_full (hne : data ≠ []) (hlen : data.length ≤ size.toNat) {rest : List UInt8}
    (hrest : rest = [] ∨ data.length = size.toNat) (hsink : sink ctx data = (.HTTP_SINK_FULL, ctx')) :
    ∃ dec', decode_chunked_bytes sink ⟨.CHUNK_READ_DATA, size, 0, []⟩ ctx (data ++ rest) = (1, dec', ctx') := by
  have hpos := List.length_pos_iff.2 hne
  have htake : data.length = min (data ++ rest).length
      (http_chunk_decoder.mk .CHUNK_READ_DATA size 0 []).remain := by
    rw [remain_fresh, length_append]
    rcases hrest with rfl | hfull
    · rw [length_nil]
      omega
    · omega
  exact ⟨_, decode_data_full rfl htake hpos (by rw [take_left, hsink])⟩

theorem decode_part_chunk (hsize : size ≠ 0) (hlen : data.length ≤ size.toNat)
    (hsink : data ≠ [] → sink ctx data = (.HTTP_SINK_OK, ctx')) (hnil : data = [] → ctx = ctx') :
    ∃ dec', decode_chunked_bytes sink ⟨.CHUNK_READ_DATA, size, 0, []⟩ ctx data = (0, dec', ctx') := by
  by_cases hne : data = []
  · rw [hne, decode_nil, hnil hne]
    exact ⟨_, rfl⟩
  by_cases hall : data.length = size.toNat
  · have hwhole := decode_whole_chunk hsize hall (hsink hne) []
    rw [append_nil, decode_nil] at hwhole
    exact ⟨_, hwhole⟩
  · refine ⟨_, decode_data_ok_all rfl hne ?_ (hsink hne)⟩
    rw [remain_fresh]
    omega

theorem decode_chunk_end (rest : List UInt8) :
    decode_chunked_bytes sink ⟨.CHUNK_EXPECT_CR, size, size, []⟩ ctx ('\r'.toUInt8 :: '\n'.toUInt8 :: rest) =
      decode_chunked_bytes sink ⟨.CHUNK_READ_SIZE, size, size, []⟩ ctx rest := by
  rw [decode_cr rfl, decode_lf rfl]

end Decoder

theorem Chunks.decode {body data : List UInt8} (h : Chunks body data) :
    ∀ {dec : http_chunk_decoder} {log : List UInt8}, AtChunk dec → Room cap (log.length + data.length) →
      ∃ dec', decode_chunked_bytes (capped cap) dec log body = (1, dec', log ++ data) := by
  induction h with
  | last hline rest =>
    intro dec log hdec _
    rw [decode_last_line hdec hline, append_nil]
    exact ⟨_, rfl⟩
  | @chunk line data body rest size hline hsize hlen hrest ih =>
    intro dec log hdec hroom
    rw [length_append] at hroom
    have hok : capped cap log data = _ := capped_ok (hroom.mono (by omega))
    rw [decode_size_line hdec hline hsize, decode_whole_chunk hsize hlen hok, decode_chunk_end, ← append_assoc]
    refine ih ⟨rfl, rfl⟩ ?_
    rw [length_append]
    exact hroom.mono (by omega)

theorem UnfinishedChunks.decode {body data : List UInt8} (h : UnfinishedChunks body data) :
    ∀ {dec : http_chunk_decoder} {log : List UInt8}, AtChunk dec → Room cap (log.length + data.length) →
      ∃ dec', decode_chunked_bytes (capped cap) dec log body = (0, dec', log ++ data) := by
  induction h with
  | @size line hlf hshort =>
    intro dec log hdec _
    have hline : decode_chunked_bytes (capped cap) dec log (line ++ []) = _ :=
      decode_line hdec.state hlf (by rw [hdec.size_line, length_nil]; omega) log []
    rw [append_nil, decode_nil] at hline
    rw [hline, append_nil]
    exact ⟨_, rfl⟩
  | @data line data size hline hsize hlen =>
    intro dec log hdec hroom
    obtain ⟨dec', hpart⟩ := decode_part_chunk hsize hlen (fun _ => capped_ok hroom)
      (fun hnil => by rw [hnil, append_nil])
    rw [decode_size_line hdec hline hsize, hpart]
    exact ⟨_, rfl⟩
  | @cr line data size hline hsize hlen =>
    intro dec log hdec hroom
    rw [decode_size_line hdec hline hsize, decode_whole_chunk hsize hlen (capped_ok hroom), decode_cr rfl, decode_nil]
    exact ⟨_, rfl⟩
  | @chunk line data body rest size hline hsize hlen hrest ih =>
    intro dec log hdec hroom
    rw [length_append] at hroom
    have hok : capped cap log data = _ := capped_ok (hroom.mono (by omega))
    rw [decode_size_line hdec hline hsize, decode_whole_chunk hsize hlen hok, decode_chunk_end, ← append_assoc]
    refine ih ⟨rfl, rfl⟩ ?_
    rw [length_append]
    exact hroom.mono (by omega)

/-- What a decoder in front of a chunk makes of a body: it fails, it reads the zero chunk, it fills the sink, or the
body ends early. -/
inductive ChunkRun (cap : Option Nat) (log body : List UInt8) : Int × http_chunk_decoder × List UInt8 → Prop
  | bad {x : Int × http_chunk_decoder × List UInt8} (hret : x.1 = -1) : ChunkRun cap log body x
  | done {data : List UInt8} (h : Chunks body data) (dec : http_chunk_decoder) :
      ChunkRun cap log body (1, dec, log ++ data)
  | full {log' : List UInt8} (hcap : cap = some log'.length) (dec : http_chunk_decoder) :
      ChunkRun cap log body (1, dec, log')
  | short {data : List UInt8} (h : UnfinishedChunks body data) (hroom : Room cap (log ++ data).length)
      (dec : http_chunk_decoder) : ChunkRun cap log body (0, dec, log ++ data)

theorem ChunkRun.cons {line chunk body : List UInt8} {size : UInt64} {x : Int × http_chunk_decoder × List UInt8}
    (hline : SizeLine line size) (hsize : size ≠ 0) (hlen : chunk.length = size.toNat)
    (h : ChunkRun cap (log ++ chunk) body x) :
    ChunkRun cap log (line ++ '\n'.toUInt8 :: (chunk ++ '\r'.toUInt8 :: '\n'.toUInt8 :: body)) x := by
  cases h with
  | bad hret => exact .bad hret
  | done h dec =>
    rw [append_assoc]
    exact .done (.chunk hline hsize hlen h) dec
  | full hcap dec => exact .full hcap dec
  | short h hroom dec =>
    rw [append_assoc] at hroom ⊢
    exact .short (.chunk hline hsize hlen h) hroom dec

theorem decode_chunks (cap : Option Nat) {dec : http_chunk_decoder} (hdec : AtChunk dec) {log : List UInt8}
    (hlog : Room cap log.length) (body : List UInt8) :
    ChunkRun cap log body (decode_chunked_bytes (capped cap) dec log body) := by
  induction hn : body.length using Nat.strongRecOn generalizing dec log body with
  | ind n ih =>
    subst hn
    have hzero : dec.size_line.length = 0 := by rw [hdec.size_line, length_nil]
    by_cases hlf : '\n'.toUInt8 ∈ body
    · obtain ⟨line, rest, hbody, hno⟩ := eq_append_cons_of_mem hlf
      subst hbody
      by_cases hshort : (size_text line).length ≤ 31
      · cases hvalue : parse_hex_size (size_text line) with
        | none =>
          rw [decode_line hdec.state hno (by omega), hdec.size_line, nil_append,
            decode_size_bad (by exact hdec.state) (by exact hvalue)]
          exact .bad rfl
        | some size =>
          have hline : SizeLine line size := ⟨hno, hshort, hvalue⟩
          by_cases hsize : size = 0
          · subst hsize
            rw [decode_last_line hdec hline]
            have hdone : ChunkRun cap log _ (1, ⟨.CHUNK_DONE, 0, 0, []⟩, log ++ []) :=
              .done (Chunks.last hline rest) _
            rwa [append_nil] at hdone
          · rw [decode_size_line hdec hline hsize]
            by_cases hend : rest.length ≤ size.toNat
            · by_cases hroom : Room cap (log.length + rest.length)
              · obtain ⟨dec', hpart⟩ := decode_part_chunk hsize hend (fun _ => capped_ok hroom)
                  (fun hnil => by rw [hnil, append_nil])
                rw [hpart]
                exact .short (.data hline hsize hend) (by rwa [length_append]) dec'
              · have hne : rest ≠ [] := fun hnil => hroom (by rwa [hnil, length_nil, Nat.add_zero])
                obtain ⟨log', hsink, hcap⟩ := capped_full hlog hroom
                obtain ⟨dec', hfull⟩ := decode_chunk_full hne hend (Or.inl rfl) hsink
                rw [append_nil] at hfull
                rw [hfull]
                exact .full hcap dec'
            obtain ⟨chunk, c, after, hrest, hlen⟩ : ∃ chunk c after, rest = chunk ++ c :: after ∧
                chunk.length = size.toNat := by
              have hlt : size.toNat < rest.length := by omega
              refine ⟨rest.take size.toNat, rest.get ⟨size.toNat, hlt⟩, rest.drop (size.toNat + 1), ?_, ?_⟩
              · rw [get_eq_getElem, ← drop_eq_getElem_cons hlt, take_append_drop]
              · rw [length_take]
                omega
            subst hrest
            by_cases hroom : Room cap (log.length + chunk.length)
            · rw [decode_whole_chunk hsize hlen (capped_ok hroom)]
              by_cases hcr : c = '\r'.toUInt8
              · subst hcr
                rw [decode_cr rfl]
                cases after with
                | nil =>
                  rw [decode_nil]
                  exact .short (.cr hline hsize hlen) (by rwa [length_append]) _
                | cons c after =>
                  by_cases hlf : c = '\n'.toUInt8
                  · subst hlf
                    rw [decode_lf rfl]
                    refine .cons hline hsize hlen (ih _ ?_ ⟨rfl, rfl⟩ ?_ after rfl)
                    · simp only [length_append, length_cons]
                      omega
                    · rwa [length_append]
                  · rw [decode_lf_bad rfl hlf]
                    exact .bad rfl
              · rw [decode_cr_bad rfl hcr]
                exact .bad rfl
            · have hne : chunk ≠ [] := fun hnil => hroom (by rwa [hnil, length_nil, Nat.add_zero])
              obtain ⟨log', hsink, hcap⟩ := capped_full hlog hroom
              obtain ⟨dec', hfull⟩ := decode_chunk_full hne (Nat.le_of_eq hlen) (Or.inr hlen) hsink
              rw [hfull]
              exact .full hcap dec'
      · exact .bad (decode_long_line hdec.state hno (by omega) (by omega) log ('\n'.toUInt8 :: rest))
    · by_cases hshort : (size_text body).length ≤ 31
      · have hunfinished := UnfinishedChunks.size hlf hshort
        have hroom : Room cap (log.length + ([] : List UInt8).length) := by rwa [length_nil, Nat.add_zero]
        obtain ⟨dec', hrun⟩ := hunfinished.decode hdec hroom
        rw [hrun]
        exact .short hunfinished (by rwa [length_append]) dec'
      · have hret : (decode_chunked_bytes (capped cap) dec log (body ++ [])).1 = -1 :=
          decode_long_line hdec.state hlf (by omega) (by omega) log []
        rw [append_nil] at hret
        exact .bad hret

/-! ## Headers -/

theorem header_end_iff (buf : List UInt8) :
    buf.length ≥ 4 ∧ buf.drop (buf.length - 4) = ascii "\r\n\r\n" ↔ ascii "\r\n\r\n" <:+ buf := by
  have hlen : (ascii "\r\n\r\n").length = 4 := by decide
  rw [suffix_iff_eq_drop, hlen]
  constructor
  · intro h
    exact h.2.symm
  · intro h
    refine ⟨?_, h.symm⟩
    have hlength := congrArg List.length h
    rw [hlen, length_drop] at hlength
    omega

/-- What the header loop makes of a response of which it has read a part. -/
theorem header_loop_cases {buf : List UInt8} (hbuf : UnfinishedHeaders buf) (chunk : List UInt8) :
    (header_loop buf chunk = .too_large ∧ HTTP_HEADER_BUF_SIZE ≤ (buf ++ chunk).length ∧
      ∀ before, before <+: buf ++ chunk → before.length < HTTP_HEADER_BUF_SIZE → ¬ascii "\r\n\r\n" <:+ before) ∨
    (header_loop buf chunk = .unfinished (buf ++ chunk) ∧ UnfinishedHeaders (buf ++ chunk)) ∨
    ∃ header body, header_loop buf chunk = .done header body ∧ Headers (buf ++ chunk) header body := by
  induction chunk generalizing buf with
  | nil =>
    rw [append_nil]
    exact Or.inr (Or.inl ⟨rfl, hbuf⟩)
  | cons c chunk ih =>
    have hshort := hbuf.short
    rw [header_loop]
    split
    · rename_i hfull
      refine Or.inl ⟨rfl, ?_, ?_⟩
      · rw [length_append, length_cons]
        omega
      · intro before hbefore hlt
        refine hbuf.none before (prefix_of_prefix_length_le hbefore (List.prefix_append buf _) ?_)
        omega
    · rename_i hroom
      dsimp only
      have hsplit : buf ++ c :: chunk = buf ++ [c] ++ chunk := by rw [append_assoc, singleton_append]
      have hlen : (buf ++ [c]).length < HTTP_HEADER_BUF_SIZE := by
        rw [length_append, length_singleton]
        omega
      have hbegin : ∀ before, before <+: buf ++ [c] → ascii "\r\n\r\n" <:+ before → before = buf ++ [c] := by
        intro before hbefore hends
        rcases List.prefix_concat_iff.1 hbefore with heq | hold
        · exact heq
        · exact absurd hends (hbuf.none before hold)
      rw [hsplit]
      split
      · rename_i hends
        exact Or.inr (Or.inr ⟨buf ++ [c], chunk, rfl, ⟨rfl, hlen, (header_end_iff _).1 hends, hbegin⟩⟩)
      · rename_i hends
        refine ih ⟨hlen, fun before hbefore hterm => hends ((header_end_iff _).2 ?_)⟩
        rwa [← hbegin before hbefore hterm]

theorem UnfinishedHeaders.nil : UnfinishedHeaders [] := by
  refine ⟨by decide, fun before hbefore hends => ?_⟩
  rw [List.prefix_nil.1 hbefore] at hends
  exact absurd hends (by decide)

section Responses

variable {stream header header' body body' : List UInt8}

theorem Headers.begins (h : Headers stream header body) : header <+: stream := by
  rw [h.split]
  exact List.prefix_append header body

theorem Headers.not_unfinished (h : Headers stream header body) : ¬UnfinishedHeaders stream :=
  fun hunfinished => hunfinished.none header h.begins h.last

theorem Headers.unique (h : Headers stream header body) (h' : Headers stream header' body') :
    header = header' ∧ body = body' := by
  have hsame : header = header' := by
    rcases prefix_or_prefix_of_prefix h.begins h'.begins with hle | hle
    · exact h'.first header hle h.last
    · exact (h.first header' hle h'.last).symm
  subst hsame
  exact ⟨rfl, append_cancel_left (h.split.symm.trans h'.split)⟩

theorem Headers.header_loop (h : Headers stream header body) : header_loop [] stream = .done header body := by
  have hcases := header_loop_cases .nil stream
  rw [nil_append] at hcases
  rcases hcases with ⟨_, _, hnone⟩ | ⟨_, hunfinished⟩ | ⟨header', body', hloop, h'⟩
  · exact absurd h.last (hnone header h.begins h.short)
  · exact absurd hunfinished h.not_unfinished
  · obtain ⟨rfl, rfl⟩ := h.unique h'
    exact hloop

theorem UnfinishedHeaders.header_loop (h : UnfinishedHeaders stream) :
    header_loop [] stream = .unfinished stream := by
  have hcases := header_loop_cases .nil stream
  rw [nil_append] at hcases
  rcases hcases with ⟨_, hlong, _⟩ | ⟨hloop, _⟩ | ⟨header', body', _, h'⟩
  · exact absurd h.short (Nat.not_lt.2 hlong)
  · exact hloop
  · exact absurd h h'.not_unfinished

theorem WholeBody.not_short {m : http_meta} {data data' : List UInt8} (h : WholeBody m body data) :
    ¬ShortBody m body data' := by
  intro hshort
  cases h with
  | chunked hm hchunks =>
    cases hshort with
    | chunked _ hunfinished =>
      obtain ⟨dec, hdone⟩ := hchunks.decode AtChunk.zero (Room.unbounded (([] : List UInt8).length + _))
      obtain ⟨dec', hmore⟩ := hunfinished.decode AtChunk.zero (Room.unbounded (([] : List UInt8).length + _))
      rw [hdone] at hmore
      simp at hmore
    | length hm' _ _ =>
      rw [hm] at hm'
      cases hm'
  | length hm hlen hle =>
    cases hshort with
    | chunked hm' _ =>
      rw [hm] at hm'
      cases hm'
    | length _ _ hlt => exact absurd hlt (Nat.not_lt.2 hle)
  | close hm hlen =>
    cases hshort with
    | chunked hm' _ =>
      rw [hm] at hm'
      cases hm'
    | length _ hlen' _ =>
      rw [hlen] at hlen'
      cases hlen'

theorem Whole.not_cutShort {data data' : List UInt8} (h : Whole stream data) : ¬CutShort stream data' := by
  obtain ⟨header, body, m, hheaders, hparse, hbody⟩ := h
  intro hcut
  cases hcut with
  | headers hunfinished => exact hheaders.not_unfinished hunfinished
  | body hheaders' hparse' hshort =>
    obtain ⟨rfl, rfl⟩ := hheaders.unique hheaders'
    rw [hparse] at hparse'
    cases hparse'
    exact hbody.not_short hshort

end Responses

/-! ## The receive loop on a response -/

/-- The loop behind the headers, before any of the body. -/
structure AtBody (s : recv_state (List UInt8)) : Prop where
  decoder : s.decoder = .zero
  body_total : s.body_total = 0
  ctx : s.ctx = []

/-- How the loop can end without an error. -/
def Ended (cap : Option Nat) (m : http_meta) (body : List UInt8) (r : Int × recv_state (List UInt8)) : Prop :=
  r.1 = -1 ∨ (r.1 = 0 ∧ (WholeBody m body r.2.ctx ∨ cap = some r.2.ctx.length ∨
    (ShortBody m body r.2.ctx ∧ Room cap r.2.ctx.length)))

variable {s : recv_state (List UInt8)} {body : List UInt8}

theorem on_body_ended_chunked (hs : AtBody s) (hcap : Room cap 0) (hm : s.http_meta.is_chunked = true)
    (hbody : body ≠ []) : Ended cap s.http_meta body (on_body (capped cap) s body).outcome := by
  have hlog : Room cap ([] : List UInt8).length := hcap
  have hrun := decode_chunks cap AtChunk.zero hlog body
  rw [on_body_chunked hm hbody, hs.decoder, hs.ctx]
  generalize decode_chunked_bytes (capped cap) .zero [] body = x at hrun ⊢
  cases hrun with
  | bad hret =>
    left
    rw [chunk_result, if_pos (by omega)]
    rfl
  | done hchunks dec => exact Or.inr ⟨rfl, Or.inl (.chunked hm hchunks)⟩
  | full hfull dec => exact Or.inr ⟨rfl, Or.inr (Or.inl hfull)⟩
  | short hchunks hroom dec => exact Or.inr ⟨rfl, Or.inr (Or.inr ⟨.chunked hm hchunks, hroom⟩)⟩

theorem on_body_ok {ctx : List UInt8} (hm : s.http_meta.is_chunked = false) (hbody : body ≠ [])
    (hopen : ¬s.Satisfied)
    (hsink : capped cap s.ctx (body.take (s.deliver_len body.length)) = (.HTTP_SINK_OK, ctx)) :
    (on_body (capped cap) s body).outcome.1 = 0 ∧ (on_body (capped cap) s body).outcome.2.ctx = ctx := by
  by_cases hsat : recv_state.Satisfied
      { s with ctx := ctx, body_total := s.body_total + s.deliver_len body.length }
  · rw [on_body_ok_stop hm hbody hopen hsink hsat]
    exact ⟨rfl, rfl⟩
  · rw [on_body_ok_again hm hbody hopen hsink hsat]
    exact ⟨rfl, rfl⟩

theorem on_body_ended_plain (hs : AtBody s) (hcap : Room cap 0) (hm : s.http_meta.is_chunked = false)
    (hbody : body ≠ []) : Ended cap s.http_meta body (on_body (capped cap) s body).outcome := by
  by_cases hopen : s.Satisfied
  · rw [on_body_satisfied hm hbody hopen]
    have hzero : s.http_meta.content_length.toNat = 0 := by
      have hge := hopen.2
      rw [hs.body_total] at hge
      omega
    have hwhole : WholeBody s.http_meta body (body.take s.http_meta.content_length.toNat) :=
      .length hm hopen.1 (by omega)
    rw [hzero, take_zero] at hwhole
    refine Or.inr ⟨rfl, Or.inl ?_⟩
    dsimp only [recv_result.outcome]
    rwa [hs.ctx]
  by_cases hroom : Room cap (s.ctx.length + (body.take (s.deliver_len body.length)).length)
  · obtain ⟨hret, hctx⟩ := on_body_ok hm hbody hopen (capped_ok hroom)
    refine Or.inr ⟨hret, ?_⟩
    rw [hctx, hs.ctx, nil_append, recv_state.deliver_len, hs.body_total, Nat.sub_zero]
    cases hlen : s.http_meta.has_content_length with
    | false =>
      rw [if_neg (by simp), take_length]
      exact Or.inl (.close hm hlen)
    | true =>
      by_cases hlong : body.length > s.http_meta.content_length.toNat
      · rw [if_pos ⟨rfl, hlong⟩]
        exact Or.inl (.length hm hlen (Nat.le_of_lt hlong))
      · rw [if_neg fun h => hlong h.2, take_length]
        by_cases hlt : body.length < s.http_meta.content_length.toNat
        · rw [hs.ctx, length_nil, Nat.zero_add, recv_state.deliver_len, hs.body_total, Nat.sub_zero,
            if_neg fun h => hlong h.2, take_length] at hroom
          exact Or.inr (Or.inr ⟨.length hm hlen hlt, hroom⟩)
        · have hwhole : WholeBody s.http_meta body (body.take s.http_meta.content_length.toNat) :=
            .length hm hlen (by omega)
          rw [take_of_length_le (by omega)] at hwhole
          exact Or.inl hwhole
  · obtain ⟨log, hsink, hfull⟩ := capped_full (by rw [hs.ctx]; exact hcap) hroom
    rw [on_body_full hm hbody hopen hsink]
    exact Or.inr ⟨rfl, Or.inr (Or.inl hfull)⟩

theorem on_body_ended (hs : AtBody s) (hcap : Room cap 0) (body : List UInt8) :
    Ended cap s.http_meta body (on_body (capped cap) s body).outcome := by
  by_cases hbody : body = []
  · subst hbody
    rw [on_body_nil]
    refine Or.inr ⟨rfl, ?_⟩
    dsimp only [recv_result.outcome]
    rw [hs.ctx]
    cases hm : s.http_meta.is_chunked with
    | true => exact Or.inr (Or.inr ⟨.chunked hm (.size (by simp) (by simp [size_text])), hcap⟩)
    | false =>
      cases hlen : s.http_meta.has_content_length with
      | false => exact Or.inl (.close hm hlen)
      | true =>
        by_cases hle : s.http_meta.content_length.toNat ≤ 0
        · have hwhole : WholeBody s.http_meta [] (List.take _ []) := .length hm hlen hle
          rw [take_nil] at hwhole
          exact Or.inl hwhole
        · exact Or.inr (Or.inr ⟨.length hm hlen (by rw [length_nil]; omega), hcap⟩)
  cases hm : s.http_meta.is_chunked with
  | true => exact on_body_ended_chunked hs hcap hm hbody
  | false => exact on_body_ended_plain hs hcap hm hbody

theorem on_body_short {data : List UInt8} (hs : AtBody s) (hshort : ShortBody s.http_meta body data)
    (hroom : Room cap data.length) :
    (on_body (capped cap) s body).outcome.1 = 0 ∧ (on_body (capped cap) s body).outcome.2.ctx = data := by
  cases hshort with
  | chunked hm hchunks =>
    have hlog : Room cap (([] : List UInt8).length + data.length) := by rwa [length_nil, Nat.zero_add]
    obtain ⟨dec, hrun⟩ := hchunks.decode AtChunk.zero hlog
    rw [nil_append] at hrun
    by_cases hbody : body = []
    · subst hbody
      rw [decode_nil] at hrun
      cases hrun
      rw [on_body_nil]
      exact ⟨rfl, hs.ctx⟩
    · rw [on_body_chunked hm hbody, hs.decoder, hs.ctx, hrun]
      exact ⟨rfl, rfl⟩
  | length hm hlen hlt =>
    by_cases hbody : body = []
    · subst hbody
      rw [on_body_nil]
      exact ⟨rfl, hs.ctx⟩
    have hopen : ¬s.Satisfied := by
      intro hsat
      have hge := hsat.2
      rw [hs.body_total] at hge
      omega
    have hdeliver : s.deliver_len body.length = body.length := by
      refine if_neg fun h => ?_
      have hlong := h.2
      rw [hs.body_total] at hlong
      omega
    have hsink : capped cap s.ctx (body.take (s.deliver_len body.length)) = (.HTTP_SINK_OK, body) := by
      rw [hdeliver, take_length, hs.ctx, capped_ok (by rwa [length_nil, Nat.zero_add]), nil_append]
    exact on_body_ok hm hbody hopen hsink

/-- A whole response in one read ends with an error, with its whole body, with a full sink, or cut short. -/
theorem on_read_ended (hcap : Room cap 0) (stream : List UInt8) :
    (on_read (capped cap) (recv_state.start []) stream).outcome.1 = -1 ∨
      ((on_read (capped cap) (recv_state.start []) stream).outcome.1 = 0 ∧
        (Whole stream (on_read (capped cap) (recv_state.start []) stream).outcome.2.ctx ∨
          cap = some (on_read (capped cap) (recv_state.start []) stream).outcome.2.ctx.length ∨
          (CutShort stream (on_read (capped cap) (recv_state.start []) stream).outcome.2.ctx ∧
            Room cap (on_read (capped cap) (recv_state.start []) stream).outcome.2.ctx.length))) := by
  have hcases := header_loop_cases .nil stream
  rw [nil_append] at hcases
  rcases hcases with ⟨hloop, _, _⟩ | ⟨hloop, hunfinished⟩ | ⟨header, body, hloop, hheaders⟩
  · rw [on_read_large rfl hloop]
    exact Or.inl rfl
  · rw [on_read_unfinished rfl hloop]
    exact Or.inr ⟨rfl, Or.inr (Or.inr ⟨.headers hunfinished, hcap⟩)⟩
  · cases hparse : parse_headers header with
    | none =>
      rw [on_read_malformed rfl hloop hparse]
      exact Or.inl rfl
    | some m =>
      rw [on_read_headers rfl hloop hparse]
      rcases on_body_ended (s := ⟨header, true, m, .zero, 0, []⟩)
        ⟨rfl, rfl, rfl⟩ hcap body with hbad | ⟨hret, hwhole | hfull | ⟨hshort, hroom⟩⟩
      · exact Or.inl hbad
      · exact Or.inr ⟨hret, Or.inl ⟨header, body, m, hheaders, hparse, hwhole⟩⟩
      · exact Or.inr ⟨hret, Or.inr (Or.inl hfull)⟩
      · exact Or.inr ⟨hret, Or.inr (Or.inr ⟨.body hheaders hparse hshort, hroom⟩)⟩

theorem on_read_cutShort {stream data : List UInt8} (hcut : CutShort stream data) (hroom : Room cap data.length) :
    (on_read (capped cap) (recv_state.start []) stream).outcome.1 = 0 ∧
      (on_read (capped cap) (recv_state.start []) stream).outcome.2.ctx = data := by
  cases hcut with
  | headers hunfinished =>
    rw [on_read_unfinished rfl hunfinished.header_loop]
    exact ⟨rfl, rfl⟩
  | @body header body data m hheaders hparse hshort =>
    rw [on_read_headers rfl hheaders.header_loop hparse]
    exact on_body_short ⟨rfl, rfl, rfl⟩ hshort hroom

/-! ## The fetch -/

section Loop

variable {reads : List (List UInt8)} (hreads : ∀ chunk ∈ reads, chunk ≠ [])
include hreads

theorem recv_loop_ended (hcap : Room cap 0) :
    (recv_loop (capped cap) (recv_state.start []) reads).1 = -1 ∨
      ((recv_loop (capped cap) (recv_state.start []) reads).1 = 0 ∧
        (Whole reads.flatten (recv_loop (capped cap) (recv_state.start []) reads).2.ctx ∨
          cap = some (recv_loop (capped cap) (recv_state.start []) reads).2.ctx.length ∨
          (CutShort reads.flatten (recv_loop (capped cap) (recv_state.start []) reads).2.ctx ∧
            Room cap (recv_loop (capped cap) (recv_state.start []) reads).2.ctx.length))) := by
  obtain ⟨hret, hsame⟩ := recv_loop_flatten (capped_seamless cap) hreads (recv_state.start [])
  rw [hret, hsame.ctx]
  exact on_read_ended hcap reads.flatten

theorem recv_loop_cutShort {data : List UInt8} (hcut : CutShort reads.flatten data) (hroom : Room cap data.length) :
    (recv_loop (capped cap) (recv_state.start []) reads).1 = 0 ∧
      (recv_loop (capped cap) (recv_state.start []) reads).2.ctx = data := by
  obtain ⟨hret, hsame⟩ := recv_loop_flatten (capped_seamless cap) hreads (recv_state.start [])
  rw [hret, hsame.ctx]
  exact on_read_cutShort hcut hroom

end Loop

theorem as_int_nonneg {n : Nat} : 0 ≤ as_int n ↔ n % 2 ^ 32 < 2 ^ 31 := by
  rw [as_int]
  split <;> omega

/-- The request goes out, and a response can come in. -/
def Requested (net : http_net) (host path : Option (List UInt8)) : Prop :=
  net.net_ready = true ∧ ∃ h p, host = some h ∧ path = some p ∧ http_request net h p = true

section Fetch

variable {net : http_net} {host path : Option (List UInt8)}

theorem http_fetch_of_not_requested (h : ¬Requested net host path) (buffer : Bool) (max_size : Nat)
    (reads : List (List UInt8)) : (http_fetch net host path buffer max_size reads).1 = -1 := by
  unfold http_fetch
  split
  · rename_i host path hready
    have hrequest : http_request net host path ≠ true := fun hreq => h ⟨hready, host, path, rfl, rfl, hreq⟩
    split
    · rfl
    · rw [http_fetch_internal, if_neg hrequest]
      rfl
  · rfl

theorem http_fetch_of_no_buffer {buffer : Bool} {max_size : Nat} (h : ¬(buffer = true ∧ max_size ≠ 0))
    (reads : List (List UInt8)) : (http_fetch net host path buffer max_size reads).1 = -1 := by
  unfold http_fetch
  split
  · split
    · rfl
    · rename_i hsize
      exact absurd ⟨rfl, hsize⟩ h
  · rfl

theorem http_fetch_of_requested (h : Requested net host path) {max_size : Nat} (hsize : max_size ≠ 0)
    (reads : List (List UInt8)) :
    ((recv_loop (capped (some max_size)) (recv_state.start []) reads).1 = -1 →
      (http_fetch net host path true max_size reads).1 = -1) ∧
    ((recv_loop (capped (some max_size)) (recv_state.start []) reads).1 = 0 →
      http_fetch net host path true max_size reads =
        (as_int (recv_loop (capped (some max_size)) (recv_state.start []) reads).2.ctx.length,
          (recv_loop (capped (some max_size)) (recv_state.start []) reads).2.ctx)) := by
  obtain ⟨hready, host, path, rfl, rfl, hrequest⟩ := h
  have hstart : recv_state.withCtx (recv_state.start (http_buffer_sink_ctx.mk [] max_size)) ([] : List UInt8) =
    recv_state.start [] := rfl
  rcases recv_loop_follows (http_buffer_sink_follows max_size) reads
    (s := recv_state.start ⟨[], max_size⟩) (c := []) ⟨rfl, rfl⟩ with hfalse | ⟨log, ⟨hout, _⟩, hrun⟩
  · exact hfalse.1.elim
  rw [hstart] at hrun
  rw [hrun]
  simp only [http_fetch, hready]
  rw [if_neg hsize, http_fetch_internal, if_pos hrequest]
  constructor
  · intro hret
    rw [hret]
    rfl
  · intro hret
    rw [hret, hout, if_neg (by decide)]
    rfl

/-- A callback with a record of the bytes that it was given. -/
def recorded (write_cb : write_cb_fn σ) : write_cb_fn (σ × List UInt8) := fun s data =>
  let (ret, state) := write_cb s.1 data
  (ret, state, s.2 ++ data)

theorem http_stream_sink_follows {write_cb : write_cb_fn σ} (hok : ¬E → ∀ state data, 0 ≤ (write_cb state data).1) :
    Follows E (fun s log => s.state.2 = log ∧ s.total = log.length) (http_stream_sink (recorded write_cb))
      (capped none) := by
  rintro s log data _ ⟨rfl, htotal⟩
  have hkeep : capped none s.state.2 data = (.HTTP_SINK_OK, s.state.2 ++ data) :=
    capped_ok (Room.unbounded _)
  rw [hkeep]
  unfold http_stream_sink recorded
  by_cases hneg : (write_cb s.state.1 data).1 < 0
  · have hE : E := by
      by_contra hE
      have hnonneg := hok hE s.state.1 data
      omega
    exact Or.inl ⟨hE, by simp only [hneg, if_true]⟩
  · refine Or.inr ?_
    simp only [hneg, if_false, length_append, htotal, and_self]

theorem http_fetch_stream_of_not_requested (h : ¬Requested net host path) (write_cb : Option (write_cb_fn σ))
    (state : σ) (reads : List (List UInt8)) : (http_fetch_stream net host path write_cb state reads).1 = -1 := by
  unfold http_fetch_stream
  split
  · rename_i host path write_cb hready
    have hrequest : http_request net host path ≠ true := fun hreq => h ⟨hready, host, path, rfl, rfl, hreq⟩
    rw [http_fetch_internal, if_neg hrequest]
    rfl
  · rfl

/-- A streamed request that goes out returns what the receive loop comes to, unless the callback fails. -/
theorem http_fetch_stream_of_requested (h : Requested net host path) {write_cb : write_cb_fn σ}
    (hok : ¬E → ∀ state data, 0 ≤ (write_cb state data).1) (state : σ) (reads : List (List UInt8)) :
    (E ∧ (http_fetch_stream net host path (some (recorded write_cb)) (state, []) reads).1 = -1) ∨
    ((recv_loop (capped none) (recv_state.start []) reads).1 = -1 →
      (http_fetch_stream net host path (some (recorded write_cb)) (state, []) reads).1 = -1) ∧
    ((recv_loop (capped none) (recv_state.start []) reads).1 = 0 →
      (http_fetch_stream net host path (some (recorded write_cb)) (state, []) reads).1 =
          as_int (recv_loop (capped none) (recv_state.start []) reads).2.ctx.length ∧
        (http_fetch_stream net host path (some (recorded write_cb)) (state, []) reads).2.2 =
          (recv_loop (capped none) (recv_state.start []) reads).2.ctx) := by
  obtain ⟨hready, host, path, rfl, rfl, hrequest⟩ := h
  have hstart : recv_state.withCtx (recv_state.start (http_stream_sink_ctx.mk (state, ([] : List UInt8)) 0))
    ([] : List UInt8) = recv_state.start [] := rfl
  simp only [http_fetch_stream, hready]
  rw [http_fetch_internal, if_pos hrequest]
  rcases recv_loop_follows (http_stream_sink_follows hok) reads
    (s := recv_state.start ⟨(state, []), 0⟩) (c := []) ⟨rfl, rfl⟩ with ⟨hE, hbad⟩ | ⟨log, ⟨hlog, htotal⟩, hrun⟩
  · left
    rw [hbad]
    exact ⟨hE, rfl⟩
  right
  rw [hstart] at hrun
  rw [hrun]
  constructor
  · intro hret
    rw [hret]
    rfl
  · intro hret
    rw [hret, if_neg (by decide), htotal]
    exact ⟨rfl, hlog⟩

end Fetch

/-- What is promised of the result of `http_fetch`: it is negative, the buffer holds the whole body, or it is full. -/
def FetchHonest (stream : List UInt8) (max_size : Nat) (result : Int × List UInt8) : Prop :=
  0 ≤ result.1 → Whole stream result.2 ∨ result.2.length = max_size

/-- The same of `http_fetch_stream`, with the bytes that the callback was given. -/
def StreamHonest (stream : List UInt8) (result : Int × σ × List UInt8) : Prop :=
  0 ≤ result.1 → Whole stream result.2.2

/-- A response that ends after so much of its body that fits into the buffer and an `int` holds. -/
def Truncated (stream : List UInt8) (cap : Option Nat) : Prop :=
  ∃ data, CutShort stream data ∧ (∀ c ∈ cap, data.length < c) ∧ data.length % 2 ^ 32 < 2 ^ 31

theorem fetch_honest_iff (net : http_net) (host path : Option (List UInt8)) (buffer : Bool) (max_size : Nat)
    {reads : List (List UInt8)} (hreads : ∀ chunk ∈ reads, chunk ≠ []) :
    FetchHonest reads.flatten max_size (http_fetch net host path buffer max_size reads) ↔
      ¬(Requested net host path ∧ buffer = true ∧ Truncated reads.flatten (some max_size)) := by
  by_cases hrequest : Requested net host path
  · by_cases hbuffer : buffer = true ∧ max_size ≠ 0
    · obtain ⟨rfl, hsize⟩ := hbuffer
      obtain ⟨hbad, hgood⟩ := http_fetch_of_requested hrequest hsize reads
      constructor
      · rintro hhonest ⟨_, _, data, hcut, hlt, hint⟩
        have hltcap : data.length < max_size := hlt max_size rfl
        have hroom : Room (some max_size) data.length := fun c hc => Nat.le_of_lt (hlt c hc)
        obtain ⟨hret, hctx⟩ := recv_loop_cutShort hreads hcut hroom
        rw [FetchHonest, hgood hret, hctx] at hhonest
        rcases hhonest (as_int_nonneg.2 hint) with hwhole | hfull
        · exact hwhole.not_cutShort hcut
        · exact absurd hfull (Nat.ne_of_lt hltcap)
      · intro hok hnonneg
        rcases recv_loop_ended hreads (fun c _ => Nat.zero_le c : Room (some max_size) 0) with hret | ⟨hret, hend⟩
        · rw [hbad hret] at hnonneg
          exact absurd hnonneg (by decide)
        rw [hgood hret] at hnonneg ⊢
        by_cases hfull : (recv_loop (capped (some max_size)) (recv_state.start []) reads).2.ctx.length = max_size
        · exact Or.inr hfull
        rcases hend with hwhole | hcap | ⟨hcut, hroom⟩
        · exact Or.inl hwhole
        · exact absurd (Option.some.inj hcap).symm hfull
        · refine absurd ⟨hrequest, rfl, _, hcut, fun c hc => ?_, as_int_nonneg.1 hnonneg⟩ hok
          cases hc
          exact Nat.lt_of_le_of_ne (hroom max_size rfl) hfull
    · have hret : (http_fetch net host path buffer max_size reads).1 = -1 := http_fetch_of_no_buffer hbuffer reads
      constructor
      · rintro _ ⟨_, rfl, data, _, hlt, _⟩
        have hpos := hlt max_size rfl
        exact hbuffer ⟨rfl, by omega⟩
      · intro _ hnonneg
        rw [hret] at hnonneg
        exact absurd hnonneg (by decide)
  · have hret := http_fetch_of_not_requested hrequest buffer max_size reads
    constructor
    · exact fun _ h => hrequest h.1
    · intro _ hnonneg
      rw [hret] at hnonneg
      exact absurd hnonneg (by decide)

theorem stream_honest_of_not_truncated (net : http_net) (host path : Option (List UInt8)) (write_cb : write_cb_fn σ)
    (state : σ) {reads : List (List UInt8)} (hreads : ∀ chunk ∈ reads, chunk ≠ [])
    (hok : ¬(Requested net host path ∧ Truncated reads.flatten none)) :
    StreamHonest reads.flatten (http_fetch_stream net host path (some (recorded write_cb)) (state, []) reads) := by
  intro hnonneg
  by_cases hrequest : Requested net host path
  · rcases http_fetch_stream_of_requested (E := True) hrequest
      (fun h => absurd trivial h) state reads with ⟨_, hret⟩ | ⟨hbad, hgood⟩
    · rw [hret] at hnonneg
      exact absurd hnonneg (by decide)
    rcases recv_loop_ended hreads (Room.unbounded 0) with hret | ⟨hret, hend⟩
    · rw [hbad hret] at hnonneg
      exact absurd hnonneg (by decide)
    rw [(hgood hret).1] at hnonneg
    rw [(hgood hret).2]
    rcases hend with hwhole | hcap | ⟨hcut, _⟩
    · exact hwhole
    · cases hcap
    · exact absurd ⟨hrequest, _, hcut, (fun c hc => by cases hc), as_int_nonneg.1 hnonneg⟩ hok
  · rw [http_fetch_stream_of_not_requested hrequest] at hnonneg
    exact absurd hnonneg (by decide)

theorem stream_honest_iff (net : http_net) (host path : Option (List UInt8)) {write_cb : write_cb_fn σ}
    (hcb : ∀ state data, 0 ≤ (write_cb state data).1) (state : σ) {reads : List (List UInt8)}
    (hreads : ∀ chunk ∈ reads, chunk ≠ []) :
    StreamHonest reads.flatten (http_fetch_stream net host path (some (recorded write_cb)) (state, []) reads) ↔
      ¬(Requested net host path ∧ Truncated reads.flatten none) := by
  refine ⟨?_, stream_honest_of_not_truncated net host path write_cb state hreads⟩
  rintro hhonest ⟨hrequest, data, hcut, _, hint⟩
  obtain ⟨hret, hctx⟩ := recv_loop_cutShort hreads hcut (Room.unbounded data.length)
  rcases http_fetch_stream_of_requested (E := False) hrequest (fun _ => hcb) state reads with ⟨hfalse, _⟩ | ⟨_, hgood⟩
  · exact hfalse
  obtain ⟨hint', hlog⟩ := hgood hret
  rw [hctx] at hint' hlog
  have hwhole := hhonest (by rw [hint']; exact as_int_nonneg.2 hint)
  rw [hlog] at hwhole
  exact hwhole.not_cutShort hcut

/-- The two fetches keep their promise exactly when the response is not cut short. A callback that can fail keeps
`http_fetch_stream` from returning some of the responses that are. -/
theorem no_truncation_iff (net : http_net) (host path : Option (List UInt8)) {reads : List (List UInt8)}
    (hreads : ∀ chunk ∈ reads, chunk ≠ []) :
    (∀ (buffer : Bool) (max_size : Nat),
      FetchHonest reads.flatten max_size (http_fetch net host path buffer max_size reads) ↔
        ¬(Requested net host path ∧ buffer = true ∧ Truncated reads.flatten (some max_size))) ∧
    ∀ (σ : Type) (write_cb : write_cb_fn σ) (state : σ),
      (¬(Requested net host path ∧ Truncated reads.flatten none) →
        StreamHonest reads.flatten
          (http_fetch_stream net host path (some (recorded write_cb)) (state, []) reads)) ∧
      ((∀ state data, 0 ≤ (write_cb state data).1) →
        (StreamHonest reads.flatten
            (http_fetch_stream net host path (some (recorded write_cb)) (state, []) reads) ↔
          ¬(Requested net host path ∧ Truncated reads.flatten none))) :=
  ⟨fun buffer max_size => fetch_honest_iff net host path buffer max_size hreads,
    fun _ write_cb state => ⟨stream_honest_of_not_truncated net host path write_cb state hreads,
      fun hcb => stream_honest_iff net host path hcb state hreads⟩⟩

/-- A body in one piece, from a connection that closes in time. -/
theorem no_truncation_of_whole_reply :
    FetchHonest (ascii "HTTP/1.1 200 OK\r\n\r\nhello") 64
        (http_fetch ready_net (some (ascii "10.0.0.2")) (some (ascii "/")) true 64
          [ascii "HTTP/1.1 200 OK\r\n\r\nhello"]) ↔
      ¬(Requested ready_net (some (ascii "10.0.0.2")) (some (ascii "/")) ∧ true = true ∧
        Truncated (ascii "HTTP/1.1 200 OK\r\n\r\nhello") (some 64)) :=
  (no_truncation_iff ready_net (some (ascii "10.0.0.2")) (some (ascii "/"))
    (show ∀ chunk ∈ [ascii "HTTP/1.1 200 OK\r\n\r\nhello"], chunk ≠ [] by decide)).1 true 64

theorem headers_of_header_loop {stream header body : List UInt8} (h : header_loop [] stream = .done header body) :
    Headers stream header body := by
  rcases header_loop_cases .nil stream with ⟨hloop, _, _⟩ | ⟨hloop, _⟩ | ⟨header', body', hloop, hheaders⟩
  · rw [h] at hloop
    cases hloop
  · rw [h] at hloop
    cases hloop
  · rw [h] at hloop
    cases hloop
    exact hheaders

/-- A server that announces five bytes and sends three: the three bytes are a success. -/
theorem truncated_reply_accepted :
    ¬∀ (net : http_net) (host path : Option (List UInt8)) (buffer : Bool) (max_size : Nat)
      (reads : List (List UInt8)), (∀ chunk ∈ reads, chunk ≠ []) →
      FetchHonest reads.flatten max_size (http_fetch net host path buffer max_size reads) := by
  intro h
  have hhonest := h ready_net (some (ascii "10.0.0.2")) (some (ascii "/")) true 64
    [ascii "HTTP/1.1 200 OK\r\nContent-Length: 5\r\n\r\nhel"] (by decide)
  have hresult : http_fetch ready_net (some (ascii "10.0.0.2")) (some (ascii "/")) true 64
      [ascii "HTTP/1.1 200 OK\r\nContent-Length: 5\r\n\r\nhel"] = (3, ascii "hel") := by
    decide +kernel
  have hheaders : Headers (ascii "HTTP/1.1 200 OK\r\nContent-Length: 5\r\n\r\nhel")
      (ascii "HTTP/1.1 200 OK\r\nContent-Length: 5\r\n\r\n") (ascii "hel") :=
    headers_of_header_loop (by decide +kernel)
  have hparse : parse_headers (ascii "HTTP/1.1 200 OK\r\nContent-Length: 5\r\n\r\n") =
      some ⟨200, false, true, 5⟩ := by
    decide +kernel
  have hcut : CutShort (ascii "HTTP/1.1 200 OK\r\nContent-Length: 5\r\n\r\nhel") (ascii "hel") :=
    .body hheaders hparse (.length rfl rfl (by decide))
  rw [hresult, flatten_cons, flatten_nil, append_nil] at hhonest
  rcases hhonest (by decide) with hwhole | hfull
  · exact hwhole.not_cutShort hcut
  · exact absurd hfull (by decide)

end graceos.http
