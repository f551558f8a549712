import GraceOS.Net.Http

/-!
# Sinks and the chunk decoder

What each step of `decode_chunked_bytes` does, and that bytes decoded at once are decoded one part after the other
when the sink cannot tell one delivery from two.
-/

namespace graceos.http

open word List

variable {σ : Type}

/-! ## Sinks -/

/-- A sink for which two deliveries in a row are one. -/
structure Seamless (sink : http_sink_fn σ) : Prop where
  joins : ∀ {s s' : σ} {a b : List UInt8}, a ≠ [] → b ≠ [] → sink s a = (.HTTP_SINK_OK, s') →
    sink s (a ++ b) = sink s' b
  ends : ∀ {s : σ} {a : List UInt8} (b : List UInt8), a ≠ [] → (sink s a).1 ≠ .HTTP_SINK_OK →
    sink s (a ++ b) = sink s a

theorem http_buffer_sink_eq (s : http_buffer_sink_ctx) {data : List UInt8} (hdata : data ≠ []) :
    http_buffer_sink s data =
      (if s.out.length + data.length ≤ s.cap then .HTTP_SINK_OK else .HTTP_SINK_FULL,
        { s with out := s.out ++ data.take (s.cap - s.out.length) }) := by
  have hpos := List.length_pos_iff.2 hdata
  unfold http_buffer_sink
  by_cases hfull : s.out.length ≥ s.cap
  · have hnone : s.cap - s.out.length = 0 := by omega
    rw [if_pos hfull, if_neg (by omega), hnone, take_zero, append_nil]
  · rw [if_neg hfull]
    by_cases hfits : data.length ≤ s.cap - s.out.length
    · have hroom : s.out.length + data.length ≤ s.cap := by omega
      simp only [hfits, hroom, if_true, Nat.lt_irrefl, if_false, take_length, take_of_length_le]
    · have hroom : ¬s.out.length + data.length ≤ s.cap := by omega
      have hshort : s.cap - s.out.length < data.length := by omega
      simp only [hfits, hroom, hshort, if_true, if_false]

theorem http_buffer_sink_seamless : Seamless http_buffer_sink where
  joins := by
    intro s s' a b ha hb hok
    have hab : a ++ b ≠ [] := append_ne_nil_of_left_ne_nil ha b
    rw [http_buffer_sink_eq s ha, Prod.mk.injEq] at hok
    obtain ⟨hret, rfl⟩ := hok
    have hfits : s.out.length + a.length ≤ s.cap := by
      by_contra hover
      rw [if_neg hover] at hret
      cases hret
    have hall : a.take (s.cap - s.out.length) = a := take_of_length_le (by omega)
    rw [http_buffer_sink_eq s hab, http_buffer_sink_eq _ hb]
    simp only [hall, take_append, length_append, append_assoc, Nat.add_assoc, Nat.sub_sub]
  ends := by
    intro s a b ha hbad
    have hab : a ++ b ≠ [] := append_ne_nil_of_left_ne_nil ha b
    rw [http_buffer_sink_eq s ha] at hbad ⊢
    have hover : ¬s.out.length + a.length ≤ s.cap := by
      intro hfits
      exact hbad (if_pos hfits)
    have hover' : ¬s.out.length + (a ++ b).length ≤ s.cap := by
      rw [length_append]
      omega
    rw [http_buffer_sink_eq s hab, if_neg hover, if_neg hover', take_append_of_le_length (by omega)]

/-- The sink that keeps everything. -/
def collect : http_sink_fn (List UInt8) := fun log data => (.HTTP_SINK_OK, log ++ data)

theorem collect_seamless : Seamless collect where
  joins := by
    intro s s' a b _ _ hok
    rw [collect, Prod.mk.injEq] at hok
    rw [collect, collect, ← hok.2, append_assoc]
  ends := fun _ _ hbad => absurd rfl hbad

/-! ## The chunk decoder -/

variable {sink : http_sink_fn σ}

/-- Two results of the decoder that the receive loop cannot tell apart. -/
structure Agree (x y : Int × http_chunk_decoder × σ) : Prop where
  ret : x.1 = y.1
  state : x.2.1.state = y.2.1.state
  ctx : x.2.2 = y.2.2
  running : x.1 = 0 → x = y

theorem Agree.refl (x : Int × http_chunk_decoder × σ) : Agree x x := ⟨rfl, rfl, rfl, fun _ => rfl⟩

/-- The decoder goes on with the next bytes unless it has ended. -/
def resume (sink : http_sink_fn σ) (x : Int × http_chunk_decoder × σ) (data : List UInt8) :
    Int × http_chunk_decoder × σ :=
  if x.1 = 0 then decode_chunked_bytes sink x.2.1 x.2.2 data else x

theorem decode_nil (dec : http_chunk_decoder) (ctx : σ) :
    decode_chunked_bytes sink dec ctx [] = (0, dec, ctx) := by
  rw [decode_chunked_bytes]

section ChunkData

variable {dec : http_chunk_decoder} {ctx ctx' : σ} {data : List UInt8} {take : Nat}

theorem decode_data_ok (hstate : dec.state = .CHUNK_READ_DATA) (htake : take = min data.length dec.remain)
    (hpos : 0 < take) (hsink : sink ctx (data.take take) = (.HTTP_SINK_OK, ctx')) :
    decode_chunked_bytes sink dec ctx data =
      decode_chunked_bytes sink { dec with chunk_read := dec.chunk_read + UInt64.ofNat take }.after_data ctx'
        (data.drop take) := by
  obtain ⟨state, chunk_size, chunk_read, size_line⟩ := dec
  cases hstate
  cases data with
  | nil => simp [htake] at hpos
  | cons c rest =>
    conv => lhs; rw [decode_chunked_bytes]
    simp only [← htake, gt_iff_lt, hpos, dif_pos, hsink]

theorem decode_data_full (hstate : dec.state = .CHUNK_READ_DATA) (htake : take = min data.length dec.remain)
    (hpos : 0 < take) (hsink : sink ctx (data.take take) = (.HTTP_SINK_FULL, ctx')) :
    decode_chunked_bytes sink dec ctx data =
      (1, { dec with chunk_read := dec.chunk_read + UInt64.ofNat take }, ctx') := by
  obtain ⟨state, chunk_size, chunk_read, size_line⟩ := dec
  cases hstate
  cases data with
  | nil => simp [htake] at hpos
  | cons c rest =>
    rw [decode_chunked_bytes]
    simp only [← htake, gt_iff_lt, hpos, dif_pos, hsink]

theorem decode_data_err (hstate : dec.state = .CHUNK_READ_DATA) (htake : take = min data.length dec.remain)
    (hpos : 0 < take) (hsink : sink ctx (data.take take) = (.HTTP_SINK_ERR, ctx')) :
    decode_chunked_bytes sink dec ctx data = (-1, dec, ctx') := by
  obtain ⟨state, chunk_size, chunk_read, size_line⟩ := dec
  cases hstate
  cases data with
  | nil => simp [htake] at hpos
  | cons c rest =>
    rw [decode_chunked_bytes]
    simp only [← htake, gt_iff_lt, hpos, dif_pos, hsink]

theorem remain_sub (hle : take ≤ dec.remain) :
    { dec with chunk_read := dec.chunk_read + UInt64.ofNat take }.remain = dec.remain - take := by
  have hlt := (dec.chunk_size - dec.chunk_read).toNat_lt
  rw [http_chunk_decoder.remain] at hle ⊢
  have hsub : dec.chunk_size - (dec.chunk_read + UInt64.ofNat take) =
      dec.chunk_size - dec.chunk_read - UInt64.ofNat take := by
    rw [UInt64.sub_eq_add_neg, UInt64.neg_add, UInt64.sub_eq_add_neg (-dec.chunk_read), ← UInt64.add_assoc,
      ← UInt64.sub_eq_add_neg, ← UInt64.sub_eq_add_neg]
  have hof : (UInt64.ofNat take).toNat = take := UInt64.toNat_ofNat_of_lt' (Nat.lt_of_le_of_lt hle hlt)
  have hword : UInt64.ofNat take ≤ dec.chunk_size - dec.chunk_read := by
    rw [UInt64.le_iff_toNat_le, hof]
    exact hle
  simp only [hsub]
  rw [UInt64.toNat_sub_of_le _ _ hword, hof]
  rfl

theorem after_data_of_remain (hrem : dec.remain ≠ 0) : dec.after_data = dec := by
  rw [http_chunk_decoder.after_data, if_neg fun h => hrem (dec.chunk_read_eq_iff.1 h)]

theorem decode_data_ok_all (hstate : dec.state = .CHUNK_READ_DATA) (hne : data ≠ []) (hlt : data.length < dec.remain)
    (hsink : sink ctx data = (.HTTP_SINK_OK, ctx')) : decode_chunked_bytes sink dec ctx data =
      (0, { dec with chunk_read := dec.chunk_read + UInt64.ofNat data.length }, ctx') := by
  have htake : data.length = min data.length dec.remain := by omega
  have hleft : { dec with chunk_read := dec.chunk_read + UInt64.ofNat data.length }.remain ≠ 0 := by
    rw [remain_sub (Nat.le_of_lt hlt)]
    omega
  rw [decode_data_ok hstate htake (List.length_pos_iff.2 hne) (by rw [take_length, hsink]),
    after_data_of_remain hleft, drop_length, decode_nil]

end ChunkData

section ChunkFrame

variable {dec : http_chunk_decoder} {c : UInt8}

theorem decode_size_cr (hstate : dec.state = .CHUNK_READ_SIZE) (ctx : σ) (rest : List UInt8) :
    decode_chunked_bytes sink dec ctx ('\r'.toUInt8 :: rest) = decode_chunked_bytes sink dec ctx rest := by
  obtain ⟨state, chunk_size, chunk_read, size_line⟩ := dec
  cases hstate
  conv => lhs; rw [decode_chunked_bytes]
  simp only [if_true]

theorem decode_size_char (hstate : dec.state = .CHUNK_READ_SIZE) (hcr : c ≠ '\r'.toUInt8) (hlf : c ≠ '\n'.toUInt8)
    (hlen : dec.size_line.length < 31) (ctx : σ) (rest : List UInt8) :
    decode_chunked_bytes sink dec ctx (c :: rest) =
      decode_chunked_bytes sink { dec with size_line := dec.size_line ++ [c] } ctx rest := by
  obtain ⟨state, chunk_size, chunk_read, size_line⟩ := dec
  cases hstate
  conv => lhs; rw [decode_chunked_bytes]
  simp only [hcr, hlf, if_false, ge_iff_le, Nat.not_le.2 hlen]

theorem decode_size_long (hstate : dec.state = .CHUNK_READ_SIZE) (hcr : c ≠ '\r'.toUInt8) (hlf : c ≠ '\n'.toUInt8)
    (hlen : 31 ≤ dec.size_line.length) (ctx : σ) (rest : List UInt8) :
    decode_chunked_bytes sink dec ctx (c :: rest) = (-1, dec, ctx) := by
  obtain ⟨state, chunk_size, chunk_read, size_line⟩ := dec
  cases hstate
  rw [decode_chunked_bytes]
  simp only [hcr, hlf, if_false, ge_iff_le, hlen, if_true]

theorem decode_size_bad (hstate : dec.state = .CHUNK_READ_SIZE) (hsize : parse_hex_size dec.size_line = none)
    (ctx : σ) (rest : List UInt8) :
    decode_chunked_bytes sink dec ctx ('\n'.toUInt8 :: rest) = (-1, dec, ctx) := by
  obtain ⟨state, chunk_size, chunk_read, size_line⟩ := dec
  cases hstate
  have hlf : '\n'.toUInt8 ≠ '\r'.toUInt8 := by decide
  rw [decode_chunked_bytes]
  simp only [hlf, if_false, if_true]
  rw [hsize]

theorem decode_size_zero (hstate : dec.state = .CHUNK_READ_SIZE) (hsize : parse_hex_size dec.size_line = some 0)
    (ctx : σ) (rest : List UInt8) :
    decode_chunked_bytes sink dec ctx ('\n'.toUInt8 :: rest) = (1, ⟨.CHUNK_DONE, 0, 0, []⟩, ctx) := by
  obtain ⟨state, chunk_size, chunk_read, size_line⟩ := dec
  cases hstate
  have hlf : '\n'.toUInt8 ≠ '\r'.toUInt8 := by decide
  rw [decode_chunked_bytes]
  simp only [hlf, if_false, if_true]
  rw [hsize]
  rfl

theorem decode_size_chunk (hstate : dec.state = .CHUNK_READ_SIZE) {sz : UInt64}
    (hsize : parse_hex_size dec.size_line = some sz) (hsz : sz ≠ 0) (ctx : σ) (rest : List UInt8) :
    decode_chunked_bytes sink dec ctx ('\n'.toUInt8 :: rest) =
      decode_chunked_bytes sink ⟨.CHUNK_READ_DATA, sz, 0, []⟩ ctx rest := by
  obtain ⟨state, chunk_size, chunk_read, size_line⟩ := dec
  cases hstate
  have hlf : '\n'.toUInt8 ≠ '\r'.toUInt8 := by decide
  conv => lhs; rw [decode_chunked_bytes]
  simp only [hlf, if_false, if_true]
  rw [hsize]
  exact if_neg hsz

theorem decode_data_end (hstate : dec.state = .CHUNK_READ_DATA) (hrem : dec.remain = 0) (ctx : σ)
    (rest : List UInt8) : decode_chunked_bytes sink dec ctx (c :: rest) =
      decode_chunked_bytes sink { dec with state := .CHUNK_EXPECT_CR } ctx (c :: rest) := by
  have hafter : dec.after_data = { dec with state := .CHUNK_EXPECT_CR } :=
    if_pos (dec.chunk_read_eq_iff.2 hrem)
  obtain ⟨state, chunk_size, chunk_read, size_line⟩ := dec
  cases hstate
  conv => lhs; rw [decode_chunked_bytes]
  simp only [hrem, Nat.min_zero, gt_iff_lt, Nat.lt_irrefl, dif_neg, not_false_eq_true, hafter]

theorem decode_cr (hstate : dec.state = .CHUNK_EXPECT_CR) (ctx : σ) (rest : List UInt8) :
    decode_chunked_bytes sink dec ctx ('\r'.toUInt8 :: rest) =
      decode_chunked_bytes sink { dec with state := .CHUNK_EXPECT_LF } ctx rest := by
  obtain ⟨state, chunk_size, chunk_read, size_line⟩ := dec
  cases hstate
  conv => lhs; rw [decode_chunked_bytes]
  simp only [ne_eq, not_true_eq_false, if_false]

theorem decode_cr_bad (hstate : dec.state = .CHUNK_EXPECT_CR) (hc : c ≠ '\r'.toUInt8) (ctx : σ) (rest : List UInt8) :
    decode_chunked_bytes sink dec ctx (c :: rest) = (-1, dec, ctx) := by
  obtain ⟨state, chunk_size, chunk_read, size_line⟩ := dec
  cases hstate
  rw [decode_chunked_bytes]
  simp only [ne_eq, hc, not_false_eq_true, if_true]

theorem decode_lf (hstate : dec.state = .CHUNK_EXPECT_LF) (ctx : σ) (rest : List UInt8) :
    decode_chunked_bytes sink dec ctx ('\n'.toUInt8 :: rest) =
      decode_chunked_bytes sink { dec with state := .CHUNK_READ_SIZE } ctx rest := by
  obtain ⟨state, chunk_size, chunk_read, size_line⟩ := dec
  cases hstate
  conv => lhs; rw [decode_chunked_bytes]
  simp only [ne_eq, not_true_eq_false, if_false]

theorem decode_lf_bad (hstate : dec.state = .CHUNK_EXPECT_LF) (hc : c ≠ '\n'.toUInt8) (ctx : σ) (rest : List UInt8) :
    decode_chunked_bytes sink dec ctx (c :: rest) = (-1, dec, ctx) := by
  obtain ⟨state, chunk_size, chunk_read, size_line⟩ := dec
  cases hstate
  rw [decode_chunked_bytes]
  simp only [ne_eq, hc, not_false_eq_true, if_true]

theorem decode_done (hstate : dec.state = .CHUNK_DONE) (ctx : σ) (rest : List UInt8) :
    decode_chunked_bytes sink dec ctx (c :: rest) = (1, dec, ctx) := by
  obtain ⟨state, chunk_size, chunk_read, size_line⟩ := dec
  cases hstate
  rw [decode_chunked_bytes]

/-- Outside of chunk data the decoder reads byte by byte and leaves the sink alone. -/
theorem decode_byte (hstate : dec.state ≠ .CHUNK_READ_DATA) (c : UInt8) :
    (∃ ret dec', ret ≠ 0 ∧ ∀ (σ : Type) (sink : http_sink_fn σ) (ctx : σ) (rest : List UInt8),
      decode_chunked_bytes sink dec ctx (c :: rest) = (ret, dec', ctx)) ∨
    ∃ dec', ∀ (σ : Type) (sink : http_sink_fn σ) (ctx : σ) (rest : List UInt8),
      decode_chunked_bytes sink dec ctx (c :: rest) = decode_chunked_bytes sink dec' ctx rest := by
  cases hkind : dec.state with
  | CHUNK_READ_DATA => exact absurd hkind hstate
  | CHUNK_DONE => exact Or.inl ⟨1, dec, by decide, fun _ _ => decode_done hkind⟩
  | CHUNK_EXPECT_CR =>
    by_cases hc : c = '\r'.toUInt8
    · subst hc
      exact Or.inr ⟨_, fun _ _ => decode_cr hkind⟩
    · exact Or.inl ⟨-1, dec, by decide, fun _ _ => decode_cr_bad hkind hc⟩
  | CHUNK_EXPECT_LF =>
    by_cases hc : c = '\n'.toUInt8
    · subst hc
      exact Or.inr ⟨_, fun _ _ => decode_lf hkind⟩
    · exact Or.inl ⟨-1, dec, by decide, fun _ _ => decode_lf_bad hkind hc⟩
  | CHUNK_READ_SIZE =>
    by_cases hcr : c = '\r'.toUInt8
    · subst hcr
      exact Or.inr ⟨dec, fun _ _ => decode_size_cr hkind⟩
    by_cases hlf : c = '\n'.toUInt8
    · subst hlf
      cases hsize : parse_hex_size dec.size_line with
      | none => exact Or.inl ⟨-1, dec, by decide, fun _ _ => decode_size_bad hkind hsize⟩
      | some sz =>
        by_cases hsz : sz = 0
        · subst hsz
          exact Or.inl ⟨1, _, by decide, fun _ _ => decode_size_zero hkind hsize⟩
        · exact Or.inr ⟨_, fun _ _ => decode_size_chunk hkind hsize hsz⟩
    by_cases hlen : 31 ≤ dec.size_line.length
    · exact Or.inl ⟨-1, dec, by decide, fun _ _ => decode_size_long hkind hcr hlf hlen⟩
    · exact Or.inr ⟨_, fun _ _ => decode_size_char hkind hcr hlf (by omega)⟩

end ChunkFrame

theorem resume_of_eq {x : Int × http_chunk_decoder × σ} {dec : http_chunk_decoder} {ctx : σ}
    (hx : x = (0, dec, ctx)) (b : List UInt8) : resume sink x b = decode_chunked_bytes sink dec ctx b := by
  rw [hx]
  exact if_pos rfl

theorem resume_of_ne {x : Int × http_chunk_decoder × σ} (hx : x.1 ≠ 0) (b : List UInt8) : resume sink x b = x :=
  if_neg hx

theorem resume_nil (x : Int × http_chunk_decoder × σ) : resume sink x [] = x := by
  unfold resume
  split
  · rename_i hzero
    rw [decode_nil, ← hzero]
  · rfl

/-- Chunk data that is cut into two deliveries. -/
theorem decode_data_append (hsink : Seamless sink) {dec : http_chunk_decoder} (hstate : dec.state = .CHUNK_READ_DATA)
    (ctx : σ) {a b : List UInt8} (ha : a ≠ []) (hb : b ≠ []) (hlt : a.length < dec.remain) :
    Agree (decode_chunked_bytes sink dec ctx (a ++ b)) (resume sink (decode_chunked_bytes sink dec ctx a) b) := by
  have hapos := List.length_pos_iff.2 ha
  have hbpos := List.length_pos_iff.2 hb
  obtain ⟨takeb, htakeb⟩ : ∃ takeb, takeb = min b.length (dec.remain - a.length) := ⟨_, rfl⟩
  have htakea : a.length = min a.length dec.remain := by omega
  have htake : a.length + takeb = min (a ++ b).length dec.remain := by
    rw [length_append]
    omega
  have hcut : (a ++ b).take (a.length + takeb) = a ++ b.take takeb := take_length_add_append takeb
  have hbne : b.take takeb ≠ [] := by
    rw [← length_pos_iff, length_take]
    omega
  obtain ⟨ret, ctx', hfirst⟩ : ∃ ret ctx', sink ctx a = (ret, ctx') := ⟨_, _, rfl⟩
  have hfirst' : sink ctx (a.take a.length) = (ret, ctx') := by rw [take_length, hfirst]
  cases ret with
  | HTTP_SINK_OK =>
    obtain ⟨dec', hdec'⟩ : ∃ dec', dec' = { dec with chunk_read := dec.chunk_read + UInt64.ofNat a.length } := ⟨_, rfl⟩
    have hstate' : dec'.state = .CHUNK_READ_DATA := by rw [hdec', hstate]
    have htakeb' : takeb = min b.length dec'.remain := by rw [hdec', remain_sub (Nat.le_of_lt hlt), htakeb]
    have hread : dec.chunk_read + UInt64.ofNat (a.length + takeb) = dec'.chunk_read + UInt64.ofNat takeb := by
      rw [hdec', UInt64.ofNat_add, UInt64.add_assoc]
    rw [resume_of_eq (decode_data_ok_all hstate ha hlt hfirst), ← hdec']
    have hjoin := hsink.joins ha hbne hfirst
    rw [← hcut] at hjoin
    obtain ⟨ret, ctx'', hsecond⟩ : ∃ ret ctx'', sink ctx' (b.take takeb) = (ret, ctx'') := ⟨_, _, rfl⟩
    rw [hsecond] at hjoin
    cases ret with
    | HTTP_SINK_OK =>
      rw [decode_data_ok hstate htake (by omega) hjoin, decode_data_ok hstate' htakeb' (by omega) hsecond,
        drop_length_add_append, hread]
      subst hdec'
      exact Agree.refl _
    | HTTP_SINK_FULL =>
      rw [decode_data_full hstate htake (by omega) hjoin, decode_data_full hstate' htakeb' (by omega) hsecond, hread]
      subst hdec'
      exact Agree.refl _
    | HTTP_SINK_ERR =>
      rw [decode_data_err hstate htake (by omega) hjoin, decode_data_err hstate' htakeb' (by omega) hsecond]
      exact ⟨rfl, by rw [hstate, hstate'], rfl, fun h => absurd h (by simp)⟩
  | HTTP_SINK_FULL =>
    have hend : sink ctx ((a ++ b).take (a.length + takeb)) = (.HTTP_SINK_FULL, ctx') := by
      rw [hcut, hsink.ends _ ha (by simp [hfirst]), hfirst]
    rw [decode_data_full hstate htake (by omega) hend, decode_data_full hstate htakea hapos hfirst',
      resume_of_ne (by simp)]
    exact ⟨rfl, rfl, rfl, fun h => absurd h (by simp)⟩
  | HTTP_SINK_ERR =>
    have hend : sink ctx ((a ++ b).take (a.length + takeb)) = (.HTTP_SINK_ERR, ctx') := by
      rw [hcut, hsink.ends _ ha (by simp [hfirst]), hfirst]
    rw [decode_data_err hstate htake (by omega) hend, decode_data_err hstate htakea hapos hfirst',
      resume_of_ne (by simp)]
    exact Agree.refl _

/-- Bytes decoded at once are decoded one part after the other. -/
theorem decode_append (hsink : Seamless sink) (dec : http_chunk_decoder) (ctx : σ) (a b : List UInt8) :
    Agree (decode_chunked_bytes sink dec ctx (a ++ b)) (resume sink (decode_chunked_bytes sink dec ctx a) b) := by
  by_cases hb : b = []
  · subst hb
    rw [append_nil, resume_nil]
    exact Agree.refl _
  induction hn : a.length using Nat.strongRecOn generalizing dec ctx a with
  | ind n ih =>
    subst hn
    cases a with
    | nil =>
      rw [nil_append, resume_of_eq (decode_nil dec ctx)]
      exact Agree.refl _
    | cons c rest =>
      have hframe : ∀ dec : http_chunk_decoder, dec.state ≠ .CHUNK_READ_DATA →
          Agree (decode_chunked_bytes sink dec ctx (c :: rest ++ b))
            (resume sink (decode_chunked_bytes sink dec ctx (c :: rest)) b) := by
        intro dec hstate
        rcases decode_byte hstate c with ⟨ret, dec', hret, hall⟩ | ⟨dec', hall⟩
        · rw [cons_append, hall, hall, resume_of_ne hret]
          exact Agree.refl _
        · rw [cons_append, hall, hall]
          exact ih _ (by simp) dec' ctx rest rfl
      by_cases hstate : dec.state = .CHUNK_READ_DATA
      · by_cases hrem : dec.remain = 0
        · rw [cons_append, decode_data_end hstate hrem, decode_data_end hstate hrem]
          exact hframe _ (by simp)
        by_cases hlt : (c :: rest).length < dec.remain
        · exact decode_data_append hsink hstate ctx (cons_ne_nil c rest) hb hlt
        · have hle : dec.remain ≤ (c :: rest).length := Nat.not_lt.1 hlt
          have hpos : 0 < dec.remain := Nat.pos_of_ne_zero hrem
          have htake : dec.remain = min (c :: rest).length dec.remain := by omega
          have htake' : dec.remain = min (c :: rest ++ b).length dec.remain := by
            rw [length_append]
            omega
          have hcut : (c :: rest ++ b).take dec.remain = (c :: rest).take dec.remain :=
            take_append_of_le_length hle
          obtain ⟨ret, ctx', hfirst⟩ : ∃ ret ctx', sink ctx ((c :: rest).take dec.remain) = (ret, ctx') := ⟨_, _, rfl⟩
          have hfirst' : sink ctx ((c :: rest ++ b).take dec.remain) = (ret, ctx') := by rw [hcut, hfirst]
          cases ret with
          | HTTP_SINK_OK =>
            rw [decode_data_ok hstate htake' hpos hfirst', decode_data_ok hstate htake hpos hfirst,
              drop_append_of_le_length hle]
            refine ih _ ?_ _ ctx' _ rfl
            rw [length_drop]
            omega
          | HTTP_SINK_FULL =>
            rw [decode_data_full hstate htake' hpos hfirst', decode_data_full hstate htake hpos hfirst,
              resume_of_ne (by simp)]
            exact Agree.refl _
          | HTTP_SINK_ERR =>
            rw [decode_data_err hstate htake' hpos hfirst', decode_data_err hstate htake hpos hfirst,
              resume_of_ne (by simp)]
            exact Agree.refl _
      · exact hframe dec hstate

end graceos.http
