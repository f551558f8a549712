import GraceOS.Net.HttpChunks

/-!
# Where a response is cut

How the bytes of a response fall into reads makes no difference to a sink that cannot tell one delivery from two.
-/

namespace graceos.http

open word List

variable {σ τ : Type} {sink : http_sink_fn σ}

/-! ## The receive loop -/

/-- What the two ends of a receive loop have in common. -/
structure recv_state.Same (s t : recv_state σ) : Prop where
  headers_done : s.headers_done = t.headers_done
  http_meta : s.http_meta = t.http_meta
  chunk_state : s.decoder.state = t.decoder.state
  ctx : s.ctx = t.ctx

theorem recv_state.Same.refl (s : recv_state σ) : s.Same s := ⟨rfl, rfl, rfl, rfl⟩

theorem recv_state.Same.trans {s t u : recv_state σ} (hst : s.Same t) (htu : t.Same u) : s.Same u :=
  ⟨hst.headers_done.trans htu.headers_done, hst.http_meta.trans htu.http_meta,
    hst.chunk_state.trans htu.chunk_state, hst.ctx.trans htu.ctx⟩

theorem recv_state.Same.symm {s t : recv_state σ} (hst : s.Same t) : t.Same s :=
  ⟨hst.headers_done.symm, hst.http_meta.symm, hst.chunk_state.symm, hst.ctx.symm⟩

/-- Two results of a pass that the caller cannot tell apart. -/
inductive recv_result.Same : recv_result σ → recv_result σ → Prop
  | again (s : recv_state σ) : Same (.again s) (.again s)
  | stop {s t : recv_state σ} (hst : s.Same t) : Same (.stop s) (.stop t)
  | fail {s t : recv_state σ} (hst : s.Same t) : Same (.fail s) (.fail t)

theorem recv_result.Same.refl (r : recv_result σ) : r.Same r := by
  cases r with
  | again s => exact .again s
  | stop s => exact .stop (.refl s)
  | fail s => exact .fail (.refl s)

/-- The next pass, unless the loop has ended. -/
def recv_result.andThen (next : recv_state σ → recv_result σ) : recv_result σ → recv_result σ
  | .again s => next s
  | .stop s => .stop s
  | .fail s => .fail s

/-- What the loop returns when nothing comes after a pass. -/
def recv_result.outcome : recv_result σ → Int × recv_state σ
  | .again s => (0, s)
  | .stop s => (0, s)
  | .fail s => (-1, s)

/-- What a pass makes of the answer of the chunk decoder. -/
def chunk_result (s : recv_state σ) (x : Int × http_chunk_decoder × σ) : recv_result σ :=
  let s := { s with decoder := x.2.1, ctx := x.2.2 }
  if x.1 < 0 then .fail s else if x.1 > 0 then .stop s else .again s

theorem Agree.chunk_result {x y : Int × http_chunk_decoder × σ} (hxy : Agree x y) (s : recv_state σ) :
    (chunk_result s x).Same (chunk_result s y) := by
  by_cases hzero : x.1 = 0
  · rw [hxy.running hzero]
    exact .refl _
  · unfold graceos.http.chunk_result
    rw [← hxy.ret]
    have hsame : recv_state.Same { s with decoder := x.2.1, ctx := x.2.2 } { s with decoder := y.2.1, ctx := y.2.2 } :=
      ⟨rfl, rfl, hxy.state, hxy.ctx⟩
    by_cases hneg : x.1 < 0
    · simp only [hneg, if_true]
      exact .fail hsame
    · have hpos : x.1 > 0 := by omega
      simp only [hneg, hpos, if_true, if_false]
      exact .stop hsame

theorem on_body_nil (s : recv_state σ) : on_body sink s [] = .again s := if_pos rfl

theorem on_body_chunked {s : recv_state σ} (hchunked : s.http_meta.is_chunked = true) {body : List UInt8}
    (hbody : body ≠ []) : on_body sink s body = chunk_result s (decode_chunked_bytes sink s.decoder s.ctx body) := by
  rw [on_body, if_neg hbody, if_pos hchunked, chunk_result]

/-- How much of `len` bytes a body without chunks takes. -/
def recv_state.deliver_len (s : recv_state σ) (len : Nat) : Nat :=
  if s.http_meta.has_content_length ∧ len > s.http_meta.content_length.toNat - s.body_total then
    s.http_meta.content_length.toNat - s.body_total
  else len

/-- The body has its `Content-Length`. -/
def recv_state.Satisfied (s : recv_state σ) : Prop :=
  s.http_meta.has_content_length = true ∧ s.body_total ≥ s.http_meta.content_length.toNat

theorem recv_state.deliver_len_pos {s : recv_state σ} (hopen : ¬s.Satisfied) {len : Nat} (hlen : 0 < len) :
    0 < s.deliver_len len := by
  unfold recv_state.deliver_len
  split
  · rename_i hlong
    have hlt : ¬s.body_total ≥ s.http_meta.content_length.toNat := fun h => hopen ⟨hlong.1, h⟩
    omega
  · exact hlen

section PlainBody

variable {s : recv_state σ} {body : List UInt8} {ctx' : σ}

theorem on_body_satisfied (hplain : s.http_meta.is_chunked = false) (hbody : body ≠ []) (hsat : s.Satisfied) :
    on_body sink s body = .stop s := by
  rw [recv_state.Satisfied] at hsat
  rw [on_body, if_neg hbody, if_neg (by rw [hplain]; decide), if_pos hsat]

theorem on_body_err (hplain : s.http_meta.is_chunked = false) (hbody : body ≠ []) (hopen : ¬s.Satisfied)
    (hsink : sink s.ctx (body.take (s.deliver_len body.length)) = (.HTTP_SINK_ERR, ctx')) :
    on_body sink s body = .fail { s with ctx := ctx' } := by
  rw [recv_state.Satisfied] at hopen
  rw [recv_state.deliver_len] at hsink
  rw [on_body, if_neg hbody, if_neg (by rw [hplain]; decide), if_neg hopen]
  simp only [hsink]

theorem on_body_full (hplain : s.http_meta.is_chunked = false) (hbody : body ≠ []) (hopen : ¬s.Satisfied)
    (hsink : sink s.ctx (body.take (s.deliver_len body.length)) = (.HTTP_SINK_FULL, ctx')) :
    on_body sink s body =
      .stop { s with ctx := ctx', body_total := s.body_total + s.deliver_len body.length } := by
  rw [recv_state.Satisfied] at hopen
  rw [recv_state.deliver_len] at hsink ⊢
  rw [on_body, if_neg hbody, if_neg (by rw [hplain]; decide), if_neg hopen]
  simp only [hsink]

theorem on_body_ok_stop (hplain : s.http_meta.is_chunked = false) (hbody : body ≠ []) (hopen : ¬s.Satisfied)
    (hsink : sink s.ctx (body.take (s.deliver_len body.length)) = (.HTTP_SINK_OK, ctx'))
    (hsat : recv_state.Satisfied { s with ctx := ctx', body_total := s.body_total + s.deliver_len body.length }) :
    on_body sink s body =
      .stop { s with ctx := ctx', body_total := s.body_total + s.deliver_len body.length } := by
  rw [recv_state.Satisfied] at hopen hsat
  rw [recv_state.deliver_len] at hsink hsat ⊢
  rw [on_body, if_neg hbody, if_neg (by rw [hplain]; decide), if_neg hopen]
  simp only [hsink]
  exact if_pos hsat

theorem on_body_ok_again (hplain : s.http_meta.is_chunked = false) (hbody : body ≠ []) (hopen : ¬s.Satisfied)
    (hsink : sink s.ctx (body.take (s.deliver_len body.length)) = (.HTTP_SINK_OK, ctx'))
    (hsat : ¬recv_state.Satisfied { s with ctx := ctx', body_total := s.body_total + s.deliver_len body.length }) :
    on_body sink s body =
      .again { s with ctx := ctx', body_total := s.body_total + s.deliver_len body.length } := by
  rw [recv_state.Satisfied] at hopen hsat
  rw [recv_state.deliver_len] at hsink hsat ⊢
  rw [on_body, if_neg hbody, if_neg (by rw [hplain]; decide), if_neg hopen]
  simp only [hsink]
  exact if_neg hsat

end PlainBody

theorem on_body_append_chunked (hsink : Seamless sink) {s : recv_state σ} (hchunked : s.http_meta.is_chunked = true)
    {a b : List UInt8} (ha : a ≠ []) (hb : b ≠ []) :
    (on_body sink s (a ++ b)).Same ((on_body sink s a).andThen (on_body sink · b)) := by
  have hagree := (decode_append hsink s.decoder s.ctx a b).chunk_result s
  rw [on_body_chunked hchunked (append_ne_nil_of_left_ne_nil ha b), on_body_chunked hchunked ha]
  obtain ⟨x, hx⟩ : ∃ x, x = decode_chunked_bytes sink s.decoder s.ctx a := ⟨_, rfl⟩
  rw [← hx] at hagree ⊢
  by_cases hzero : x.1 = 0
  · have hagain : chunk_result s x = .again { s with decoder := x.2.1, ctx := x.2.2 } := by
      simp [chunk_result, hzero]
    rw [hagain, recv_result.andThen, on_body_chunked (by exact hchunked) hb]
    rw [resume, if_pos hzero] at hagree
    exact hagree
  · have hends : (chunk_result s x).andThen (on_body sink · b) = chunk_result s x := by
      unfold chunk_result
      by_cases hneg : x.1 < 0
      · simp only [hneg, if_true, recv_result.andThen]
      · have hpos : x.1 > 0 := by omega
        simp only [hneg, hpos, if_true, if_false, recv_result.andThen]
    rw [hends]
    rwa [resume_of_ne hzero] at hagree

/-- Bytes that do not reach the end of the body, and the bytes behind them. -/
theorem on_body_append_open (hsink : Seamless sink) {s : recv_state σ} (hplain : s.http_meta.is_chunked = false)
    {a b : List UInt8} (ha : a ≠ []) (hb : b ≠ [])
    (hleft : s.http_meta.has_content_length = true →
      s.body_total + a.length < s.http_meta.content_length.toNat) :
    (on_body sink s (a ++ b)).Same ((on_body sink s a).andThen (on_body sink · b)) := by
  have hbpos := List.length_pos_iff.2 hb
  have hab : a ++ b ≠ [] := append_ne_nil_of_left_ne_nil ha b
  have hopen : ¬s.Satisfied := fun h => by
    have hlt := hleft h.1
    have hge := h.2
    omega
  have hdelivera : s.deliver_len a.length = a.length := by
    refine if_neg fun h => ?_
    have hlt := hleft h.1
    omega
  obtain ⟨ret, ctx', hfirst⟩ : ∃ ret ctx', sink s.ctx a = (ret, ctx') := ⟨_, _, rfl⟩
  have hfirst' : sink s.ctx (a.take (s.deliver_len a.length)) = (ret, ctx') := by
    rw [hdelivera, take_length, hfirst]
  obtain ⟨s', hs'⟩ : ∃ s', s' = { s with ctx := ctx', body_total := s.body_total + s.deliver_len a.length } :=
    ⟨_, rfl⟩
  have hopen' : ¬s'.Satisfied := by
    rw [hs', hdelivera]
    intro h
    have hlt := hleft h.1
    have hge := h.2
    dsimp only at hge
    omega
  have hdeliver : s.deliver_len (a ++ b).length = a.length + s'.deliver_len b.length := by
    rw [hs', hdelivera, length_append]
    unfold recv_state.deliver_len
    dsimp only
    by_cases hlen : s.http_meta.has_content_length = true
    · have hlt := hleft hlen
      simp only [hlen, true_and]
      split <;> split <;> omega
    · rw [if_neg fun h => hlen h.1, if_neg fun h => hlen h.1]
  have hpos : 0 < s'.deliver_len b.length := s'.deliver_len_pos hopen' hbpos
  have hbne : b.take (s'.deliver_len b.length) ≠ [] := by
    rw [← length_pos_iff, length_take]
    omega
  have hcut : (a ++ b).take (s.deliver_len (a ++ b).length) = a ++ b.take (s'.deliver_len b.length) := by
    rw [hdeliver]
    exact take_length_add_append _
  cases ret with
  | HTTP_SINK_OK =>
    rw [on_body_ok_again hplain ha hopen hfirst' (by rw [← hs']; exact hopen'), ← hs', recv_result.andThen]
    have hplain' : s'.http_meta.is_chunked = false := by rw [hs']; exact hplain
    have hjoin := hsink.joins ha hbne hfirst
    rw [← hcut] at hjoin
    have hctx : s'.ctx = ctx' := by rw [hs']
    obtain ⟨ret, ctx'', hsecond⟩ : ∃ ret ctx'', sink ctx' (b.take (s'.deliver_len b.length)) = (ret, ctx'') :=
      ⟨_, _, rfl⟩
    rw [hsecond] at hjoin
    rw [← hctx] at hsecond
    have hend : { s with ctx := ctx'', body_total := s.body_total + s.deliver_len (a ++ b).length } =
        { s' with ctx := ctx'', body_total := s'.body_total + s'.deliver_len b.length } := by
      rw [hdeliver, hs', hdelivera, Nat.add_assoc]
    cases ret with
    | HTTP_SINK_OK =>
      by_cases hsat : recv_state.Satisfied
          { s' with ctx := ctx'', body_total := s'.body_total + s'.deliver_len b.length }
      · rw [on_body_ok_stop hplain hab hopen hjoin (by rw [hend]; exact hsat),
          on_body_ok_stop hplain' hb hopen' hsecond hsat, hend]
        exact .refl _
      · rw [on_body_ok_again hplain hab hopen hjoin (by rw [hend]; exact hsat),
          on_body_ok_again hplain' hb hopen' hsecond hsat, hend]
        exact .refl _
    | HTTP_SINK_FULL =>
      rw [on_body_full hplain hab hopen hjoin, on_body_full hplain' hb hopen' hsecond, hend]
      exact .refl _
    | HTTP_SINK_ERR =>
      rw [on_body_err hplain hab hopen hjoin, on_body_err hplain' hb hopen' hsecond, hs']
      exact .fail ⟨rfl, rfl, rfl, rfl⟩
  | HTTP_SINK_FULL =>
    have hend : sink s.ctx ((a ++ b).take (s.deliver_len (a ++ b).length)) = (.HTTP_SINK_FULL, ctx') := by
      rw [hcut, hsink.ends _ ha (by simp [hfirst]), hfirst]
    rw [on_body_full hplain hab hopen hend, on_body_full hplain ha hopen hfirst', recv_result.andThen]
    exact .stop ⟨rfl, rfl, rfl, rfl⟩
  | HTTP_SINK_ERR =>
    have hend : sink s.ctx ((a ++ b).take (s.deliver_len (a ++ b).length)) = (.HTTP_SINK_ERR, ctx') := by
      rw [hcut, hsink.ends _ ha (by simp [hfirst]), hfirst]
    rw [on_body_err hplain hab hopen hend, on_body_err hplain ha hopen hfirst', recv_result.andThen]
    exact .refl _

/-- Bytes that reach the end of the body: nothing behind them is looked at. -/
theorem on_body_append_closed {s : recv_state σ} (hplain : s.http_meta.is_chunked = false) {a : List UInt8}
    (ha : a ≠ []) (b : List UInt8) (hlen : s.http_meta.has_content_length = true)
    (hge : s.body_total + a.length ≥ s.http_meta.content_length.toNat) :
    on_body sink s (a ++ b) = (on_body sink s a).andThen (on_body sink · b) := by
  have hab : a ++ b ≠ [] := append_ne_nil_of_left_ne_nil ha b
  by_cases hopen : s.Satisfied
  · rw [on_body_satisfied hplain hab hopen, on_body_satisfied hplain ha hopen, recv_result.andThen]
  have hdeliver : s.deliver_len (a ++ b).length = s.deliver_len a.length := by
    unfold recv_state.deliver_len
    rw [length_append]
    simp only [hlen, true_and]
    split <;> split <;> omega
  have hle : s.deliver_len a.length ≤ a.length := by
    unfold recv_state.deliver_len
    split <;> omega
  have hcut : (a ++ b).take (s.deliver_len (a ++ b).length) = a.take (s.deliver_len a.length) := by
    rw [hdeliver, take_append_of_le_length hle]
  obtain ⟨ret, ctx', hfirst⟩ : ∃ ret ctx', sink s.ctx (a.take (s.deliver_len a.length)) = (ret, ctx') := ⟨_, _, rfl⟩
  have hfirst' := hfirst
  rw [← hcut] at hfirst'
  cases ret with
  | HTTP_SINK_OK =>
    have hsat : recv_state.Satisfied { s with ctx := ctx', body_total := s.body_total + s.deliver_len a.length } := by
      refine ⟨hlen, ?_⟩
      unfold recv_state.deliver_len
      dsimp only
      split
      · omega
      · exact hge
    rw [on_body_ok_stop hplain hab hopen hfirst' (by rw [hdeliver]; exact hsat),
      on_body_ok_stop hplain ha hopen hfirst hsat, hdeliver, recv_result.andThen]
  | HTTP_SINK_FULL =>
    rw [on_body_full hplain hab hopen hfirst', on_body_full hplain ha hopen hfirst, hdeliver, recv_result.andThen]
  | HTTP_SINK_ERR =>
    rw [on_body_err hplain hab hopen hfirst', on_body_err hplain ha hopen hfirst, recv_result.andThen]

theorem andThen_again (r : recv_result σ) : r.andThen .again = r := by
  cases r <;> rfl

theorem on_body_append (hsink : Seamless sink) (s : recv_state σ) (a b : List UInt8) :
    (on_body sink s (a ++ b)).Same ((on_body sink s a).andThen (on_body sink · b)) := by
  by_cases ha : a = []
  · subst ha
    rw [nil_append, on_body_nil, recv_result.andThen]
    exact .refl _
  by_cases hb : b = []
  · subst hb
    have hnil : (on_body sink · []) = recv_result.again := funext on_body_nil
    rw [append_nil, hnil, andThen_again]
    exact .refl _
  by_cases hchunked : s.http_meta.is_chunked = true
  · exact on_body_append_chunked hsink hchunked ha hb
  have hplain : s.http_meta.is_chunked = false := Bool.eq_false_iff.2 hchunked
  by_cases hend : s.http_meta.has_content_length = true ∧
      s.body_total + a.length ≥ s.http_meta.content_length.toNat
  · rw [on_body_append_closed hplain ha b hend.1 hend.2]
    exact .refl _
  · refine on_body_append_open hsink hplain ha hb fun hlen => ?_
    by_contra hge
    exact hend ⟨hlen, by omega⟩

theorem header_loop_append (buf a b : List UInt8) :
    (∀ buf', header_loop buf a = .unfinished buf' → header_loop buf (a ++ b) = header_loop buf' b) ∧
    (∀ buf' body, header_loop buf a = .done buf' body → header_loop buf (a ++ b) = .done buf' (body ++ b)) ∧
    (header_loop buf a = .too_large → header_loop buf (a ++ b) = .too_large) := by
  induction a generalizing buf with
  | nil => simp [header_loop]
  | cons c a ih =>
    rw [cons_append, header_loop, header_loop]
    dsimp only
    split
    · simp
    · split
      · simp
      · exact ih _

theorem on_body_headers_done {s s' : recv_state σ} {body : List UInt8} (h : on_body sink s body = .again s') :
    s'.headers_done = s.headers_done := by
  by_cases hbody : body = []
  · rw [hbody, on_body_nil] at h
    cases h
    rfl
  by_cases hchunked : s.http_meta.is_chunked = true
  · rw [on_body_chunked hchunked hbody, chunk_result] at h
    split at h
    · cases h
    · split at h
      · cases h
      · cases h
        rfl
  have hplain : s.http_meta.is_chunked = false := Bool.eq_false_iff.2 hchunked
  by_cases hopen : s.Satisfied
  · rw [on_body_satisfied hplain hbody hopen] at h
    cases h
  obtain ⟨ret, ctx', hsink⟩ : ∃ ret ctx', sink s.ctx (body.take (s.deliver_len body.length)) = (ret, ctx') :=
    ⟨_, _, rfl⟩
  cases ret with
  | HTTP_SINK_ERR =>
    rw [on_body_err hplain hbody hopen hsink] at h
    cases h
  | HTTP_SINK_FULL =>
    rw [on_body_full hplain hbody hopen hsink] at h
    cases h
  | HTTP_SINK_OK =>
    by_cases hsat : recv_state.Satisfied
        { s with ctx := ctx', body_total := s.body_total + s.deliver_len body.length }
    · rw [on_body_ok_stop hplain hbody hopen hsink hsat] at h
      cases h
    · rw [on_body_ok_again hplain hbody hopen hsink hsat] at h
      cases h
      rfl

theorem andThen_on_read {r : recv_result σ} (hdone : ∀ s', r = .again s' → s'.headers_done = true) (b : List UInt8) :
    r.andThen (on_read sink · b) = r.andThen (on_body sink · b) := by
  cases r with
  | again s' => exact if_pos (hdone s' rfl)
  | stop s' => rfl
  | fail s' => rfl

section Headers

variable {s : recv_state σ} {chunk buf body : List UInt8}

theorem on_read_body (hdone : s.headers_done = true) (chunk : List UInt8) :
    on_read sink s chunk = on_body sink s chunk := if_pos hdone

theorem on_read_unfinished (hdone : s.headers_done = false)
    (hloop : header_loop s.header_buf chunk = .unfinished buf) :
    on_read sink s chunk = .again { s with header_buf := buf } := by
  rw [on_read, hdone, hloop]
  rfl

theorem on_read_large (hdone : s.headers_done = false) (hloop : header_loop s.header_buf chunk = .too_large) :
    on_read sink s chunk = .fail s := by
  rw [on_read, hdone, hloop]
  rfl

theorem on_read_malformed (hdone : s.headers_done = false) (hloop : header_loop s.header_buf chunk = .done buf body)
    (hparse : parse_headers buf = none) :
    on_read sink s chunk = .fail { s with header_buf := buf, headers_done := true } := by
  rw [on_read, hdone, hloop]
  simp only [Bool.false_eq_true, if_false, hparse]

theorem on_read_headers (hdone : s.headers_done = false) (hloop : header_loop s.header_buf chunk = .done buf body)
    {m : http_meta} (hparse : parse_headers buf = some m) : on_read sink s chunk =
      on_body sink { s with header_buf := buf, headers_done := true, http_meta := m } body := by
  rw [on_read, hdone, hloop]
  simp only [Bool.false_eq_true, if_false, hparse]

end Headers

/-- A read is worked on like its parts in a row. -/
theorem on_read_append (hsink : Seamless sink) (s : recv_state σ) (a b : List UInt8) :
    (on_read sink s (a ++ b)).Same ((on_read sink s a).andThen (on_read sink · b)) := by
  cases hdone : s.headers_done with
  | true =>
    rw [on_read_body hdone, on_read_body hdone,
      andThen_on_read fun s' h => (on_body_headers_done h).trans hdone]
    exact on_body_append hsink s a b
  | false =>
    obtain ⟨hunfinished, hfinished, hlarge⟩ := header_loop_append s.header_buf a b
    cases hloop : header_loop s.header_buf a with
    | too_large =>
      rw [on_read_large hdone (hlarge hloop), on_read_large hdone hloop]
      exact .refl _
    | unfinished buf =>
      have hnext := hunfinished buf hloop
      rw [on_read_unfinished hdone hloop, recv_result.andThen]
      cases hrest : header_loop buf b with
      | too_large =>
        rw [hrest] at hnext
        rw [on_read_large hdone hnext, on_read_large (by exact hdone) (by exact hrest)]
        exact .fail ⟨rfl, rfl, rfl, rfl⟩
      | unfinished buf' =>
        rw [hrest] at hnext
        rw [on_read_unfinished hdone hnext, on_read_unfinished (by exact hdone) (by exact hrest)]
        exact .refl _
      | done buf' body =>
        rw [hrest] at hnext
        cases hparse : parse_headers buf' with
        | none =>
          rw [on_read_malformed hdone hnext hparse, on_read_malformed (by exact hdone) (by exact hrest) hparse]
          exact .refl _
        | some m =>
          rw [on_read_headers hdone hnext hparse, on_read_headers (by exact hdone) (by exact hrest) hparse]
          exact .refl _
    | done buf body =>
      have hnext := hfinished buf body hloop
      cases hparse : parse_headers buf with
      | none =>
        rw [on_read_malformed hdone hnext hparse, on_read_malformed hdone hloop hparse]
        exact .refl _
      | some m =>
        rw [on_read_headers hdone hnext hparse, on_read_headers hdone hloop hparse,
          andThen_on_read fun s' h => on_body_headers_done h]
        exact on_body_append hsink _ body b

theorem on_read_nil (s : recv_state σ) : on_read sink s [] = .again s := by
  cases hdone : s.headers_done with
  | true => rw [on_read_body hdone, on_body_nil]
  | false => rw [on_read_unfinished hdone rfl]

theorem recv_result.Same.outcome {r r' : recv_result σ} (h : r.Same r') :
    r.outcome.1 = r'.outcome.1 ∧ r.outcome.2.Same r'.outcome.2 := by
  cases h with
  | again s => exact ⟨rfl, .refl s⟩
  | stop hst => exact ⟨rfl, hst⟩
  | fail hst => exact ⟨rfl, hst⟩

theorem recv_loop_flatten (hsink : Seamless sink) {reads : List (List UInt8)} (hreads : ∀ chunk ∈ reads, chunk ≠ [])
    (s : recv_state σ) :
    (recv_loop sink s reads).1 = (on_read sink s reads.flatten).outcome.1 ∧
      (recv_loop sink s reads).2.Same (on_read sink s reads.flatten).outcome.2 := by
  induction reads generalizing s with
  | nil =>
    rw [flatten_nil, on_read_nil]
    exact ⟨rfl, .refl s⟩
  | cons chunk reads ih =>
    have hwhole := (on_read_append hsink s chunk reads.flatten).outcome
    have hchunk : chunk ≠ [] := hreads chunk mem_cons_self
    rw [flatten_cons, recv_loop, if_neg hchunk]
    cases hfirst : on_read sink s chunk with
    | again s' =>
      rw [hfirst, recv_result.andThen] at hwhole
      obtain ⟨hret, hsame⟩ := ih (fun c hc => hreads c (mem_cons_of_mem chunk hc)) s'
      exact ⟨hret.trans hwhole.1.symm, hsame.trans hwhole.2.symm⟩
    | stop s' =>
      rw [hfirst] at hwhole
      exact ⟨hwhole.1.symm, hwhole.2.symm⟩
    | fail s' =>
      rw [hfirst] at hwhole
      exact ⟨hwhole.1.symm, hwhole.2.symm⟩

/-! ## One sink for another -/

variable {sink' : http_sink_fn τ} {E : Prop} {R : σ → τ → Prop}

/-- The second sink answers like the first one; where `E` allows it, only as long as that one does not fail. -/
def Follows (E : Prop) (R : σ → τ → Prop) (sink : http_sink_fn σ) (sink' : http_sink_fn τ) : Prop :=
  ∀ ⦃s : σ⦄ ⦃t : τ⦄ ⦃data : List UInt8⦄, data ≠ [] → R s t →
    (E ∧ (sink s data).1 = .HTTP_SINK_ERR) ∨ ((sink s data).1 = (sink' t data).1 ∧ R (sink s data).2 (sink' t data).2)

theorem Follows.deliver (hfollow : Follows E R sink sink') {s : σ} {t : τ} (hst : R s t) {data : List UInt8}
    (hdata : data ≠ []) {ret : http_sink_ret} {s' : σ} (hsink : sink s data = (ret, s'))
    (hret : ¬(E ∧ ret = .HTTP_SINK_ERR)) : ∃ t', sink' t data = (ret, t') ∧ R s' t' := by
  rcases hfollow hdata hst with herr | ⟨hsame, hrel⟩
  · rw [hsink] at herr
    exact absurd herr hret
  · rw [hsink] at hsame hrel
    exact ⟨(sink' t data).2, Prod.ext hsame.symm rfl, hrel⟩

theorem decode_follows (hfollow : Follows E R sink sink') (dec : http_chunk_decoder) {ctx : σ} {ctx' : τ}
    (hctx : R ctx ctx') (data : List UInt8) :
    (E ∧ (decode_chunked_bytes sink dec ctx data).1 < 0) ∨
      ((decode_chunked_bytes sink' dec ctx' data).1 = (decode_chunked_bytes sink dec ctx data).1 ∧
        (decode_chunked_bytes sink' dec ctx' data).2.1 = (decode_chunked_bytes sink dec ctx data).2.1 ∧
        R (decode_chunked_bytes sink dec ctx data).2.2 (decode_chunked_bytes sink' dec ctx' data).2.2) := by
  induction hn : data.length using Nat.strongRecOn generalizing dec ctx ctx' data with
  | ind n ih =>
    subst hn
    cases data with
    | nil =>
      rw [decode_nil, decode_nil]
      exact Or.inr ⟨rfl, rfl, hctx⟩
    | cons c rest =>
      have hframe : ∀ dec : http_chunk_decoder, dec.state ≠ .CHUNK_READ_DATA →
          (E ∧ (decode_chunked_bytes sink dec ctx (c :: rest)).1 < 0) ∨
            ((decode_chunked_bytes sink' dec ctx' (c :: rest)).1 = (decode_chunked_bytes sink dec ctx (c :: rest)).1 ∧
              (decode_chunked_bytes sink' dec ctx' (c :: rest)).2.1 =
                (decode_chunked_bytes sink dec ctx (c :: rest)).2.1 ∧
              R (decode_chunked_bytes sink dec ctx (c :: rest)).2.2
                (decode_chunked_bytes sink' dec ctx' (c :: rest)).2.2) := by
        intro dec hstate
        rcases decode_byte hstate c with ⟨ret, dec', hret, hall⟩ | ⟨dec', hall⟩
        · rw [hall, hall]
          exact Or.inr ⟨rfl, rfl, hctx⟩
        · rw [hall, hall]
          exact ih _ (by simp) dec' hctx rest rfl
      by_cases hstate : dec.state = .CHUNK_READ_DATA
      · by_cases hrem : dec.remain = 0
        · rw [decode_data_end hstate hrem, decode_data_end hstate hrem]
          exact hframe _ (by simp)
        obtain ⟨take, htake⟩ : ∃ take, take = min (c :: rest).length dec.remain := ⟨_, rfl⟩
        have hpos : 0 < take := by
          rw [htake, length_cons]
          omega
        have hne : (c :: rest).take take ≠ [] := by
          rw [← length_pos_iff, length_take]
          omega
        obtain ⟨ret, ctx₁, hsink⟩ : ∃ ret ctx₁, sink ctx ((c :: rest).take take) = (ret, ctx₁) := ⟨_, _, rfl⟩
        cases ret with
        | HTTP_SINK_OK =>
          obtain ⟨ctx₂, hsink', hrel⟩ := hfollow.deliver hctx hne hsink (by simp)
          rw [decode_data_ok hstate htake hpos hsink, decode_data_ok hstate htake hpos hsink']
          refine ih _ ?_ _ hrel _ rfl
          rw [length_drop]
          omega
        | HTTP_SINK_FULL =>
          obtain ⟨ctx₂, hsink', hrel⟩ := hfollow.deliver hctx hne hsink (by simp)
          rw [decode_data_full hstate htake hpos hsink, decode_data_full hstate htake hpos hsink']
          exact Or.inr ⟨rfl, rfl, hrel⟩
        | HTTP_SINK_ERR =>
          rw [decode_data_err hstate htake hpos hsink]
          by_cases hE : E
          · exact Or.inl ⟨hE, by simp⟩
          · obtain ⟨ctx₂, hsink', hrel⟩ := hfollow.deliver hctx hne hsink fun h => hE h.1
            rw [decode_data_err hstate htake hpos hsink']
            exact Or.inr ⟨rfl, rfl, hrel⟩
      · exact hframe dec hstate

/-- The state with the context of another sink. -/
def recv_state.withCtx (s : recv_state σ) (ctx : τ) : recv_state τ :=
  ⟨s.header_buf, s.headers_done, s.http_meta, s.decoder, s.body_total, ctx⟩

inductive recv_result.Follows (E : Prop) (R : σ → τ → Prop) : recv_result σ → recv_result τ → Prop
  | failed (hE : E) (s : recv_state σ) (r : recv_result τ) : Follows E R (.fail s) r
  | again {s : recv_state σ} {ctx : τ} (hctx : R s.ctx ctx) : Follows E R (.again s) (.again (s.withCtx ctx))
  | stop {s : recv_state σ} {ctx : τ} (hctx : R s.ctx ctx) : Follows E R (.stop s) (.stop (s.withCtx ctx))
  | fail {s : recv_state σ} {ctx : τ} (hctx : R s.ctx ctx) : Follows E R (.fail s) (.fail (s.withCtx ctx))

theorem chunk_result_follows {s : recv_state σ} {x : Int × http_chunk_decoder × σ}
    {y : Int × http_chunk_decoder × τ} (ctx : τ) (hret : y.1 = x.1) (hdec : y.2.1 = x.2.1) (hrel : R x.2.2 y.2.2) :
    (chunk_result s x).Follows E R (chunk_result (s.withCtx ctx) y) := by
  unfold chunk_result
  rw [hret, hdec]
  by_cases hneg : x.1 < 0
  · simp only [hneg, if_true]
    exact .fail (s := { s with decoder := x.2.1, ctx := x.2.2 }) hrel
  by_cases hpos : x.1 > 0
  · simp only [hneg, hpos, if_true, if_false]
    exact .stop (s := { s with decoder := x.2.1, ctx := x.2.2 }) hrel
  · simp only [hneg, hpos, if_false]
    exact .again (s := { s with decoder := x.2.1, ctx := x.2.2 }) hrel

theorem on_body_follows (hfollow : Follows E R sink sink') {s : recv_state σ} {ctx : τ} (hctx : R s.ctx ctx)
    (body : List UInt8) : (on_body sink s body).Follows E R (on_body sink' (s.withCtx ctx) body) := by
  by_cases hbody : body = []
  · rw [hbody, on_body_nil, on_body_nil]
    exact .again hctx
  by_cases hchunked : s.http_meta.is_chunked = true
  · rw [on_body_chunked hchunked hbody, on_body_chunked (by exact hchunked) hbody]
    rcases decode_follows hfollow s.decoder hctx body with ⟨hE, hneg⟩ | ⟨hret, hdec, hrel⟩
    · rw [chunk_result, if_pos hneg]
      exact .failed hE _ _
    · exact chunk_result_follows ctx hret hdec hrel
  have hplain : s.http_meta.is_chunked = false := Bool.eq_false_iff.2 hchunked
  by_cases hopen : s.Satisfied
  · rw [on_body_satisfied hplain hbody hopen, on_body_satisfied (by exact hplain) hbody (by exact hopen)]
    exact .stop hctx
  have hne : body.take (s.deliver_len body.length) ≠ [] := by
    rw [← length_pos_iff, length_take]
    exact Nat.lt_min.2 ⟨s.deliver_len_pos hopen (List.length_pos_iff.2 hbody), List.length_pos_iff.2 hbody⟩
  obtain ⟨ret, ctx₁, hsink⟩ : ∃ ret ctx₁, sink s.ctx (body.take (s.deliver_len body.length)) = (ret, ctx₁) :=
    ⟨_, _, rfl⟩
  cases ret with
  | HTTP_SINK_ERR =>
    rw [on_body_err hplain hbody hopen hsink]
    by_cases hE : E
    · exact .failed hE _ _
    · obtain ⟨ctx₂, hsink', hrel⟩ := hfollow.deliver hctx hne hsink fun h => hE h.1
      rw [on_body_err (by exact hplain) hbody (by exact hopen) (by exact hsink')]
      exact .fail (s := { s with ctx := ctx₁ }) hrel
  | HTTP_SINK_FULL =>
    obtain ⟨ctx₂, hsink', hrel⟩ := hfollow.deliver hctx hne hsink (by simp)
    rw [on_body_full hplain hbody hopen hsink,
      on_body_full (by exact hplain) hbody (by exact hopen) (by exact hsink')]
    exact .stop (s := { s with ctx := ctx₁, body_total := s.body_total + s.deliver_len body.length }) hrel
  | HTTP_SINK_OK =>
    obtain ⟨ctx₂, hsink', hrel⟩ := hfollow.deliver hctx hne hsink (by simp)
    by_cases hsat : recv_state.Satisfied
        { s with ctx := ctx₁, body_total := s.body_total + s.deliver_len body.length }
    · rw [on_body_ok_stop hplain hbody hopen hsink hsat,
        on_body_ok_stop (by exact hplain) hbody (by exact hopen) (by exact hsink') (by exact hsat)]
      exact .stop (s := { s with ctx := ctx₁, body_total := s.body_total + s.deliver_len body.length }) hrel
    · rw [on_body_ok_again hplain hbody hopen hsink hsat,
        on_body_ok_again (by exact hplain) hbody (by exact hopen) (by exact hsink') (by exact hsat)]
      exact .again (s := { s with ctx := ctx₁, body_total := s.body_total + s.deliver_len body.length }) hrel

theorem on_read_follows (hfollow : Follows E R sink sink') {s : recv_state σ} {ctx : τ} (hctx : R s.ctx ctx)
    (chunk : List UInt8) : (on_read sink s chunk).Follows E R (on_read sink' (s.withCtx ctx) chunk) := by
  cases hdone : s.headers_done with
  | true =>
    rw [on_read_body hdone, on_read_body (by exact hdone)]
    exact on_body_follows hfollow hctx chunk
  | false =>
    cases hloop : header_loop s.header_buf chunk with
    | too_large =>
      rw [on_read_large hdone hloop, on_read_large (by exact hdone) (by exact hloop)]
      exact .fail hctx
    | unfinished buf =>
      rw [on_read_unfinished hdone hloop, on_read_unfinished (by exact hdone) (by exact hloop)]
      exact .again (s := { s with header_buf := buf }) hctx
    | done buf body =>
      cases hparse : parse_headers buf with
      | none =>
        rw [on_read_malformed hdone hloop hparse,
          on_read_malformed (by exact hdone) (by exact hloop) hparse]
        exact .fail (s := { s with header_buf := buf, headers_done := true }) hctx
      | some m =>
        rw [on_read_headers hdone hloop hparse, on_read_headers (by exact hdone) (by exact hloop) hparse]
        exact on_body_follows hfollow (s := { s with header_buf := buf, headers_done := true, http_meta := m }) hctx
          body

theorem recv_loop_follows (hfollow : Follows E R sink sink') (reads : List (List UInt8)) {s : recv_state σ} {c : τ}
    (hctx : R s.ctx c) : (E ∧ (recv_loop sink s reads).1 = -1) ∨ ∃ ctx', R (recv_loop sink s reads).2.ctx ctx' ∧
      recv_loop sink' (s.withCtx c) reads =
        ((recv_loop sink s reads).1, (recv_loop sink s reads).2.withCtx ctx') := by
  induction reads generalizing s c with
  | nil => exact Or.inr ⟨c, hctx, rfl⟩
  | cons chunk reads ih =>
    by_cases hchunk : chunk = []
    · rw [recv_loop, recv_loop, if_pos hchunk, if_pos hchunk]
      exact Or.inr ⟨c, hctx, rfl⟩
    have hread := on_read_follows hfollow hctx chunk
    rw [recv_loop, recv_loop, if_neg hchunk, if_neg hchunk]
    generalize on_read sink s chunk = r at hread ⊢
    generalize on_read sink' (s.withCtx c) chunk = r' at hread ⊢
    cases hread with
    | failed hE s' r' => exact Or.inl ⟨hE, rfl⟩
    | again hctx' => exact ih hctx'
    | stop hctx' => exact Or.inr ⟨_, hctx', rfl⟩
    | fail hctx' => exact Or.inr ⟨_, hctx', rfl⟩

/-! ## The fetch -/

/-- A sink with a record of the bytes that are passed to it. -/
def passing (sink : http_sink_fn σ) : http_sink_fn (σ × List UInt8) := fun s data =>
  let (ret, ctx) := sink s.1 data
  (ret, ctx, s.2 ++ data)

theorem http_fetch_internal_flatten (hsink : Seamless sink) (net : http_net) (host path : List UInt8) (ctx : σ)
    {reads reads' : List (List UInt8)} (hreads : ∀ chunk ∈ reads, chunk ≠ []) (hreads' : ∀ chunk ∈ reads', chunk ≠ [])
    (hsame : reads.flatten = reads'.flatten) :
    (http_fetch_internal net host path sink ctx reads).1 = (http_fetch_internal net host path sink ctx reads').1 ∧
      (http_fetch_internal net host path sink ctx reads).2.Same
        (http_fetch_internal net host path sink ctx reads').2 := by
  unfold http_fetch_internal
  split
  · obtain ⟨hret, hstate⟩ := recv_loop_flatten hsink hreads (recv_state.start ctx)
    obtain ⟨hret', hstate'⟩ := recv_loop_flatten hsink hreads' (recv_state.start ctx)
    rw [hsame] at hret hstate
    exact ⟨hret.trans hret'.symm, hstate.trans hstate'.symm⟩
  · exact ⟨rfl, .refl _⟩

/-- A network on which every request goes out. -/
def ready_net : http_net := ⟨true, some ⟨0, 0, 0⟩, fun _ => true, fun _ _ => 0, fun _ => 0⟩

theorem passing_eq_collect {sink : http_sink_fn σ} (hok : ∀ s data, (sink s data).1 = .HTTP_SINK_OK) (net : http_net)
    (host path : List UInt8) (ctx : σ) (reads : List (List UInt8)) :
    (http_fetch_internal net host path (passing sink) (ctx, []) reads).1 =
        (http_fetch_internal net host path collect [] reads).1 ∧
      (http_fetch_internal net host path (passing sink) (ctx, []) reads).2.ctx.2 =
        (http_fetch_internal net host path collect [] reads).2.ctx := by
  have hfollow : Follows False (fun s log => s.2 = log) (passing sink) collect := by
    intro s log data _ hlog
    refine Or.inr ⟨hok s.1 data, ?_⟩
    rw [← hlog]
    rfl
  unfold http_fetch_internal
  split
  · rcases recv_loop_follows hfollow reads (s := recv_state.start (ctx, [])) (c := []) rfl with
      hfalse | ⟨log, hlog, hrun⟩
    · exact hfalse.1.elim
    · have hstart : (recv_state.start (ctx, ([] : List UInt8))).withCtx ([] : List UInt8) = recv_state.start [] := rfl
      rw [hstart] at hrun
      rw [hrun]
      exact ⟨rfl, hlog⟩
  · exact ⟨rfl, rfl⟩

/-- Two ways of cutting one response into reads end with one status and leave the same bytes in the sink: in a
buffer of any size what was stored, and in a sink that takes everything all that was passed. -/
theorem body_of_any_reads (net : http_net) (host path : List UInt8) {reads reads' : List (List UInt8)}
    (hreads : ∀ chunk ∈ reads, chunk ≠ [] ∧ chunk.length ≤ 512)
    (hreads' : ∀ chunk ∈ reads', chunk ≠ [] ∧ chunk.length ≤ 512) (hsame : reads.flatten = reads'.flatten) :
    (∀ cap : Nat,
      (http_fetch_internal net host path http_buffer_sink ⟨[], cap⟩ reads).1 =
          (http_fetch_internal net host path http_buffer_sink ⟨[], cap⟩ reads').1 ∧
        (http_fetch_internal net host path http_buffer_sink ⟨[], cap⟩ reads).2.ctx.out =
          (http_fetch_internal net host path http_buffer_sink ⟨[], cap⟩ reads').2.ctx.out) ∧
    ∀ (σ : Type) (sink : http_sink_fn σ) (ctx : σ), (∀ s data, (sink s data).1 = .HTTP_SINK_OK) →
      (http_fetch_internal net host path (passing sink) (ctx, []) reads).1 =
          (http_fetch_internal net host path (passing sink) (ctx, []) reads').1 ∧
        (http_fetch_internal net host path (passing sink) (ctx, []) reads).2.ctx.2 =
          (http_fetch_internal net host path (passing sink) (ctx, []) reads').2.ctx.2 := by
  have hne : ∀ chunk ∈ reads, chunk ≠ [] := fun chunk hchunk => (hreads chunk hchunk).1
  have hne' : ∀ chunk ∈ reads', chunk ≠ [] := fun chunk hchunk => (hreads' chunk hchunk).1
  constructor
  · intro cap
    obtain ⟨hret, hstate⟩ :=
      http_fetch_internal_flatten http_buffer_sink_seamless net host path ⟨[], cap⟩ hne hne' hsame
    exact ⟨hret, by rw [hstate.ctx]⟩
  · intro σ sink ctx hok
    obtain ⟨hret, hstate⟩ := http_fetch_internal_flatten collect_seamless net host path [] hne hne' hsame
    obtain ⟨hpass, hlog⟩ := passing_eq_collect hok net host path ctx reads
    obtain ⟨hpass', hlog'⟩ := passing_eq_collect hok net host path ctx reads'
    exact ⟨by rw [hpass, hpass', hret], by rw [hlog, hlog', hstate.ctx]⟩

theorem body_of_two_reads :
    (http_fetch_internal ready_net (ascii "10.0.0.2") (ascii "/") http_buffer_sink ⟨[], 3⟩
      [ascii "HTTP/1.1 200 OK\r\n\r", ascii "\nhello"]).2.ctx.out =
    (http_fetch_internal ready_net (ascii "10.0.0.2") (ascii "/") http_buffer_sink ⟨[], 3⟩
      [ascii "HTTP/1.1 200 OK\r\n\r\nhel", ascii "lo"]).2.ctx.out :=
  ((body_of_any_reads ready_net (ascii "10.0.0.2") (ascii "/")
    (by decide +kernel) (by decide +kernel) (by decide +kernel)).1 3).2

/-- A buffer of three bytes: it is passed `hello` in one read, but only `hell` when a read ends there. -/
theorem passed_bytes_follow_reads :
    ¬∀ (net : http_net) (host path : List UInt8) (cap : Nat) (reads reads' : List (List UInt8)),
      (∀ chunk ∈ reads, chunk ≠ [] ∧ chunk.length ≤ 512) → (∀ chunk ∈ reads', chunk ≠ [] ∧ chunk.length ≤ 512) →
      reads.flatten = reads'.flatten →
      (http_fetch_internal net host path (passing http_buffer_sink) (⟨[], cap⟩, []) reads).2.ctx.2 =
        (http_fetch_internal net host path (passing http_buffer_sink) (⟨[], cap⟩, []) reads').2.ctx.2 := by
  intro h
  have hpassed := h ready_net (ascii "10.0.0.2") (ascii "/") 3 [ascii "HTTP/1.1 200 OK\r\n\r\nhello"]
    [ascii "HTTP/1.1 200 OK\r\n\r\nhell", ascii "o"] (by decide +kernel) (by decide +kernel) (by decide +kernel)
  revert hpassed
  decide +kernel

end graceos.http
