import GraceOS.Lib.Word
import Mathlib.Data.List.Basic

/-!
# The HTTP client

`http_fetch` and `http_fetch_stream` over the answers of the layers below: the network device, ARP, and the TCP
connection with the reads that `tcp_recv_wait` returns on it until it returns nothing.
-/

namespace graceos.http

open word

variable {σ : Type}

def HTTP_REQ_BUF_SIZE : Nat := 512
def HTTP_HEADER_BUF_SIZE : Nat := 2048

/-! ## Addresses and requests -/

/-- The loop of `parse_ipv4` on the rest of the string. -/
def parse_octets (result : UInt32) (octet dots : Nat) (have_digit : Bool) : List UInt8 → UInt32
  | [] => if !have_digit || dots != 3 then 0 else (result <<< 8) ||| UInt32.ofNat octet
  | c :: s =>
    if '0'.toUInt8 ≤ c ∧ c ≤ '9'.toUInt8 then
      let octet := octet * 10 + (c - '0'.toUInt8).toNat
      if octet > 255 then 0 else parse_octets result octet dots true s
    else if c = '.'.toUInt8 then
      if !have_digit || dots ≥ 3 then 0
      else parse_octets ((result <<< 8) ||| UInt32.ofNat octet) 0 (dots + 1) false s
    else 0

def parse_ipv4 (s : List UInt8) : UInt32 :=
  if s = [] then 0 else parse_octets 0 0 0 false s

/-- `buf` holds the characters before `*pos`. -/
def buf_cat (buf_size : Nat) (buf : List UInt8) : (str : List UInt8) → Option (List UInt8)
  | [] => some buf
  | c :: str => if buf.length ≥ buf_size - 1 then none else buf_cat buf_size (buf ++ [c]) str

def build_request (host path : List UInt8) (buf_size : Nat) : Option (List UInt8) := do
  let buf ← buf_cat buf_size [] (ascii "GET ")
  let buf ← buf_cat buf_size buf path
  let buf ← buf_cat buf_size buf (ascii " HTTP/1.1\r\n")
  let buf ← buf_cat buf_size buf (ascii "Host: ")
  let buf ← buf_cat buf_size buf host
  let buf ← buf_cat buf_size buf (ascii "\r\n")
  let buf ← buf_cat buf_size buf (ascii "User-Agent: GraceOS-http/1\r\n")
  let buf ← buf_cat buf_size buf (ascii "Accept: */*\r\n")
  let buf ← buf_cat buf_size buf (ascii "Connection: close\r\n")
  buf_cat buf_size buf (ascii "\r\n")

/-! ## Headers -/

structure http_meta where
  status_code : Int
  is_chunked : Bool
  has_content_length : Bool
  content_length : UInt64
  deriving DecidableEq

def http_meta.zero : http_meta := ⟨0, false, false, 0⟩

def ascii_tolower (c : UInt8) : UInt8 :=
  if 'A'.toUInt8 ≤ c ∧ c ≤ 'Z'.toUInt8 then c + ('a'.toUInt8 - 'A'.toUInt8) else c

def ci_equal_n (a b : List UInt8) (n : Nat) : Bool :=
  (a.take n).map ascii_tolower == (b.take n).map ascii_tolower

/-- The loop of `parse_dec_u32`, with its value so far. -/
def parse_dec_digits (v : UInt64) (have_digit : Bool) : List UInt8 → Option UInt64
  | [] => if have_digit then some v else none
  | c :: s =>
    if c = ' '.toUInt8 ∨ c = '\t'.toUInt8 then
      if !have_digit then parse_dec_digits v have_digit s else some v
    else if c < '0'.toUInt8 ∨ '9'.toUInt8 < c then none
    else
      let next := v * 10 + (c - '0'.toUInt8).toUInt64
      if next < v then none else parse_dec_digits next true s

def parse_dec_u32 (s : List UInt8) : Option UInt64 := parse_dec_digits 0 false s

def contains_chunked_token : List UInt8 → Bool
  | [] => false
  | c :: s =>
    (7 ≤ (c :: s).length && ci_equal_n (c :: s) (ascii "chunked") 7) || contains_chunked_token s

def is_digit (c : UInt8) : Bool := '0'.toUInt8 ≤ c && c ≤ '9'.toUInt8

def parse_status_code (line : List UInt8) : Int :=
  if line.length < 12 then -1
  else if line.take 5 ≠ ascii "HTTP/" then -1
  else
    match (line.dropWhile (· != ' '.toUInt8)).dropWhile (· == ' '.toUInt8) with
    | a :: b :: c :: _ =>
      if !is_digit a || !is_digit b || !is_digit c then -1
      else (a - '0'.toUInt8).toNat * 100 + (b - '0'.toUInt8).toNat * 10 + (c - '0'.toUInt8).toNat
    | _ => -1

/-- The first line of a text and what follows its line end. -/
def split_line : List UInt8 → Option (List UInt8 × List UInt8)
  | a :: b :: rest =>
    if a = '\r'.toUInt8 ∧ b = '\n'.toUInt8 then some ([], rest)
    else (split_line (b :: rest)).map fun (line, after) => (a :: line, after)
  | _ => none

/-- What `parse_headers` does with one line. -/
def parse_field (line : List UInt8) (m : http_meta) : http_meta :=
  let name := line.takeWhile (· != ':'.toUInt8)
  if name.length < line.length then
    let value := (line.drop (name.length + 1)).dropWhile fun c => c == ' '.toUInt8 || c == '\t'.toUInt8
    if name.length = 14 ∧ ci_equal_n name (ascii "Content-Length") 14 then
      match parse_dec_u32 value with
      | some cl => { m with has_content_length := true, content_length := cl }
      | none => m
    else if name.length = 17 ∧ ci_equal_n name (ascii "Transfer-Encoding") 17 then
      if contains_chunked_token value then { m with is_chunked := true } else m
    else m
  else m

/-- The loop of `parse_headers` over the fields; `line` holds the characters since `line_start`. -/
def parse_fields (m : http_meta) (line : List UInt8) : List UInt8 → Option http_meta
  | a :: b :: rest =>
    if a = '\r'.toUInt8 ∧ b = '\n'.toUInt8 then
      if line = [] then some m else parse_fields (parse_field line m) [] rest
    else parse_fields m (line ++ [a]) (b :: rest)
  | _ => if line = [] then some m else none

def parse_headers (header : List UInt8) : Option http_meta :=
  match split_line header with
  | none => none
  | some (line, rest) =>
    let status_code := parse_status_code line
    if status_code < 100 then none else parse_fields { http_meta.zero with status_code } [] rest

/-! ## Sinks -/

inductive http_sink_ret
  | HTTP_SINK_OK
  | HTTP_SINK_FULL
  | HTTP_SINK_ERR
  deriving DecidableEq

abbrev http_sink_fn (σ : Type) := (ctx : σ) → (data : List UInt8) → http_sink_ret × σ

/-- `out` holds the `used` bytes that were stored. -/
structure http_buffer_sink_ctx where
  out : List UInt8
  cap : Nat

def http_buffer_sink : http_sink_fn http_buffer_sink_ctx := fun s data =>
  if s.out.length ≥ s.cap then (.HTTP_SINK_FULL, s)
  else
    let avail := s.cap - s.out.length
    let to_copy := if data.length ≤ avail then data.length else avail
    let s := { s with out := s.out ++ data.take to_copy }
    if to_copy < data.length then (.HTTP_SINK_FULL, s) else (.HTTP_SINK_OK, s)

/-- A callback with the state it keeps, and its negative or other answer. -/
abbrev write_cb_fn (σ : Type) := (state : σ) → (data : List UInt8) → Int × σ

structure http_stream_sink_ctx (σ : Type) where
  state : σ
  total : Nat

def http_stream_sink (write_cb : write_cb_fn σ) : http_sink_fn (http_stream_sink_ctx σ) := fun s data =>
  let (ret, state) := write_cb s.state data
  if ret < 0 then (.HTTP_SINK_ERR, { s with state })
  else (.HTTP_SINK_OK, { state, total := s.total + data.length })

/-! ## Chunked bodies -/

inductive http_chunk_state
  | CHUNK_READ_SIZE
  | CHUNK_READ_DATA
  | CHUNK_EXPECT_CR
  | CHUNK_EXPECT_LF
  | CHUNK_DONE
  deriving DecidableEq

structure http_chunk_decoder where
  state : http_chunk_state
  chunk_size : UInt64
  chunk_read : UInt64
  size_line : List UInt8
  deriving DecidableEq

def http_chunk_decoder.zero : http_chunk_decoder := ⟨.CHUNK_READ_SIZE, 0, 0, []⟩

def hex_value (c : UInt8) : Option UInt64 :=
  if '0'.toUInt8 ≤ c ∧ c ≤ '9'.toUInt8 then some (c - '0'.toUInt8).toUInt64
  else if 'a'.toUInt8 ≤ c ∧ c ≤ 'f'.toUInt8 then some (10 + (c - 'a'.toUInt8).toUInt64)
  else if 'A'.toUInt8 ≤ c ∧ c ≤ 'F'.toUInt8 then some (10 + (c - 'A'.toUInt8).toUInt64)
  else none

/-- The loop of `parse_hex_size`, with its value so far. -/
def parse_hex_digits (v : UInt64) (have_digit : Bool) : List UInt8 → Option UInt64
  | [] => if have_digit then some v else none
  | c :: s =>
    if c = ';'.toUInt8 then if have_digit then some v else none
    else
      match hex_value c with
      | some d =>
        let next := (v <<< 4) + d
        if next < v then none else parse_hex_digits next true s
      | none =>
        if c = ' '.toUInt8 ∨ c = '\t'.toUInt8 then
          if !have_digit then parse_hex_digits v have_digit s else some v
        else none

def parse_hex_size (s : List UInt8) : Option UInt64 := parse_hex_digits 0 false s

/-- `chunk_size - chunk_read`. -/
def http_chunk_decoder.remain (dec : http_chunk_decoder) : Nat := (dec.chunk_size - dec.chunk_read).toNat

/-- The end of a pass through `CHUNK_READ_DATA`. -/
def http_chunk_decoder.after_data (dec : http_chunk_decoder) : http_chunk_decoder :=
  if dec.chunk_read = dec.chunk_size then { dec with state := .CHUNK_EXPECT_CR } else dec

theorem http_chunk_decoder.chunk_read_eq_iff (dec : http_chunk_decoder) :
    dec.chunk_read = dec.chunk_size ↔ dec.remain = 0 := by
  rw [remain]
  constructor
  · intro h
    rw [h, UInt64.sub_self, UInt64.toNat_zero]
  · intro h
    have hsub : dec.chunk_size - dec.chunk_read = 0 := UInt64.toNat_inj.1 h
    rw [← UInt64.sub_add_cancel dec.chunk_size dec.chunk_read, hsub, UInt64.zero_add]

/-- Positive when the body ends here or the sink is full, negative when the body is malformed or the sink fails. -/
def decode_chunked_bytes (sink : http_sink_fn σ) (dec : http_chunk_decoder) (ctx : σ) (data : List UInt8) :
    Int × http_chunk_decoder × σ :=
  match _hdata : data with
  | [] => (0, dec, ctx)
  | c :: rest =>
    match hstate : dec.state with
    | .CHUNK_DONE => (1, dec, ctx)
    | .CHUNK_READ_SIZE =>
      if c = '\r'.toUInt8 then decode_chunked_bytes sink dec ctx rest
      else if c = '\n'.toUInt8 then
        match parse_hex_size dec.size_line with
        | none => (-1, dec, ctx)
        | some sz =>
          if sz = 0 then (1, ⟨.CHUNK_DONE, sz, 0, []⟩, ctx)
          else decode_chunked_bytes sink ⟨.CHUNK_READ_DATA, sz, 0, []⟩ ctx rest
      else if dec.size_line.length ≥ 31 then (-1, dec, ctx)
      else decode_chunked_bytes sink { dec with size_line := dec.size_line ++ [c] } ctx rest
    | .CHUNK_READ_DATA =>
      let take := min (c :: rest).length dec.remain
      if _htake : take > 0 then
        match sink ctx ((c :: rest).take take) with
        | (.HTTP_SINK_ERR, ctx) => (-1, dec, ctx)
        | (.HTTP_SINK_FULL, ctx) => (1, { dec with chunk_read := dec.chunk_read + UInt64.ofNat take }, ctx)
        | (.HTTP_SINK_OK, ctx) =>
          decode_chunked_bytes sink { dec with chunk_read := dec.chunk_read + UInt64.ofNat take }.after_data ctx
            ((c :: rest).drop take)
      else decode_chunked_bytes sink dec.after_data ctx (c :: rest)
    | .CHUNK_EXPECT_CR =>
      if c ≠ '\r'.toUInt8 then (-1, dec, ctx)
      else decode_chunked_bytes sink { dec with state := .CHUNK_EXPECT_LF } ctx rest
    | .CHUNK_EXPECT_LF =>
      if c ≠ '\n'.toUInt8 then (-1, dec, ctx)
      else decode_chunked_bytes sink { dec with state := .CHUNK_READ_SIZE } ctx rest
  termination_by (data.length, if dec.state = .CHUNK_READ_DATA then 1 else 0)
  decreasing_by
    all_goals subst _hdata
    all_goals try (apply Prod.Lex.left; simp; done)
    · apply Prod.Lex.left
      rw [List.length_drop]
      exact Nat.sub_lt (Nat.succ_pos _) _htake
    · apply Prod.Lex.right
      have hread : dec.chunk_read = dec.chunk_size := by
        rw [dec.chunk_read_eq_iff]
        have hmin : ¬0 < min (rest.length + 1) dec.remain := _htake
        omega
      simp [http_chunk_decoder.after_data, hread, hstate]

/-! ## The request -/

/-- What the receive loop keeps from read to read. -/
structure recv_state (σ : Type) where
  header_buf : List UInt8
  headers_done : Bool
  http_meta : http_meta
  decoder : http_chunk_decoder
  body_total : Nat
  ctx : σ

inductive header_result
  | unfinished (header_buf : List UInt8)
  | done (header_buf body : List UInt8)
  | too_large
  deriving DecidableEq

/-- The loop that collects headers from the bytes of a read. -/
def header_loop (header_buf : List UInt8) : List UInt8 → header_result
  | [] => .unfinished header_buf
  | c :: chunk =>
    if header_buf.length ≥ HTTP_HEADER_BUF_SIZE - 1 then .too_large
    else
      let header_buf := header_buf ++ [c]
      if header_buf.length ≥ 4 ∧ header_buf.drop (header_buf.length - 4) = ascii "\r\n\r\n" then .done header_buf chunk
      else header_loop header_buf chunk

/-- What one pass through the receive loop ends with: the next pass, `break`, or `return -1`. -/
inductive recv_result (σ : Type)
  | again (s : recv_state σ)
  | stop (s : recv_state σ)
  | fail (s : recv_state σ)

/-- The bytes of a read that belong to the body. -/
def on_body (sink : http_sink_fn σ) (s : recv_state σ) (body : List UInt8) : recv_result σ :=
  if body = [] then .again s
  else if s.http_meta.is_chunked then
    let (ret, decoder, ctx) := decode_chunked_bytes sink s.decoder s.ctx body
    let s := { s with decoder, ctx }
    if ret < 0 then .fail s else if ret > 0 then .stop s else .again s
  else if s.http_meta.has_content_length ∧ s.body_total ≥ s.http_meta.content_length.toNat then .stop s
  else
    let remain := s.http_meta.content_length.toNat - s.body_total
    let deliver_len := if s.http_meta.has_content_length ∧ body.length > remain then remain else body.length
    match sink s.ctx (body.take deliver_len) with
    | (.HTTP_SINK_ERR, ctx) => .fail { s with ctx }
    | (.HTTP_SINK_FULL, ctx) => .stop { s with ctx, body_total := s.body_total + deliver_len }
    | (.HTTP_SINK_OK, ctx) =>
      let s := { s with ctx, body_total := s.body_total + deliver_len }
      if s.http_meta.has_content_length ∧ s.body_total ≥ s.http_meta.content_length.toNat then .stop s else .again s

/-- One pass through the receive loop. -/
def on_read (sink : http_sink_fn σ) (s : recv_state σ) (chunk : List UInt8) : recv_result σ :=
  if s.headers_done then on_body sink s chunk
  else
    match header_loop s.header_buf chunk with
    | .too_large => .fail s
    | .unfinished header_buf => .again { s with header_buf }
    | .done header_buf body =>
      match parse_headers header_buf with
      | none => .fail { s with header_buf, headers_done := true }
      | some m => on_body sink { s with header_buf, headers_done := true, http_meta := m } body

/-- The receive loop: `tcp_recv_wait` returns the reads one by one, and then nothing. -/
def recv_loop (sink : http_sink_fn σ) (s : recv_state σ) : (reads : List (List UInt8)) → Int × recv_state σ
  | [] => (0, s)
  | chunk :: reads =>
    if chunk = [] then (0, s)
    else
      match on_read sink s chunk with
      | .again s => recv_loop sink s reads
      | .stop s => (0, s)
      | .fail s => (-1, s)

def recv_state.start (ctx : σ) : recv_state σ := ⟨[], false, http_meta.zero, http_chunk_decoder.zero, 0, ctx⟩

structure net_device where
  ip : UInt32
  netmask : UInt32
  gateway : UInt32

/-- What the layers below answer to one request. -/
structure http_net where
  net_ready : Bool
  net_get_device : Option net_device
  arp_warmup : (ip : UInt32) → Bool
  tcp_connect : (ip : UInt32) → (port : UInt16) → Int
  tcp_send : (data : List UInt8) → Int

/-- `http_fetch_internal` up to the receive loop. -/
def http_request (net : http_net) (host path : List UInt8) : Bool :=
  let ip := parse_ipv4 host
  if ip = 0 then false
  else
    match net.net_get_device with
    | none => false
    | some dev =>
      let next_hop := if ip &&& dev.netmask = dev.ip &&& dev.netmask then ip else dev.gateway
      if !net.arp_warmup next_hop then false
      else
        match build_request host path HTTP_REQ_BUF_SIZE with
        | none => false
        | some req => if net.tcp_connect ip 80 ≠ 0 then false else if net.tcp_send req < 0 then false else true

/-- The result, and what the receive loop leaves; `*out_total` is its `body_total`. -/
def http_fetch_internal (net : http_net) (host path : List UInt8) (sink : http_sink_fn σ) (sink_ctx : σ)
    (reads : List (List UInt8)) : Int × recv_state σ :=
  if http_request net host path then recv_loop sink (recv_state.start sink_ctx) reads
  else (-1, recv_state.start sink_ctx)

/-- The conversion of a `size_t` to an `int`. -/
def as_int (n : Nat) : Int := if n % 2 ^ 32 < 2 ^ 31 then (n % 2 ^ 32 : Nat) else (n % 2 ^ 32 : Nat) - 2 ^ 32

/-- The result, and the bytes in the buffer; `buffer` says that there is one. -/
def http_fetch (net : http_net) (host path : Option (List UInt8)) (buffer : Bool) (max_size : Nat)
    (reads : List (List UInt8)) : Int × List UInt8 :=
  match net.net_ready, host, path, buffer with
  | true, some host, some path, true =>
    if max_size = 0 then (-1, [])
    else
      let (ret, s) := http_fetch_internal net host path http_buffer_sink ⟨[], max_size⟩ reads
      (if ret < 0 then -1 else as_int s.ctx.out.length, s.ctx.out)
  | _, _, _, _ => (-1, [])

def http_fetch_stream (net : http_net) (host path : Option (List UInt8)) (write_cb : Option (write_cb_fn σ))
    (state : σ) (reads : List (List UInt8)) : Int × σ :=
  match net.net_ready, host, path, write_cb with
  | true, some host, some path, some write_cb =>
    let (ret, s) := http_fetch_internal net host path (http_stream_sink write_cb) ⟨state, 0⟩ reads
    (if ret < 0 then -1 else as_int s.ctx.total, s.ctx.state)
  | _, _, _, _ => (-1, state)

end graceos.http
