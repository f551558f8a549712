import GraceOS.Lib.Ring
import GraceOS.Lib.Machine

/-!
# The TCP client

`tcp.c`, with segments in host byte order. A call of `tcp_send_segment` hands a segment to the layer
below and does not touch the connection. What the layer below delivers while a call polls it, and
whether it takes a segment, are arguments of the call.
-/

namespace graceos.net

/-- `tcp_state_t`. -/
inductive TcpState where
  | closed
  | syn_sent
  | established
  | fin_wait
deriving DecidableEq

def TCP_FLAG_FIN : UInt8 := 1
def TCP_FLAG_SYN : UInt8 := 2
def TCP_FLAG_RST : UInt8 := 4
def TCP_FLAG_PSH : UInt8 := 8
def TCP_FLAG_ACK : UInt8 := 16

def TCP_RECV_BUF_SIZE : Nat := 64 * 1024

/-- The fields of `struct tcp_header` that the receiver reads, and the payload behind it. -/
structure Segment where
  src_port : UInt16
  dst_port : UInt16
  seq : UInt32
  ack_num : UInt32
  flags : UInt8
  payload : List UInt8

def Segment.has (seg : Segment) (flag : UInt8) : Bool := (seg.flags &&& flag) != 0

/-- `tcp_conn_t`. -/
structure TcpConn where
  state : TcpState
  remote_ip : UInt32
  remote_port : UInt16
  local_port : UInt16
  seq : UInt32
  ack : UInt32
  remote_seq : UInt32
  recv_buf : Nat → UInt8
  recv_head : Nat
  recv_tail : Nat
  recv_closed : Bool

namespace TcpConn

/-- The segment that `tcp_send_segment` builds. -/
def tcp_send_segment (conn : TcpConn) (flags : UInt8) (data : List UInt8) : Segment :=
  { src_port := conn.local_port
    dst_port := conn.remote_port
    seq := conn.seq
    ack_num := if (flags &&& TCP_FLAG_ACK) != 0 then conn.ack else 0
    flags := flags
    payload := data }

/-- The number of bytes in the receive buffer. -/
def buf_used (conn : TcpConn) : Nat :=
  if conn.recv_tail ≥ conn.recv_head then conn.recv_tail - conn.recv_head
  else TCP_RECV_BUF_SIZE - conn.recv_head + conn.recv_tail

def buf_avail (conn : TcpConn) : Nat := TCP_RECV_BUF_SIZE - conn.buf_used - 1

/-- The loop that copies bytes into the receive buffer. -/
def copy_in (conn : TcpConn) : List UInt8 → TcpConn
  | [] => conn
  | x :: xs => copy_in { conn with
      recv_buf := Function.update conn.recv_buf conn.recv_tail x
      recv_tail := (conn.recv_tail + 1) % TCP_RECV_BUF_SIZE } xs

/-- The acknowledgement of a segment: `conn->seq` is moved. -/
def take_ack (conn : TcpConn) (seg : Segment) : TcpConn :=
  if seg.has TCP_FLAG_ACK ∧ seg.ack_num > conn.seq then { conn with seq := seg.ack_num } else conn

/-- The data of a segment, and what is sent in answer. -/
def take_data (conn : TcpConn) (seg : Segment) : TcpConn × List Segment :=
  if seg.payload.length > 0 ∧ seg.has TCP_FLAG_ACK ∧ seg.seq = conn.ack then
    let to_copy := if seg.payload.length < conn.buf_avail then seg.payload.length else conn.buf_avail
    let conn := copy_in { conn with ack := conn.ack + UInt32.ofNat to_copy } (seg.payload.take to_copy)
    (conn, [conn.tcp_send_segment TCP_FLAG_ACK []])
  else (conn, [])

/-- The end of the peer's stream, and what is sent in answer. -/
def take_fin (conn : TcpConn) (seg : Segment) : TcpConn × List Segment :=
  if seg.has TCP_FLAG_FIN then
    let conn := { conn with ack := conn.ack + 1, recv_closed := true }
    ({ conn with state := .fin_wait }, [conn.tcp_send_segment TCP_FLAG_ACK []])
  else (conn, [])

/-- The connection after a segment, and the segments sent in answer. -/
def tcp_receive (conn : TcpConn) (seg : Segment) : TcpConn × List Segment :=
  if seg.src_port ≠ conn.remote_port then (conn, [])
  else if seg.dst_port ≠ conn.local_port then (conn, [])
  else match conn.state with
  | .syn_sent =>
    if (seg.flags &&& (TCP_FLAG_SYN ||| TCP_FLAG_ACK)) = (TCP_FLAG_SYN ||| TCP_FLAG_ACK) then
      if seg.ack_num ≠ conn.seq then (conn, [])
      else
        let conn := { conn with ack := seg.seq + 1, remote_seq := seg.seq, state := .established }
        (conn, [conn.tcp_send_segment TCP_FLAG_ACK []])
    else if seg.has TCP_FLAG_RST then ({ conn with state := .closed }, [])
    else (conn, [])
  | .established =>
    if seg.has TCP_FLAG_RST then ({ conn with state := .closed, recv_closed := true }, [])
    else
      let (conn, answers) := (conn.take_ack seg).take_data seg
      let (conn, answers') := conn.take_fin seg
      (conn, answers ++ answers')
  | .fin_wait => (if seg.has TCP_FLAG_ACK then { conn with state := .closed } else conn, [])
  | .closed => (conn, [])

/-- `tcp_poll`: the segments that the Ethernet layer delivers. -/
def tcp_poll (conn : TcpConn) (segs : List Segment) : TcpConn :=
  segs.foldl (fun conn seg => (conn.tcp_receive seg).1) conn

/-- The loop of `tcp_recv`, with the bytes it returns. -/
def tcp_recv (conn : TcpConn) : (max_len : Nat) → TcpConn × List UInt8
  | 0 => (conn, [])
  | max_len + 1 =>
    if conn.recv_head ≠ conn.recv_tail then
      let r := tcp_recv { conn with recv_head := (conn.recv_head + 1) % TCP_RECV_BUF_SIZE } max_len
      (r.1, conn.recv_buf conn.recv_head :: r.2)
    else (conn, [])

/-- Why `tcp_recv_wait` returns. -/
inductive Wait where
  | data (bytes : List UInt8)
  | closed
  | timeout
deriving DecidableEq

/-- `tcp_recv_wait`; `polls` are the segments that each round of its loop is delivered, until its
time is over. -/
def tcp_recv_wait (conn : TcpConn) (max_len : Nat) : (polls : List (List Segment)) → TcpConn × Wait
  | [] => (conn, .timeout)
  | segs :: polls =>
    let r := (conn.tcp_poll segs).tcp_recv max_len
    if r.2.length > 0 then (r.1, .data r.2)
    else if r.1.recv_closed ∧ r.1.recv_head = r.1.recv_tail then (r.1, .closed)
    else tcp_recv_wait r.1 max_len polls

def TCP_SYN_SEND_RETRIES : Nat := 4

/-- An attempt of `tcp_connect` to send a SYN: it is sent, or else the layer below is polled. -/
inductive Attempt where
  | sent
  | failed (segs : List Segment)

/-- The loop of `tcp_connect` that sends a SYN; the attempt `n` is `attempts n`. -/
def send_syn (conn : TcpConn) (attempts : Nat → Attempt) : (left : Nat) → Bool × TcpConn
  | 0 => (false, conn)
  | left + 1 =>
    match attempts (TCP_SYN_SEND_RETRIES - (left + 1)) with
    | .sent => (true, { conn with seq := conn.seq + 1 })
    | .failed segs => send_syn (conn.tcp_poll segs) attempts left

/-- The loop of `tcp_connect` that waits for the answer, until its time is over. -/
def await_syn_ack (conn : TcpConn) : (polls : List (List Segment)) → Bool × TcpConn
  | [] => (false, { conn with state := .closed })
  | segs :: polls =>
    let conn := conn.tcp_poll segs
    if conn.state = .established then (true, conn)
    else if conn.state = .closed then (false, conn)
    else await_syn_ack conn polls

/-- A connection before its SYN is sent. -/
def opening (remote_ip : UInt32) (remote_port local_port : UInt16) (isn : UInt32) : TcpConn :=
  { state := .syn_sent, remote_ip := remote_ip, remote_port := remote_port, local_port := local_port, seq := isn
    ack := 0, remote_seq := 0, recv_buf := fun _ => 0, recv_head := 0, recv_tail := 0, recv_closed := false }

/-- `tcp_send`; `taken` is whether the layer below takes the segment. -/
def tcp_send (conn : TcpConn) (data : List UInt8) (taken : Bool) : Bool × TcpConn :=
  if conn.state ≠ .established then (false, conn)
  else if taken then (true, { conn with seq := conn.seq + UInt32.ofNat data.length })
  else (false, conn)

/-- The loop of `tcp_close`, which polls until the connection is closed. -/
def drain (conn : TcpConn) : (polls : List (List Segment)) → TcpConn
  | [] => conn
  | segs :: polls =>
    let conn := conn.tcp_poll segs
    if conn.state = .closed then conn else drain conn polls

def tcp_close (conn : TcpConn) (polls : List (List Segment)) : TcpConn :=
  if conn.state = .closed then conn
  else { ({ conn with state := .fin_wait, seq := conn.seq + 1 } : TcpConn).drain polls with state := .closed }

end TcpConn

/-- The static variables of `tcp.c`, and the connection. -/
structure Tcp where
  isn_seed : UInt32
  ephemeral_port : UInt16
  conn : TcpConn

namespace Tcp

variable (tcp : Tcp)

/-- The seed is moved, and mixed with the addresses of the connection. -/
def generate_isn (remote_ip : UInt32) (remote_port local_port : UInt16) : UInt32 × Tcp :=
  let isn_seed := tcp.isn_seed + 0x9e3779b9
  let h := isn_seed ^^^ remote_ip ^^^ (remote_port.toUInt32 <<< 16) ^^^ local_port.toUInt32
  let h := (h ^^^ (h >>> 16)) * 0x45d9f3b
  let h := h ^^^ (h >>> 16)
  (if h ≠ 0 then h else 1, { tcp with isn_seed := isn_seed })

def alloc_local_port : UInt16 × Tcp :=
  let next := tcp.ephemeral_port + 1
  (tcp.ephemeral_port, { tcp with ephemeral_port := if next = 0 ∨ next > 65534 then 49152 else next })

/-- `tcp_connect`; `dev` is whether there is a network device. -/
def tcp_connect (dev : Bool) (remote_ip : UInt32) (remote_port : UInt16) (attempts : Nat → TcpConn.Attempt)
    (polls : List (List Segment)) : Bool × Tcp :=
  if !dev then (false, tcp)
  else
    let (local_port, tcp) := tcp.alloc_local_port
    let (isn, tcp) := tcp.generate_isn remote_ip remote_port local_port
    match (TcpConn.opening remote_ip remote_port local_port isn).send_syn attempts TcpConn.TCP_SYN_SEND_RETRIES with
    | (false, conn) => (false, { tcp with conn := { conn with state := .closed } })
    | (true, conn) => ((conn.await_syn_ack polls).1, { tcp with conn := (conn.await_syn_ack polls).2 })

end Tcp

end graceos.net
