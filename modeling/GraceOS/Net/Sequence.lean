import GraceOS.Net.Stream

/-!
# The send sequence number

`tcp_send` moves `conn->seq` by what it sends. `tcp_receive` moves it too, to any acknowledged
number that is larger as an unsigned integer.
-/

namespace graceos.net

open machine

namespace TcpConn

variable {conn : TcpConn} {seg : Segment} {seq : UInt32}

/-- The segment does not acknowledge more than was sent, or the connection does not stay
established. -/
def Modest (conn : TcpConn) (seg : Segment) : Prop :=
  conn.Accepts seg → conn.state = .established → seg.has TCP_FLAG_RST = false → seg.has TCP_FLAG_FIN = false →
    seg.has TCP_FLAG_ACK = true → seg.ack_num ≤ conn.seq

/-- While the connection is being opened or is open, its sequence number is `seq`. -/
def At (seq : UInt32) (conn : TcpConn) : Prop := conn.state = .syn_sent ∨ conn.state = .established → conn.seq = seq

theorem copy_in_seq (conn : TcpConn) (xs : List UInt8) : (conn.copy_in xs).seq = conn.seq := by
  induction xs generalizing conn with
  | nil => rfl
  | cons x xs ih =>
    rw [copy_in, ih]

theorem copy_in_state (conn : TcpConn) (xs : List UInt8) : (conn.copy_in xs).state = conn.state := by
  induction xs generalizing conn with
  | nil => rfl
  | cons x xs ih =>
    rw [copy_in, ih]

theorem take_data_seq (conn : TcpConn) (seg : Segment) : (conn.take_data seg).1.seq = conn.seq := by
  rw [take_data]
  split
  · exact copy_in_seq _ _
  · rfl

theorem take_data_state (conn : TcpConn) (seg : Segment) : (conn.take_data seg).1.state = conn.state := by
  rw [take_data]
  split
  · exact copy_in_state _ _
  · rfl

theorem tcp_recv_seq (conn : TcpConn) (max_len : Nat) :
    (conn.tcp_recv max_len).1.seq = conn.seq ∧ (conn.tcp_recv max_len).1.state = conn.state := by
  induction max_len generalizing conn with
  | zero => exact ⟨rfl, rfl⟩
  | succ max_len ih =>
    rw [tcp_recv]
    split
    · exact ih _
    · exact ⟨rfl, rfl⟩

/-- A segment moves the number only by its acknowledgement. -/
theorem At.tcp_receive (hat : conn.At seq) (hmodest : conn.Modest seg) : (conn.tcp_receive seg).1.At seq := by
  by_cases haccepts : conn.Accepts seg
  · rw [TcpConn.tcp_receive, if_neg (not_not.mpr haccepts.1), if_neg (not_not.mpr haccepts.2)]
    cases hstate : conn.state with
    | syn_sent =>
      have hseq := hat (.inl hstate)
      dsimp only
      split_ifs
      · exact fun _ => hseq
      · exact fun _ => hseq
      · rintro (h | h) <;> cases h
      · exact fun _ => hseq
    | established =>
      have hseq := hat (.inr hstate)
      dsimp only
      split_ifs with hrst
      · rintro (h | h) <;> cases h
      · rw [take_fin]
        split_ifs with hfin
        · rintro (h | h) <;> cases h
        · intro _
          change ((conn.take_ack seg).take_data seg).1.seq = seq
          rw [take_data_seq, take_ack]
          split
          · next hmore =>
            have hle := hmodest haccepts hstate (by simpa using hrst) (by simpa using hfin) hmore.1
            exact absurd hmore.2 (UInt32.not_lt.mpr hle)
          · exact hseq
    | fin_wait =>
      dsimp only
      split_ifs
      · rintro (h | h) <;> cases h
      · exact hat
    | closed => exact hat
  · rw [tcp_receive_ignored haccepts]
    exact hat

theorem modest_iff : conn.Modest seg ↔
    ((conn.tcp_receive seg).1.state = .established → (conn.tcp_receive seg).1.seq = conn.seq) := by
  constructor
  · intro hmodest hopen
    exact At.tcp_receive (fun _ => rfl) hmodest (.inr hopen)
  · intro hsame haccepts hstate hrst hfin hack
    rw [tcp_receive, if_neg (not_not.mpr haccepts.1), if_neg (not_not.mpr haccepts.2), hstate] at hsame
    dsimp only at hsame
    rw [if_neg (by simp [hrst]), take_fin, if_neg (by simp [hfin])] at hsame
    dsimp only at hsame
    rw [take_data_seq, take_data_state, (conn.take_ack_rest seg).1, hstate] at hsame
    have hseq := hsame rfl
    by_contra hmore
    rw [take_ack, if_pos ⟨hack, UInt32.not_le.mp hmore⟩] at hseq
    exact hmore (UInt32.le_of_eq hseq)

/-- All segments of a poll are modest when they arrive. -/
def ModestPoll (conn : TcpConn) (segs : List Segment) : Prop :=
  Along (fun conn seg => (conn.tcp_receive seg).1) Modest conn segs

theorem At.tcp_poll (hat : conn.At seq) {segs : List Segment} (hpoll : conn.ModestPoll segs) :
    (conn.tcp_poll segs).At seq :=
  hpoll.invariant (I := At seq) (fun _ _ hat hmodest => hat.tcp_receive hmodest) hat

/-- The polls of the loop that sends the SYN. -/
def ModestSyn (attempts : Nat → Attempt) (conn : TcpConn) : (left : Nat) → Prop
  | 0 => True
  | left + 1 =>
    match attempts (TCP_SYN_SEND_RETRIES - (left + 1)) with
    | .sent => True
    | .failed segs => conn.ModestPoll segs ∧ ModestSyn attempts (conn.tcp_poll segs) left

theorem At.send_syn (hat : conn.At seq) {attempts : Nat → Attempt} {left : Nat}
    (hmodest : conn.ModestSyn attempts left) (hsent : (conn.send_syn attempts left).1 = true) :
    (conn.send_syn attempts left).2.At (seq + 1) := by
  induction left generalizing conn with
  | zero => cases hsent
  | succ left ih =>
    rw [TcpConn.send_syn] at hsent ⊢
    rw [ModestSyn] at hmodest
    cases hattempt : attempts (TCP_SYN_SEND_RETRIES - (left + 1)) with
    | sent =>
      exact fun hopen => congrArg (· + 1) (hat hopen)
    | failed segs =>
      rw [hattempt] at hmodest hsent
      exact ih (hat.tcp_poll hmodest.1) hmodest.2 hsent

/-- The polls of the loop that waits for the answer to the SYN. -/
def ModestAwait (conn : TcpConn) : (polls : List (List Segment)) → Prop
  | [] => True
  | segs :: polls => conn.ModestPoll segs ∧ ModestAwait (conn.tcp_poll segs) polls

theorem At.await_syn_ack (hat : conn.At seq) {polls : List (List Segment)} (hmodest : conn.ModestAwait polls) :
    (conn.await_syn_ack polls).2.At seq := by
  induction polls generalizing conn with
  | nil => rintro (h | h) <;> cases h
  | cons segs polls ih =>
    have hpoll := hat.tcp_poll hmodest.1
    rw [TcpConn.await_syn_ack]
    split_ifs
    · exact hpoll
    · exact hpoll
    · exact ih hpoll hmodest.2

end TcpConn

/-- The TCP client with the initial number of its connection and the bytes passed to `tcp_send`
since. -/
structure Sender where
  tcp : Tcp
  isn : UInt32
  sent : Nat

namespace Sender

inductive Call where
  | connect (dev : Bool) (remote_ip : UInt32) (remote_port : UInt16) (attempts : Nat → TcpConn.Attempt)
      (polls : List (List Segment))
  | send (data : List UInt8) (taken : Bool)
  | segment (seg : Segment)
  | recv (max_len : Nat)
  | close (polls : List (List Segment))

/-- The initial number that `tcp_connect` chooses. -/
def next_isn (tcp : Tcp) (remote_ip : UInt32) (remote_port : UInt16) : UInt32 :=
  (tcp.alloc_local_port.2.generate_isn remote_ip remote_port tcp.alloc_local_port.1).1

def step (w : Sender) : Call → Sender
  | .connect dev remote_ip remote_port attempts polls =>
    if dev then
      ⟨(w.tcp.tcp_connect dev remote_ip remote_port attempts polls).2, next_isn w.tcp remote_ip remote_port, 0⟩
    else w
  | .send data taken =>
    let r := w.tcp.conn.tcp_send data taken
    ⟨{ w.tcp with conn := r.2 }, w.isn, if r.1 then w.sent + data.length else w.sent⟩
  | .segment seg => { w with tcp := { w.tcp with conn := (w.tcp.conn.tcp_receive seg).1 } }
  | .recv max_len => { w with tcp := { w.tcp with conn := (w.tcp.conn.tcp_recv max_len).1 } }
  | .close polls => { w with tcp := { w.tcp with conn := w.tcp.conn.tcp_close polls } }

/-- No segment that arrives acknowledges more than was sent. -/
def Quiet (w : Sender) : Call → Prop
  | .connect dev remote_ip remote_port attempts polls => dev = true →
    let isn := next_isn w.tcp remote_ip remote_port
    let conn := TcpConn.opening remote_ip remote_port w.tcp.alloc_local_port.1 isn
    conn.ModestSyn attempts TcpConn.TCP_SYN_SEND_RETRIES ∧
      (conn.send_syn attempts TcpConn.TCP_SYN_SEND_RETRIES).2.ModestAwait polls
  | .segment seg => w.tcp.conn.Modest seg
  | _ => True

/-- The number is the initial one, the SYN and the bytes sent. -/
def Sound (w : Sender) : Prop := w.tcp.conn.At (w.isn + 1 + UInt32.ofNat w.sent)

variable {w : Sender} {call : Call}

theorem Sound.step (hs : w.Sound) (hquiet : w.Quiet call) : (w.step call).Sound := by
  cases call with
  | connect dev remote_ip remote_port attempts polls =>
    cases dev with
    | false => exact hs
    | true =>
      obtain ⟨hsyn, hawait⟩ := hquiet rfl
      generalize hisn : next_isn w.tcp remote_ip remote_port = isn at hsyn hawait
      have hat : (TcpConn.opening remote_ip remote_port w.tcp.alloc_local_port.1 isn).At isn := fun _ => rfl
      have hsent := hat.send_syn hsyn
      have hconn : (w.step (.connect true remote_ip remote_port attempts polls)).isn = isn := hisn
      rw [Sound, hconn]
      simp only [Sender.step, if_true, Tcp.tcp_connect, Bool.not_true, Bool.false_eq_true, if_false]
      rw [next_isn] at hisn
      rw [hisn]
      generalize (TcpConn.opening remote_ip remote_port w.tcp.alloc_local_port.1 isn).send_syn attempts
        TcpConn.TCP_SYN_SEND_RETRIES = r at hsent hawait ⊢
      obtain ⟨ok, conn⟩ := r
      cases ok with
      | false => rintro (h | h) <;> cases h
      | true =>
        have hopen := (hsent rfl).await_syn_ack hawait
        intro h
        rw [hopen h]
        simp
  | send data taken =>
    rw [Sound, Sender.step, TcpConn.tcp_send]
    by_cases hstate : w.tcp.conn.state = .established
    · rw [if_neg (not_not.mpr hstate)]
      cases taken with
      | false => exact hs
      | true =>
        intro hopen
        have hseq := hs (.inr hstate)
        simp only [if_true]
        rw [hseq, UInt32.ofNat_add, UInt32.add_assoc]
    · rw [if_pos hstate]
      exact hs
  | segment seg => exact TcpConn.At.tcp_receive hs hquiet
  | recv max_len =>
    obtain ⟨hseq, hstate⟩ := w.tcp.conn.tcp_recv_seq max_len
    intro hopen
    simp only [Sender.step] at hopen ⊢
    rw [hstate] at hopen
    rw [hseq]
    exact hs hopen
  | close polls =>
    rw [Sound, Sender.step]
    dsimp only
    rw [TcpConn.tcp_close]
    split_ifs with hclosed
    · exact hs
    · rintro (h | h) <;> cases h

end Sender

/-- As long as no segment acknowledges more than was sent, the number of an established connection
counts the bytes passed to `tcp_send`. Any other segment moves it. -/
theorem tcp_seq_counts_sent (tcp : Tcp) (hclosed : tcp.conn.state = .closed) (calls : List Sender.Call)
    (hquiet : Along Sender.step Sender.Quiet ⟨tcp, 0, 0⟩ calls) :
    let w := run Sender.step ⟨tcp, 0, 0⟩ calls
    (w.tcp.conn.state = .established → w.tcp.conn.seq = w.isn + 1 + UInt32.ofNat w.sent) ∧
    ∀ seg, w.tcp.conn.Modest seg ↔ ((w.tcp.conn.tcp_receive seg).1.state = .established →
      (w.tcp.conn.tcp_receive seg).1.seq = w.tcp.conn.seq) := by
  intro w
  have hstart : Sender.Sound ⟨tcp, 0, 0⟩ := by
    rintro (h | h) <;> rw [hclosed] at h <;> cases h
  have hs : w.Sound := hquiet.invariant (I := Sender.Sound) (fun _ _ hs hcall => hs.step hcall) hstart
  exact ⟨fun hopen => hs (.inr hopen), fun seg => TcpConn.modest_iff⟩

/-- A client connects, is answered, sends three bytes, and their acknowledgement arrives. -/
theorem acknowledged_bytes_counted :
    let isn := Sender.next_isn ⟨0xdeadbeef, 49152, .opening 0 0 0 0⟩ 1 80
    let w := run Sender.step ⟨⟨0xdeadbeef, 49152, { TcpConn.opening 0 0 0 0 with state := .closed }⟩, 0, 0⟩
      [.connect true 1 80 (fun _ => .sent) [[⟨80, 49152, 7, isn + 1, TCP_FLAG_SYN ||| TCP_FLAG_ACK, []⟩]],
        .send [1, 2, 3] true, .segment ⟨80, 49152, 8, isn + 4, TCP_FLAG_ACK, []⟩]
    w.tcp.conn.state = .established ∧ w.sent = 3 ∧ w.tcp.conn.seq = w.isn + 1 + UInt32.ofNat w.sent := by
  intro isn w
  have hcounts := tcp_seq_counts_sent ⟨0xdeadbeef, 49152, { TcpConn.opening 0 0 0 0 with state := .closed }⟩ rfl
    [.connect true 1 80 (fun _ => .sent) [[⟨80, 49152, 7, isn + 1, TCP_FLAG_SYN ||| TCP_FLAG_ACK, []⟩]],
      .send [1, 2, 3] true, .segment ⟨80, 49152, 8, isn + 4, TCP_FLAG_ACK, []⟩] ?_
  · exact ⟨by decide +kernel, by decide +kernel, hcounts.1 (by decide +kernel)⟩
  · refine ⟨fun _ => ⟨trivial, ⟨?_, trivial⟩, trivial⟩, trivial, ?_, trivial⟩
    · intro _ hstate
      cases hstate
    · intro _ _ _ _ _
      decide +kernel

/-- The acknowledgement of a number that was never sent moves the number of the connection. -/
theorem large_acknowledgement_moves_seq :
    let isn := Sender.next_isn ⟨0xdeadbeef, 49152, .opening 0 0 0 0⟩ 1 80
    let w := run Sender.step ⟨⟨0xdeadbeef, 49152, { TcpConn.opening 0 0 0 0 with state := .closed }⟩, 0, 0⟩
      [.connect true 1 80 (fun _ => .sent) [[⟨80, 49152, 7, isn + 1, TCP_FLAG_SYN ||| TCP_FLAG_ACK, []⟩]],
        .segment ⟨80, 49152, 8, 0xFFFFFFFF, TCP_FLAG_ACK, []⟩]
    w.tcp.conn.state = .established ∧ w.sent = 0 ∧ w.tcp.conn.seq ≠ w.isn + 1 := by
  decide +kernel

end graceos.net
