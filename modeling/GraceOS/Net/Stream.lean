import GraceOS.Net.Tcp

/-!
# The received stream

The receive buffer is a ring that holds what was accepted and not read. A segment is accepted only
where the stream goes on, so that what is read is the peer's stream. A FIN is taken at any place.
-/

namespace graceos.net

open machine List

namespace TcpConn

variable {conn : TcpConn} {seg : Segment}

/-- Both ends of the receive buffer lie in it. -/
structure Bounded (conn : TcpConn) : Prop where
  head : conn.recv_head < TCP_RECV_BUF_SIZE
  tail : conn.recv_tail < TCP_RECV_BUF_SIZE

/-- The bytes in the receive buffer. -/
def unread (conn : TcpConn) : List UInt8 :=
  ring.contents conn.recv_buf TCP_RECV_BUF_SIZE conn.recv_head conn.buf_used

@[simp] theorem length_unread : conn.unread.length = conn.buf_used := ring.length_contents

theorem Bounded.used_lt (hb : conn.Bounded) : conn.buf_used < TCP_RECV_BUF_SIZE := by
  have hhead := hb.head
  have htail := hb.tail
  rw [buf_used]
  split <;> omega

theorem Bounded.tail_eq (hb : conn.Bounded) :
    conn.recv_tail = (conn.recv_head + conn.buf_used) % TCP_RECV_BUF_SIZE := by
  have hhead := hb.head
  have htail := hb.tail
  rw [buf_used]
  split
  · rw [Nat.mod_eq_of_lt (by omega)]
    omega
  · rw [show conn.recv_head + (TCP_RECV_BUF_SIZE - conn.recv_head + conn.recv_tail) =
        TCP_RECV_BUF_SIZE + conn.recv_tail by omega, Nat.add_mod_left, Nat.mod_eq_of_lt htail]

theorem Bounded.empty_iff (hb : conn.Bounded) : conn.buf_used = 0 ↔ conn.recv_head = conn.recv_tail := by
  have hhead := hb.head
  have htail := hb.tail
  rw [buf_used]
  split <;> omega

/-- The rest of a connection, which copying into and out of the buffer leaves alone. -/
structure SameRest (conn conn' : TcpConn) : Prop where
  state : conn'.state = conn.state
  remote_port : conn'.remote_port = conn.remote_port
  local_port : conn'.local_port = conn.local_port
  seq : conn'.seq = conn.seq
  ack : conn'.ack = conn.ack
  recv_closed : conn'.recv_closed = conn.recv_closed

theorem copy_in_spec (hb : conn.Bounded) {xs : List UInt8} (hroom : conn.buf_used + xs.length < TCP_RECV_BUF_SIZE) :
    (conn.copy_in xs).Bounded ∧ (conn.copy_in xs).unread = conn.unread ++ xs ∧ SameRest conn (conn.copy_in xs) := by
  induction xs generalizing conn with
  | nil => exact ⟨hb, by rw [copy_in, append_nil], rfl, rfl, rfl, rfl, rfl, rfl⟩
  | cons x xs ih =>
    rw [length_cons] at hroom
    have hhead := hb.head
    have htail := hb.tail
    have hend := hb.tail_eq
    generalize hnew : ({ conn with
      recv_buf := Function.update conn.recv_buf conn.recv_tail x
      recv_tail := (conn.recv_tail + 1) % TCP_RECV_BUF_SIZE } : TcpConn) = new
    have hb' : new.Bounded := by
      subst hnew
      exact ⟨hhead, Nat.mod_lt _ (by decide)⟩
    have hused : new.buf_used = conn.buf_used + 1 := by
      subst hnew
      simp only [buf_used] at hroom ⊢
      by_cases hwrap : conn.recv_tail + 1 = TCP_RECV_BUF_SIZE
      · rw [hwrap, Nat.mod_self]
        split at hroom <;> split <;> omega
      · rw [Nat.mod_eq_of_lt (by omega)]
        split at hroom <;> split <;> omega
    have hunread : new.unread = conn.unread ++ [x] := by
      rw [unread, hused]
      subst hnew
      rw [unread, ← ring.contents_push (by omega) x, ← hend]
    obtain ⟨hbs, hus, hrest⟩ := ih hb' (by omega)
    rw [copy_in, hnew]
    refine ⟨hbs, by rw [hus, hunread, append_assoc, singleton_append], ?_⟩
    subst hnew
    exact ⟨hrest.state, hrest.remote_port, hrest.local_port, hrest.seq, hrest.ack, hrest.recv_closed⟩

theorem tcp_recv_spec (hb : conn.Bounded) (max_len : Nat) :
    (conn.tcp_recv max_len).1.Bounded ∧
    (conn.tcp_recv max_len).2 ++ (conn.tcp_recv max_len).1.unread = conn.unread ∧
    SameRest conn (conn.tcp_recv max_len).1 := by
  induction max_len generalizing conn with
  | zero => exact ⟨hb, by simp only [tcp_recv, nil_append], rfl, rfl, rfl, rfl, rfl, rfl⟩
  | succ max_len ih =>
    have hhead := hb.head
    have htail := hb.tail
    rw [tcp_recv]
    split
    · next hne =>
      generalize hnew : ({ conn with recv_head := (conn.recv_head + 1) % TCP_RECV_BUF_SIZE } : TcpConn) = new
      have hb' : new.Bounded := by
        subst hnew
        exact ⟨Nat.mod_lt _ (by decide), htail⟩
      have hused : conn.buf_used = new.buf_used + 1 := by
        subst hnew
        simp only [buf_used]
        by_cases hwrap : conn.recv_head + 1 = TCP_RECV_BUF_SIZE
        · rw [hwrap, Nat.mod_self]
          split <;> split <;> omega
        · rw [Nat.mod_eq_of_lt (by omega)]
          split <;> split <;> omega
      have hunread : conn.unread = conn.recv_buf conn.recv_head :: new.unread := by
        rw [unread, hused, ring.contents_pop, Nat.mod_eq_of_lt hhead]
        subst hnew
        rfl
      obtain ⟨hbs, hus, hrest⟩ := ih hb'
      refine ⟨hbs, ?_, ?_⟩
      · dsimp only
        rw [cons_append, hus, hunread]
      · subst hnew
        exact ⟨hrest.state, hrest.remote_port, hrest.local_port, hrest.seq, hrest.ack, hrest.recv_closed⟩
    · exact ⟨hb, rfl, rfl, rfl, rfl, rfl, rfl, rfl⟩

/-- The port filter of `tcp_receive`. -/
def Accepts (conn : TcpConn) (seg : Segment) : Prop :=
  seg.src_port = conn.remote_port ∧ seg.dst_port = conn.local_port

instance (conn : TcpConn) (seg : Segment) : Decidable (conn.Accepts seg) := by
  unfold Accepts
  infer_instance

/-- A FIN that `tcp_receive` takes. -/
def Ends (conn : TcpConn) (seg : Segment) : Prop :=
  conn.Accepts seg ∧ conn.state = .established ∧ seg.has TCP_FLAG_RST = false ∧ seg.has TCP_FLAG_FIN = true

instance (conn : TcpConn) (seg : Segment) : Decidable (conn.Ends seg) := by
  unfold Ends
  infer_instance

/-- The number of bytes of a segment that are copied into the buffer. -/
def accepted (conn : TcpConn) (seg : Segment) : Nat :=
  if seg.payload.length > 0 ∧ seg.has TCP_FLAG_ACK ∧ seg.seq = conn.ack then min seg.payload.length conn.buf_avail
  else 0

theorem take_ack_rest (conn : TcpConn) (seg : Segment) :
    (conn.take_ack seg).state = conn.state ∧ (conn.take_ack seg).ack = conn.ack ∧
    (conn.take_ack seg).recv_closed = conn.recv_closed ∧ (conn.take_ack seg).buf_used = conn.buf_used ∧
    (conn.take_ack seg).unread = conn.unread ∧ ((conn.take_ack seg).Bounded ↔ conn.Bounded) := by
  rw [take_ack]
  split
  · exact ⟨rfl, rfl, rfl, rfl, rfl, fun h => ⟨h.head, h.tail⟩, fun h => ⟨h.head, h.tail⟩⟩
  · exact ⟨rfl, rfl, rfl, rfl, rfl, Iff.rfl⟩

theorem take_data_spec (hb : conn.Bounded) (seg : Segment) :
    (conn.take_data seg).1.Bounded ∧
    (conn.take_data seg).1.unread = conn.unread ++ seg.payload.take (conn.accepted seg) ∧
    (conn.take_data seg).1.ack = conn.ack + UInt32.ofNat (conn.accepted seg) ∧
    (conn.take_data seg).1.state = conn.state ∧ (conn.take_data seg).1.recv_closed = conn.recv_closed := by
  have hused := hb.used_lt
  rw [take_data, accepted]
  split
  · have hcopy : (if seg.payload.length < conn.buf_avail then seg.payload.length else conn.buf_avail) =
        min seg.payload.length conn.buf_avail := by
      split <;> omega
    rw [hcopy]
    generalize hk : min seg.payload.length conn.buf_avail = k
    have havail : conn.buf_avail = TCP_RECV_BUF_SIZE - conn.buf_used - 1 := rfl
    have hroom : conn.buf_used + (seg.payload.take k).length < TCP_RECV_BUF_SIZE := by
      rw [length_take]
      omega
    have hb' : Bounded { conn with ack := conn.ack + UInt32.ofNat k } := ⟨hb.head, hb.tail⟩
    obtain ⟨hbs, hus, hrest⟩ := copy_in_spec hb' hroom
    exact ⟨hbs, hus, hrest.ack, hrest.state, hrest.recv_closed⟩
  · simp [hb]

theorem tcp_receive_ignored (h : ¬ conn.Accepts seg) : conn.tcp_receive seg = (conn, []) := by
  rw [tcp_receive]
  by_cases hsrc : seg.src_port = conn.remote_port
  · rw [if_neg (not_not.mpr hsrc), if_pos fun hdst => h ⟨hsrc, hdst⟩]
  · rw [if_pos hsrc]

/-- What a segment does to an established connection. -/
theorem tcp_receive_established (hb : conn.Bounded) (hstate : conn.state = .established) (seg : Segment) :
    let conn' := (conn.tcp_receive seg).1
    conn'.Bounded ∧
    (conn'.unread = conn.unread ∧ conn'.ack = conn.ack ∧ conn'.recv_closed = conn.recv_closed ∧
        conn'.state = .established ∧ ¬ conn.Ends seg ∨
      conn'.unread = conn.unread ∧ conn'.ack = conn.ack ∧ conn'.state = .closed ∧ ¬ conn.Ends seg ∨
      conn.Accepts seg ∧ conn'.unread = conn.unread ++ seg.payload.take (conn.accepted seg) ∧
        (¬ conn.Ends seg ∧ conn'.ack = conn.ack + UInt32.ofNat (conn.accepted seg) ∧ conn'.state = .established ∨
          conn.Ends seg ∧ conn'.state = .fin_wait)) := by
  intro conn'
  have hconn' : conn' = (conn.tcp_receive seg).1 := rfl
  by_cases haccepts : conn.Accepts seg
  · rw [tcp_receive, if_neg (not_not.mpr haccepts.1), if_neg (not_not.mpr haccepts.2), hstate] at hconn'
    dsimp only at hconn'
    split_ifs at hconn' with hrst
    · rw [hconn']
      exact ⟨⟨hb.head, hb.tail⟩, .inr (.inl ⟨rfl, rfl, rfl, fun h => by simp [h.2.2.1] at hrst⟩)⟩
    · obtain ⟨hst, hack, -, hused, hunread, hbounded⟩ := conn.take_ack_rest seg
      obtain ⟨hbs, hus, hacks, hsts, -⟩ := take_data_spec (hbounded.mpr hb) seg
      have haccepted : (conn.take_ack seg).accepted seg = conn.accepted seg := by
        simp only [accepted, hack, buf_avail, hused]
      rw [haccepted, hunread] at hus
      rw [haccepted, hack] at hacks
      rw [hst, hstate] at hsts
      dsimp only at hconn'
      rw [take_fin] at hconn'
      split_ifs at hconn' with hfin
      · rw [hconn']
        exact ⟨⟨hbs.head, hbs.tail⟩,
          .inr (.inr ⟨haccepts, hus, .inr ⟨⟨haccepts, hstate, by simpa using hrst, hfin⟩, rfl⟩⟩)⟩
      · rw [hconn']
        exact ⟨hbs, .inr (.inr ⟨haccepts, hus, .inl ⟨fun h => hfin h.2.2.2, hacks, hsts⟩⟩)⟩
  · rw [tcp_receive_ignored haccepts] at hconn'
    rw [hconn']
    exact ⟨hb, .inl ⟨rfl, rfl, rfl, hstate, fun h => haccepts h.1⟩⟩

theorem tcp_receive_closing (hstate : conn.state = .fin_wait ∨ conn.state = .closed) (seg : Segment) :
    let conn' := (conn.tcp_receive seg).1
    (conn'.state = .fin_wait ∨ conn'.state = .closed) ∧ conn'.recv_buf = conn.recv_buf ∧
    conn'.recv_head = conn.recv_head ∧ conn'.recv_tail = conn.recv_tail ∧ conn'.ack = conn.ack := by
  intro conn'
  have hconn' : conn' = (conn.tcp_receive seg).1 := rfl
  by_cases haccepts : conn.Accepts seg
  · rw [tcp_receive, if_neg (not_not.mpr haccepts.1), if_neg (not_not.mpr haccepts.2)] at hconn'
    rcases hstate with hstate | hstate
    · rw [hstate] at hconn'
      dsimp only at hconn'
      split_ifs at hconn'
      · rw [hconn']
        exact ⟨.inr rfl, rfl, rfl, rfl, rfl⟩
      · rw [hconn']
        exact ⟨.inl hstate, rfl, rfl, rfl, rfl⟩
    · rw [hstate] at hconn'
      rw [hconn']
      exact ⟨.inr hstate, rfl, rfl, rfl, rfl⟩
  · rw [tcp_receive_ignored haccepts] at hconn'
    rw [hconn']
    exact ⟨hstate, rfl, rfl, rfl, rfl⟩

end TcpConn

/-- A client of a connection: the bytes it has read, and whether a FIN was taken. -/
structure Reader where
  conn : TcpConn
  read : List UInt8
  fin : Bool

inductive Event where
  | segment (seg : Segment)
  | recv (max_len : Nat)

/-- The payload of a segment is what the stream has at its sequence number. -/
def Segment.Agrees (stream : List UInt8) (irs : UInt32) (seg : Segment) : Prop :=
  ∀ i x, seg.payload[i]? = some x → ∃ p, UInt32.ofNat p = seg.seq - irs + UInt32.ofNat i ∧ stream[p]? = some x

/-- A FIN stands behind the last byte of the stream. -/
def Segment.Closes (stream : List UInt8) (irs : UInt32) (seg : Segment) : Prop :=
  seg.has TCP_FLAG_FIN = true → seg.seq + UInt32.ofNat seg.payload.length = irs + UInt32.ofNat stream.length

namespace Reader

def start (conn : TcpConn) : Reader := ⟨conn, [], false⟩

def step (r : Reader) : Event → Reader
  | .segment seg => { r with conn := (r.conn.tcp_receive seg).1, fin := r.fin || decide (r.conn.Ends seg) }
  | .recv max_len =>
    { r with conn := (r.conn.tcp_recv max_len).1, read := r.read ++ (r.conn.tcp_recv max_len).2 }

/-- What was read and what is buffered is the beginning of the stream. -/
structure Sound (stream : List UInt8) (irs : UInt32) (r : Reader) : Prop where
  bounded : r.conn.Bounded
  stream_prefix : r.read ++ r.conn.unread <+: stream
  ack : r.fin = false → r.conn.ack = irs + UInt32.ofNat (r.read.length + r.conn.buf_used)
  state : r.conn.state = .established ∧ r.fin = false ∨ r.conn.state = .fin_wait ∨ r.conn.state = .closed

variable {stream : List UInt8} {irs : UInt32} {r : Reader} {seg : Segment}

theorem ofNat_inj {m n : Nat} (hm : m < 2 ^ 32) (hn : n < 2 ^ 32) (h : UInt32.ofNat m = UInt32.ofNat n) : m = n := by
  have := congrArg UInt32.toNat h
  rw [UInt32.toNat_ofNat', UInt32.toNat_ofNat'] at this
  omega

/-- Bytes that agree with the stream where a prefix of it ends go on with it. -/
theorem prefix_append (hlen : stream.length < 2 ^ 32) {known xs : List UInt8} (hknown : known <+: stream)
    (hxs : ∀ i x, xs[i]? = some x →
      ∃ p, UInt32.ofNat p = UInt32.ofNat known.length + UInt32.ofNat i ∧ stream[p]? = some x) :
    known ++ xs <+: stream := by
  induction xs generalizing known with
  | nil => rwa [append_nil]
  | cons x xs ih =>
    obtain ⟨p, hp, hx⟩ := hxs 0 x rfl
    have hle := hknown.length_le
    have hpos : p = known.length := by
      have hlt := (List.getElem?_eq_some_iff.mp hx).1
      refine ofNat_inj (by omega) (by omega) (hp.trans ?_)
      simp
    have hnext : known ++ [x] <+: stream := by
      obtain ⟨rest, rfl⟩ := hknown
      rw [hpos, List.getElem?_append_right (le_refl _), Nat.sub_self] at hx
      cases rest with
      | nil => cases hx
      | cons y rest =>
        obtain rfl : y = x := by simpa using hx
        exact ⟨rest, by simp⟩
    have hrest := ih hnext fun i y hy => ?_
    · rwa [append_assoc, singleton_append] at hrest
    · obtain ⟨q, hq, hy'⟩ := hxs (i + 1) y hy
      refine ⟨q, hq.trans ?_, hy'⟩
      rw [length_append, length_singleton, UInt32.ofNat_add, UInt32.ofNat_add]
      grind

theorem Sound.segment (hs : r.Sound stream irs) (hlen : stream.length < 2 ^ 32) (hagrees : seg.Agrees stream irs) :
    (r.step (.segment seg)).Sound stream irs := by
  rcases hs.state with ⟨hstate, hfin⟩ | hclosing
  · have hack := hs.ack hfin
    obtain ⟨hb, hcases⟩ := TcpConn.tcp_receive_established hs.bounded hstate seg
    generalize hconn' : (r.conn.tcp_receive seg).1 = conn' at hb hcases
    have hstep : r.step (.segment seg) = ⟨conn', r.read, r.fin || decide (r.conn.Ends seg)⟩ := by
      rw [step, hconn']
    rw [hstep]
    -- what a segment adds goes on with the stream, as its sequence number is the next one
    have hmore : r.read ++ (r.conn.unread ++ seg.payload.take (r.conn.accepted seg)) <+: stream := by
      rw [← append_assoc]
      refine prefix_append hlen hs.stream_prefix fun i x hx => ?_
      rw [TcpConn.accepted] at hx
      split at hx
      · next htaken =>
        have hpayload : seg.payload[i]? = some x := by
          rw [List.getElem?_take] at hx
          split at hx
          · exact hx
          · cases hx
        obtain ⟨p, hp, hpx⟩ := hagrees i x hpayload
        refine ⟨p, hp.trans ?_, hpx⟩
        rw [htaken.2.2, hack, length_append, TcpConn.length_unread]
        grind
      · simp at hx
    rcases hcases with ⟨hu, ha, -, hst, hno⟩ | ⟨hu, ha, hst, hno⟩ | ⟨-, hu, ⟨hno, ha, hst⟩ | ⟨hends, hst⟩⟩
    · have hused : conn'.buf_used = r.conn.buf_used := by
        rw [← TcpConn.length_unread, hu, TcpConn.length_unread]
      exact ⟨hb, by rw [hu]; exact hs.stream_prefix, fun _ => by rw [ha, hused]; exact hack,
        .inl ⟨hst, by simp [hfin, hno]⟩⟩
    · have hused : conn'.buf_used = r.conn.buf_used := by
        rw [← TcpConn.length_unread, hu, TcpConn.length_unread]
      exact ⟨hb, by rw [hu]; exact hs.stream_prefix, fun _ => by rw [ha, hused]; exact hack, .inr (.inr hst)⟩
    · have hused : conn'.buf_used = r.conn.buf_used + r.conn.accepted seg := by
        rw [← TcpConn.length_unread, hu, length_append, TcpConn.length_unread, length_take, TcpConn.accepted]
        split <;> omega
      refine ⟨hb, by rw [hu]; exact hmore, fun _ => ?_, .inl ⟨hst, by simp [hfin, hno]⟩⟩
      rw [ha, hack, hused, UInt32.ofNat_add, UInt32.ofNat_add, UInt32.ofNat_add]
      grind
    · exact ⟨hb, by rw [hu]; exact hmore, fun h => by simp [hends] at h, .inr (.inl hst)⟩
  · obtain ⟨hst, hbuf, hhead, htail, hack⟩ := TcpConn.tcp_receive_closing hclosing seg
    generalize hconn' : (r.conn.tcp_receive seg).1 = conn' at hst hbuf hhead htail hack
    have hused : conn'.buf_used = r.conn.buf_used := by rw [TcpConn.buf_used, hhead, htail]; rfl
    have hunread : conn'.unread = r.conn.unread := by rw [TcpConn.unread, hbuf, hhead, hused]; rfl
    have hno : ¬ r.conn.Ends seg := fun h => by
      rcases hclosing with hc | hc <;> exact absurd (h.2.1.symm.trans hc) (by decide)
    have hstep : r.step (.segment seg) = ⟨conn', r.read, r.fin⟩ := by
      rw [step, hconn', decide_eq_false hno, Bool.or_false]
    rw [hstep]
    exact ⟨⟨by rw [hhead]; exact hs.bounded.head, by rw [htail]; exact hs.bounded.tail⟩,
      by rw [hunread]; exact hs.stream_prefix, fun h => by rw [hack, hused]; exact hs.ack h, .inr hst⟩

theorem Sound.recv (hs : r.Sound stream irs) (max_len : Nat) : (r.step (.recv max_len)).Sound stream irs := by
  obtain ⟨hb, hbytes, hrest⟩ := TcpConn.tcp_recv_spec hs.bounded max_len
  generalize hr : r.conn.tcp_recv max_len = res at hb hbytes hrest
  have hstep : r.step (.recv max_len) = ⟨res.1, r.read ++ res.2, r.fin⟩ := by rw [step, hr]
  have hall : r.read ++ res.2 ++ res.1.unread = r.read ++ r.conn.unread := by rw [append_assoc, hbytes]
  have hlength : (r.read ++ res.2).length + res.1.buf_used = r.read.length + r.conn.buf_used := by
    have hlengths := congrArg List.length hall
    simp only [length_append, TcpConn.length_unread] at hlengths ⊢
    exact hlengths
  rw [hstep]
  exact ⟨hb, by rw [hall]; exact hs.stream_prefix, fun h => by rw [hrest.ack, hlength]; exact hs.ack h,
    by rw [hrest.state]; exact hs.state⟩

theorem Sound.step (hs : r.Sound stream irs) (hlen : stream.length < 2 ^ 32) {event : Event}
    (hagrees : ∀ seg, event = .segment seg → seg.Agrees stream irs) : (r.step event).Sound stream irs := by
  cases event with
  | segment seg => exact hs.segment hlen (hagrees seg rfl)
  | recv max_len => exact hs.recv max_len

theorem start_sound {conn : TcpConn} (hstate : conn.state = .established)
    (hhead : conn.recv_head < TCP_RECV_BUF_SIZE) (hempty : conn.recv_tail = conn.recv_head) :
    (start conn).Sound stream conn.ack := by
  have hused : conn.buf_used = 0 := by rw [TcpConn.buf_used, hempty, if_pos (le_refl _), Nat.sub_self]
  refine ⟨⟨hhead, hempty ▸ hhead⟩, ?_, fun _ => ?_, .inl ⟨hstate, rfl⟩⟩
  · simp [start, TcpConn.unread, hused]
  · simp [start, hused]

/-- The segments of a run come from the peer's stream. -/
def Faithful (stream : List UInt8) (irs : UInt32) (_ : Reader) : Event → Prop
  | .segment seg => seg.Agrees stream irs
  | .recv _ => True

theorem Sound.run (hs : r.Sound stream irs) (hlen : stream.length < 2 ^ 32) {events : List Event}
    (hpeer : Along Reader.step (Faithful stream irs) r events) :
    (machine.run Reader.step r events).Sound stream irs := by
  refine hpeer.invariant (I := Sound stream irs) (fun r event hs hfaithful => hs.step hlen fun seg heq => ?_) hs
  subst heq
  exact hfaithful

end Reader

namespace Reader

variable {stream : List UInt8} {irs : UInt32} {r : Reader} {seg : Segment}

/-- A FIN that is taken has its place where the stream goes on, with all bytes before it in the same
segment and room for them, or all bytes before it were buffered already. -/
def Orderly (r : Reader) : Event → Prop
  | .segment seg => r.conn.Ends seg →
    seg.seq = r.conn.ack ∧ seg.payload.length ≤ r.conn.buf_avail ∧ (seg.payload = [] ∨ seg.has TCP_FLAG_ACK = true) ∨
      seg.seq + UInt32.ofNat seg.payload.length = r.conn.ack
  | .recv _ => True

/-- The segments of a run come from the peer's stream, and a FIN from its end. -/
def Whole (stream : List UInt8) (irs : UInt32) (_ : Reader) : Event → Prop
  | .segment seg => seg.Agrees stream irs ∧ seg.Closes stream irs
  | .recv _ => True

/-- Once a FIN was taken, the whole stream is there. -/
structure Complete (stream : List UInt8) (irs : UInt32) (r : Reader) : Prop extends Sound stream irs r where
  whole : r.fin = true → r.read ++ r.conn.unread = stream

theorem whole_of_length (irs : UInt32) (hlen : stream.length < 2 ^ 32) {known : List UInt8} (hknown : known <+: stream)
    (hend : irs + UInt32.ofNat known.length = irs + UInt32.ofNat stream.length) : known = stream := by
  have hle := hknown.length_le
  have hlength := ofNat_inj (by omega) hlen (UInt32.add_right_inj irs |>.mp hend)
  exact hknown.eq_of_length hlength

theorem Complete.segment (hc : r.Complete stream irs) (hlen : stream.length < 2 ^ 32)
    (hwhole : r.Whole stream irs (.segment seg)) (horderly : r.Orderly (.segment seg)) :
    (r.step (.segment seg)).Complete stream irs := by
  have hs := hc.toSound
  have hs' := hs.segment hlen hwhole.1
  refine ⟨hs', fun hfin' => ?_⟩
  have hprefix := hs'.stream_prefix
  simp only [step] at hfin' hprefix ⊢
  rcases hs.state with ⟨hstate, hfin⟩ | hclosing
  · have hends : r.conn.Ends seg := by simpa [hfin] using hfin'
    have hcloses := hwhole.2 hends.2.2.2
    have hack := hs.ack hfin
    obtain ⟨-, hcases⟩ := TcpConn.tcp_receive_established hs.bounded hstate seg
    have hu : (r.conn.tcp_receive seg).1.unread = r.conn.unread ++ seg.payload.take (r.conn.accepted seg) := by
      rcases hcases with ⟨-, -, -, -, hno⟩ | ⟨-, -, -, hno⟩ | ⟨-, hu, -⟩
      · exact absurd hends hno
      · exact absurd hends hno
      · exact hu
    rcases horderly hends with ⟨hseq, hroom, hdata⟩ | hbehind
    · have haccepted : r.conn.accepted seg = seg.payload.length := by
        rw [TcpConn.accepted]
        rcases hdata with hnone | hflag
        · simp [hnone]
        · split
          · omega
          · next hnot =>
            have : seg.payload.length = 0 := by
              by_contra hpos
              exact hnot ⟨by omega, hflag, hseq⟩
            omega
      refine whole_of_length irs hlen hprefix ?_
      rw [← hcloses, hseq, hack, hu, haccepted, take_length, length_append, length_append,
        TcpConn.length_unread, ← Nat.add_assoc, UInt32.ofNat_add, UInt32.add_assoc]
    · have hall : r.read ++ r.conn.unread = stream := by
        refine whole_of_length irs hlen hs.stream_prefix ?_
        rw [length_append, TcpConn.length_unread, ← hack, ← hbehind, hcloses]
      -- nothing can be added to the whole stream
      have hle := hprefix.length_le
      rw [hu, ← append_assoc, length_append, hall] at hle
      have hnil : seg.payload.take (r.conn.accepted seg) = [] := eq_nil_of_length_eq_zero (by omega)
      rw [hu, hnil, append_nil, hall]
  · have hno : ¬ r.conn.Ends seg := fun h => by
      rcases hclosing with hc | hc <;> exact absurd (h.2.1.symm.trans hc) (by decide)
    have hfin : r.fin = true := by simpa [hno] using hfin'
    obtain ⟨-, hbuf, hhead, htail, -⟩ := TcpConn.tcp_receive_closing hclosing seg
    have hused : (r.conn.tcp_receive seg).1.buf_used = r.conn.buf_used := by rw [TcpConn.buf_used, hhead, htail]; rfl
    rw [TcpConn.unread, hbuf, hhead, hused]
    exact hc.whole hfin

theorem Complete.step (hc : r.Complete stream irs) (hlen : stream.length < 2 ^ 32) {event : Event}
    (hwhole : r.Whole stream irs event) (horderly : r.Orderly event) : (r.step event).Complete stream irs := by
  cases event with
  | segment seg => exact hc.segment hlen hwhole horderly
  | recv max_len =>
    refine ⟨hc.toSound.recv max_len, fun hfin => ?_⟩
    obtain ⟨-, hbytes, -⟩ := TcpConn.tcp_recv_spec hc.bounded max_len
    simp only [Reader.step] at hfin ⊢
    rw [append_assoc, hbytes]
    exact hc.whole hfin

theorem Complete.run (hc : r.Complete stream irs) (hlen : stream.length < 2 ^ 32) {events : List Event}
    (hevents : Along Reader.step (fun r event => r.Whole stream irs event ∧ r.Orderly event) r events) :
    (machine.run Reader.step r events).Complete stream irs :=
  hevents.invariant (I := Complete stream irs) (fun _ _ hc hevent => hc.step hlen hevent.1 hevent.2) hc

/-- The events of one round of `tcp_recv_wait`. -/
def round (max_len : Nat) (segs : List Segment) : List Event := segs.map .segment ++ [.recv max_len]

theorem round_conn (r : Reader) (max_len : Nat) (segs : List Segment) :
    (machine.run Reader.step r (round max_len segs)).conn = ((r.conn.tcp_poll segs).tcp_recv max_len).1 := by
  have hpoll : (machine.run Reader.step r (segs.map .segment)).conn = r.conn.tcp_poll segs := by
    induction segs generalizing r with
    | nil => rfl
    | cons seg segs ih => exact ih (r.step (.segment seg))
  rw [round, run_append, run_cons, run_nil, Reader.step, hpoll]

/-- The events of `tcp_recv_wait`, up to its return. -/
def rounds (conn : TcpConn) (max_len : Nat) : (polls : List (List Segment)) → List Event
  | [] => []
  | segs :: polls =>
    let res := (conn.tcp_poll segs).tcp_recv max_len
    if res.2.length > 0 ∨ (res.1.recv_closed ∧ res.1.recv_head = res.1.recv_tail) then round max_len segs
    else round max_len segs ++ rounds res.1 max_len polls

theorem rounds_conn (r : Reader) (max_len : Nat) (polls : List (List Segment)) :
    (machine.run Reader.step r (rounds r.conn max_len polls)).conn = (r.conn.tcp_recv_wait max_len polls).1 := by
  induction polls generalizing r with
  | nil => rfl
  | cons segs polls ih =>
    have hround := r.round_conn max_len segs
    rw [rounds, TcpConn.tcp_recv_wait]
    generalize (r.conn.tcp_poll segs).tcp_recv max_len = res at hround ⊢
    split_ifs with hstop hdata hclosed hdata hclosed
    · exact hround
    · exact hround
    · exact absurd hstop (not_or.mpr ⟨hdata, hclosed⟩)
    · exact absurd (.inl hdata) hstop
    · exact absurd (.inr hclosed) hstop
    · rw [run_append, ← hround]
      exact ih _

theorem closed_empty {conn : TcpConn} {max_len : Nat} {polls : List (List Segment)}
    (hclosed : (conn.tcp_recv_wait max_len polls).2 = .closed) :
    (conn.tcp_recv_wait max_len polls).1.recv_head = (conn.tcp_recv_wait max_len polls).1.recv_tail := by
  induction polls generalizing conn with
  | nil => cases hclosed
  | cons segs polls ih =>
    rw [TcpConn.tcp_recv_wait] at hclosed ⊢
    generalize (conn.tcp_poll segs).tcp_recv max_len = res at hclosed ⊢
    by_cases hdata : res.2.length > 0
    · rw [if_pos hdata] at hclosed
      cases hclosed
    · rw [if_neg hdata] at hclosed ⊢
      by_cases hend : res.1.recv_closed ∧ res.1.recv_head = res.1.recv_tail
      · rw [if_pos hend]
        exact hend.2
      · rw [if_neg hend] at hclosed ⊢
        exact ih hclosed

end Reader

/-- As long as every FIN that is taken has its place where the stream goes on, the whole stream is
buffered or read once one was taken; and where `tcp_recv_wait` then reports the end of the stream,
the client has read all of it. -/
theorem fin_ends_stream (conn : TcpConn) (hstate : conn.state = .established)
    (hhead : conn.recv_head < TCP_RECV_BUF_SIZE) (hempty : conn.recv_tail = conn.recv_head) (stream : List UInt8)
    (hlen : stream.length < 2 ^ 32) (events : List Event)
    (hevents : Along Reader.step (fun r event => r.Whole stream conn.ack event ∧ r.Orderly event) (.start conn)
      events) :
    let r := run Reader.step (.start conn) events
    (r.fin = true → r.read ++ r.conn.unread = stream) ∧
    ∀ max_len polls, Along Reader.step (fun r event => r.Whole stream conn.ack event ∧ r.Orderly event) r
        (Reader.rounds r.conn max_len polls) →
      let r' := run Reader.step r (Reader.rounds r.conn max_len polls)
      r'.conn = (r.conn.tcp_recv_wait max_len polls).1 ∧
      ((r.conn.tcp_recv_wait max_len polls).2 = .closed → r'.fin = true → r'.read = stream) := by
  intro r
  have hstart : (Reader.start conn).Complete stream conn.ack :=
    ⟨Reader.start_sound hstate hhead hempty, fun hfin => by cases hfin⟩
  have hc : r.Complete stream conn.ack := hstart.run hlen hevents
  refine ⟨hc.whole, fun max_len polls hpolls => ?_⟩
  intro r'
  have hc' : r'.Complete stream conn.ack := hc.run hlen hpolls
  have hconn := r.rounds_conn max_len polls
  refine ⟨hconn, fun hclosed hfin => ?_⟩
  have hwhole := hc'.whole hfin
  have hused := hc'.bounded.empty_iff.mpr (by rw [hconn]; exact Reader.closed_empty hclosed)
  rw [TcpConn.unread, hused, ring.contents_zero, append_nil] at hwhole
  exact hwhole

/-- A FIN that arrives with the last byte of the stream ends it. -/
theorem last_segment_ends_stream :
    let conn := { TcpConn.opening 1 80 49152 100 with state := .established, ack := 50 }
    let r := run Reader.step (.start conn) [.segment ⟨80, 49152, 50, 100, TCP_FLAG_ACK ||| TCP_FLAG_FIN, [7]⟩]
    r.fin = true ∧ r.read ++ r.conn.unread = [7] := by
  intro conn r
  have hfin : r.fin = true := by decide +kernel
  refine ⟨hfin, (fin_ends_stream conn rfl (by decide) rfl [7] (by decide)
    [.segment ⟨80, 49152, 50, 100, TCP_FLAG_ACK ||| TCP_FLAG_FIN, [7]⟩] ⟨⟨⟨?_, ?_⟩, ?_⟩, trivial⟩).1 hfin⟩
  · intro i x hx
    cases i with
    | zero => exact ⟨0, by decide, hx⟩
    | succ i => simp at hx
  · intro _
    decide
  · intro _
    exact .inl ⟨rfl, by decide, .inr rfl⟩

/-- A FIN overtakes the only byte of the stream, and the end is reported before anything was read. -/
theorem early_fin_truncates_stream :
    let conn := { TcpConn.opening 1 80 49152 100 with state := .established, ack := 50 }
    let fin : Segment := ⟨80, 49152, 51, 100, TCP_FLAG_ACK ||| TCP_FLAG_FIN, []⟩
    fin.Agrees [7] 50 ∧ fin.Closes [7] 50 ∧ (conn.tcp_receive fin).1.recv_closed = true ∧
    (conn.tcp_receive fin).1.unread = [] ∧ (conn.tcp_recv_wait 10 [[fin]]).2 = .closed := by
  refine ⟨fun i x hx => ?_, fun _ => by decide, by decide +kernel, by decide +kernel, by decide +kernel⟩
  simp at hx

end graceos.net
