import GraceOS.Net.Tcp

/-!
# Sending while frames arrive

`tcp_send_segment` and `icmp_receive` build what they send in static buffers, and `ipv4_send` polls
the receive path, while it resolves the next hop, before it copies them. The frames that arrive then
are handled inside the call, and may make the stack send. Frames stand here as their checked contents;
one that fails a check, and one that only concerns variables that are not modelled, is `other`. What
`ethernet_send` is given is the result of a send.
-/

namespace graceos.net

abbrev Mac := BitVec 48

/-! ## Bytes -/

variable {protocol : UInt8} {packet : List UInt8}

def be16 (x : UInt16) : List UInt8 := [(x >>> 8).toUInt8, x.toUInt8]
def be32 (x : UInt32) : List UInt8 := [(x >>> 24).toUInt8, (x >>> 16).toUInt8, (x >>> 8).toUInt8, x.toUInt8]

/-- The sum of the big-endian words of a buffer; a last odd byte is the high byte of a word. -/
def sum_words : List UInt8 → UInt32
  | [] => 0
  | [x] => x.toUInt32 <<< 8
  | x :: y :: rest => (x.toUInt32 <<< 8 ||| y.toUInt32) + sum_words rest

def fold_carry (sum : UInt32) : UInt32 := (sum &&& (0xFFFF : UInt32)) + (sum >>> 16)

/-- The loop that folds the carries runs at most twice, and a second turn for nothing changes nothing. -/
def checksum (sum : UInt32) : UInt16 := ~~~(fold_carry (fold_carry sum)).toUInt16

def icmp_checksum (data : List UInt8) : UInt16 := checksum (sum_words data)

def tcp_checksum (src_ip dst_ip : UInt32) (tcp_seg : List UInt8) : UInt16 :=
  checksum ((src_ip >>> 16) + (src_ip &&& (0xFFFF : UInt32)) + (dst_ip >>> 16) + (dst_ip &&& (0xFFFF : UInt32)) + 6 +
    (UInt16.ofNat tcp_seg.length).toUInt32 + sum_words tcp_seg)

/-- The header that `tcp_send_segment` writes. -/
def tcp_header (conn : TcpConn) (flags : UInt8) (sum : UInt16) : List UInt8 :=
  be16 conn.local_port ++ be16 conn.remote_port ++ be32 conn.seq ++
    be32 (if (flags &&& TCP_FLAG_ACK) != 0 then conn.ack else 0) ++ [0x50, flags] ++ be16 4096 ++ be16 sum ++ be16 0

/-- The segment built from the arguments of `tcp_send_segment`. -/
def tcp_segment (ip : UInt32) (conn : TcpConn) (flags : UInt8) (data : List UInt8) : List UInt8 :=
  tcp_header conn flags (tcp_checksum ip conn.remote_ip (tcp_header conn flags 0 ++ data)) ++ data

def IPv4_HEADER_LEN : Nat := 20
def IP_PROTO_ICMP : UInt8 := 1
def IP_PROTO_TCP : UInt8 := 6

def ipv4_checksum (data : List UInt8) : UInt16 := checksum (sum_words data)

/-- The header that `ipv4_send` writes. -/
def ipv4_header (src dst : UInt32) (id : UInt16) (protocol : UInt8) (payload_len : Nat) (sum : UInt16) : List UInt8 :=
  [0x45, 0] ++ be16 (UInt16.ofNat (IPv4_HEADER_LEN + payload_len)) ++ be16 id ++ [0, 0, 64, protocol] ++ be16 sum ++
    (be32 src ++ be32 dst)

/-- The packet built from the arguments of `ipv4_send`. -/
def ipv4_packet (src dst : UInt32) (id : UInt16) (protocol : UInt8) (payload : List UInt8) : List UInt8 :=
  ipv4_header src dst id protocol payload.length (ipv4_checksum (ipv4_header src dst id protocol payload.length 0)) ++
    payload

theorem length_ipv4_header (src dst : UInt32) (id : UInt16) (protocol : UInt8) (payload_len : Nat) (sum : UInt16) :
    (ipv4_header src dst id protocol payload_len sum).length = 20 := rfl

/-- The packet is one of ours for the address, with this payload. -/
def Carries (src dst : UInt32) (protocol : UInt8) (payload packet : List UInt8) : Prop :=
  ∃ id, packet = ipv4_packet src dst id protocol payload

theorem Carries.payload {src dst : UInt32} {payload : List UInt8}
    (h : Carries src dst protocol payload packet) : packet.drop IPv4_HEADER_LEN = payload := by
  obtain ⟨id, rfl⟩ := h
  rfl

/-- The echo reply built from a request: type and checksum are new, and the rest is cut to the buffer. -/
def echo_reply (data : List UInt8) : List UInt8 :=
  let rply := (((data.take 1488).set 0 0).set 2 0).set 3 0
  (rply.set 2 (icmp_checksum rply >>> 8).toUInt8).set 3 (icmp_checksum rply).toUInt8

/-- `memcpy` to the start of a static buffer. -/
def overwrite (buf bytes : List UInt8) : List UInt8 := bytes ++ buf.drop bytes.length

@[simp] theorem take_overwrite (buf bytes : List UInt8) : (overwrite buf bytes).take bytes.length = bytes :=
  List.take_left

/-! ## The state -/

/-- The contents of a frame. -/
inductive Frame where
  | arp (sender_ip : UInt32) (sender_mac : Mac)
  | echo_request (src_ip : UInt32) (data : List UInt8)
  | tcp (seg : Segment)
  | other

/-- `struct arp_entry`. -/
structure ArpEntry where
  ip : UInt32
  mac : Mac
  timestamp : UInt64
  valid : Bool

def ARP_CACHE_SIZE : Nat := 32
def ARP_ENTRY_TTL_MS : UInt64 := 60000
def QEMU_SLIRP_GATEWAY_IP : UInt32 := 0x0A000202
def qemu_slirp_gateway_mac : Mac := 0x52550A000202

/-- The static variables of the stack. `incoming` is what each poll of the device gives, and `clock`
the readings of the timer. -/
structure Stack where
  ip : UInt32
  netmask : UInt32
  gateway : UInt32
  active_conn : Option TcpConn
  ip_id_counter : UInt16
  tcp_tx_buf : List UInt8
  icmp_reply_buf : List UInt8
  arp_cache : Nat → ArpEntry
  clock : Nat → UInt64
  readings : Nat
  incoming : List (Option Frame)

namespace Stack

variable (s : Stack)

def timer_get_ms : UInt64 × Stack := (s.clock s.readings, { s with readings := s.readings + 1 })

/-! ## The ARP cache -/

/-- The first valid entry for an address. -/
def arp_index (ip : UInt32) : Option Nat :=
  (List.range ARP_CACHE_SIZE).find? fun i => (s.arp_cache i).valid && (s.arp_cache i).ip == ip

/-- The slot that a new entry replaces: the first free one behind slot 0, or the oldest. -/
def oldest : (i n best : Nat) → Nat
  | _, 0, best => best
  | i, n + 1, best =>
    if !(s.arp_cache i).valid then i
    else oldest (i + 1) n (if (s.arp_cache i).timestamp < (s.arp_cache best).timestamp then i else best)

def arp_cache_insert (ip : UInt32) (mac : Mac) : Stack :=
  let (now, s) := s.timer_get_ms
  let i := (s.arp_index ip).getD (s.oldest 1 (ARP_CACHE_SIZE - 1) 0)
  { s with arp_cache := Function.update s.arp_cache i ⟨ip, mac, now, true⟩ }

/-- The first loop of `arp_lookup`: an entry that is too old is given up. -/
def arp_find (ip : UInt32) : Option Mac × Stack :=
  match s.arp_index ip with
  | none => (none, s)
  | some i =>
    let (now, s) := s.timer_get_ms
    if now - (s.arp_cache i).timestamp > ARP_ENTRY_TTL_MS then
      (none, { s with arp_cache := Function.update s.arp_cache i { s.arp_cache i with valid := false } })
    else (some (s.arp_cache i).mac, s)

/-! ## Sending -/

section Sending

-- what a call of `ethernet_poll` does
variable (poll : Stack → Stack)

def arp_lookup (ip : UInt32) : Option Mac × Stack :=
  match s.arp_find ip with
  | (some mac, s) => (some mac, s)
  | (none, s) =>
    -- the request is sent, and the receive path gets a chance
    let s := poll^[256] s
    match s.arp_index ip with
    | some i => (some (s.arp_cache i).mac, s)
    | none =>
      if ip = s.gateway ∧ ip = QEMU_SLIRP_GATEWAY_IP then
        (some qemu_slirp_gateway_mac, s.arp_cache_insert ip qemu_slirp_gateway_mac)
      else (none, s)

def IPV4_ARP_RETRIES : Nat := 128

/-- The loop of `ipv4_send` that resolves the next hop. -/
def resolve (next_hop : UInt32) : (tries : Nat) → Stack → Option Mac × Stack
  | 0, s => (none, s)
  | tries + 1, s =>
    match s.arp_lookup poll next_hop with
    | (some mac, s) => (some mac, s)
    | (none, s) => resolve next_hop tries (poll^[16] s)

def next_hop (dst_ip : UInt32) : UInt32 := if dst_ip &&& s.netmask = s.ip &&& s.netmask then dst_ip else s.gateway

/-- The stack when the next hop of an address has been looked for. -/
def routed (dst_ip : UInt32) : Stack := (resolve poll (s.next_hop dst_ip) IPV4_ARP_RETRIES s).2

/-- `ipv4_send` of the first `payload_len` bytes of a buffer: the address and the packet that
`ethernet_send` is given, if it comes to that. -/
def ipv4_send (dst_ip : UInt32) (protocol : UInt8) (payload : Stack → List UInt8) (payload_len : Nat) :
    Option (Mac × List UInt8) × Stack :=
  if payload_len > 1500 then (none, s)
  else
    match resolve poll (s.next_hop dst_ip) IPV4_ARP_RETRIES s with
    | (none, s) => (none, s)
    | (some mac, s) =>
      (some (mac, ipv4_packet s.ip dst_ip s.ip_id_counter protocol ((payload s).take payload_len)),
        { s with ip_id_counter := s.ip_id_counter + 1 })

/-- What `tcp_send_segment` does before it sends: header, data and checksum are in the buffer. -/
def build_segment (conn : TcpConn) (flags : UInt8) (data : List UInt8) : Stack :=
  { s with tcp_tx_buf := overwrite s.tcp_tx_buf (tcp_segment s.ip conn flags data) }

def tcp_send_segment (conn : TcpConn) (flags : UInt8) (data : List UInt8) : Option (Mac × List UInt8) × Stack :=
  (s.build_segment conn flags data).ipv4_send poll conn.remote_ip IP_PROTO_TCP (·.tcp_tx_buf)
    (tcp_segment s.ip conn flags data).length

/-! ## Receiving -/

/-- What `icmp_receive` does with an echo request before it sends: the reply is in the buffer. -/
def build_reply (data : List UInt8) : Stack :=
  { s with icmp_reply_buf := overwrite s.icmp_reply_buf (echo_reply data) }

/-- The echo request branch of `icmp_receive`. -/
def icmp_receive (src_ip : UInt32) (data : List UInt8) : Option (Mac × List UInt8) × Stack :=
  (s.build_reply data).ipv4_send poll src_ip IP_PROTO_ICMP (·.icmp_reply_buf) (echo_reply data).length

def set_conn (conn : TcpConn) : Stack := { s with active_conn := some conn }

/-- An answer of the active connection as it stands. -/
def send_ack : Stack :=
  match s.active_conn with
  | none => s
  | some conn => (s.tcp_send_segment poll conn TCP_FLAG_ACK []).2

def with_conn (f : TcpConn → TcpConn) : Stack := { s with active_conn := s.active_conn.map f }

/-- `tcp_receive` on the active connection. A frame that arrives while an answer is sent may change the
connection before the call goes on. -/
def tcp_receive (conn : TcpConn) (seg : Segment) : Stack :=
  if seg.src_port ≠ conn.remote_port then s
  else if seg.dst_port ≠ conn.local_port then s
  else match conn.state with
  | .syn_sent =>
    if (seg.flags &&& (TCP_FLAG_SYN ||| TCP_FLAG_ACK)) = (TCP_FLAG_SYN ||| TCP_FLAG_ACK) then
      if seg.ack_num ≠ conn.seq then s
      else (s.set_conn { conn with ack := seg.seq + 1, remote_seq := seg.seq, state := .established }).send_ack poll
    else if seg.has TCP_FLAG_RST then s.set_conn { conn with state := .closed }
    else s
  | .established =>
    if seg.has TCP_FLAG_RST then s.set_conn { conn with state := .closed, recv_closed := true }
    else
      let conn := conn.take_ack seg
      let s :=
        if seg.payload.length > 0 ∧ seg.has TCP_FLAG_ACK ∧ seg.seq = conn.ack then
          (s.set_conn (conn.take_data seg).1).send_ack poll
        else s.set_conn conn
      if seg.has TCP_FLAG_FIN then
        ((s.with_conn fun conn => { conn with ack := conn.ack + 1, recv_closed := true }).send_ack poll).with_conn
          fun conn => { conn with state := .fin_wait }
      else s
  | .fin_wait => if seg.has TCP_FLAG_ACK then s.set_conn { conn with state := .closed } else s
  | .closed => s

/-- The dispatch of `ethernet_poll` and `ipv4_receive`. -/
def receive : Frame → Stack
  | .arp sender_ip sender_mac => s.arp_cache_insert sender_ip sender_mac
  | .echo_request src_ip data => (s.icmp_receive poll src_ip data).2
  | .tcp seg =>
    match s.active_conn with
    | none => s
    | some conn => s.tcp_receive poll conn seg
  | .other => s

end Sending

/-- `ethernet_poll`. The calls nest, each with the frames behind the one it handles; `depth` bounds the
nesting, and the number of frames is bound enough. -/
def ethernet_poll : (depth : Nat) → Stack → Stack
  | 0, s => s
  | depth + 1, s =>
    match s.incoming with
    | [] => s
    | none :: rest => { s with incoming := rest }
    | some frame :: rest => receive { s with incoming := rest } (ethernet_poll depth) frame

/-! ## What a send keeps -/

section Kept

variable {s} {I : Stack → Prop} {poll : Stack → Stack}

/-- The property `I` is not about the ARP cache, the clock and the packet counter. -/
def Uncached (I : Stack → Prop) : Prop :=
  ∀ s arp_cache readings ip_id_counter, I s →
    I { s with arp_cache := arp_cache, readings := readings, ip_id_counter := ip_id_counter }

theorem iterate_keeps (hpoll : ∀ s, I s → I (poll s)) (n : Nat) (hs : I s) : I (poll^[n] s) := by
  induction n generalizing s with
  | zero => exact hs
  | succ n ih => exact ih (hpoll s hs)

theorem arp_cache_insert_keeps (hI : Uncached I) (hs : I s) (ip : UInt32) (mac : Mac) : I (s.arp_cache_insert ip mac) :=
  hI s _ _ _ hs

theorem arp_find_keeps (hI : Uncached I) (hs : I s) (ip : UInt32) : I (s.arp_find ip).2 := by
  unfold arp_find timer_get_ms
  split
  · exact hs
  · dsimp only
    split <;> exact hI s _ _ _ hs

theorem arp_lookup_keeps (hI : Uncached I) (hpoll : ∀ s, I s → I (poll s)) (hs : I s) (ip : UInt32) :
    I (s.arp_lookup poll ip).2 := by
  have hfind := arp_find_keeps hI hs ip
  unfold arp_lookup
  split
  · next heq =>
    rw [heq] at hfind
    exact hfind
  · next s₁ heq =>
    rw [heq] at hfind
    have hpolled : I (poll^[256] s₁) := iterate_keeps hpoll 256 hfind
    dsimp only
    generalize poll^[256] s₁ = s₂ at hpolled
    split
    · exact hpolled
    · split
      · exact arp_cache_insert_keeps hI hpolled ip _
      · exact hpolled

theorem resolve_keeps (hI : Uncached I) (hpoll : ∀ s, I s → I (poll s)) (next_hop : UInt32) (tries : Nat) (hs : I s) :
    I (resolve poll next_hop tries s).2 := by
  induction tries generalizing s with
  | zero => exact hs
  | succ tries ih =>
    have hlookup := arp_lookup_keeps hI hpoll hs next_hop
    rw [resolve]
    split
    · next heq =>
      rw [heq] at hlookup
      exact hlookup
    · next s₁ heq =>
      rw [heq] at hlookup
      exact ih (iterate_keeps hpoll 16 hlookup)

theorem routed_keeps (hI : Uncached I) (hpoll : ∀ s, I s → I (poll s)) (hs : I s) (dst_ip : UInt32) :
    I (s.routed poll dst_ip) :=
  resolve_keeps hI hpoll (s.next_hop dst_ip) IPV4_ARP_RETRIES hs

theorem ipv4_send_keeps (hI : Uncached I) (hpoll : ∀ s, I s → I (poll s)) (hs : I s) (dst_ip : UInt32)
    (protocol : UInt8) (payload : Stack → List UInt8) (payload_len : Nat) :
    I (s.ipv4_send poll dst_ip protocol payload payload_len).2 := by
  have hrouted := routed_keeps hI hpoll hs dst_ip
  unfold routed at hrouted
  unfold ipv4_send
  split
  · exact hs
  · split
    · next heq =>
      rw [heq] at hrouted
      exact hrouted
    · next heq =>
      rw [heq] at hrouted
      exact hI _ _ _ _ hrouted

theorem ipv4_send_packet {dst_ip : UInt32} {payload : Stack → List UInt8} {payload_len : Nat} {mac : Mac}
    (h : (s.ipv4_send poll dst_ip protocol payload payload_len).1 = some (mac, packet)) :
    packet = ipv4_packet (s.routed poll dst_ip).ip dst_ip (s.routed poll dst_ip).ip_id_counter protocol
      ((payload (s.routed poll dst_ip)).take payload_len) := by
  unfold ipv4_send at h
  unfold routed
  split at h
  · cases h
  · split at h
    · cases h
    · next heq =>
      rw [heq]
      exact (Prod.mk.inj (Option.some.inj h)).2.symm

end Kept

/-! ## A hop that is known -/

variable {conn : TcpConn} {flags : UInt8} {data : List UInt8}

/-- The next hop for an address is in the cache, and not too old: nothing is polled. -/
def Resolved (dst_ip : UInt32) : Prop := ((s.arp_find (s.next_hop dst_ip)).1).isSome = true

variable {s} {poll : Stack → Stack}

theorem routed_resolved (poll : Stack → Stack) {dst_ip : UInt32} {mac : Mac}
    (h : (s.arp_find (s.next_hop dst_ip)).1 = some mac) :
    resolve poll (s.next_hop dst_ip) IPV4_ARP_RETRIES s = (some mac, (s.arp_find (s.next_hop dst_ip)).2) := by
  have hfind : s.arp_find (s.next_hop dst_ip) = (some mac, (s.arp_find (s.next_hop dst_ip)).2) := Prod.ext h rfl
  rw [IPV4_ARP_RETRIES, resolve, arp_lookup, hfind]

theorem ipv4_send_resolved (poll : Stack → Stack) {dst_ip : UInt32} (h : s.Resolved dst_ip) (protocol : UInt8)
    (payload : Stack → List UInt8) {payload_len : Nat} (hlen : payload_len ≤ 1500) :
    (s.ipv4_send poll dst_ip protocol payload payload_len).1.isSome = true := by
  obtain ⟨mac, hmac⟩ := Option.isSome_iff_exists.mp h
  unfold ipv4_send
  rw [if_neg (Nat.not_lt.mpr hlen), routed_resolved poll hmac]
  rfl

theorem resolved_congr {s' : Stack} (hcache : s'.arp_cache = s.arp_cache) (hclock : s'.clock = s.clock)
    (hreadings : s'.readings = s.readings) (hip : s'.ip = s.ip) (hmask : s'.netmask = s.netmask)
    (hgateway : s'.gateway = s.gateway) {dst_ip : UInt32} (h : s.Resolved dst_ip) : s'.Resolved dst_ip := by
  have hhop : s'.next_hop dst_ip = s.next_hop dst_ip := by simp only [next_hop, hip, hmask, hgateway]
  have hindex : s'.arp_index (s.next_hop dst_ip) = s.arp_index (s.next_hop dst_ip) := by
    simp only [arp_index, hcache]
  unfold Resolved arp_find timer_get_ms at h ⊢
  rw [hhop, hindex]
  split
  · next heq =>
    rw [heq] at h
    exact h
  · next i heq =>
    rw [heq] at h
    dsimp only at h ⊢
    rw [hcache, hclock, hreadings]
    split
    · next hold =>
      rw [if_pos hold] at h
      exact h
    · rfl

theorem build_segment_resolved {dst_ip : UInt32}
    (h : s.Resolved dst_ip) : (s.build_segment conn flags data).Resolved dst_ip := by
  refine resolved_congr ?_ ?_ ?_ ?_ ?_ ?_ h <;> rfl

theorem build_reply_resolved {dst_ip : UInt32} (h : s.Resolved dst_ip) :
    (s.build_reply data).Resolved dst_ip := by
  refine resolved_congr ?_ ?_ ?_ ?_ ?_ ?_ h <;> rfl

theorem ipv4_send_built {I : Stack → Prop} {dst_ip : UInt32} {payload : Stack → List UInt8}
    {old bytes : List UInt8} {mac : Mac} (hI : Uncached I) (hs : I s)
    (hbuf : ∀ s, I s → payload s = overwrite old bytes)
    (hkept : s.Resolved dst_ip ∨ ∀ s, I s → I (poll s)) (hip : ∀ s, (poll s).ip = s.ip)
    (hsent : (s.ipv4_send poll dst_ip protocol payload bytes.length).1 = some (mac, packet)) :
    Carries s.ip dst_ip protocol bytes packet := by
  have hend : I (s.routed poll dst_ip) := by
    rcases hkept with hknown | hpoll
    · obtain ⟨mac, hmac⟩ := Option.isSome_iff_exists.mp hknown
      rw [routed, routed_resolved poll hmac]
      exact arp_find_keeps hI hs _
    · exact routed_keeps hI hpoll hs dst_ip
  have hsame : (s.routed poll dst_ip).ip = s.ip :=
    routed_keeps (I := fun t => t.ip = s.ip) (fun _ _ _ _ h => h) (fun t h => (hip t).trans h) rfl dst_ip
  refine ⟨(s.routed poll dst_ip).ip_id_counter, ?_⟩
  rw [ipv4_send_packet hsent, hbuf _ hend, take_overwrite, hsame]

/-! ## Segments -/

/-- The connection answers none of the frames. -/
def Silent : Option TcpConn → List (Option Frame) → Prop
  | some conn, some (.tcp seg) :: rest => (conn.tcp_receive seg).2 = [] ∧ Silent (some (conn.tcp_receive seg).1) rest
  | some conn, _ :: rest => Silent (some conn) rest
  | some _, [] => True
  | none, _ => True

theorem set_conn_self (h : s.active_conn = some conn) : s.set_conn conn = s := by
  rw [set_conn, ← h]

/-- A segment that is not answered only changes the connection. -/
theorem tcp_receive_silent (hconn : s.active_conn = some conn) {seg : Segment}
    (hsilent : (conn.tcp_receive seg).2 = []) :
    s.tcp_receive poll conn seg = s.set_conn (conn.tcp_receive seg).1 := by
  unfold Stack.tcp_receive
  unfold TcpConn.tcp_receive at hsilent ⊢
  split
  · exact (set_conn_self hconn).symm
  · next hsrc =>
    rw [if_neg hsrc] at hsilent
    split
    · exact (set_conn_self hconn).symm
    · next hdst =>
      rw [if_neg hdst] at hsilent
      cases hstate : conn.state with
      | syn_sent =>
        rw [hstate] at hsilent
        dsimp only at hsilent ⊢
        split
        · next hsyn =>
          rw [if_pos hsyn] at hsilent
          split
          · exact (set_conn_self hconn).symm
          · next hack =>
            rw [if_neg hack] at hsilent
            cases hsilent
        · split
          · rfl
          · exact (set_conn_self hconn).symm
      | established =>
        rw [hstate] at hsilent
        dsimp only at hsilent ⊢
        split
        · rfl
        · next hrst =>
          rw [if_neg hrst] at hsilent
          dsimp only at hsilent ⊢
          rw [List.append_eq_nil_iff] at hsilent
          have hdata : ¬ (seg.payload.length > 0 ∧ seg.has TCP_FLAG_ACK ∧ seg.seq = (conn.take_ack seg).ack) := by
            intro haccept
            have hanswer := hsilent.1
            rw [TcpConn.take_data, if_pos haccept] at hanswer
            cases hanswer
          have htake : (conn.take_ack seg).take_data seg = (conn.take_ack seg, []) := by
            rw [TcpConn.take_data, if_neg hdata]
          have hfin : ¬ (seg.has TCP_FLAG_FIN = true) := by
            intro hfin
            have hanswer := hsilent.2
            rw [TcpConn.take_fin, if_pos hfin] at hanswer
            cases hanswer
          rw [if_neg hdata, if_neg hfin, htake, TcpConn.take_fin, if_neg hfin]
      | fin_wait =>
        dsimp only
        split
        · rfl
        · exact (set_conn_self hconn).symm
      | closed => exact (set_conn_self hconn).symm

/-- The segment in the buffer stays as it is while no answer is sent. -/
def SegmentStays (buf : List UInt8) (s : Stack) : Prop := s.tcp_tx_buf = buf ∧ Silent s.active_conn s.incoming

theorem silent_cons_iff {frame : Option Frame} {rest : List (Option Frame)} {conn : Option TcpConn}
    (hframe : ∀ seg, frame ≠ some (.tcp seg)) : Silent conn (frame :: rest) ↔ Silent conn rest := by
  cases conn with
  | none => simp [Silent]
  | some conn =>
    cases frame with
    | none => exact Iff.rfl
    | some frame =>
      cases frame with
      | tcp seg => exact absurd rfl (hframe seg)
      | arp sender_ip sender_mac => exact Iff.rfl
      | echo_request src_ip data => exact Iff.rfl
      | other => exact Iff.rfl

theorem silent_nil (conn : Option TcpConn) : Silent conn [] := by
  cases conn <;> simp [Silent]

theorem ethernet_poll_segmentStays (depth : Nat) (buf : List UInt8) (s : Stack) (hs : SegmentStays buf s) :
    SegmentStays buf (ethernet_poll depth s) := by
  induction depth generalizing s with
  | zero => exact hs
  | succ depth ih =>
    have hI : Uncached (SegmentStays buf) := fun _ _ _ _ h => h
    obtain ⟨hbuf, hsilent⟩ := hs
    rw [ethernet_poll]
    split
    · exact ⟨hbuf, hsilent⟩
    · next rest hincoming =>
      rw [hincoming] at hsilent
      exact ⟨hbuf, (silent_cons_iff (by simp)).mp hsilent⟩
    · next frame rest hincoming =>
      rw [hincoming] at hsilent
      cases frame with
      | arp sender_ip sender_mac =>
        have hrest : SegmentStays buf { s with incoming := rest } := ⟨hbuf, (silent_cons_iff (by simp)).mp hsilent⟩
        exact arp_cache_insert_keeps hI hrest sender_ip sender_mac
      | echo_request src_ip data =>
        have hrest : SegmentStays buf { s with
            incoming := rest, icmp_reply_buf := overwrite s.icmp_reply_buf (echo_reply data) } :=
          ⟨hbuf, (silent_cons_iff (by simp)).mp hsilent⟩
        exact ipv4_send_keeps hI ih hrest src_ip _ _ _
      | other => exact ⟨hbuf, (silent_cons_iff (by simp)).mp hsilent⟩
      | tcp seg =>
        simp only [receive]
        split
        · next hnone =>
          refine ⟨hbuf, ?_⟩
          dsimp only at hnone ⊢
          rw [hnone]
          simp [Silent]
        · next conn hconn =>
          have hactive : s.active_conn = some conn := hconn
          rw [hactive] at hsilent
          rw [tcp_receive_silent (s := { s with incoming := rest }) hconn hsilent.1]
          exact ⟨hbuf, hsilent.2⟩

/-! ## Echo replies -/

/-- No echo request arrives. -/
def NoEcho (incoming : List (Option Frame)) : Prop := ∀ src_ip data, some (.echo_request src_ip data) ∉ incoming

/-- The reply in the buffer stays as it is while no request arrives. -/
def ReplyStays (buf : List UInt8) (s : Stack) : Prop := s.icmp_reply_buf = buf ∧ NoEcho s.incoming

/-- The property `I` is about nothing that receiving a segment writes. -/
structure Apart (I : Stack → Prop) : Prop where
  cache : Uncached I
  conn : ∀ s active_conn, I s → I { s with active_conn := active_conn }
  segment : ∀ s tcp_tx_buf, I s → I { s with tcp_tx_buf := tcp_tx_buf }

theorem send_ack_keeps {I : Stack → Prop} (hI : Apart I) (hpoll : ∀ s, I s → I (poll s)) (hs : I s) :
    I (s.send_ack poll) := by
  unfold send_ack
  split
  · exact hs
  · exact ipv4_send_keeps hI.cache hpoll (hI.segment s _ hs) _ _ _ _

/-- A segment changes the connection and sends answers, and does nothing else. -/
theorem tcp_receive_keeps {I : Stack → Prop} (hconn : ∀ s active_conn, I s → I { s with active_conn := active_conn })
    (hack : ∀ s, I s → I (s.send_ack poll)) (hs : I s) (conn : TcpConn) (seg : Segment) :
    I (s.tcp_receive poll conn seg) := by
  have hset : ∀ conn, I (s.set_conn conn) := fun _ => hconn s _ hs
  unfold Stack.tcp_receive
  split
  · exact hs
  · split
    · exact hs
    · split
      · split
        · split
          · exact hs
          · exact hack _ (hset _)
        · split
          · exact hset _
          · exact hs
      · split
        · exact hset _
        · dsimp only
          have hdata : I (if seg.payload.length > 0 ∧ seg.has TCP_FLAG_ACK ∧ seg.seq = (conn.take_ack seg).ack then
                (s.set_conn ((conn.take_ack seg).take_data seg).1).send_ack poll
              else s.set_conn (conn.take_ack seg)) := by
            split
            · exact hack _ (hset _)
            · exact hset _
          split
          · exact hconn _ _ (hack _ (hconn _ _ hdata))
          · exact hdata
      · split
        · exact hset _
        · exact hs
      · exact hs

theorem replyStays_apart (buf : List UInt8) : Apart (ReplyStays buf) :=
    ⟨fun _ _ _ _ h => h, fun _ _ h => h, fun _ _ h => h⟩

theorem ethernet_poll_replyStays (depth : Nat) (buf : List UInt8) (s : Stack) (hs : ReplyStays buf s) :
    ReplyStays buf (ethernet_poll depth s) := by
  induction depth generalizing s with
  | zero => exact hs
  | succ depth ih =>
    have hI : Uncached (ReplyStays buf) := fun _ _ _ _ h => h
    obtain ⟨hbuf, hecho⟩ := hs
    rw [ethernet_poll]
    split
    · exact ⟨hbuf, hecho⟩
    · next rest hincoming =>
      rw [hincoming] at hecho
      exact ⟨hbuf, fun src_ip data hmem => hecho src_ip data (List.mem_cons_of_mem _ hmem)⟩
    · next frame rest hincoming =>
      rw [hincoming] at hecho
      have hrest : ReplyStays buf { s with incoming := rest } :=
        ⟨hbuf, fun src_ip data hmem => hecho src_ip data (List.mem_cons_of_mem _ hmem)⟩
      cases frame with
      | arp sender_ip sender_mac => exact arp_cache_insert_keeps hI hrest sender_ip sender_mac
      | echo_request src_ip data => exact absurd List.mem_cons_self (hecho src_ip data)
      | other => exact hrest
      | tcp seg =>
        simp only [receive]
        split
        · exact hrest
        · next conn _ => 
          have hI' := replyStays_apart buf
          exact tcp_receive_keeps hI'.conn (fun _ => send_ack_keeps hI' ih) hrest conn seg

/-! ## The depth of nesting -/

/-- At most `n` polls are left that give something. -/
def Left (n : Nat) (s : Stack) : Prop := s.incoming.length ≤ n

theorem left_apart (n : Nat) : Apart (Left n) := ⟨fun _ _ _ _ h => h, fun _ _ h => h, fun _ _ h => h⟩

theorem receive_keeps {I : Stack → Prop} (hI : Apart I)
    (hreply : ∀ s icmp_reply_buf, I s → I { s with icmp_reply_buf := icmp_reply_buf })
    (hpoll : ∀ s, I s → I (poll s)) (hs : I s) (frame : Frame) : I (s.receive poll frame) := by
  cases frame with
  | arp sender_ip sender_mac => exact arp_cache_insert_keeps hI.cache hs sender_ip sender_mac
  | echo_request src_ip data => exact ipv4_send_keeps hI.cache hpoll (hreply s _ hs) src_ip _ _ _
  | other => exact hs
  | tcp seg =>
    simp only [receive]
    split
    · exact hs
    · next conn _ => exact tcp_receive_keeps hI.conn (fun _ => send_ack_keeps hI hpoll) hs conn seg

theorem ethernet_poll_ip (depth : Nat) (ip : UInt32) (s : Stack) (hs : s.ip = ip) :
    (ethernet_poll depth s).ip = ip := by
  induction depth generalizing s with
  | zero => exact hs
  | succ depth ih =>
    have hI : Apart fun s => s.ip = ip := ⟨fun _ _ _ _ h => h, fun _ _ h => h, fun _ _ h => h⟩
    rw [ethernet_poll]
    split
    · exact hs
    · exact hs
    · next frame rest _ =>
      exact receive_keeps (s := { s with incoming := rest }) hI (fun _ _ h => h) ih hs frame

theorem receive_left {n : Nat} (hpoll : ∀ s, Left n s → Left n (poll s)) (hs : Left n s) (frame : Frame) :
    Left n (s.receive poll frame) :=
  receive_keeps (left_apart n) (fun _ _ h => h) hpoll hs frame

theorem ethernet_poll_left (depth n : Nat) (s : Stack) (hs : Left n s) : Left n (ethernet_poll depth s) := by
  induction depth generalizing s with
  | zero => exact hs
  | succ depth ih =>
    unfold Left at hs
    rw [ethernet_poll]
    split
    · exact hs
    · next rest hincoming =>
      rw [hincoming, List.length_cons] at hs
      exact Nat.le_of_succ_le hs
    · next frame rest hincoming =>
      rw [hincoming, List.length_cons] at hs
      have hrest : Left n { s with incoming := rest } := Nat.le_of_succ_le hs
      exact receive_left ih hrest frame

theorem ethernet_poll_takes (depth n : Nat) (s : Stack) (hs : Left (n + 1) s) : Left n
    (ethernet_poll (depth + 1) s) := by
  unfold Left at hs
  rw [ethernet_poll]
  split
  · next hincoming =>
    rw [Left, hincoming]
    exact Nat.zero_le n
  · next rest hincoming =>
    rw [hincoming, List.length_cons] at hs
    exact Nat.le_of_succ_le_succ hs
  · next frame rest hincoming =>
    rw [hincoming, List.length_cons] at hs
    have hrest : Left n { s with incoming := rest } := Nat.le_of_succ_le_succ hs
    exact receive_left (ethernet_poll_left depth n) hrest frame

theorem polls_take (depth n : Nat) (s : Stack) (hs : Left n s) : Left 0 ((ethernet_poll (depth + 1))^[n] s) := by
  induction n generalizing s with
  | zero => exact hs
  | succ n ih => exact ih _ (ethernet_poll_takes depth n s hs)

section Agree

variable {I : Stack → Prop} {poll' : Stack → Stack} (hI : Apart I) (hpoll : ∀ s, I s → I (poll s))
  (hagree : ∀ s, I s → poll s = poll' s)
include hI hpoll hagree

omit hI in
theorem iterate_agree (n : Nat) (hs : I s) : poll^[n] s = poll'^[n] s := by
  induction n generalizing s with
  | zero => rfl
  | succ n ih =>
    rw [Function.iterate_succ_apply, Function.iterate_succ_apply, ← hagree s hs]
    exact ih (hpoll s hs)

theorem arp_lookup_agree (hs : I s) (ip : UInt32) : s.arp_lookup poll ip = s.arp_lookup poll' ip := by
  have hfind := arp_find_keeps hI.cache hs ip
  unfold arp_lookup
  split
  · rfl
  · next s₁ heq =>
    rw [heq] at hfind
    rw [iterate_agree hpoll hagree 256 hfind]

theorem resolve_agree (next_hop : UInt32) (tries : Nat) (hs : I s) :
    resolve poll next_hop tries s = resolve poll' next_hop tries s := by
  induction tries generalizing s with
  | zero => rfl
  | succ tries ih =>
    have hlookup := arp_lookup_keeps hI.cache hpoll hs next_hop
    rw [resolve, resolve, ← arp_lookup_agree hI hpoll hagree hs]
    split
    · rfl
    · next s₁ heq =>
      rw [heq] at hlookup
      rw [← iterate_agree hpoll hagree 16 hlookup]
      exact ih (iterate_keeps hpoll 16 hlookup)

theorem ipv4_send_agree (hs : I s) (dst_ip : UInt32) (protocol : UInt8) (payload : Stack → List UInt8)
    (payload_len : Nat) :
    s.ipv4_send poll dst_ip protocol payload payload_len = s.ipv4_send poll' dst_ip protocol payload payload_len := by
  unfold ipv4_send
  rw [resolve_agree hI hpoll hagree _ _ hs]

theorem send_ack_agree (hs : I s) : s.send_ack poll = s.send_ack poll' := by
  unfold send_ack
  split
  · rfl
  · next conn _ =>
    have hbuilt := hI.segment s (overwrite s.tcp_tx_buf (tcp_segment s.ip conn TCP_FLAG_ACK [])) hs
    exact congrArg Prod.snd (ipv4_send_agree hI hpoll hagree hbuilt conn.remote_ip _ _ _)

theorem tcp_receive_agree (hs : I s) (conn : TcpConn) (seg : Segment) :
    s.tcp_receive poll conn seg = s.tcp_receive poll' conn seg := by
  have hset : ∀ conn, (s.set_conn conn).send_ack poll = (s.set_conn conn).send_ack poll' :=
    fun conn => send_ack_agree hI hpoll hagree (hI.conn s _ hs)
  unfold Stack.tcp_receive
  simp only [hset]
  have hdata : I (if seg.payload.length > 0 ∧ seg.has TCP_FLAG_ACK ∧ seg.seq = (conn.take_ack seg).ack then
        (s.set_conn ((conn.take_ack seg).take_data seg).1).send_ack poll'
      else s.set_conn (conn.take_ack seg)) := by
    split
    · rw [← hset]
      exact send_ack_keeps hI hpoll (hI.conn s _ hs)
    · exact hI.conn s _ hs
  rw [send_ack_agree (s := Stack.with_conn _ _) hI hpoll hagree (hI.conn _ _ hdata)]

end Agree

/-- More depth than there are frames changes nothing. -/
theorem ethernet_poll_enough (depth : Nat) (s : Stack) (hs : s.incoming.length ≤ depth) :
    ethernet_poll depth s = ethernet_poll (depth + 1) s := by
  induction depth generalizing s with
  | zero =>
    have hempty : s.incoming = [] := List.length_eq_zero_iff.mp (Nat.le_zero.mp hs)
    rw [ethernet_poll, ethernet_poll, hempty]
  | succ depth ih =>
    rw [ethernet_poll, ethernet_poll]
    split
    · rfl
    · rfl
    · next frame rest hincoming =>
      rw [hincoming, List.length_cons] at hs
      have hrest : Left depth { s with incoming := rest } := Nat.le_of_succ_le_succ hs
      have hpoll := ethernet_poll_left depth depth
      cases frame with
      | arp sender_ip sender_mac => rfl
      | echo_request src_ip data =>
        have hreply : Left depth { s with
            incoming := rest, icmp_reply_buf := overwrite s.icmp_reply_buf (echo_reply data) } := hrest
        exact congrArg Prod.snd (ipv4_send_agree (left_apart depth) hpoll ih hreply src_ip _ _ _)
      | other => rfl
      | tcp seg =>
        simp only [receive]
        split
        · rfl
        · next conn _ => exact tcp_receive_agree (left_apart depth) hpoll ih hrest conn seg

/-! ## Segments that are overwritten -/

variable {depth : Nat}

/-- The flags of the segment in the buffer are those of an answer. -/
def Spoiled (s : Stack) : Prop := s.tcp_tx_buf[13]? = some TCP_FLAG_ACK

theorem flags_of_segment (ip : UInt32) (conn : TcpConn) (flags : UInt8) (data rest : List UInt8) :
    (tcp_segment ip conn flags data ++ rest)[13]? = some flags := rfl

theorem spoiled_uncached : Uncached Spoiled := fun _ _ _ _ h => h

theorem send_ack_spoils (hpoll : ∀ s, Spoiled s → Spoiled (poll s)) (hconn : s.active_conn = some conn) :
    Spoiled (s.send_ack poll) := by
  have hbuilt : Spoiled { s with tcp_tx_buf := overwrite s.tcp_tx_buf (tcp_segment s.ip conn TCP_FLAG_ACK []) } :=
    flags_of_segment _ _ _ _ _
  unfold send_ack
  rw [hconn]
  exact ipv4_send_keeps spoiled_uncached hpoll hbuilt conn.remote_ip _ _ _

theorem send_ack_spoiled (hpoll : ∀ s, Spoiled s → Spoiled (poll s)) (s : Stack) (hs : Spoiled s) :
    Spoiled (s.send_ack poll) := by
  cases hconn : s.active_conn with
  | none =>
    rw [send_ack, hconn]
    exact hs
  | some conn => exact send_ack_spoils hpoll hconn

theorem with_conn_spoiled (f : TcpConn → TcpConn) (hs : Spoiled s) : Spoiled (s.with_conn f) := hs

/-- A segment that is answered is acknowledged in the buffer. -/
theorem tcp_receive_spoils (hpoll : ∀ s, Spoiled s → Spoiled (poll s)) (conn : TcpConn) {seg : Segment}
    (hanswered : (conn.tcp_receive seg).2 ≠ []) : Spoiled (s.tcp_receive poll conn seg) := by
  have hset : ∀ conn, Spoiled ((s.set_conn conn).send_ack poll) := fun _ => send_ack_spoils hpoll rfl
  unfold Stack.tcp_receive
  unfold TcpConn.tcp_receive at hanswered
  split
  · next hsrc =>
    rw [if_pos hsrc] at hanswered
    exact absurd rfl hanswered
  · next hsrc =>
    rw [if_neg hsrc] at hanswered
    split
    · next hdst =>
      rw [if_pos hdst] at hanswered
      exact absurd rfl hanswered
    · next hdst =>
      rw [if_neg hdst] at hanswered
      cases hstate : conn.state with
      | syn_sent =>
        rw [hstate] at hanswered
        dsimp only at hanswered ⊢
        split
        · next hsyn =>
          rw [if_pos hsyn] at hanswered
          split
          · next hack =>
            rw [if_pos hack] at hanswered
            exact absurd rfl hanswered
          · exact hset _
        · next hsyn =>
          rw [if_neg hsyn] at hanswered
          split at hanswered <;> exact absurd rfl hanswered
      | established =>
        rw [hstate] at hanswered
        dsimp only at hanswered ⊢
        split
        · next hrst =>
          rw [if_pos hrst] at hanswered
          exact absurd rfl hanswered
        · next hrst =>
          rw [if_neg hrst] at hanswered
          dsimp only at hanswered
          by_cases hdata : seg.payload.length > 0 ∧ seg.has TCP_FLAG_ACK ∧ seg.seq = (conn.take_ack seg).ack
          · rw [if_pos hdata]
            split
            · exact with_conn_spoiled _ (send_ack_spoiled hpoll _ (with_conn_spoiled _ (hset _)))
            · exact hset _
          · have htake : (conn.take_ack seg).take_data seg = (conn.take_ack seg, []) := by
              rw [TcpConn.take_data, if_neg hdata]
            rw [if_neg hdata]
            split
            · have hconn : ((s.set_conn (conn.take_ack seg)).with_conn fun conn =>
                  { conn with ack := conn.ack + 1, recv_closed := true }).active_conn =
                    some { conn.take_ack seg with ack := (conn.take_ack seg).ack + 1, recv_closed := true } := rfl
              exact with_conn_spoiled _ (send_ack_spoils hpoll hconn)
            · next hfin =>
              rw [htake, TcpConn.take_fin, if_neg hfin] at hanswered
              exact absurd rfl hanswered
      | fin_wait =>
        rw [hstate] at hanswered
        dsimp only at hanswered
        exact absurd rfl hanswered
      | closed =>
        rw [hstate] at hanswered
        dsimp only at hanswered
        exact absurd rfl hanswered

theorem ethernet_poll_spoiled (depth : Nat) (s : Stack) (hs : Spoiled s) : Spoiled (ethernet_poll depth s) := by
  induction depth generalizing s with
  | zero => exact hs
  | succ depth ih =>
    rw [ethernet_poll]
    split
    · exact hs
    · exact hs
    · next frame rest _ =>
      have hrest : Spoiled { s with incoming := rest } := hs
      cases frame with
      | arp sender_ip sender_mac => exact arp_cache_insert_keeps spoiled_uncached hrest sender_ip sender_mac
      | echo_request src_ip data =>
        have hreply : Spoiled { s with
            incoming := rest, icmp_reply_buf := overwrite s.icmp_reply_buf (echo_reply data) } := hs
        exact ipv4_send_keeps spoiled_uncached ih hreply src_ip _ _ _
      | other => exact hrest
      | tcp seg =>
        simp only [receive]
        split
        · exact hrest
        · next conn _ => exact tcp_receive_keeps (fun _ _ h => h) (send_ack_spoiled ih) hrest conn seg

/-- The connection will answer one of the frames, or has done so. -/
def Doomed (s : Stack) : Prop := Spoiled s ∨ ¬ Silent s.active_conn s.incoming

theorem doomed_uncached : Uncached Doomed := fun _ _ _ _ h => h

theorem ethernet_poll_doomed (depth : Nat) (s : Stack) (hs : Doomed s) : Doomed (ethernet_poll depth s) := by
  induction depth generalizing s with
  | zero => exact hs
  | succ depth ih =>
    rcases hs with hspoiled | hloud
    · exact .inl (ethernet_poll_spoiled (depth + 1) s hspoiled)
    · rw [ethernet_poll]
      split
      · next hincoming =>
        rw [hincoming] at hloud
        exact absurd (silent_nil _) hloud
      · next rest hincoming =>
        rw [hincoming] at hloud
        exact .inr ((silent_cons_iff (by simp)).not.mp hloud)
      · next frame rest hincoming =>
        rw [hincoming] at hloud
        cases frame with
        | arp sender_ip sender_mac =>
          have hrest : Doomed { s with incoming := rest } := .inr ((silent_cons_iff (by simp)).not.mp hloud)
          exact arp_cache_insert_keeps doomed_uncached hrest sender_ip sender_mac
        | echo_request src_ip data =>
          have hrest : Doomed { s with
              incoming := rest, icmp_reply_buf := overwrite s.icmp_reply_buf (echo_reply data) } :=
            .inr ((silent_cons_iff (by simp)).not.mp hloud)
          exact ipv4_send_keeps doomed_uncached ih hrest src_ip _ _ _
        | other => exact .inr ((silent_cons_iff (by simp)).not.mp hloud)
        | tcp seg =>
          simp only [receive]
          split
          · next hnone =>
            have hactive : s.active_conn = none := hnone
            rw [hactive] at hloud
            exact absurd (by simp [Silent]) hloud
          · next conn hconn =>
            have hactive : s.active_conn = some conn := hconn
            rw [hactive] at hloud
            by_cases hanswered : (conn.tcp_receive seg).2 = []
            · rw [tcp_receive_silent (s := { s with incoming := rest }) hconn hanswered]
              exact .inr fun hsilent => hloud ⟨hanswered, hsilent⟩
            · exact .inl (tcp_receive_spoils (ethernet_poll_spoiled depth) conn hanswered)

/-- When a hop that is not known has been resolved, all frames were handled, and the answer was built. -/
theorem resolve_spoils {tries : Nat} {next_hop : UInt32} (hunknown : (s.arp_find next_hop).1 = none)
    (hs : Doomed s) (hleft : Left 256 s) : Spoiled (resolve (ethernet_poll (depth + 1)) next_hop (tries + 1) s).2 := by
  generalize hI : (fun s => Doomed s ∧ Left 0 s) = I
  have huncached : Uncached I := by
    subst hI
    exact fun _ _ _ _ h => h
  have hpoll : ∀ s, I s → I (ethernet_poll (depth + 1) s) := by
    subst hI
    exact fun s h => ⟨ethernet_poll_doomed _ s h.1, ethernet_poll_left _ 0 s h.2⟩
  have hfind : s.arp_find next_hop = (none, (s.arp_find next_hop).2) := Prod.ext hunknown rfl
  have hlookup : I (s.arp_lookup (ethernet_poll (depth + 1)) next_hop).2 := by
    have hdoomed : Doomed (s.arp_find next_hop).2 := arp_find_keeps doomed_uncached hs next_hop
    have hfew : Left 256 (s.arp_find next_hop).2 := arp_find_keeps (left_apart 256).cache hleft next_hop
    generalize (s.arp_find next_hop).2 = s₁ at hfind hdoomed hfew
    have hpolled : I ((ethernet_poll (depth + 1))^[256] s₁) := by
      subst hI
      exact ⟨iterate_keeps (ethernet_poll_doomed (depth + 1)) 256 hdoomed, polls_take depth 256 s₁ hfew⟩
    unfold arp_lookup
    rw [hfind]
    dsimp only
    generalize (ethernet_poll (depth + 1))^[256] s₁ = s₂ at hpolled
    split
    · exact hpolled
    · split
      · exact arp_cache_insert_keeps huncached hpolled next_hop _
      · exact hpolled
  have hend : I (resolve (ethernet_poll (depth + 1)) next_hop (tries + 1) s).2 := by
    rw [resolve]
    split
    · next heq =>
      rw [heq] at hlookup
      exact hlookup
    · next s₁ heq =>
      rw [heq] at hlookup
      exact resolve_keeps huncached hpoll next_hop tries (iterate_keeps hpoll 16 hlookup)
  subst hI
  obtain ⟨hdoomed, hnone⟩ := hend
  have hempty := List.length_eq_zero_iff.mp (Nat.le_zero.mp hnone)
  refine hdoomed.resolve_right fun hloud => hloud ?_
  rw [hempty]
  exact silent_nil _

theorem lt_length_segment (ip : UInt32) (conn : TcpConn) (flags : UInt8) (data : List UInt8) :
    13 < (tcp_segment ip conn flags data).length := by
  rw [tcp_segment, List.length_append]
  have hheader : ∀ sum, (tcp_header conn flags sum).length = 20 := fun _ => rfl
  rw [hheader]
  omega

/-- A segment that goes out unchanged, although an answer was built in its place, is an answer itself. -/
theorem answered_segment_flags {mac : Mac}
    (hunknown : ¬ s.Resolved conn.remote_ip) (hloud : ¬ Silent s.active_conn s.incoming)
    (hfew : s.incoming.length ≤ 256) (hdepth : s.incoming.length ≤ depth)
    (hsent : (s.tcp_send_segment (ethernet_poll depth) conn flags data).1 = some (mac, packet))
    (hbuilt : Carries s.ip conn.remote_ip IP_PROTO_TCP (tcp_segment s.ip conn flags data) packet) :
    flags = TCP_FLAG_ACK := by
  cases depth with
  | zero =>
    have hempty := List.length_eq_zero_iff.mp (Nat.le_zero.mp hdepth)
    rw [hempty] at hloud
    exact absurd (silent_nil _) hloud
  | succ depth =>
    rw [tcp_send_segment] at hsent
    generalize ht : s.build_segment conn flags data = t at hsent
    have hfind : (t.arp_find (t.next_hop conn.remote_ip)).1 = none := by
      rw [← Option.not_isSome_iff_eq_none]
      intro hsome
      have hresolved : t.Resolved conn.remote_ip := hsome
      subst ht
      refine hunknown (resolved_congr ?_ ?_ ?_ ?_ ?_ ?_ hresolved) <;> rfl
    have hdoomed : Doomed t := by
      subst ht
      exact .inr hloud
    have hleft : Left 256 t := by
      subst ht
      exact hfew
    have hspoiled : Spoiled (t.routed (ethernet_poll (depth + 1)) conn.remote_ip) := resolve_spoils hfind hdoomed hleft
    have hcarried : Carries _ _ _ _ packet := ⟨_, ipv4_send_packet hsent⟩
    have hpayload := congrArg (fun l : List UInt8 => l[13]?) (hcarried.payload.symm.trans hbuilt.payload)
    have hown : (tcp_segment s.ip conn flags data)[13]? = some flags := rfl
    rw [List.getElem?_take, if_pos (lt_length_segment _ _ _ _), hspoiled, hown] at hpayload
    exact (Option.some.inj hpayload).symm

theorem packet_carried {dst_ip : UInt32} {payload : List UInt8} {mac : Mac}
    (hsent : (s.ipv4_send (ethernet_poll depth) dst_ip protocol (fun _ => payload) payload.length).1 =
      some (mac, packet)) : Carries s.ip dst_ip protocol payload packet := by
  have hwhole : payload = overwrite [] payload := by simp [overwrite]
  exact ipv4_send_built (I := fun _ => True) (fun _ _ _ _ h => h) trivial (fun _ _ => hwhole)
    (.inr fun _ _ => trivial) (fun s => ethernet_poll_ip depth s.ip s rfl) hsent

theorem segment_carried {mac : Mac} (hcond : s.Resolved conn.remote_ip ∨ Silent s.active_conn s.incoming)
    (hsent : (s.tcp_send_segment (ethernet_poll depth) conn flags data).1 = some (mac, packet)) :
    Carries s.ip conn.remote_ip IP_PROTO_TCP (tcp_segment s.ip conn flags data) packet := by
  have hip := fun s => ethernet_poll_ip depth s.ip s rfl
  rcases hcond with hknown | hsilent
  · exact ipv4_send_built (s := s.build_segment conn flags data)
      (I := fun t => t.tcp_tx_buf = overwrite s.tcp_tx_buf (tcp_segment s.ip conn flags data))
      (fun _ _ _ _ h => h) rfl (fun _ h => h) (.inl (build_segment_resolved hknown)) hip hsent
  · exact ipv4_send_built (s := s.build_segment conn flags data) (fun _ _ _ _ h => h) ⟨rfl, hsilent⟩ (fun _ h => h.1)
      (.inr (ethernet_poll_segmentStays depth (overwrite s.tcp_tx_buf (tcp_segment s.ip conn flags data)))) hip hsent

theorem reply_carried {src_ip : UInt32} {mac : Mac} (hcond : s.Resolved src_ip ∨ NoEcho s.incoming)
    (hsent : (s.icmp_receive (ethernet_poll depth) src_ip data).1 = some (mac, packet)) :
    Carries s.ip src_ip IP_PROTO_ICMP (echo_reply data) packet := by
  have hip := fun s => ethernet_poll_ip depth s.ip s rfl
  rcases hcond with hknown | hecho
  · exact ipv4_send_built (s := s.build_reply data)
      (I := fun t => t.icmp_reply_buf = overwrite s.icmp_reply_buf (echo_reply data))
      (fun _ _ _ _ h => h) rfl (fun _ h => h) (.inl (build_reply_resolved hknown)) hip hsent
  · exact ipv4_send_built (s := s.build_reply data) (fun _ _ _ _ h => h) ⟨rfl, hecho⟩ (fun _ h => h.1)
      (.inr (ethernet_poll_replyStays depth (overwrite s.icmp_reply_buf (echo_reply data)))) hip hsent

end Stack

open Stack

/-- Whatever frames arrive while a segment, or an echo reply, is sent: what goes out is what was built if
the next hop is known, or if the connection answers none of the frames, or none of them is an echo request.
For a segment that is not itself a bare answer, and frames that the first round of polls takes, there is no
other way. -/
theorem wire_payload_is_built (depth : Nat) (s : Stack) :
    (∀ conn flags data, (s.Resolved conn.remote_ip ∨ Silent s.active_conn s.incoming) →
      ∀ mac packet, (s.tcp_send_segment (ethernet_poll depth) conn flags data).1 = some (mac, packet) →
        Carries s.ip conn.remote_ip IP_PROTO_TCP (tcp_segment s.ip conn flags data) packet) ∧
    (∀ src_ip data, (s.Resolved src_ip ∨ NoEcho s.incoming) →
      ∀ mac packet, (s.icmp_receive (ethernet_poll depth) src_ip data).1 = some (mac, packet) →
        Carries s.ip src_ip IP_PROTO_ICMP (echo_reply data) packet) ∧
    (∀ conn flags data, flags ≠ TCP_FLAG_ACK → s.incoming.length ≤ 256 → s.incoming.length ≤ depth →
      ∀ mac packet, (s.tcp_send_segment (ethernet_poll depth) conn flags data).1 = some (mac, packet) →
        Carries s.ip conn.remote_ip IP_PROTO_TCP (tcp_segment s.ip conn flags data) packet →
          s.Resolved conn.remote_ip ∨ Silent s.active_conn s.incoming) := by
  refine ⟨?_, ?_, ?_⟩
  · intro conn flags data hcond mac packet hsent
    exact segment_carried hcond hsent
  · intro src_ip data hcond mac packet hsent
    exact reply_carried hcond hsent
  · intro conn flags data hflags hfew hdepth mac packet hsent hbuilt
    by_contra hcond
    rw [not_or] at hcond
    obtain ⟨hunknown, hloud⟩ := hcond
    exact hflags (answered_segment_flags hunknown hloud hfew hdepth hsent hbuilt)

/-- An established connection through the gateway of the emulator. -/
def gateway_conn : TcpConn :=
  { TcpConn.opening 0x5DB8D822 80 49152 100 with state := .established, ack := 200 }

/-- A stack with an empty cache, before frames arrive. -/
def cold_stack (incoming : List (Option Frame)) : Stack :=
  { ip := 0x0A00020F, netmask := 0xFFFFFF00, gateway := QEMU_SLIRP_GATEWAY_IP, active_conn := some gateway_conn
    ip_id_counter := 1, tcp_tx_buf := List.replicate 1480 0, icmp_reply_buf := List.replicate 1488 0
    arp_cache := fun _ => ⟨0, 0, 0, false⟩, clock := fun _ => 0, readings := 0, incoming := incoming }

/-- While the gateway is looked for, it answers an old request, an echo request arrives and an acknowledgement. -/
def quiet_frames : List (Option Frame) :=
  [some (.arp 0x0A000203 0x52550A000203), none, some (.echo_request 0x0A000203 [8, 0, 0, 0, 0, 1, 0, 1, 97]),
    some (.tcp ⟨80, 49152, 200, 100, TCP_FLAG_ACK, []⟩)]

theorem wire_payload_of_quiet_send : Silent (cold_stack quiet_frames).active_conn (cold_stack quiet_frames).incoming ∧
    ∃ mac packet, ((cold_stack quiet_frames).tcp_send_segment (ethernet_poll 4) gateway_conn
        (TCP_FLAG_PSH ||| TCP_FLAG_ACK) [65]).1 = some (mac, packet) ∧
      Carries 0x0A00020F gateway_conn.remote_ip IP_PROTO_TCP
        (tcp_segment 0x0A00020F gateway_conn (TCP_FLAG_PSH ||| TCP_FLAG_ACK) [65]) packet := by
  have hsilent : Silent (cold_stack quiet_frames).active_conn (cold_stack quiet_frames).incoming :=
    ⟨by decide +kernel, trivial⟩
  have hsome : ((cold_stack quiet_frames).tcp_send_segment (ethernet_poll 4) gateway_conn
      (TCP_FLAG_PSH ||| TCP_FLAG_ACK) [65]).1.isSome = true := by decide +kernel
  obtain ⟨⟨mac, packet⟩, hsent⟩ := Option.isSome_iff_exists.mp hsome
  exact ⟨hsilent, mac, packet, hsent, (wire_payload_is_built 4 (cold_stack quiet_frames)).1 gateway_conn
    (TCP_FLAG_PSH ||| TCP_FLAG_ACK) [65] (.inr hsilent) mac packet hsent⟩

/-- The data that arrives while a segment is sent is acknowledged from the same buffer. -/
theorem wire_payload_overwritten : ¬ ∀ (depth : Nat) (s : Stack), s.incoming.length ≤ depth →
    ∀ conn flags data mac packet, (s.tcp_send_segment (ethernet_poll depth) conn flags data).1 = some (mac, packet) →
      Carries s.ip conn.remote_ip IP_PROTO_TCP (tcp_segment s.ip conn flags data) packet := by
  intro hclaim
  let s := cold_stack [some (.tcp ⟨80, 49152, 200, 100, TCP_FLAG_ACK, [1]⟩)]
  let sent := (s.tcp_send_segment (ethernet_poll 1) gateway_conn (TCP_FLAG_PSH ||| TCP_FLAG_ACK) [65]).1
  have hsome : sent.isSome = true := by decide +kernel
  have hother : sent.map (fun out => out.2.drop IPv4_HEADER_LEN) ≠
      some (tcp_segment s.ip gateway_conn (TCP_FLAG_PSH ||| TCP_FLAG_ACK) [65]) := by
    decide +kernel
  obtain ⟨⟨mac, packet⟩, hsent⟩ := Option.isSome_iff_exists.mp hsome
  refine hother ?_
  rw [hsent, Option.map_some]
  exact congrArg some (hclaim 1 s (by decide) gateway_conn _ [65] mac packet hsent).payload

end graceos.net
