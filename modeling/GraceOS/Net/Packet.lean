import GraceOS.Net.Stack
import GraceOS.Lib.Word
import Mathlib.Data.List.GetD

/-!
# Packets as bytes

What `ipv4_send` hands to `ethernet_send`, what `ipv4_receive` makes of the bytes it is given, and the checksums
that the two sides compute.
-/

namespace graceos.net

open List

/-! ## Checksums -/

theorem toNat_fold_carry (sum : UInt32) : (fold_carry sum).toNat = sum.toNat % 2 ^ 16 + sum.toNat / 2 ^ 16 := by
  have hlt := sum.toNat_lt
  have hmask : (0xFFFF : UInt32).toNat = 2 ^ 16 - 1 := rfl
  rw [fold_carry, UInt32.toNat_add, UInt32.toNat_and, hmask, Nat.and_two_pow_sub_one_eq_mod, UInt32.toNat_shiftRight,
    Nat.shiftRight_eq_div_pow]
  have hshift : (16 : UInt32).toNat % 32 = 16 := rfl
  rw [hshift]
  omega

theorem toNat_checksum (sum : UInt32) : ∃ r, (checksum sum).toNat = 65535 - r ∧ r ≤ 65535 ∧
    r % 65535 = sum.toNat % 65535 ∧ (r = 0 ↔ sum.toNat = 0) := by
  have hlt := sum.toNat_lt
  have hfirst := toNat_fold_carry sum
  have hsecond := toNat_fold_carry (fold_carry sum)
  refine ⟨(fold_carry (fold_carry sum)).toNat, ?_, by omega, by omega, by omega⟩
  rw [checksum, UInt16.toNat_not, UInt32.toNat_toUInt16, UInt16.size]
  omega

theorem checksum_eq_zero_iff (sum : UInt32) : checksum sum = 0 ↔ sum.toNat ≠ 0 ∧ sum.toNat % 65535 = 0 := by
  obtain ⟨r, hr, hle, hmod, hzero⟩ := toNat_checksum sum
  rw [← UInt16.toNat_inj, UInt16.toNat_zero, hr]
  omega

theorem checksum_add_self {sum : UInt32} (hsum : sum.toNat + 65535 < 2 ^ 32) :
    checksum (sum + (checksum sum).toUInt32) = 0 := by
  obtain ⟨r, hr, hle, hmod, hzero⟩ := toNat_checksum sum
  rw [checksum_eq_zero_iff, UInt32.toNat_add, UInt16.toNat_toUInt32, hr, Nat.mod_eq_of_lt (by omega)]
  omega

theorem word_be16 (x : UInt16) : (x >>> 8).toUInt8.toUInt32 <<< 8 ||| x.toUInt8.toUInt32 = x.toUInt32 :=
  word.join_bytes x

@[simp] theorem sum_words_be16 (x : UInt16) (rest : List UInt8) :
    sum_words (be16 x ++ rest) = x.toUInt32 + sum_words rest := by
  rw [be16, cons_append, cons_append, nil_append, sum_words, word_be16]

theorem sum_words_append {a : List UInt8} (heven : a.length % 2 = 0) (b : List UInt8) :
    sum_words (a ++ b) = sum_words a + sum_words b := by
  induction a using sum_words.induct with
  | case1 => simp [sum_words]
  | case2 x => simp at heven
  | case3 x y rest ih =>
    have hrest : rest.length % 2 = 0 := by
      rw [length_cons, length_cons] at heven
      omega
    rw [cons_append, cons_append, sum_words, sum_words, ih hrest, UInt32.add_assoc]

theorem sum_words_le (l : List UInt8) (hlen : l.length ≤ 65535) :
    (sum_words l).toNat ≤ 65535 * ((l.length + 1) / 2) := by
  induction l using sum_words.induct with
  | case1 => simp [sum_words]
  | case2 x =>
    have hx := x.toNat_lt
    have hshift : (x.toUInt32 <<< 8).toNat = x.toNat * 2 ^ 8 % 2 ^ 32 := by
      rw [UInt32.toNat_shiftLeft, UInt8.toNat_toUInt32, Nat.shiftLeft_eq]
      rfl
    rw [sum_words, hshift]
    simp
    omega
  | case3 x y rest ih =>
    rw [length_cons, length_cons] at hlen
    have hrest := ih (by omega)
    have hword : (x.toUInt32 <<< 8 ||| y.toUInt32).toNat < 2 ^ 16 := by
      rw [UInt32.toNat_or]
      refine Nat.or_lt_two_pow ?_ ?_
      · have hx := x.toNat_lt
        rw [UInt32.toNat_shiftLeft, UInt8.toNat_toUInt32, Nat.shiftLeft_eq]
        have hshift : (8 : UInt32).toNat % 32 = 8 := rfl
        rw [hshift]
        omega
      · have hy := y.toNat_lt
        rw [UInt8.toNat_toUInt32]
        omega
    rw [sum_words, UInt32.toNat_add, length_cons, length_cons]
    omega

theorem checksum_inserted (base : UInt32) (a b : List UInt8) (heven : a.length % 2 = 0)
    (hsum : (base + sum_words (a ++ be16 0 ++ b)).toNat + 65535 < 2 ^ 32) :
    checksum (base + sum_words (a ++ be16 (checksum (base + sum_words (a ++ be16 0 ++ b))) ++ b)) = 0 := by
  have hzero : sum_words (a ++ be16 0 ++ b) = sum_words a + sum_words b := by
    rw [append_assoc, sum_words_append heven, sum_words_be16]
    simp
  generalize hc : checksum (base + sum_words (a ++ be16 0 ++ b)) = c
  have hplaced : base + sum_words (a ++ be16 c ++ b) = base + sum_words (a ++ be16 0 ++ b) + c.toUInt32 := by
    rw [hzero, append_assoc, sum_words_append heven, sum_words_be16]
    ac_rfl
  rw [hplaced, ← hc]
  exact checksum_add_self hsum

/-! ## Fields -/

/-- A field of two bytes, in host byte order. -/
def load16 (data : List UInt8) (i : Nat) : UInt16 := (data.getD i 0).toUInt16 <<< 8 ||| (data.getD (i + 1) 0).toUInt16

/-- A field of four bytes, in host byte order. -/
def load32 (data : List UInt8) (i : Nat) : UInt32 := (load16 data i).toUInt32 <<< 16 ||| (load16 data (i + 2)).toUInt32

theorem load16_be16 (x : UInt16) (rest : List UInt8) : load16 (be16 x ++ rest) 0 = x := by
  have hbytes : load16 (be16 x ++ rest) 0 = (x >>> 8).toUInt8.toUInt16 <<< 8 ||| x.toUInt8.toUInt16 := rfl
  rw [hbytes]
  apply UInt16.toNat_inj.mp
  have hlt := x.toNat_lt
  have hhi : ((x >>> 8).toUInt8.toUInt16 <<< 8).toNat = x.toNat / 2 ^ 8 * 2 ^ 8 := by
    simp [Nat.shiftLeft_eq, Nat.shiftRight_eq_div_pow]
    omega
  have hlo : x.toUInt8.toUInt16.toNat = x.toNat % 2 ^ 8 := by simp
  rw [UInt16.toNat_or, hhi, hlo, ← Nat.shiftLeft_eq, ← Nat.shiftLeft_add_eq_or_of_lt (Nat.mod_lt _ (by decide)),
    Nat.shiftLeft_eq]
  omega

theorem load16_drop (a rest : List UInt8) (i : Nat) : load16 (a ++ rest) (a.length + i) = load16 rest i := by
  rw [load16, load16, Nat.add_assoc, getD_append_right _ _ _ _ (by omega), getD_append_right _ _ _ _ (by omega),
    Nat.add_sub_cancel_left, Nat.add_sub_cancel_left]

theorem load32_drop (a rest : List UInt8) (i : Nat) : load32 (a ++ rest) (a.length + i) = load32 rest i := by
  rw [load32, load32, Nat.add_assoc, load16_drop, load16_drop]

theorem be32_eq (x : UInt32) : be32 x = be16 (x >>> 16).toUInt16 ++ be16 x.toUInt16 := by
  have h₁ : (x >>> 24).toUInt8 = ((x >>> 16).toUInt16 >>> 8).toUInt8 := by
    apply UInt8.toNat_inj.mp
    have hlt := x.toNat_lt
    simp [Nat.shiftRight_eq_div_pow]
    omega
  have h₂ : (x >>> 16).toUInt8 = (x >>> 16).toUInt16.toUInt8 := by simp
  have h₃ : (x >>> 8).toUInt8 = (x.toUInt16 >>> 8).toUInt8 := by
    apply UInt8.toNat_inj.mp
    have hlt := x.toNat_lt
    simp [Nat.shiftRight_eq_div_pow]
    omega
  have h₄ : x.toUInt8 = x.toUInt16.toUInt8 := by simp
  rw [be32, be16, be16, h₁, h₂, h₃, h₄]
  rfl

theorem load32_be32 (x : UInt32) (rest : List UInt8) : load32 (be32 x ++ rest) 0 = x := by
  have hlow : load16 (be16 (x >>> 16).toUInt16 ++ (be16 x.toUInt16 ++ rest)) (0 + 2) = x.toUInt16 := by
    rw [Nat.add_comm]
    exact (load16_drop (be16 (x >>> 16).toUInt16) _ 0).trans (load16_be16 _ _)
  rw [load32, be32_eq, append_assoc, load16_be16, hlow]
  apply UInt32.toNat_inj.mp
  have hlt := x.toNat_lt
  have hhi : ((x >>> 16).toUInt16.toUInt32 <<< 16).toNat = x.toNat / 2 ^ 16 * 2 ^ 16 := by
    simp [Nat.shiftLeft_eq, Nat.shiftRight_eq_div_pow]
    omega
  have hlo : x.toUInt16.toUInt32.toNat = x.toNat % 2 ^ 16 := by simp
  rw [UInt32.toNat_or, hhi, hlo, ← Nat.shiftLeft_eq, ← Nat.shiftLeft_add_eq_or_of_lt (Nat.mod_lt _ (by decide)),
    Nat.shiftLeft_eq]
  omega

/-! ## IPv4 -/

/-- The checks of `ipv4_receive`: protocol, source and payload of a packet that passes them. -/
def ipv4_accept (data : List UInt8) : Option (UInt8 × UInt32 × List UInt8) :=
  if data.length < IPv4_HEADER_LEN then none
  else if data.getD 0 0 >>> 4 ≠ 4 then none
  else
    let ihl := ((data.getD 0 0 &&& 0x0F) * 4).toNat
    if ihl < IPv4_HEADER_LEN ∨ ihl > data.length then none
    else if ihl ≠ IPv4_HEADER_LEN then none
    else
      let total_len := (load16 data 2).toNat
      if total_len < ihl ∨ total_len > data.length then none
      else if ipv4_checksum (data.take ihl) ≠ 0 then none
      else some (data.getD 9 0, load32 data 12, (data.drop ihl).take (total_len - ihl))

theorem ipv4_header_verifies (src dst : UInt32) (id : UInt16) (protocol : UInt8) (payload_len : Nat) :
    ipv4_checksum (ipv4_header src dst id protocol payload_len
      (ipv4_checksum (ipv4_header src dst id protocol payload_len 0))) = 0 := by
  have hbound := sum_words_le (ipv4_header src dst id protocol payload_len 0) (by rw [length_ipv4_header]; decide)
  rw [length_ipv4_header] at hbound
  have h := checksum_inserted 0
    ([0x45, 0] ++ be16 (UInt16.ofNat (IPv4_HEADER_LEN + payload_len)) ++ be16 id ++ [0, 0, 64, protocol])
    (be32 src ++ be32 dst) (by simp [be16]) (by rw [UInt32.zero_add]; change
      (sum_words (ipv4_header src dst id protocol payload_len 0)).toNat + 65535 < _; omega)
  rw [UInt32.zero_add, UInt32.zero_add] at h
  exact h

/-- What is sent passes the checks, and gives back its payload, whatever padding is behind it. -/
theorem ipv4_accept_packet (src dst : UInt32) (id : UInt16) (protocol : UInt8) {payload : List UInt8}
    (hlen : payload.length ≤ 1480) (padding : List UInt8) :
    ipv4_accept (ipv4_packet src dst id protocol payload ++ padding) = some (protocol, src, payload) := by
  have hverify := ipv4_header_verifies src dst id protocol payload.length
  generalize hsum : ipv4_checksum (ipv4_header src dst id protocol payload.length 0) = sum at hverify
  have hpacket : ipv4_packet src dst id protocol payload ++ padding =
      ipv4_header src dst id protocol payload.length sum ++ (payload ++ padding) := by
    rw [ipv4_packet, hsum, append_assoc]
  have hsplit : ipv4_header src dst id protocol payload.length sum ++ (payload ++ padding) =
      ([0x45, 0] ++ be16 (UInt16.ofNat (IPv4_HEADER_LEN + payload.length)) ++ be16 id ++
        [0, 0, 64, protocol] ++ be16 sum) ++
        (be32 src ++ (be32 dst ++ (payload ++ padding))) := by
    simp [ipv4_header]
  have htotal : load16 (ipv4_header src dst id protocol payload.length sum ++ (payload ++ padding)) 2 =
      UInt16.ofNat (IPv4_HEADER_LEN + payload.length) := by
    rw [hsplit]
    simp only [append_assoc]
    exact (load16_drop [0x45, 0] _ 0).trans (load16_be16 _ _)
  have hsrc : load32 (ipv4_header src dst id protocol payload.length sum ++ (payload ++ padding)) 12 = src := by
    rw [hsplit]
    refine Eq.trans ?_ ((load32_drop ([0x45, 0] ++ be16 (UInt16.ofNat (IPv4_HEADER_LEN + payload.length)) ++ be16 id ++
      [0, 0, 64, protocol] ++ be16 sum) _ 0).trans (load32_be32 src (be32 dst ++ (payload ++ padding))))
    rfl
  have hnat : (UInt16.ofNat (IPv4_HEADER_LEN + payload.length)).toNat = 20 + payload.length := by
    rw [UInt16.toNat_ofNat', IPv4_HEADER_LEN]
    omega
  have hfirst : (ipv4_header src dst id protocol payload.length sum ++ (payload ++ padding)).getD 0 0 = 0x45 := rfl
  have hprotocol : (ipv4_header src dst id protocol payload.length sum ++ (payload ++ padding)).getD 9 0 =
      protocol := rfl
  have hlength : (ipv4_header src dst id protocol payload.length sum ++ (payload ++ padding)).length =
      20 + (payload.length + padding.length) := by
    rw [length_append, length_append, length_ipv4_header]
  have htake : (ipv4_header src dst id protocol payload.length sum ++ (payload ++ padding)).take 20 =
      ipv4_header src dst id protocol payload.length sum := rfl
  have hdrop : (ipv4_header src dst id protocol payload.length sum ++ (payload ++ padding)).drop 20 =
      payload ++ padding := rfl
  have hihl : (((0x45 : UInt8) &&& 0x0F) * 4).toNat = 20 := by decide
  rw [hpacket, ipv4_accept, hfirst, hprotocol, htotal, hsrc, hnat, hlength, hihl]
  dsimp only
  rw [htake, hdrop, hverify, IPv4_HEADER_LEN, if_neg (by omega), if_neg (by decide), if_neg (by omega),
    if_neg (by omega),
    if_neg (by omega), if_neg (by decide), Nat.add_sub_cancel_left, take_left]

theorem Carries.accepted {src dst : UInt32} {protocol : UInt8} {payload packet : List UInt8}
    (h : Carries src dst protocol payload packet) (hlen : payload.length ≤ 1480) (padding : List UInt8) :
    ipv4_accept (packet ++ padding) = some (protocol, src, payload) := by
  obtain ⟨id, rfl⟩ := h
  exact ipv4_accept_packet src dst id protocol hlen padding

/-! ## Segments and echo replies -/

theorem tcp_segment_verifies (ip : UInt32) (conn : TcpConn) (flags : UInt8) {data : List UInt8}
    (hlen : data.length ≤ 1460) : tcp_checksum ip conn.remote_ip (tcp_segment ip conn flags data) = 0 := by
  generalize ha : be16 conn.local_port ++ be16 conn.remote_port ++ be32 conn.seq ++
    be32 (if (flags &&& TCP_FLAG_ACK) != 0 then conn.ack else 0) ++ [0x50, flags] ++ be16 4096 = a
  have heven : a.length = 16 := by rw [← ha]; rfl
  have hheader : ∀ sum, tcp_header conn flags sum ++ data = a ++ be16 sum ++ (be16 0 ++ data) := by
    intro sum
    rw [tcp_header, ← ha]
    simp
  have hlength : ∀ sum, (tcp_header conn flags sum ++ data).length = 20 + data.length := by
    intro sum
    rw [length_append]
    rfl
  have hwords := sum_words_le (tcp_header conn flags 0 ++ data) (by rw [hlength]; omega)
  rw [hlength] at hwords
  generalize hbase : (ip >>> 16) + (ip &&& (0xFFFF : UInt32)) + (conn.remote_ip >>> 16) +
    (conn.remote_ip &&& (0xFFFF : UInt32)) +
    6 + (UInt16.ofNat (20 + data.length)).toUInt32 = base
  have hpseudo : base.toNat ≤ 5 * 65535 + 6 := by
    have hhigh : ∀ x : UInt32, (x >>> 16).toNat ≤ 65535 := fun x => by
      have hlt := x.toNat_lt
      have hshift : (x >>> 16).toNat = x.toNat / 2 ^ 16 := by
        rw [UInt32.toNat_shiftRight, Nat.shiftRight_eq_div_pow]
        rfl
      omega
    have hlow : ∀ x : UInt32, (x &&& (0xFFFF : UInt32)).toNat ≤ 65535 := fun x => by
      rw [UInt32.toNat_and]
      exact Nat.and_le_right
    have hlen16 := (UInt16.ofNat (20 + data.length)).toNat_lt
    have h₁ := hhigh ip
    have h₂ := hlow ip
    have h₃ := hhigh conn.remote_ip
    have h₄ := hlow conn.remote_ip
    have h₆ : (6 : UInt32).toNat = 6 := rfl
    rw [← hbase]
    simp only [UInt32.toNat_add, UInt16.toNat_toUInt32, h₆]
    omega
  have hsum : ∀ sum, tcp_checksum ip conn.remote_ip (tcp_header conn flags sum ++ data) =
      checksum (base + sum_words (a ++ be16 sum ++ (be16 0 ++ data))) := by
    intro sum
    rw [tcp_checksum, hlength, hbase, hheader]
  rw [tcp_segment, hsum, hsum]
  refine checksum_inserted _ _ _ (by rw [heven]) ?_
  rw [← hheader, UInt32.toNat_add]
  omega

theorem echo_reply_verifies {data : List UInt8} (hmin : 8 ≤ data.length) (hmax : data.length ≤ 1480) :
    icmp_checksum (echo_reply data) = 0 := by
  obtain ⟨type, code, high, low, rest, rfl⟩ : ∃ type code high low rest, data =
      type :: code :: high :: low :: rest := by
    rcases data with _ | ⟨type, _ | ⟨code, _ | ⟨high, _ | ⟨low, rest⟩⟩⟩⟩
    case cons.cons.cons.cons => exact ⟨type, code, high, low, rest, rfl⟩
    all_goals exact absurd hmin (by simp)
  have hreply : echo_reply (type :: code :: high :: low :: rest) =
      [0, code] ++ be16 (icmp_checksum ([0, code] ++ be16 0 ++ rest)) ++ rest := by
    rw [echo_reply, take_of_length_le (by omega)]
    rfl
  have hbound := sum_words_le ([0, code] ++ be16 0 ++ rest) (by simp [be16] at hmax ⊢; omega)
  have hlength : ([0, code] ++ be16 0 ++ rest).length ≤ 1480 := by simpa [be16] using hmax
  have h := checksum_inserted 0 [0, code] rest (by simp) (by rw [UInt32.zero_add]; omega)
  rw [UInt32.zero_add, UInt32.zero_add] at h
  rw [hreply]
  exact h

def TCP_HEADER_LEN : Nat := 20

/-- The segment that `ipv4_receive` takes out of an IPv4 payload. -/
def tcp_parse (payload : List UInt8) : Option Segment :=
  if payload.length < TCP_HEADER_LEN then none
  else
    let tcp_hdr_len := ((payload.getD 12 0 >>> 4) * 4).toNat
    if tcp_hdr_len < TCP_HEADER_LEN ∨ tcp_hdr_len > payload.length then none
    else some
      { src_port := load16 payload 0
        dst_port := load16 payload 2
        seq := load32 payload 4
        ack_num := load32 payload 8
        flags := payload.getD 13 0
        payload := payload.drop tcp_hdr_len }

/-- The segment in the bytes is the one that the connection means to send. -/
theorem tcp_parse_segment (ip : UInt32) (conn : TcpConn) (flags : UInt8) (data : List UInt8) :
    tcp_parse (tcp_segment ip conn flags data) = some (conn.tcp_send_segment flags data) := by
  rw [tcp_segment]
  generalize tcp_checksum ip conn.remote_ip (tcp_header conn flags 0 ++ data) = sum
  generalize hack : (if (flags &&& TCP_FLAG_ACK) != 0 then conn.ack else 0) = ack
  -- the fields one behind the other
  have hbytes : tcp_header conn flags sum ++ data = be16 conn.local_port ++ (be16 conn.remote_port ++ (be32 conn.seq ++
      (be32 ack ++ ([0x50, flags] ++ (be16 4096 ++ (be16 sum ++ (be16 0 ++ data))))))) := by
    simp only [tcp_header, hack, append_assoc]
  have hdst : load16 (tcp_header conn flags sum ++ data) 2 = conn.remote_port := by
    rw [hbytes]
    exact (load16_drop (be16 conn.local_port) _ 0).trans (load16_be16 _ _)
  have hseq : load32 (tcp_header conn flags sum ++ data) 4 = conn.seq := by
    rw [hbytes, ← append_assoc]
    exact (load32_drop (be16 conn.local_port ++ be16 conn.remote_port) _ 0).trans (load32_be32 _ _)
  have hack_num : load32 (tcp_header conn flags sum ++ data) 8 = ack := by
    rw [hbytes, ← append_assoc, ← append_assoc]
    exact (load32_drop (be16 conn.local_port ++ be16 conn.remote_port ++ be32 conn.seq) _ 0).trans (load32_be32 _ _)
  have hsrc : load16 (tcp_header conn flags sum ++ data) 0 = conn.local_port := by
    rw [hbytes]
    exact load16_be16 _ _
  have hoffset : (tcp_header conn flags sum ++ data).getD 12 0 = 0x50 := rfl
  have hflags : (tcp_header conn flags sum ++ data).getD 13 0 = flags := rfl
  have hrest : (tcp_header conn flags sum ++ data).drop 20 = data := rfl
  have hlength : (tcp_header conn flags sum ++ data).length = 20 + data.length := by
    rw [length_append]
    rfl
  have hheader : (((0x50 : UInt8) >>> 4) * 4).toNat = 20 := by decide
  rw [tcp_parse, hlength, hoffset, hheader, hsrc, hdst, hseq, hack_num, hflags, TCP_HEADER_LEN, if_neg (by omega),
    if_neg (by omega), hrest, TcpConn.tcp_send_segment, hack]

theorem length_tcp_segment (ip : UInt32) (conn : TcpConn) (flags : UInt8) (data : List UInt8) :
    (tcp_segment ip conn flags data).length = TCP_HEADER_LEN + data.length := by
  rw [tcp_segment, length_append]
  rfl

theorem length_echo_reply {data : List UInt8} (hmax : data.length ≤ 1480) : (echo_reply data).length = data.length := by
  simp only [echo_reply, length_set, length_take]
  omega

theorem echo_reply_data {data : List UInt8} (hmin : 8 ≤ data.length) (hmax : data.length ≤ 1480) :
    (echo_reply data).head? = some 0 ∧ (echo_reply data).drop 4 = data.drop 4 := by
  rcases data with _ | ⟨type, _ | ⟨code, _ | ⟨high, _ | ⟨low, rest⟩⟩⟩⟩
  case cons.cons.cons.cons =>
    rw [echo_reply, take_of_length_le (by omega)]
    exact ⟨rfl, rfl⟩
  all_goals exact absurd hmin (by simp)

open Stack

/-- What the stack builds verifies and decodes. A packet gives its payload back on any link padding. A segment and an
echo reply verify in the buffer they are built in, and when they go out as built they are what the receiver gets out of
the packet. Each is sent if the next hop is known. -/
theorem packets_verify (depth : Nat) (s : Stack) :
    (∀ dst_ip protocol payload, payload.length ≤ 1480 →
      (s.Resolved dst_ip →
        (s.ipv4_send (ethernet_poll depth) dst_ip protocol (fun _ => payload) payload.length).1.isSome = true) ∧
      ∀ mac packet,
        (s.ipv4_send (ethernet_poll depth) dst_ip protocol (fun _ => payload) payload.length).1 = some (mac, packet) →
          ∀ padding, ipv4_accept (packet ++ padding) = some (protocol, s.ip, payload)) ∧
    (∀ conn flags data, data.length ≤ 1460 →
      tcp_checksum s.ip conn.remote_ip
        ((s.build_segment conn flags data).tcp_tx_buf.take (TCP_HEADER_LEN + data.length)) = 0 ∧
      (s.Resolved conn.remote_ip → (s.tcp_send_segment (ethernet_poll depth) conn flags data).1.isSome = true) ∧
      ((s.Resolved conn.remote_ip ∨ Silent s.active_conn s.incoming) → ∀ mac packet,
        (s.tcp_send_segment (ethernet_poll depth) conn flags data).1 = some (mac, packet) →
          ∀ padding, ∃ segment, ipv4_accept (packet ++ padding) = some (IP_PROTO_TCP, s.ip, segment) ∧
            tcp_checksum s.ip conn.remote_ip segment = 0 ∧
            tcp_parse segment = some (conn.tcp_send_segment flags data))) ∧
    ∀ src_ip data, 8 ≤ data.length → data.length ≤ 1480 →
      icmp_checksum ((s.build_reply data).icmp_reply_buf.take data.length) = 0 ∧
      (s.Resolved src_ip → (s.icmp_receive (ethernet_poll depth) src_ip data).1.isSome = true) ∧
      ((s.Resolved src_ip ∨ NoEcho s.incoming) → ∀ mac packet,
        (s.icmp_receive (ethernet_poll depth) src_ip data).1 = some (mac, packet) →
          ∀ padding, ∃ reply, ipv4_accept (packet ++ padding) = some (IP_PROTO_ICMP, s.ip, reply) ∧
            icmp_checksum reply = 0 ∧ reply.head? = some 0 ∧ reply.drop 4 = data.drop 4) := by
  refine ⟨fun dst_ip protocol payload hlen => ?_, fun conn flags data hlen => ?_, fun src_ip data hmin hmax => ?_⟩
  · refine ⟨fun hknown => ipv4_send_resolved _ hknown protocol _ (by omega), fun mac packet hsent padding => ?_⟩
    exact (packet_carried hsent).accepted hlen padding
  · have hverifies := tcp_segment_verifies s.ip conn flags hlen
    have hlength := length_tcp_segment s.ip conn flags data
    have hbuilt : (s.build_segment conn flags data).tcp_tx_buf.take (TCP_HEADER_LEN + data.length) =
        tcp_segment s.ip conn flags data := by
      rw [← hlength]
      exact take_overwrite s.tcp_tx_buf _
    refine ⟨by rw [hbuilt, hverifies], fun hknown => ?_, fun hcond mac packet hsent padding => ?_⟩
    · exact ipv4_send_resolved _ (build_segment_resolved hknown) _ _ (by rw [hlength, TCP_HEADER_LEN]; omega)
    · have hpacket := (segment_carried hcond hsent).accepted (by rw [hlength, TCP_HEADER_LEN]; omega) padding
      exact ⟨tcp_segment s.ip conn flags data, hpacket, hverifies, tcp_parse_segment s.ip conn flags data⟩
  · have hverifies := echo_reply_verifies hmin hmax
    have hlength := length_echo_reply hmax
    have hbuilt : (s.build_reply data).icmp_reply_buf.take data.length = echo_reply data := by
      rw [← hlength]
      exact take_overwrite s.icmp_reply_buf _
    refine ⟨by rw [hbuilt, hverifies], fun hknown => ?_, fun hcond mac packet hsent padding => ?_⟩
    · exact ipv4_send_resolved _ (build_reply_resolved hknown) _ _ (by rw [hlength]; omega)
    · have hpacket := (reply_carried hcond hsent).accepted (by rw [hlength]; omega) padding
      exact ⟨echo_reply data, hpacket, hverifies, echo_reply_data hmin hmax⟩

/-- The gateway is known, and nothing arrives. -/
def warm_stack : Stack :=
  { cold_stack [] with arp_cache := fun _ => ⟨QEMU_SLIRP_GATEWAY_IP, qemu_slirp_gateway_mac, 0, true⟩ }

theorem packets_verify_odd : ∃ mac₁ packet mac₂ segment mac₃ reply,
    (warm_stack.ipv4_send (ethernet_poll 0) 0x08080808 17 (fun _ => [1, 2, 3]) 3).1 = some (mac₁, packet) ∧
    ipv4_accept (packet ++ List.replicate 23 0) = some (17, 0x0A00020F, [1, 2, 3]) ∧
    (warm_stack.tcp_send_segment (ethernet_poll 0) gateway_conn TCP_FLAG_PSH [65, 66, 67]).1 = some (mac₂, segment) ∧
    (∃ bytes, ipv4_accept (segment ++ [0, 0, 0]) = some (IP_PROTO_TCP, 0x0A00020F, bytes) ∧
      tcp_checksum 0x0A00020F gateway_conn.remote_ip bytes = 0 ∧
      tcp_parse bytes = some (gateway_conn.tcp_send_segment TCP_FLAG_PSH [65, 66, 67])) ∧
    (warm_stack.icmp_receive (ethernet_poll 0) 0x08080808 [8, 0, 0, 0, 0, 1, 0, 1, 97]).1 = some (mac₃, reply) ∧
    ∃ bytes, ipv4_accept (reply ++ []) = some (IP_PROTO_ICMP, 0x0A00020F, bytes) ∧ icmp_checksum bytes = 0 ∧
      bytes.head? = some 0 ∧ bytes.drop 4 = [0, 1, 0, 1, 97] := by
  obtain ⟨hpackets, hsegments, hreplies⟩ := packets_verify 0 warm_stack
  have hdns : warm_stack.Resolved 0x08080808 := by
    rw [Resolved]
    decide +kernel
  have hpeer : warm_stack.Resolved gateway_conn.remote_ip := by
    rw [Resolved]
    decide +kernel
  obtain ⟨hpacket, haccepted⟩ := hpackets 0x08080808 17 [1, 2, 3] (by decide)
  obtain ⟨-, hsegment, hparsed⟩ := hsegments gateway_conn TCP_FLAG_PSH [65, 66, 67] (by decide)
  obtain ⟨-, hreply, hechoed⟩ := hreplies 0x08080808 [8, 0, 0, 0, 0, 1, 0, 1, 97] (by decide) (by decide)
  obtain ⟨⟨mac₁, packet⟩, hsent₁⟩ := Option.isSome_iff_exists.mp (hpacket hdns)
  obtain ⟨⟨mac₂, segment⟩, hsent₂⟩ := Option.isSome_iff_exists.mp (hsegment hpeer)
  obtain ⟨⟨mac₃, reply⟩, hsent₃⟩ := Option.isSome_iff_exists.mp (hreply hdns)
  exact ⟨mac₁, packet, mac₂, segment, mac₃, reply, hsent₁, haccepted mac₁ packet hsent₁ _, hsent₂,
    hparsed (.inl hpeer) mac₂ segment hsent₂ _, hsent₃, hechoed (.inl hdns) mac₃ reply hsent₃ _⟩

/-! ## Packets for the connection -/

/-- What `ipv4_receive` does to the active connection. -/
def ipv4_receive (conn : TcpConn) (data : List UInt8) : TcpConn :=
  match ipv4_accept data with
  | none => conn
  | some (protocol, _, payload) =>
    if protocol = IP_PROTO_TCP then
      match tcp_parse payload with
      | none => conn
      | some seg => (conn.tcp_receive seg).1
    else conn

/-- A packet from another address than the peer's, or with a TCP checksum that does not verify at our address. -/
def Foreign (ip : UInt32) (conn : TcpConn) (data : List UInt8) : Prop :=
  ∀ protocol src payload, ipv4_accept data = some (protocol, src, payload) →
    src ≠ conn.remote_ip ∨ tcp_checksum src ip payload ≠ 0

/-- A segment that means nothing to the connection in its state. -/
def Ignores (conn : TcpConn) (seg : Segment) : Prop :=
  seg.src_port ≠ conn.remote_port ∨ seg.dst_port ≠ conn.local_port ∨
  match conn.state with
  | .syn_sent =>
    if (seg.flags &&& (TCP_FLAG_SYN ||| TCP_FLAG_ACK)) = (TCP_FLAG_SYN ||| TCP_FLAG_ACK) then seg.ack_num ≠ conn.seq
    else ¬ seg.has TCP_FLAG_RST
  | .established => ¬ seg.has TCP_FLAG_RST ∧ ¬ seg.has TCP_FLAG_FIN ∧
      ¬ (seg.has TCP_FLAG_ACK ∧ seg.ack_num > conn.seq) ∧
      ¬ (seg.payload.length > 0 ∧ seg.has TCP_FLAG_ACK ∧ seg.seq = conn.ack ∧ 0 < conn.buf_avail)
  | .fin_wait => ¬ seg.has TCP_FLAG_ACK
  | .closed => True

namespace TcpConn

variable {conn : TcpConn}

theorem copy_in_fields (conn : TcpConn) (bytes : List UInt8) : (conn.copy_in bytes).ack = conn.ack ∧
    (conn.copy_in bytes).state = conn.state ∧ (conn.copy_in bytes).seq = conn.seq ∧
    (conn.copy_in bytes).recv_closed = conn.recv_closed := by
  induction bytes generalizing conn with
  | nil => exact ⟨rfl, rfl, rfl, rfl⟩
  | cons x xs ih => exact ih _

end TcpConn

theorem take_data_eq_iff {conn : TcpConn} {seg : Segment} (hlen : seg.payload.length < 2 ^ 16) :
    (conn.take_data seg).1 = conn ↔
      ¬ (seg.payload.length > 0 ∧ seg.has TCP_FLAG_ACK ∧ seg.seq = conn.ack ∧ 0 < conn.buf_avail) := by
  rw [TcpConn.take_data]
  by_cases hdata : seg.payload.length > 0 ∧ seg.has TCP_FLAG_ACK ∧ seg.seq = conn.ack
  · rw [if_pos hdata]
    dsimp only
    generalize hcopy : (if seg.payload.length < conn.buf_avail then seg.payload.length else conn.buf_avail) = to_copy
    have hpos : 0 < to_copy ↔ 0 < conn.buf_avail := by
      rw [← hcopy]
      split <;> omega
    have hsmall : to_copy < 2 ^ 32 := by
      rw [← hcopy]
      split <;> omega
    constructor
    · rintro hsame ⟨_, _, _, havail⟩
      have hack := congrArg TcpConn.ack hsame
      rw [(TcpConn.copy_in_fields _ _).1] at hack
      have hzero : UInt32.ofNat to_copy = 0 := by
        have hcancel : conn.ack + UInt32.ofNat to_copy = conn.ack + 0 := hack.trans (UInt32.add_zero _).symm
        exact (UInt32.add_right_inj _).mp hcancel
      have hnat := congrArg UInt32.toNat hzero
      rw [UInt32.toNat_ofNat', Nat.mod_eq_of_lt hsmall, UInt32.toNat_zero] at hnat
      have := hpos.mpr havail
      omega
    · intro hfull
      have hnone : to_copy = 0 := by
        have hzero : ¬ 0 < conn.buf_avail := fun h => hfull ⟨hdata.1, hdata.2.1, hdata.2.2, h⟩
        have := hpos.not.mpr hzero
        omega
      subst hnone
      rw [take_zero, TcpConn.copy_in]
      have hack : conn.ack + UInt32.ofNat 0 = conn.ack := UInt32.add_zero _
      rw [hack]
  · rw [if_neg hdata]
    exact iff_of_true rfl fun h => hdata ⟨h.1, h.2.1, h.2.2.1⟩

theorem take_data_fields (conn : TcpConn) (seg : Segment) : (conn.take_data seg).1.seq = conn.seq ∧
    (conn.take_data seg).1.state = conn.state := by
  rw [TcpConn.take_data]
  split
  · exact ⟨(TcpConn.copy_in_fields _ _).2.2.1, (TcpConn.copy_in_fields _ _).2.1⟩
  · exact ⟨rfl, rfl⟩

theorem take_ack_eq_iff (conn : TcpConn) (seg : Segment) :
    (conn.take_ack seg).seq = conn.seq ↔ ¬ (seg.has TCP_FLAG_ACK ∧ seg.ack_num > conn.seq) := by
  rw [TcpConn.take_ack]
  split
  · next hack =>
    refine iff_of_false (fun hsame => ?_) (not_not_intro hack)
    have hlt := hack.2
    dsimp only at hsame
    rw [hsame] at hlt
    exact absurd hlt (UInt32.lt_irrefl _)
  · next hack => exact iff_of_true rfl hack

/-- A segment leaves the connection alone exactly if it means nothing to it. -/
theorem tcp_receive_eq_iff {conn : TcpConn} {seg : Segment} (hlen : seg.payload.length < 2 ^ 16) :
    (conn.tcp_receive seg).1 = conn ↔ Ignores conn seg := by
  rw [TcpConn.tcp_receive, Ignores]
  by_cases hsrc : seg.src_port = conn.remote_port
  case neg => simp [hsrc]
  by_cases hdst : seg.dst_port = conn.local_port
  case neg => simp [hdst]
  rw [if_neg (not_not_intro hsrc), if_neg (not_not_intro hdst)]
  simp only [ne_eq, hsrc, hdst, not_true_eq_false, false_or]
  -- a change of the state is a change of the connection
  have hmoved : ∀ (state : TcpState) {conn' : TcpConn}, conn'.state = state → state ≠ conn.state → conn' ≠ conn := by
    rintro state conn' rfl hne rfl
    exact hne rfl
  cases hstate : conn.state with
  | syn_sent =>
    dsimp only
    split
    · split
      · next hack => exact iff_of_true rfl hack
      · next hack => exact iff_of_false (hmoved .established rfl (by rw [hstate]; decide)) hack
    · split
      · next hrst => exact iff_of_false (hmoved .closed rfl (by rw [hstate]; decide)) (not_not_intro hrst)
      · next hrst => exact iff_of_true rfl hrst
  | established =>
    dsimp only
    split
    · next hrst => exact iff_of_false (hmoved .closed rfl (by rw [hstate]; decide)) fun h => h.1 hrst
    · next hrst =>
      rw [TcpConn.take_fin]
      split
      · next hfin => exact iff_of_false (hmoved .fin_wait rfl (by rw [hstate]; decide)) fun h => h.2.1 hfin
      · next hfin =>
        dsimp only
        constructor
        · intro hsame
          have hseq : (conn.take_ack seg).seq = conn.seq :=
            (take_data_fields _ seg).1.symm.trans (congrArg TcpConn.seq hsame)
          have hack := (take_ack_eq_iff conn seg).mp hseq
          have htake : conn.take_ack seg = conn := by rw [TcpConn.take_ack, if_neg hack]
          rw [htake] at hsame
          exact ⟨hrst, hfin, hack, (take_data_eq_iff hlen).mp hsame⟩
        · rintro ⟨-, -, hack, hdata⟩
          have htake : conn.take_ack seg = conn := by rw [TcpConn.take_ack, if_neg hack]
          rw [htake]
          exact (take_data_eq_iff hlen).mpr hdata
  | fin_wait =>
    dsimp only
    split
    · next hack => exact iff_of_false (hmoved .closed rfl (by rw [hstate]; decide)) (not_not_intro hack)
    · next hack => exact iff_of_true rfl hack
  | closed => simp

theorem ipv4_accept_length {data payload : List UInt8} {protocol : UInt8} {src : UInt32}
    (h : ipv4_accept data = some (protocol, src, payload)) : payload.length < 2 ^ 16 := by
  have htotal := (load16 data 2).toNat_lt
  rw [ipv4_accept] at h
  simp only [Option.ite_none_left_eq_some, Option.some.injEq, Prod.mk.injEq] at h
  obtain ⟨_, _, _, _, _, _, _, _, rfl⟩ := h
  rw [length_take]
  omega

theorem tcp_parse_length {payload : List UInt8} {seg : Segment} (h : tcp_parse payload = some seg) :
    seg.payload.length ≤ payload.length := by
  rw [tcp_parse] at h
  simp only [Option.ite_none_left_eq_some, Option.some.injEq] at h
  obtain ⟨_, _, rfl⟩ := h
  rw [length_drop]
  omega

/-- The segment in a packet, if there is one, means nothing to the connection. -/
def IgnoresPacket (conn : TcpConn) (data : List UInt8) : Prop :=
  ∀ src payload seg, ipv4_accept data = some (IP_PROTO_TCP, src, payload) → tcp_parse payload = some seg →
    Ignores conn seg

theorem ipv4_receive_eq_iff (conn : TcpConn) (data : List UInt8) :
    ipv4_receive conn data = conn ↔ IgnoresPacket conn data := by
  rw [ipv4_receive, IgnoresPacket]
  cases haccept : ipv4_accept data with
  | none => exact iff_of_true rfl (by simp)
  | some r =>
    obtain ⟨protocol, src, payload⟩ := r
    dsimp only
    by_cases hprotocol : protocol = IP_PROTO_TCP
    case neg =>
      rw [if_neg hprotocol]
      refine iff_of_true rfl fun _ _ _ h => ?_
      rw [Option.some.injEq, Prod.mk.injEq] at h
      exact absurd h.1 hprotocol
    rw [if_pos hprotocol]
    subst hprotocol
    cases hparse : tcp_parse payload with
    | none =>
      refine iff_of_true rfl fun _ _ _ h hseg => ?_
      simp only [Option.some.injEq, Prod.mk.injEq] at h
      obtain ⟨-, -, rfl⟩ := h
      rw [hparse] at hseg
      cases hseg
    | some seg =>
      have hshort : seg.payload.length < 2 ^ 16 :=
        lt_of_le_of_lt (tcp_parse_length hparse) (ipv4_accept_length haccept)
      dsimp only
      rw [tcp_receive_eq_iff hshort]
      constructor
      · intro hignores src' payload' seg' h hseg
        simp only [Option.some.injEq, Prod.mk.injEq] at h
        obtain ⟨-, -, rfl⟩ := h
        rw [hparse, Option.some.injEq] at hseg
        exact hseg ▸ hignores
      · exact fun h => h src payload seg rfl hparse

/-- A packet that does not come from the peer leaves the connection alone exactly if the segment in it means nothing
to the connection: neither the address nor the checksum is looked at. -/
theorem foreign_packet_ignored_iff (ip : UInt32) (conn : TcpConn) (data : List UInt8) :
    (Foreign ip conn data → ipv4_receive conn data = conn) ↔ (Foreign ip conn data → IgnoresPacket conn data) := by
  rw [ipv4_receive_eq_iff]

/-- A reset with the ports of the connection through the gateway, from an address that is not the peer's. -/
def forged_reset : List UInt8 :=
  ipv4_packet 0x08080808 0x0A00020F 1 IP_PROTO_TCP (be16 80 ++ be16 49152 ++ be32 0 ++ be32 0 ++ [0x50, TCP_FLAG_RST] ++
    be16 0 ++ be16 0 ++ be16 0)

theorem forged_reset_foreign : Foreign 0x0A00020F gateway_conn forged_reset := by
  intro protocol src payload h
  have haccept := @ipv4_accept_packet 0x08080808 0x0A00020F 1 IP_PROTO_TCP (be16 80 ++ be16 49152 ++ be32 0 ++
    be32 0 ++ [0x50, TCP_FLAG_RST] ++ be16 0 ++ be16 0 ++ be16 0) (by decide) []
  rw [append_nil] at haccept
  rw [forged_reset, haccept, Option.some.injEq, Prod.mk.injEq, Prod.mk.injEq] at h
  left
  rw [← h.2.1]
  decide

/-- Anyone who knows the ports can reset the connection. -/
theorem foreign_reset_accepted : ¬ ∀ (ip : UInt32) (conn : TcpConn) (data : List UInt8), Foreign ip conn data →
    ipv4_receive conn data = conn := by
  intro hclaim
  have hsame := congrArg TcpConn.state (hclaim 0x0A00020F gateway_conn forged_reset forged_reset_foreign)
  have hclosed : (ipv4_receive gateway_conn forged_reset).state = .closed := by decide +kernel
  rw [hclosed] at hsame
  exact absurd hsame (by decide)

end graceos.net
