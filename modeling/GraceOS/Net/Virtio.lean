import GraceOS.Lib.Ring
import GraceOS.Lib.Machine
import Mathlib.Data.List.GetD
import Mathlib.Data.List.Perm.Basic

/-!
# The receive queue of the network device

The driver offers descriptors in the available ring, and the device returns them in the used ring, both with
free-running indices. The device takes descriptors in the order in which they are offered, and may complete
them in any order; what it writes goes to the bus address in the descriptor.
-/

namespace graceos.net

open List Function

def VRING_SIZE : Nat := 256
def VIRTIO_NET_HDR_SIZE : Nat := 10
def NET_FRAME_BUF_SIZE : Nat := VIRTIO_NET_HDR_SIZE + 1514
def VRING_DESC_F_WRITE : UInt16 := 2
def KERNEL_BASE : UInt64 := 0xFFFF800000000000

/-- `struct vring_desc`. -/
structure VringDesc where
  addr : UInt64
  len : UInt32
  flags : UInt16
  next : UInt16
deriving DecidableEq

/-- `struct vring_used_elem`. -/
structure UsedElem where
  id : UInt32
  len : UInt32

/-- `dma_phys_addr`, on what `vmm_translate` finds. -/
def dma_phys_addr (vmm_translate : UInt64 → UInt64) (va : UInt64) : UInt64 :=
  let pa := vmm_translate va
  if pa = 0 then if va ≥ KERNEL_BASE then va - KERNEL_BASE else va else pa

/-- Where the receive buffers are. In memory they lie apart from each other. -/
structure RxBuffers where
  rxbuf : Nat → UInt64
  vmm_translate : UInt64 → UInt64
  apart : ∀ i j, i < VRING_SIZE → j < VRING_SIZE → i ≠ j → ∀ k l, k < NET_FRAME_BUF_SIZE → l < NET_FRAME_BUF_SIZE →
    dma_phys_addr vmm_translate (rxbuf i) + UInt64.ofNat k ≠ dma_phys_addr vmm_translate (rxbuf j) + UInt64.ofNat l

/-- The bus address of a buffer. -/
def RxBuffers.phys (bufs : RxBuffers) (i : Nat) : UInt64 := dma_phys_addr bufs.vmm_translate (bufs.rxbuf i)

/-- The receive half of `struct virtio_net_state`, and the memory the buffers are in. -/
structure VirtioNet where
  desc : Nat → VringDesc
  avail_ring : Nat → UInt16
  avail_idx : UInt16
  used_ring : Nat → UsedElem
  used_idx : UInt16
  rx_last_used : UInt16
  memory : UInt64 → UInt8

namespace VirtioNet

variable (bufs : RxBuffers) (s : VirtioNet)

/-- The bytes of a buffer from an offset on. -/
def read (i offset len : Nat) : List UInt8 :=
  (List.range len).map fun k => s.memory (bufs.phys i + UInt64.ofNat (offset + k))

/-- The loop of `virtio_prime_rx_queue`. -/
def prime : (n : Nat) → VirtioNet
  | 0 => { s with avail_idx := 0 }
  | n + 1 =>
    { prime n with
      desc := update (prime n).desc n ⟨bufs.phys n, UInt32.ofNat NET_FRAME_BUF_SIZE, VRING_DESC_F_WRITE, 0⟩
      avail_ring := update (prime n).avail_ring n (UInt16.ofNat n) }

def virtio_prime_rx_queue : VirtioNet := { s.prime bufs VRING_SIZE with avail_idx := UInt16.ofNat VRING_SIZE }

/-- `virtio_net_recv`, with the bytes that are copied; there are none where it returns early. -/
def virtio_net_recv (max_len : Nat) : Option (List UInt8) × VirtioNet :=
  if s.used_idx = s.rx_last_used then (none, s)
  else
    let used := s.used_ring (s.rx_last_used.toNat % VRING_SIZE)
    let pkt_len := used.len.toNat
    let desc_id := used.id.toNat
    let s := { s with rx_last_used := s.rx_last_used + 1 }
    if desc_id ≥ VRING_SIZE then (none, s)
    else if pkt_len ≤ VIRTIO_NET_HDR_SIZE then (none, s)
    else
      let frame_len := min (pkt_len - VIRTIO_NET_HDR_SIZE) max_len
      (some (s.read bufs desc_id VIRTIO_NET_HDR_SIZE frame_len),
        { s with
          desc := update s.desc desc_id
            ⟨bufs.rxbuf desc_id, UInt32.ofNat NET_FRAME_BUF_SIZE, VRING_DESC_F_WRITE, 0⟩
          avail_ring := update s.avail_ring (s.avail_idx.toNat % VRING_SIZE) (UInt16.ofNat desc_id)
          avail_idx := s.avail_idx + 1 })

end VirtioNet

/-- The driver and the device. `pending` are the descriptors that the device has taken and not returned, `sent`
the frames that it has written, and `received` the results of `virtio_net_recv`, each with the size of the
caller's buffer. -/
structure RxQueue where
  driver : VirtioNet
  last_avail : UInt16
  pending : List UInt16
  sent : List (List UInt8)
  received : List (Nat × List UInt8)

/-- What happens on the queue. -/
inductive RxEvent where
  | fetch
  | complete (i : Nat) (bytes : List UInt8)
  | recv (max_len : Nat)

namespace RxQueue

variable (bufs : RxBuffers)

/-- The device writes to the buffer of a descriptor. -/
def dma_write (memory : UInt64 → UInt8) (addr : UInt64) (bytes : List UInt8) : UInt64 → UInt8 := fun a =>
  if (a - addr).toNat < bytes.length then bytes.getD (a - addr).toNat 0 else memory a

/-- The device completes one of the descriptors it has, with a header and a frame that fit its buffer. -/
def complete (q : RxQueue) (i : Nat) (bytes : List UInt8) : RxQueue :=
  match q.pending[i]? with
  | none => q
  | some d =>
    let desc := q.driver.desc d.toNat
    if bytes.length > desc.len.toNat then q
    else { q with
      driver := { q.driver with
        memory := dma_write q.driver.memory desc.addr bytes
        used_ring := update q.driver.used_ring (q.driver.used_idx.toNat % VRING_SIZE)
          ⟨d.toUInt32, UInt32.ofNat bytes.length⟩
        used_idx := q.driver.used_idx + 1 }
      pending := q.pending.eraseIdx i
      sent := if bytes.length > VIRTIO_NET_HDR_SIZE then q.sent ++ [bytes.drop VIRTIO_NET_HDR_SIZE] else q.sent }

def step (q : RxQueue) : RxEvent → RxQueue
  | .fetch =>
    if q.last_avail = q.driver.avail_idx then q
    else { q with
      pending := q.pending ++ [q.driver.avail_ring (q.last_avail.toNat % VRING_SIZE)]
      last_avail := q.last_avail + 1 }
  | .complete i bytes => q.complete i bytes
  | .recv max_len =>
    match q.driver.virtio_net_recv bufs max_len with
    | (none, driver) => { q with driver := driver }
    | (some bytes, driver) => { q with driver := driver, received := q.received ++ [(max_len, bytes)] }

/-- The rings as `vq_setup` clears them. -/
def cleared (memory : UInt64 → UInt8) : VirtioNet :=
  { desc := fun _ => ⟨0, 0, 0, 0⟩, avail_ring := fun _ => 0, avail_idx := 0, used_ring := fun _ => ⟨0, 0⟩
    used_idx := 0, rx_last_used := 0, memory := memory }

/-- The queue after `virtio_prime_rx_queue`. -/
def primed (memory : UInt64 → UInt8) : RxQueue :=
  { driver := (cleared memory).virtio_prime_rx_queue bufs, last_avail := 0, pending := [], sent := [], received := [] }

/-! ## What is conserved -/

section

variable (q : RxQueue)

/-- The descriptors that are offered and that the device has not taken. -/
def available : List UInt16 :=
  ring.window q.driver.avail_ring VRING_SIZE q.last_avail q.driver.avail_idx

/-- The used entries that the driver has not consumed. -/
def used : List UsedElem :=
  ring.window q.driver.used_ring VRING_SIZE q.driver.rx_last_used q.driver.used_idx

/-- The frame that a used entry is about. -/
def frame (e : UsedElem) : List UInt8 :=
  q.driver.read bufs e.id.toNat VIRTIO_NET_HDR_SIZE (e.len.toNat - VIRTIO_NET_HDR_SIZE)

end

/-- Each descriptor is with the device or in one used entry that is not consumed, those with the device are
as they were primed, and the frames are returned in the order in which they were written. -/
structure Conserved (q : RxQueue) : Prop where
  once : (q.available.map UInt16.toNat ++ q.pending.map UInt16.toNat ++ q.used.map fun e => e.id.toNat).Perm
    (List.range VRING_SIZE)
  offered : ∀ d ∈ q.available ++ q.pending, (q.driver.desc d.toNat).addr = bufs.phys d.toNat ∧
    (q.driver.desc d.toNat).len.toNat = NET_FRAME_BUF_SIZE
  in_order : q.received.map Prod.snd = List.zipWith (fun r f => f.take r.1) q.received q.sent
  waiting : (q.used.map (q.frame bufs)).filter (· ≠ []) = q.sent.drop q.received.length

/-! ## What a step keeps -/

/-- The queue is in order, and what was written fits the buffers. -/
structure Sound (q : RxQueue) : Prop extends Conserved bufs q where
  fits : ∀ e ∈ q.used, e.len.toNat ≤ NET_FRAME_BUF_SIZE

/-- The used entry that is consumed next, if there is one, has a frame, and the driver's address of its buffer is
the bus address. -/
def Returnable (q : RxQueue) : RxEvent → Prop
  | .recv _ => ∀ e ∈ q.used.head?, VIRTIO_NET_HDR_SIZE < e.len.toNat ∧ bufs.rxbuf e.id.toNat = bufs.phys e.id.toNat
  | _ => True

theorem vring_dvd : VRING_SIZE ∣ 2 ^ 16 := by decide

variable {bufs} {q : RxQueue}

theorem Conserved.count (h : q.Conserved bufs) : q.available.length + q.pending.length + q.used.length =
    VRING_SIZE := by
  have hlen := h.once.length_eq
  simpa only [length_append, length_map, length_range] using hlen

theorem Conserved.lt_size (h : q.Conserved bufs) {d : UInt16} (hd : d ∈ q.pending) : d.toNat < VRING_SIZE := by
  rw [← List.mem_range, ← h.once.mem_iff]
  simp only [mem_append, mem_map]
  exact .inl (.inr ⟨d, hd, rfl⟩)

theorem Conserved.used_lt_size (h : q.Conserved bufs) {e : UsedElem} (he : e ∈ q.used) : e.id.toNat < VRING_SIZE := by
  rw [← List.mem_range, ← h.once.mem_iff]
  simp only [mem_append, mem_map]
  exact .inr ⟨e, he, rfl⟩

theorem Conserved.ne_used (h : q.Conserved bufs) {d : UInt16} (hd : d ∈ q.pending) {e : UsedElem} (he : e ∈ q.used) :
    e.id.toNat ≠ d.toNat := by
  have hnodup := h.once.nodup_iff.mpr nodup_range
  rw [nodup_append] at hnodup
  intro heq
  refine hnodup.2.2 d.toNat ?_ e.id.toNat (mem_map_of_mem (f := fun e : UsedElem => e.id.toNat) he) heq.symm
  exact mem_append_right _ (mem_map_of_mem hd)

theorem Sound.fetch (h : q.Sound bufs) : (q.step bufs .fetch).Sound bufs := by
  rw [step]
  split
  · exact h
  · next hne =>
    have hpop : q.available = q.driver.avail_ring (q.last_avail.toNat % VRING_SIZE) ::
        ring.window q.driver.avail_ring VRING_SIZE (q.last_avail + 1) q.driver.avail_idx :=
      ring.window_pop _ vring_dvd (Ne.symm hne)
    have honce := h.once
    have hoffered := h.offered
    rw [hpop] at honce hoffered
    refine ⟨⟨?_, fun d hd => hoffered d ?_, h.in_order, h.waiting⟩, h.fits⟩
    · refine List.Perm.trans ?_ honce
      simp only [available, used, map_append, map_cons, map_nil, cons_append, append_assoc,
        nil_append]
      rw [← append_assoc, ← append_assoc]
      exact perm_middle
    · simp only [available, mem_append, mem_cons, not_mem_nil, or_false] at hd ⊢
      tauto

theorem read_dma_write_apart {i j : Nat} (hi : i < VRING_SIZE) (hj : j < VRING_SIZE) (hne : i ≠ j) {driver : VirtioNet}
    {bytes : List UInt8} (hbytes : bytes.length ≤ NET_FRAME_BUF_SIZE) {offset len : Nat}
    (hlen : offset + len ≤ NET_FRAME_BUF_SIZE) (driver' : VirtioNet)
    (hmem : driver'.memory = dma_write driver.memory (bufs.phys j) bytes) :
    driver'.read bufs i offset len = driver.read bufs i offset len := by
  refine map_congr_left fun k hk => ?_
  have hk := List.mem_range.mp hk
  rw [hmem, dma_write, if_neg]
  intro hin
  have hwhere : bufs.phys i + UInt64.ofNat (offset + k) = bufs.phys j + UInt64.ofNat
      (bufs.phys i + UInt64.ofNat (offset + k) - bufs.phys j).toNat := by
    rw [UInt64.ofNat_toNat, UInt64.add_comm (bufs.phys j), UInt64.sub_add_cancel]
  exact bufs.apart i j hi hj hne _ _ (by omega) (by omega) hwhere

theorem read_dma_write_self {i : Nat} {driver driver' : VirtioNet} {bytes : List UInt8}
    (hbytes : bytes.length ≤ NET_FRAME_BUF_SIZE) {offset : Nat}
    (hmem : driver'.memory = dma_write driver.memory (bufs.phys i) bytes) :
    driver'.read bufs i offset (bytes.length - offset) = bytes.drop offset := by
  refine ext_getElem (by simp [VirtioNet.read]) fun k hk _ => ?_
  have hk : k < bytes.length - offset := by simpa [VirtioNet.read] using hk
  have hback : (bufs.phys i + UInt64.ofNat (offset + k) - bufs.phys i).toNat = offset + k := by
    rw [UInt64.add_comm, UInt64.add_sub_cancel, UInt64.toNat_ofNat']
    have hsize : NET_FRAME_BUF_SIZE < 2 ^ 64 := by decide
    omega
  simp only [VirtioNet.read, getElem_map, getElem_range, getElem_drop, hmem, dma_write]
  rw [hback, if_pos (by omega), getD_eq_getElem _ _ (by omega)]

theorem Conserved.received_le (h : q.Conserved bufs) : q.received.length ≤ q.sent.length := by
  have hlen := congrArg List.length h.in_order
  rw [length_map, length_zipWith] at hlen
  omega

theorem zipWith_append_left {α β γ : Type} (f : α → β → γ) {as : List α} {bs : List β} (hle : as.length ≤ bs.length)
    (cs : List β) : List.zipWith f as (bs ++ cs) = List.zipWith f as bs := by
  induction as generalizing bs with
  | nil => rfl
  | cons a as ih =>
    cases bs with
    | nil => exact absurd hle (by simp)
    | cons b bs => rw [cons_append, zipWith_cons_cons, zipWith_cons_cons, ih (by simpa using hle)]

theorem Sound.complete (h : q.Sound bufs) (i : Nat) (bytes : List UInt8) : (q.complete i bytes).Sound bufs := by
  rw [RxQueue.complete]
  split
  · exact h
  · next d hd =>
    dsimp only
    split
    · exact h
    · next hfit =>
      have hi : i < q.pending.length := (List.getElem?_eq_some_iff.mp hd).1
      have hmem : d ∈ q.pending := mem_of_getElem? hd
      obtain ⟨haddr, hlen⟩ := h.offered d (mem_append_right _ hmem)
      have hbytes : bytes.length ≤ NET_FRAME_BUF_SIZE := by omega
      have hcount := h.count
      have hroom : (q.driver.used_idx - q.driver.rx_last_used).toNat < VRING_SIZE := by
        rw [used, ring.length_window] at hcount
        omega
      have hpush := ring.window_push q.driver.used_ring vring_dvd hroom
        (by have : VRING_SIZE = 256 := rfl; omega) (⟨d.toUInt32, UInt32.ofNat bytes.length⟩ : UsedElem)
      have hsmall : bytes.length < 2 ^ 32 := by
        have : NET_FRAME_BUF_SIZE < 2 ^ 32 := by decide
        omega
      have hreported : (UInt32.ofNat bytes.length).toNat = bytes.length := by
        rw [UInt32.toNat_ofNat']
        omega
      set q' : RxQueue := { q with
        driver := { q.driver with
          memory := dma_write q.driver.memory (q.driver.desc d.toNat).addr bytes
          used_ring := update q.driver.used_ring (q.driver.used_idx.toNat % VRING_SIZE)
            ⟨d.toUInt32, UInt32.ofNat bytes.length⟩
          used_idx := q.driver.used_idx + 1 }
        pending := q.pending.eraseIdx i
        sent := if bytes.length > VIRTIO_NET_HDR_SIZE then q.sent ++ [bytes.drop VIRTIO_NET_HDR_SIZE]
          else q.sent } with hq'
      have hused : q'.used = q.used ++ [⟨d.toUInt32, UInt32.ofNat bytes.length⟩] := hpush
      have hmemory : q'.driver.memory = dma_write q.driver.memory (bufs.phys d.toNat) bytes := by rw [hq', ← haddr]
      have hold : ∀ e ∈ q.used, q'.frame bufs e = q.frame bufs e := by
        intro e he
        have hfits := h.fits e he
        refine read_dma_write_apart (h.used_lt_size he) (h.lt_size hmem) (h.ne_used hmem he) hbytes ?_ _ hmemory
        have : VIRTIO_NET_HDR_SIZE ≤ NET_FRAME_BUF_SIZE := by decide
        omega
      have hnew : q'.frame bufs ⟨d.toUInt32, UInt32.ofNat bytes.length⟩ = bytes.drop VIRTIO_NET_HDR_SIZE := by
        rw [frame, hreported, UInt16.toNat_toUInt32]
        exact read_dma_write_self hbytes hmemory
      have hsent := h.waiting
      refine ⟨⟨?_, fun x hx => ?_, ?_, ?_⟩, fun e he => ?_⟩
      · refine List.Perm.trans ?_ h.once
        have herase : (d :: q.pending.eraseIdx i).Perm q.pending := by
          have hget : q.pending[i] = d := (List.getElem?_eq_some_iff.mp hd).2
          rw [← hget]
          exact getElem_cons_eraseIdx_perm hi
        rw [hused, map_append, append_assoc, append_assoc]
        refine List.Perm.append_left _ ?_
        refine List.Perm.trans ?_ ((herase.map UInt16.toNat).append_right _)
        simp only [map_cons, map_nil, UInt16.toNat_toUInt32, ← append_assoc]
        exact perm_append_comm
      · refine h.offered x ?_
        rcases List.mem_append.mp hx with hx | hx
        · exact mem_append_left _ hx
        · exact mem_append_right _ (mem_of_mem_eraseIdx hx)
      · rw [hq']
        dsimp only
        split
        · rw [zipWith_append_left _ h.received_le]
          exact h.in_order
        · exact h.in_order
      · rw [hused, map_append, filter_append, map_congr_left hold, hsent, map_singleton, hnew]
        rw [hq']
        dsimp only
        by_cases hlong : bytes.length > VIRTIO_NET_HDR_SIZE
        · rw [if_pos hlong, drop_append_of_le_length h.received_le, filter_cons_of_pos, filter_nil]
          rw [decide_eq_true_eq, ← length_pos_iff, length_drop]
          omega
        · have hempty : bytes.drop VIRTIO_NET_HDR_SIZE = [] := drop_eq_nil_of_le (by omega)
          rw [if_neg hlong, hempty, filter_cons_of_neg (by simp), filter_nil, append_nil]
      · rw [hused, mem_append, mem_singleton] at he
        rcases he with he | rfl
        · exact h.fits e he
        · rw [hreported]
          exact hbytes

/-- A frame is returned, and its descriptor offered again as it was primed. -/
theorem Sound.recv (h : q.Sound bufs) {max_len : Nat} (hreturn : q.Returnable bufs (.recv max_len)) :
    (q.step bufs (.recv max_len)).Sound bufs := by
  rw [step, VirtioNet.virtio_net_recv]
  by_cases hnone : q.driver.used_idx = q.driver.rx_last_used
  · rw [if_pos hnone]
    exact h
  rw [if_neg hnone]
  have hpop := ring.window_pop q.driver.used_ring vring_dvd hnone
  generalize q.driver.used_ring (q.driver.rx_last_used.toNat % VRING_SIZE) = e at hpop ⊢
  have hused : q.used = e :: ring.window q.driver.used_ring VRING_SIZE (q.driver.rx_last_used + 1)
      q.driver.used_idx := hpop
  have hmem : e ∈ q.used := hused ▸ mem_cons_self
  have hid := h.used_lt_size hmem
  obtain ⟨hlen, hwhere⟩ := hreturn e (by rw [hused]; rfl)
  dsimp only
  rw [if_neg (by omega), if_neg (by omega)]
  have hframe : q.frame bufs e ≠ [] := by
    rw [← length_pos_iff, frame, VirtioNet.read, length_map, length_range]
    omega
  have hcount := h.count
  rw [hused, length_cons] at hcount
  have hroom : (q.driver.avail_idx - q.last_avail).toNat < VRING_SIZE := by
    rw [available, ring.length_window] at hcount
    omega
  have hpush := ring.window_push q.driver.avail_ring vring_dvd hroom
    (by have : VRING_SIZE = 256 := rfl; omega) (UInt16.ofNat e.id.toNat)
  have hback : (UInt16.ofNat e.id.toNat).toNat = e.id.toNat := by
    have : VRING_SIZE = 256 := rfl
    rw [UInt16.toNat_ofNat']
    omega
  set q' : RxQueue := { q with
    driver := { q.driver with
      rx_last_used := q.driver.rx_last_used + 1
      desc := update q.driver.desc e.id.toNat
        ⟨bufs.rxbuf e.id.toNat, UInt32.ofNat NET_FRAME_BUF_SIZE, VRING_DESC_F_WRITE, 0⟩
      avail_ring := update q.driver.avail_ring (q.driver.avail_idx.toNat % VRING_SIZE) (UInt16.ofNat e.id.toNat)
      avail_idx := q.driver.avail_idx + 1 }
    received := q.received ++ [(max_len, q.driver.read bufs e.id.toNat VIRTIO_NET_HDR_SIZE
      (min (e.len.toNat - VIRTIO_NET_HDR_SIZE) max_len))] } with hq'
  have hsound : q'.Sound bufs := by
    have havail : q'.available = q.available ++ [UInt16.ofNat e.id.toNat] := hpush
    have hcut : q.driver.read bufs e.id.toNat VIRTIO_NET_HDR_SIZE (min (e.len.toNat - VIRTIO_NET_HDR_SIZE) max_len) =
        (q.frame bufs e).take max_len := by
      rw [frame, VirtioNet.read, VirtioNet.read, ← map_take, take_range, Nat.min_comm]
    -- the frame that is returned is the first one that waits
    have hsent : q.sent.drop q.received.length = q.frame bufs e :: (q'.used.map (q.frame bufs)).filter (· ≠ []) := by
      have hwaiting := h.waiting
      rw [hused, map_cons, filter_cons_of_pos (by simpa using hframe)] at hwaiting
      exact hwaiting.symm
    refine ⟨⟨?_, fun d hd => ?_, ?_, ?_⟩, fun x hx => h.fits x ?_⟩
    · refine List.Perm.trans ?_ h.once
      rw [havail, hused, map_append, map_singleton, hback, map_cons]
      simp only [append_assoc, singleton_append]
      refine List.Perm.append_left _ ?_
      exact List.perm_middle.symm
    · rw [havail] at hd
      have hstays : d.toNat = e.id.toNat ∨ d ∈ q.available ++ q.pending := by
        simp only [mem_append, mem_singleton] at hd ⊢
        rcases hd with (hd | rfl) | hd
        · exact .inr (.inl hd)
        · exact .inl hback
        · exact .inr (.inr hd)
      by_cases hsame : d.toNat = e.id.toNat
      · rw [hq']
        simp only [hsame, update_self]
        exact ⟨hwhere, rfl⟩
      · rw [hq']
        simp only [update_of_ne hsame]
        exact h.offered d (hstays.resolve_left hsame)
    · have hsplit : q.sent = q.sent.take q.received.length ++
          q.frame bufs e :: (q'.used.map (q.frame bufs)).filter (· ≠ []) := by
        rw [← hsent, take_append_drop]
      have hbefore : List.zipWith (fun (r : Nat × List UInt8) f => f.take r.1)
          q.received (q.sent.take q.received.length) =
          q.received.map Prod.snd := by
        rw [h.in_order]
        conv_rhs => rw [← take_append_drop q.received.length q.sent]
        exact (zipWith_append_left _ (by rw [length_take]; have := h.received_le; omega) _).symm
      have hsent' : q'.sent = q.sent := rfl
      rw [hsent', hsplit]
      rw [hq']
      dsimp only
      rw [zipWith_append (by rw [length_take]; have := h.received_le; omega), hbefore, map_append, hcut]
      rfl
    · have hreceived : q'.received.length = q.received.length + 1 := by
        rw [hq']
        simp
      have hsent' : q'.sent = q.sent := rfl
      rw [hreceived, hsent', ← drop_drop, hsent]
      rfl
    · rw [hused]
      exact mem_cons_of_mem _ hx
  exact hsound

theorem step_sound (h : q.Sound bufs) (ev : RxEvent) (hreturn : q.Returnable bufs ev) :
    (q.step bufs ev).Sound bufs := by
  cases ev with
  | fetch => exact h.fetch
  | complete i bytes => exact h.complete i bytes
  | recv max_len => exact h.recv hreturn

/-! ## The queue as it is primed -/

theorem prime_fields (s : VirtioNet) (n : Nat) :
    (∀ i < n, (s.prime bufs n).desc i = ⟨bufs.phys i, UInt32.ofNat NET_FRAME_BUF_SIZE, VRING_DESC_F_WRITE, 0⟩) ∧
      (∀ i < n, (s.prime bufs n).avail_ring i = UInt16.ofNat i) ∧ (s.prime bufs n).used_ring = s.used_ring ∧
      (s.prime bufs n).used_idx = s.used_idx ∧ (s.prime bufs n).rx_last_used = s.rx_last_used := by
  induction n with
  | zero => exact ⟨by simp, by simp, rfl, rfl, rfl⟩
  | succ n ih =>
    obtain ⟨hdesc, hring, hused⟩ := ih
    refine ⟨fun i hi => ?_, fun i hi => ?_, hused⟩
    · by_cases hin : i = n
      · subst hin
        simp only [VirtioNet.prime, update_self]
      · simp only [VirtioNet.prime, update_of_ne hin]
        exact hdesc i (by omega)
    · by_cases hin : i = n
      · subst hin
        simp only [VirtioNet.prime, update_self]
      · simp only [VirtioNet.prime, update_of_ne hin]
        exact hring i (by omega)

theorem toNat_descriptor {i : Nat} (hi : i < VRING_SIZE) : (UInt16.ofNat i).toNat = i := by
  have : VRING_SIZE = 256 := rfl
  rw [UInt16.toNat_ofNat']
  omega

/-- A driver that offers each descriptor once, to a device that has done nothing yet. -/
theorem sound_start {s : VirtioNet} {memory : UInt64 → UInt8}
    (hdesc : ∀ i < VRING_SIZE, s.desc i = ⟨bufs.phys i, UInt32.ofNat NET_FRAME_BUF_SIZE, VRING_DESC_F_WRITE, 0⟩)
    (hring : ∀ i < VRING_SIZE, s.avail_ring i = UInt16.ofNat i) (hused : s.used_idx = s.rx_last_used) :
    ({ driver := { s with avail_idx := UInt16.ofNat VRING_SIZE, memory := memory }
       last_avail := 0, pending := [], sent := [], received := [] } : RxQueue).Sound bufs := by
  generalize hq : ({ driver := { s with avail_idx := UInt16.ofNat VRING_SIZE, memory := memory }
                     last_avail := 0, pending := [], sent := [], received := [] } : RxQueue) = q
  have hpending : q.pending = [] := by rw [← hq]
  have hnone : q.used = [] := by
    rw [← hq, used]
    dsimp only
    rw [hused, ring.window_self]
  have havail : q.available = (List.range VRING_SIZE).map UInt16.ofNat := by
    have hcount : (UInt16.ofNat VRING_SIZE - 0).toNat = VRING_SIZE := by decide
    rw [← hq, available, ring.window, ring.contents]
    dsimp only
    rw [hcount]
    refine map_congr_left fun i hi => ?_
    have hi : i < VRING_SIZE := List.mem_range.mp hi
    have hpos : ((0 : UInt16).toNat + i) % VRING_SIZE = i := by
      rw [UInt16.toNat_zero, Nat.zero_add, Nat.mod_eq_of_lt hi]
    rw [hpos]
    exact hring i hi
  refine ⟨⟨?_, fun d hd => ?_, ?_, ?_⟩, by simp [hnone]⟩
  · have hmap : (List.range VRING_SIZE).map (fun i => (UInt16.ofNat i).toNat) = List.range VRING_SIZE :=
      (map_congr_left fun i hi => toNat_descriptor (List.mem_range.mp hi)).trans (map_id' _)
    rw [havail, hnone, hpending, map_map, map_nil, map_nil, append_nil, append_nil]
    exact .of_eq hmap
  · rw [havail, hpending, append_nil, mem_map] at hd
    obtain ⟨i, hi, rfl⟩ := hd
    have hi := List.mem_range.mp hi
    rw [toNat_descriptor hi, ← hq]
    dsimp only
    rw [hdesc i hi]
    exact ⟨rfl, rfl⟩
  · rw [← hq]
    rfl
  · rw [hnone, ← hq]
    rfl

theorem primed_sound (memory : UInt64 → UInt8) : (primed bufs memory).Sound bufs := by
  obtain ⟨hdesc, hring, _, hidx, hlast⟩ := @prime_fields bufs (cleared memory) VRING_SIZE
  exact sound_start hdesc hring (hidx.trans hlast.symm)

end RxQueue

open RxQueue machine

/-- In every run from the primed queue in which each entry that the driver consumes has a frame and a buffer whose
address is its bus address, no descriptor is lost or offered twice, all are offered as they were primed, and the
frames are returned in order. -/
theorem rx_descriptors_conserved (bufs : RxBuffers) (memory : UInt64 → UInt8) (events : List RxEvent)
    (h : Along (step bufs) (Returnable bufs) (primed bufs memory) events) :
    (run (step bufs) (primed bufs memory) events).Conserved bufs :=
  (h.invariant (fun _ ev hs hreturn => step_sound hs ev hreturn) (primed_sound memory)).toConserved

/-- Buffers one behind the other, at a virtual and a physical address. -/
def linear_buffers (va pa : UInt64) (hpa : 0 < pa.toNat ∧ pa.toNat < 2 ^ 32) : RxBuffers where
  rxbuf i := va + UInt64.ofNat (i * NET_FRAME_BUF_SIZE)
  vmm_translate a := a - va + pa
  apart i j hi hj hne k l hk hl heq := by
    have hring : VRING_SIZE = 256 := rfl
    have hsize : NET_FRAME_BUF_SIZE = 1524 := rfl
    have hphys : ∀ n < VRING_SIZE, dma_phys_addr (fun a => a - va + pa) (va + UInt64.ofNat (n * NET_FRAME_BUF_SIZE)) =
        UInt64.ofNat (n * NET_FRAME_BUF_SIZE) + pa := by
      intro n hn
      have hback : va + UInt64.ofNat (n * NET_FRAME_BUF_SIZE) - va + pa =
          UInt64.ofNat (n * NET_FRAME_BUF_SIZE) + pa := by
        rw [UInt64.add_comm va, UInt64.add_sub_cancel]
      have hne : UInt64.ofNat (n * NET_FRAME_BUF_SIZE) + pa ≠ 0 := by
        intro hzero
        have hnat := congrArg UInt64.toNat hzero
        simp only [UInt64.toNat_add, UInt64.toNat_ofNat', UInt64.toNat_zero, hsize] at hnat
        simp (disch := omega) only [Nat.mod_eq_of_lt] at hnat
        omega
      rw [dma_phys_addr, hback, if_neg hne]
    rw [hphys i hi, hphys j hj] at heq
    have hnat := congrArg UInt64.toNat heq
    simp only [UInt64.toNat_add, UInt64.toNat_ofNat', hsize] at hnat
    simp (disch := omega) only [Nat.mod_eq_of_lt] at hnat
    omega

/-- Buffers that lie at their physical address. -/
def identity_buffers : RxBuffers := linear_buffers 0x200000 0x200000 (by decide)

/-- Two frames that are completed out of order, and received into a large and a small buffer. -/
def swapped_frames : List RxEvent :=
  [.fetch, .fetch, .complete 1 (List.replicate 20 7), .complete 0 (List.replicate 40 8), .recv 1514, .recv 16]

theorem rx_descriptors_of_swapped_frames :
    Along (step identity_buffers) (Returnable identity_buffers) (primed identity_buffers fun _ => 0) swapped_frames ∧
    (run (step identity_buffers) (primed identity_buffers fun _ => 0) swapped_frames).Conserved identity_buffers := by
  have hreturnable : Along (step identity_buffers) (Returnable identity_buffers) (primed identity_buffers fun _ => 0)
      swapped_frames := by
    refine ⟨trivial, trivial, trivial, trivial, ?_, ?_, trivial⟩
    · unfold Returnable
      decide +kernel
    · unfold Returnable
      decide +kernel
  exact ⟨hreturnable, rx_descriptors_conserved identity_buffers (fun _ => 0) swapped_frames hreturnable⟩

/-- A frame shorter than its header. -/
def short_frame : List RxEvent := [.fetch, .complete 0 (List.replicate 5 7), .recv 1514]

/-- The descriptor of a short frame is not offered again, and nothing holds it any more. -/
theorem rx_descriptor_lost : ¬ ∀ (bufs : RxBuffers) (memory : UInt64 → UInt8) (events : List RxEvent),
    (run (step bufs) (primed bufs memory) events).Conserved bufs := by
  intro hclaim
  have hall := (hclaim identity_buffers (fun _ => 0) short_frame).once.length_eq
  generalize hq : run (step identity_buffers) (primed identity_buffers fun _ => 0) short_frame = q at hall
  have havailable : q.available.length = 255 := by
    rw [← hq]
    decide +kernel
  have hpending : q.pending.length = 0 := by
    rw [← hq]
    decide +kernel
  have hused : q.used.length = 0 := by
    rw [← hq]
    decide +kernel
  simp only [length_append, length_map, length_range, havailable, hpending, hused] at hall
  exact absurd hall (by decide)

end graceos.net
