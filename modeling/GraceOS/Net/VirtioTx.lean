import GraceOS.Net.Virtio

/-!
# The transmit queue of the network device

The driver hands a frame over in the slot that follows the one before, and counts how many frames the device has
not given back. The device may act at any point between the steps of `virtio_net_send`.
-/

namespace graceos.net

open List Function

/-- Where the transmit buffers are. -/
structure TxBuffers where
  txbuf : Nat → UInt64
  vmm_translate : UInt64 → UInt64

/-- The transmit half of `struct virtio_net_state`, with the bytes of the buffers, and `tx_inflight`. -/
structure VirtioTx where
  desc : Nat → VringDesc
  txbuf : Nat → Nat → UInt8
  avail_ring : Nat → UInt16
  avail_idx : UInt16
  used_ring : Nat → UsedElem
  used_idx : UInt16
  tx_last_used : UInt16
  tx_inflight : UInt16

namespace VirtioTx

variable (bufs : TxBuffers) (s : VirtioTx)

/-- The loop of `virtio_net_reclaim_tx`, which runs `n` times. -/
def reclaim : (n : Nat) → VirtioTx
  | 0 => s
  | n + 1 =>
    let s := reclaim n
    { s with
      tx_last_used := s.tx_last_used + 1
      tx_inflight := if s.tx_inflight > 0 then s.tx_inflight - 1 else s.tx_inflight }

def virtio_net_reclaim_tx : VirtioTx := s.reclaim (s.used_idx - s.tx_last_used).toNat

/-- A buffer with a header of zeros and a frame. -/
def framed (buf : Nat → UInt8) (data : List UInt8) : Nat → UInt8 := fun k =>
  if k < VIRTIO_NET_HDR_SIZE then 0
  else if k < VIRTIO_NET_HDR_SIZE + data.length then data.getD (k - VIRTIO_NET_HDR_SIZE) 0 else buf k

/-- The middle of `virtio_net_send`: the frame goes into the next slot. -/
def hand_over (data : List UInt8) : VirtioTx :=
  let desc_idx := s.avail_idx.toNat % VRING_SIZE
  { s with
    txbuf := update s.txbuf desc_idx (framed (s.txbuf desc_idx) data)
    desc := update s.desc desc_idx
      ⟨dma_phys_addr bufs.vmm_translate (bufs.txbuf desc_idx), UInt32.ofNat (VIRTIO_NET_HDR_SIZE + data.length), 0, 0⟩
    avail_ring := update s.avail_ring (s.avail_idx.toNat % VRING_SIZE) (UInt16.ofNat desc_idx)
    avail_idx := s.avail_idx + 1
    tx_inflight := s.tx_inflight + 1 }

end VirtioTx

/-- The driver and the device. `pending` are the descriptors that the device has taken and not returned, each behind
the available index at which it was offered. -/
structure TxQueue where
  driver : VirtioTx
  last_avail : UInt16
  pending : List (UInt16 × UInt16)

/-- What the device does: it takes the next descriptor, or returns any of those that it has. -/
inductive TxDevice where
  | fetch
  | complete (i : Nat)

/-- A call of the driver, with what the device does in the middle of it, or the device alone. -/
inductive TxEvent where
  | device (ev : TxDevice)
  | send (data : List UInt8) (before after : List TxDevice)

namespace TxQueue

variable (bufs : TxBuffers)

def device (q : TxQueue) : TxDevice → TxQueue
  | .fetch =>
    if q.last_avail = q.driver.avail_idx then q
    else { q with
      pending := q.pending ++ [(q.last_avail, q.driver.avail_ring (q.last_avail.toNat % VRING_SIZE))]
      last_avail := q.last_avail + 1 }
  | .complete i =>
    match q.pending[i]? with
    | none => q
    | some e => { q with
      driver := { q.driver with
        used_ring := update q.driver.used_ring (q.driver.used_idx.toNat % VRING_SIZE) ⟨e.2.toUInt32, 0⟩
        used_idx := q.driver.used_idx + 1 }
      pending := q.pending.eraseIdx i }

def reclaimed (q : TxQueue) : TxQueue := { q with driver := q.driver.virtio_net_reclaim_tx }

def handed_over (q : TxQueue) (data : List UInt8) : TxQueue := { q with driver := q.driver.hand_over bufs data }

/-- The queue when `virtio_net_send` is behind its first `virtio_net_reclaim_tx`. -/
def ready (q : TxQueue) (before : List TxDevice) : TxQueue := machine.run device q.reclaimed before

/-- `virtio_net_send`, with its result. The device can act behind the first and before the second
`virtio_net_reclaim_tx`. -/
def virtio_net_send (q : TxQueue) (data : List UInt8) (before after : List TxDevice) : Int × TxQueue :=
  if data.length > 1514 then (-1, q)
  else
    let full := q.reclaimed.driver.tx_inflight.toNat ≥ VRING_SIZE
    let q := q.ready before
    if full then (-1, q)
    else (data.length, (machine.run device (q.handed_over bufs data) after).reclaimed)

def step (q : TxQueue) : TxEvent → TxQueue
  | .device ev => q.device ev
  | .send data before after => (q.virtio_net_send bufs data before after).2

/-- The rings as `vq_setup` clears them. -/
def start : TxQueue where
  driver := ⟨fun _ => ⟨0, 0, 0, 0⟩, fun _ _ => 0, fun _ => 0, 0, fun _ => ⟨0, 0⟩, 0, 0, 0⟩
  last_avail := 0
  pending := []

/-! ## Who owns a descriptor -/

section

variable (q : TxQueue)

/-- The descriptors that are offered and that the device has not taken. -/
def available : List UInt16 := ring.window q.driver.avail_ring VRING_SIZE q.last_avail q.driver.avail_idx

/-- The used entries that the driver has not reclaimed. -/
def used : List UsedElem := ring.window q.driver.used_ring VRING_SIZE q.driver.tx_last_used q.driver.used_idx

/-- The descriptors that the device has not returned. -/
def owned : List Nat := q.available.map UInt16.toNat ++ q.pending.map fun e => e.2.toNat

/-- The descriptors that it has returned and the driver has not reclaimed. -/
def returned : List Nat := q.used.map fun e => e.id.toNat

end

/-- `tx_inflight` counts the descriptors that are handed over and not reclaimed, each one once. -/
structure Counted (q : TxQueue) : Prop where
  count : q.driver.tx_inflight.toNat = (q.owned ++ q.returned).length
  once : (q.owned ++ q.returned).Nodup

/-- The buffers and the descriptors `ds` are not changed. -/
def Untouched (ds : List Nat) (q q' : TxQueue) : Prop :=
  ∀ d ∈ ds, q'.driver.desc d = q.driver.desc d ∧ q'.driver.txbuf d = q.driver.txbuf d

/-- A call changes nothing that the device has when the frame is handed over. -/
def Safe (q : TxQueue) : TxEvent → Prop
  | .device _ => True
  | .send data before after => Untouched (q.ready before).owned q (q.step bufs (.send data before after))

/-- Where a frame is sent, the device has no descriptor that was offered `VRING_SIZE` or more frames ago. -/
def Recent (q : TxQueue) : TxEvent → Prop
  | .device _ => True
  | .send data before _ => data.length ≤ 1514 → q.reclaimed.driver.tx_inflight.toNat < VRING_SIZE →
    ∀ e ∈ (q.ready before).pending, ((q.ready before).driver.avail_idx - e.1).toNat < VRING_SIZE

/-! ## What a step keeps -/

/-- The slots of the available ring are used in order, and what the device has was offered among the last
`VRING_SIZE` frames. -/
structure Ordered (q : TxQueue) : Prop where
  slots : ∀ k < (q.driver.avail_idx - q.last_avail).toNat,
    q.driver.avail_ring ((q.last_avail.toNat + k) % VRING_SIZE) = UInt16.ofNat ((q.last_avail.toNat + k) % VRING_SIZE)
  taken : ∀ e ∈ q.pending, e.2.toNat = e.1.toNat % VRING_SIZE ∧ 0 < (q.last_avail - e.1).toNat ∧
    (q.last_avail - e.1).toNat + (q.driver.avail_idx - q.last_avail).toNat ≤ VRING_SIZE
  count : q.driver.tx_inflight.toNat = (q.owned ++ q.returned).length
  room : q.driver.tx_inflight.toNat ≤ VRING_SIZE
  once : q.owned.Nodup

variable {bufs} {q : TxQueue}

theorem length_owned : q.owned.length = (q.driver.avail_idx - q.last_avail).toNat + q.pending.length := by
  rw [owned, length_append, length_map, length_map, available, ring.length_window]

theorem length_returned : q.returned.length = (q.driver.used_idx - q.driver.tx_last_used).toNat := by
  rw [returned, length_map, used, ring.length_window]

/-- The device moves a descriptor, and leaves the driver's side alone. -/
structure Moves (q q' : TxQueue) : Prop where
  perm : (q'.owned ++ q'.returned).Perm (q.owned ++ q.returned)
  desc : q'.driver.desc = q.driver.desc
  txbuf : q'.driver.txbuf = q.driver.txbuf
  avail : q'.driver.avail_idx = q.driver.avail_idx
  inflight : q'.driver.tx_inflight = q.driver.tx_inflight

theorem Moves.refl (q : TxQueue) : Moves q q := ⟨.refl _, rfl, rfl, rfl, rfl⟩

theorem Moves.trans {q' q'' : TxQueue} (h : Moves q q') (h' : Moves q' q'') : Moves q q'' :=
  ⟨h'.perm.trans h.perm, h'.desc.trans h.desc, h'.txbuf.trans h.txbuf, h'.avail.trans h.avail,
    h'.inflight.trans h.inflight⟩

theorem device_fetch (h : q.Ordered) : (q.device .fetch).Ordered ∧ Moves q (q.device .fetch) := by
  rw [device]
  split
  · exact ⟨h, .refl q⟩
  next hne =>
  have hring : VRING_SIZE = 256 := rfl
  have hone : (1 : UInt16).toNat = 1 := rfl
  have hla := q.last_avail.toNat_lt
  have hai := q.driver.avail_idx.toNat_lt
  have hdiff : q.last_avail.toNat ≠ q.driver.avail_idx.toNat := fun h => hne (UInt16.toNat_inj.mp h)
  have hcount : (q.driver.avail_idx - (q.last_avail + 1)).toNat + 1 = (q.driver.avail_idx - q.last_avail).toNat := by
    rw [UInt16.toNat_sub, UInt16.toNat_sub, UInt16.toNat_add, hone]
    omega
  have hpop : q.available = q.driver.avail_ring (q.last_avail.toNat % VRING_SIZE) ::
      ring.window q.driver.avail_ring VRING_SIZE (q.last_avail + 1) q.driver.avail_idx :=
    ring.window_pop _ RxQueue.vring_dvd (Ne.symm hne)
  set q' : TxQueue := { q with
    pending := q.pending ++ [(q.last_avail, q.driver.avail_ring (q.last_avail.toNat % VRING_SIZE))]
    last_avail := q.last_avail + 1 } with hq'
  have hperm : q'.owned.Perm q.owned := by
    rw [owned, owned, hpop, map_cons, hq', map_append]
    rw [← append_assoc]
    refine List.perm_append_comm.trans ?_
    exact .refl _
  have hslot := h.slots 0 (by omega)
  rw [Nat.add_zero] at hslot
  have hlen : (q'.owned ++ q'.returned).Perm (q.owned ++ q.returned) := hperm.append_right _
  refine ⟨⟨fun k hk => ?_, fun e he => ?_, h.count.trans hlen.length_eq.symm, h.room, hperm.nodup_iff.mpr h.once⟩,
    ⟨hlen, rfl, rfl, rfl, rfl⟩⟩
  · have hk : k + 1 < (q.driver.avail_idx - q.last_avail).toNat := by
      have hk' : k < (q.driver.avail_idx - (q.last_avail + 1)).toNat := hk
      omega
    have hpos : ((q.last_avail + 1).toNat + k) % VRING_SIZE = (q.last_avail.toNat + (k + 1)) % VRING_SIZE := by
      rw [UInt16.toNat_add, hone, hring]
      omega
    have hold := h.slots (k + 1) hk
    rw [← hpos] at hold
    exact hold
  · have hstep : ∀ x : UInt16, (q.last_avail + 1 - x).toNat = ((q.last_avail - x).toNat + 1) % 2 ^ 16 := by
      intro x
      have hx := x.toNat_lt
      rw [UInt16.toNat_sub, UInt16.toNat_sub, UInt16.toNat_add, hone]
      omega
    have hgoal : e.2.toNat = e.1.toNat % VRING_SIZE ∧ 0 < (q.last_avail + 1 - e.1).toNat ∧
        (q.last_avail + 1 - e.1).toNat + (q.driver.avail_idx - (q.last_avail + 1)).toNat ≤ VRING_SIZE := by
      rw [hstep]
      rcases List.mem_append.mp he with hold | hnew
      · obtain ⟨hid, hpos, hle⟩ := h.taken e hold
        exact ⟨hid, by omega, by omega⟩
      · cases List.mem_singleton.mp hnew
        have hroom := h.room
        rw [h.count, length_append, length_owned] at hroom
        have hzero : (q.last_avail - q.last_avail).toNat = 0 := by
          rw [UInt16.sub_self]
          rfl
        dsimp only
        rw [hslot, hzero, UInt16.toNat_ofNat', hring]
        exact ⟨by omega, by omega, by omega⟩
    exact hgoal

theorem device_complete (h : q.Ordered) (i : Nat) :
    (q.device (.complete i)).Ordered ∧ Moves q (q.device (.complete i)) := by
  rw [device]
  split
  · exact ⟨h, .refl q⟩
  next e he =>
  have hring : VRING_SIZE = 256 := rfl
  have hi : i < q.pending.length := (List.getElem?_eq_some_iff.mp he).1
  have hcount := h.count
  have hroom := h.room
  rw [length_append, length_owned, length_returned] at hcount
  have hpush := ring.window_push q.driver.used_ring RxQueue.vring_dvd
    (show (q.driver.used_idx - q.driver.tx_last_used).toNat < VRING_SIZE by omega) (by omega)
    (⟨e.2.toUInt32, 0⟩ : UsedElem)
  set q' : TxQueue := { q with
    driver := { q.driver with
      used_ring := update q.driver.used_ring (q.driver.used_idx.toNat % VRING_SIZE) ⟨e.2.toUInt32, 0⟩
      used_idx := q.driver.used_idx + 1 }
    pending := q.pending.eraseIdx i } with hq'
  have herase : (e :: q.pending.eraseIdx i).Perm q.pending := by
    have hget : q.pending[i] = e := (List.getElem?_eq_some_iff.mp he).2
    rw [← hget]
    exact getElem_cons_eraseIdx_perm hi
  have hreturned : q'.returned = q.returned ++ [e.2.toNat] := by
    have hused : q'.used = q.used ++ [⟨e.2.toUInt32, 0⟩] := hpush
    rw [returned, hused, map_append, map_singleton, UInt16.toNat_toUInt32, returned]
  have hids : (e.2.toNat :: q'.pending.map fun e => e.2.toNat).Perm (q.pending.map fun e => e.2.toNat) :=
    herase.map fun e : UInt16 × UInt16 => e.2.toNat
  have hperm : (q'.owned ++ q'.returned).Perm (q.owned ++ q.returned) := by
    rw [hreturned, owned, owned, append_assoc, append_assoc]
    refine List.Perm.append_left _ (List.Perm.trans ?_ (hids.append_right _))
    rw [← append_assoc]
    exact perm_append_comm
  have hsub : q'.owned.Sublist q.owned :=
    ((eraseIdx_sublist q.pending i).map fun e : UInt16 × UInt16 => e.2.toNat).append_left _
  exact ⟨⟨h.slots, fun x hx => h.taken x (mem_of_mem_eraseIdx hx), h.count.trans hperm.length_eq.symm, h.room,
    h.once.sublist hsub⟩, ⟨hperm, rfl, rfl, rfl, rfl⟩⟩

theorem run_device (h : q.Ordered) (evs : List TxDevice) :
    (machine.run device q evs).Ordered ∧ Moves q (machine.run device q evs) := by
  induction evs generalizing q with
  | nil => exact ⟨h, .refl q⟩
  | cons ev evs ih =>
    have hev : (q.device ev).Ordered ∧ Moves q (q.device ev) := by
      cases ev with
      | fetch => exact device_fetch h
      | complete i => exact device_complete h i
    exact ⟨(ih hev.1).1, hev.2.trans (ih hev.1).2⟩

/-! ## The driver -/

theorem reclaim_fields (s : VirtioTx) (n : Nat) :
    s.reclaim n = { s with tx_last_used := (s.reclaim n).tx_last_used, tx_inflight := (s.reclaim n).tx_inflight } ∧
      (s.reclaim n).tx_last_used = s.tx_last_used + UInt16.ofNat n ∧
        (s.reclaim n).tx_inflight.toNat = s.tx_inflight.toNat - n := by
  induction n with
  | zero => exact ⟨rfl, (UInt16.add_zero _).symm, rfl⟩
  | succ n ih =>
    obtain ⟨hsame, hlast, hcount⟩ := ih
    refine ⟨?_, ?_, ?_⟩
    · conv_lhs => rw [VirtioTx.reclaim, hsame]
      rfl
    · rw [VirtioTx.reclaim]
      dsimp only
      rw [hlast, UInt16.add_assoc]
      congr 1
      exact UInt16.ofNat_add n 1 |>.symm
    · rw [VirtioTx.reclaim]
      dsimp only
      have hone : (1 : UInt16).toNat = 1 := rfl
      split
      · next hpos =>
        have hpos : 0 < (s.reclaim n).tx_inflight.toNat := UInt16.lt_iff_toNat_lt.mp hpos
        have hlt := (s.reclaim n).tx_inflight.toNat_lt
        rw [UInt16.toNat_sub, hone]
        omega
      · next hzero =>
        have hzero : ¬0 < (s.reclaim n).tx_inflight.toNat := fun h => hzero (UInt16.lt_iff_toNat_lt.mpr h)
        omega

/-- Behind `virtio_net_reclaim_tx` no used entry is left, and nothing else is changed. -/
theorem reclaimed_ordered (h : q.Ordered) :
    q.reclaimed.Ordered ∧ q.reclaimed.returned = [] ∧ q.reclaimed.owned = q.owned ∧
      q.reclaimed.driver.desc = q.driver.desc ∧ q.reclaimed.driver.txbuf = q.driver.txbuf := by
  obtain ⟨hsame, hlast, hcount⟩ := reclaim_fields q.driver (q.driver.used_idx - q.driver.tx_last_used).toNat
  have hdriver : q.reclaimed.driver = q.driver.reclaim (q.driver.used_idx - q.driver.tx_last_used).toNat := rfl
  rw [← hdriver] at hsame hlast hcount
  rw [UInt16.ofNat_toNat, UInt16.add_comm, UInt16.sub_add_cancel] at hlast
  have hnone : q.reclaimed.returned = [] := by
    refine eq_nil_of_length_eq_zero ?_
    rw [length_returned, hlast, hsame]
    dsimp only
    rw [UInt16.sub_self]
    rfl
  have howned : q.reclaimed.owned = q.owned := by
    rw [owned, available, hsame]
    rfl
  have hall := h.count
  rw [length_append, length_returned] at hall
  have hroom := h.room
  refine ⟨⟨?_, ?_, ?_, by omega, by rw [howned]; exact h.once⟩, hnone, howned, by rw [hsame], by rw [hsame]⟩
  · rw [hsame]
    exact h.slots
  · rw [hsame]
    exact h.taken
  · rw [hnone, howned, append_nil]
    omega

theorem slot_free (h : q.Ordered) (hroom : q.driver.tx_inflight.toNat < VRING_SIZE)
    (hrecent : ∀ e ∈ q.pending, (q.driver.avail_idx - e.1).toNat < VRING_SIZE) :
    q.driver.avail_idx.toNat % VRING_SIZE ∉ q.owned := by
  have hring : VRING_SIZE = 256 := rfl
  have hla := q.last_avail.toNat_lt
  have hai := q.driver.avail_idx.toNat_lt
  have hcount := h.count
  rw [length_append, length_owned] at hcount
  rw [owned, mem_append, mem_map, mem_map]
  rintro (⟨d, hd, heq⟩ | ⟨e, he, heq⟩)
  · rw [available, ring.window, ring.contents, mem_map] at hd
    obtain ⟨k, hk, rfl⟩ := hd
    have hk := List.mem_range.mp hk
    rw [h.slots k hk, UInt16.toNat_ofNat', hring] at heq
    have hdist : (q.driver.avail_idx - q.last_avail).toNat =
        (2 ^ 16 - q.last_avail.toNat + q.driver.avail_idx.toNat) % 2 ^ 16 :=
      UInt16.toNat_sub _ _
    omega
  · obtain ⟨hid, hpos, hle⟩ := h.taken e he
    have hlt := hrecent e he
    have hidx := e.1.toNat_lt
    rw [UInt16.toNat_sub] at hpos hle hlt
    rw [UInt16.toNat_sub] at hle
    rw [hid, hring] at heq
    omega

theorem handed_over_ordered (h : q.Ordered) (hroom : q.driver.tx_inflight.toNat < VRING_SIZE)
    (hrecent : ∀ e ∈ q.pending, (q.driver.avail_idx - e.1).toNat < VRING_SIZE) (data : List UInt8) :
    (q.handed_over bufs data).Ordered := by
  have hring : VRING_SIZE = 256 := rfl
  have hone : (1 : UInt16).toNat = 1 := rfl
  have hla := q.last_avail.toNat_lt
  have hai := q.driver.avail_idx.toNat_lt
  have hcount := h.count
  rw [length_append, length_owned] at hcount
  have hpush := ring.window_push q.driver.avail_ring RxQueue.vring_dvd
    (show (q.driver.avail_idx - q.last_avail).toNat < VRING_SIZE by omega) (by omega)
    (UInt16.ofNat (q.driver.avail_idx.toNat % VRING_SIZE))
  have hnext : (q.driver.avail_idx + 1 - q.last_avail).toNat = (q.driver.avail_idx - q.last_avail).toNat + 1 := by
    have hdist : (q.driver.avail_idx - q.last_avail).toNat < VRING_SIZE := by omega
    rw [UInt16.toNat_sub] at hdist ⊢
    rw [UInt16.toNat_sub, UInt16.toNat_add, hone]
    omega
  have hslot : (UInt16.ofNat (q.driver.avail_idx.toNat % VRING_SIZE)).toNat =
      q.driver.avail_idx.toNat % VRING_SIZE := by
    rw [UInt16.toNat_ofNat', hring]
    omega
  have havail : (q.handed_over bufs data).available =
      q.available ++ [UInt16.ofNat (q.driver.avail_idx.toNat % VRING_SIZE)] := hpush
  have hperm : (q.handed_over bufs data).owned.Perm (q.driver.avail_idx.toNat % VRING_SIZE :: q.owned) := by
    rw [owned, havail, map_append, map_singleton, hslot, owned, append_assoc]
    exact perm_middle
  have hinflight : (q.handed_over bufs data).driver.tx_inflight.toNat = q.driver.tx_inflight.toNat + 1 := by
    have hadd : (q.driver.tx_inflight + 1).toNat = q.driver.tx_inflight.toNat + 1 := by
      rw [UInt16.toNat_add, hone]
      omega
    exact hadd
  refine ⟨fun k hk => ?_, fun e he => ?_, ?_, by omega, ?_⟩
  · have hk : k < (q.driver.avail_idx + 1 - q.last_avail).toNat := hk
    rw [hnext] at hk
    have hend : q.driver.avail_idx.toNat % VRING_SIZE =
        (q.last_avail.toNat + (q.driver.avail_idx - q.last_avail).toNat) % VRING_SIZE :=
      ring.index_end RxQueue.vring_dvd
    have hring' : (q.handed_over bufs data).driver.avail_ring = update q.driver.avail_ring
        (q.driver.avail_idx.toNat % VRING_SIZE) (UInt16.ofNat (q.driver.avail_idx.toNat % VRING_SIZE)) := rfl
    have hlast : (q.handed_over bufs data).last_avail = q.last_avail := rfl
    rw [hring', hlast]
    by_cases hnew : (q.last_avail.toNat + k) % VRING_SIZE = q.driver.avail_idx.toNat % VRING_SIZE
    · rw [hnew, update_self]
    · rw [update_of_ne hnew]
      refine h.slots k (Nat.lt_of_le_of_ne (Nat.le_of_lt_succ hk) fun heq => hnew ?_)
      rw [heq, hend]
  · obtain ⟨hid, hpos, hle⟩ := h.taken e he
    have hlt := hrecent e he
    have hidx := e.1.toNat_lt
    have hgoal : e.2.toNat = e.1.toNat % VRING_SIZE ∧ 0 < (q.last_avail - e.1).toNat ∧
        (q.last_avail - e.1).toNat + (q.driver.avail_idx + 1 - q.last_avail).toNat ≤ VRING_SIZE := by
      refine ⟨hid, hpos, ?_⟩
      rw [hnext]
      rw [UInt16.toNat_sub] at hle hlt ⊢
      rw [UInt16.toNat_sub] at hle ⊢
      omega
    exact hgoal
  · have hreturned : (q.handed_over bufs data).returned = q.returned := rfl
    rw [hinflight, hreturned, length_append, hperm.length_eq, length_cons, length_owned]
    omega
  · exact hperm.nodup_iff.mpr (List.nodup_cons.mpr ⟨slot_free h hroom hrecent, h.once⟩)

/-- Between two calls no descriptor is in the used ring that is also with the device. -/
structure Sound (q : TxQueue) : Prop where
  ordered : q.Ordered
  once : (q.owned ++ q.returned).Nodup

theorem start_sound : start.Sound := by
  have howned : start.owned = [] := rfl
  have hreturned : start.returned = [] := rfl
  have hnone : (start.driver.avail_idx - start.last_avail).toNat = 0 := rfl
  refine ⟨⟨fun k hk => ?_, fun e he => absurd he not_mem_nil, rfl, Nat.zero_le _, ?_⟩, ?_⟩
  · rw [hnone] at hk
    exact absurd hk (Nat.not_lt_zero k)
  · rw [howned]
    exact nodup_nil
  · rw [howned, hreturned]
    exact nodup_nil

theorem device_sound (h : q.Sound) (evs : List TxDevice) : (machine.run device q evs).Sound := by
  obtain ⟨hordered, hmoves⟩ := run_device h.ordered evs
  exact ⟨hordered, hmoves.perm.nodup_iff.mpr h.once⟩

theorem ordered_sound (h : q.Ordered) (hnone : q.returned = []) : q.Sound :=
  ⟨h, by rw [hnone, append_nil]; exact h.once⟩

/-- Where the device has only recent frames, a call is safe and keeps the queue in order. -/
theorem step_sound (h : q.Sound) {ev : TxEvent} (hrecent : q.Recent ev) : (q.step bufs ev).Sound ∧ q.Safe bufs ev := by
  cases ev with
  | device ev => exact ⟨device_sound h [ev], trivial⟩
  | send data before after =>
    obtain ⟨hreclaimed, hnone, _, hdesc, htxbuf⟩ := reclaimed_ordered h.ordered
    obtain ⟨hready, hmoves⟩ : (q.ready before).Ordered ∧ Moves q.reclaimed (q.ready before) :=
      run_device hreclaimed before
    have hdesc := hmoves.desc.trans hdesc
    have htxbuf := hmoves.txbuf.trans htxbuf
    rw [Safe, step, virtio_net_send]
    split
    · exact ⟨h, fun d _ => ⟨rfl, rfl⟩⟩
    next hlen =>
    dsimp only
    split
    · exact ⟨device_sound (ordered_sound hreclaimed hnone) before, fun d _ => ⟨congrFun hdesc d, congrFun htxbuf d⟩⟩
    next hfull =>
    have hfull : q.reclaimed.driver.tx_inflight.toNat < VRING_SIZE := by omega
    have hroom : (q.ready before).driver.tx_inflight.toNat < VRING_SIZE := by
      rw [hmoves.inflight]
      exact hfull
    have hpending := hrecent (by omega) hfull
    have hsent : ((q.ready before).handed_over bufs data).Ordered := handed_over_ordered hready hroom hpending data
    obtain ⟨hafter, hlater⟩ := run_device hsent after
    obtain ⟨hend, hempty, _, hdesc', htxbuf'⟩ := reclaimed_ordered hafter
    refine ⟨ordered_sound hend hempty, fun d hd => ?_⟩
    have hne : d ≠ (q.ready before).driver.avail_idx.toNat % VRING_SIZE :=
      fun heq => slot_free hready hroom hpending (heq ▸ hd)
    constructor
    · rw [hdesc', hlater.desc, ← hdesc]
      exact update_of_ne hne _ _
    · rw [htxbuf', hlater.txbuf, ← htxbuf]
      exact update_of_ne hne _ _

end TxQueue

open TxQueue machine

/-- In every run in which the device has only recent frames whenever one is sent, no call changes a buffer or a
descriptor that the device has, and `tx_inflight` counts the frames that are not reclaimed. -/
theorem tx_frames_untouched (bufs : TxBuffers) (events : List TxEvent) (h : Along (step bufs) Recent start events) :
    Along (step bufs) (Safe bufs) start events ∧ (run (step bufs) start events).Counted := by
  suffices hrun : ∀ q : TxQueue, q.Sound → Along (step bufs) Recent q events →
      Along (step bufs) (Safe bufs) q events ∧ (run (step bufs) q events).Sound by
    obtain ⟨hsafe, hsound⟩ := hrun start start_sound h
    exact ⟨hsafe, hsound.ordered.count, hsound.once⟩
  clear h
  induction events with
  | nil => exact fun q hq _ => ⟨trivial, hq⟩
  | cons ev events ih =>
    intro q hq h
    obtain ⟨hnext, hsafe⟩ := @step_sound bufs q hq ev h.1
    obtain ⟨hrest, hend⟩ := ih _ hnext h.2
    exact ⟨⟨hsafe, hrest⟩, hend⟩

theorem recent_of_all {q : TxQueue} {data : List UInt8} {before after : List TxDevice}
    (h : ((q.ready before).pending.all fun e =>
      decide (((q.ready before).driver.avail_idx - e.1).toNat < VRING_SIZE)) = true) :
    q.Recent (.send data before after) :=
  fun _ _ e he => of_decide_eq_true (all_eq_true.mp h e he)

/-- Buffers in a row, at their physical address. -/
def linear_tx_buffers : TxBuffers := ⟨fun i => 0x200000 + UInt64.ofNat (i * NET_FRAME_BUF_SIZE), id⟩

/-- Three frames, the second of which the device returns while it still has the first. -/
def three_frames : List TxEvent :=
  [.send [1] [] [.fetch], .send [2] [] [.fetch], .device (.complete 1), .send [3] [] [.fetch]]

theorem tx_three_frames_untouched : Along (step linear_tx_buffers) Recent start three_frames ∧
    Along (step linear_tx_buffers) (Safe linear_tx_buffers) start three_frames ∧
      (run (step linear_tx_buffers) start three_frames).Counted := by
  have hrecent : Along (step linear_tx_buffers) Recent start three_frames := by
    refine ⟨fun _ _ e he => absurd he not_mem_nil, recent_of_all ?_, trivial, recent_of_all ?_, trivial⟩
    · decide +kernel
    · decide +kernel
  exact ⟨hrecent, tx_frames_untouched linear_tx_buffers three_frames hrecent⟩

/-- A full ring, of which the device returns the second frame first. -/
def out_of_order : List TxEvent :=
  List.replicate 256 (.send [1] [] [.fetch]) ++ [.device (.complete 1)]

theorem tx_frame_overwritten : ¬∀ bufs events, Along (step bufs) (Safe bufs) start events := by
  intro h
  have hlast := h linear_tx_buffers (out_of_order ++ [.send [2] [] []])
  rw [along_append] at hlast
  have howned : 0 ∈ ((run (step linear_tx_buffers) start out_of_order).ready []).owned := by decide +kernel
  have hbefore : (run (step linear_tx_buffers) start out_of_order).driver.txbuf 0 10 = 1 := by decide +kernel
  have hafter : (((run (step linear_tx_buffers) start out_of_order).step linear_tx_buffers
      (.send [2] [] [])).driver.txbuf 0 10) = 2 := by
    decide +kernel
  have hsame := congrFun (hlast.2.1 0 howned).2 10
  rw [hbefore, hafter] at hsame
  cases hsame

end graceos.net
