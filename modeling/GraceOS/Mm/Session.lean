import GraceOS.Mm.Heap

/-!
# Sessions with the heap

The clients of the heap allocate, write into what they were given and give it back, once or more
than once. A session keeps track of which payloads are live and which pointers were given back.
-/

namespace graceos.mm

open word machine

/-- What the clients of the heap do. -/
inductive HeapCall where
  | kmalloc (size : Nat)
  | kfree (ptr : Nat)
  | write (addr : Nat) (value : UInt8)

/-- The heap, the live payloads with the sizes asked for, and the pointers that were freed. -/
structure Session where
  heap : Kheap
  live : List (Nat × Nat)
  freed : List Nat

def Session.step (s : Session) : HeapCall → Session
  | .kmalloc size =>
    match s.heap.kmalloc size with
    | none => s
    | some (r, h') =>
      if r = 0 then { s with heap := h' }
      else { heap := h', live := (r, size) :: s.live, freed := s.freed.filter (· ≠ r) }
  | .kfree ptr =>
    let freed := if ptr ∈ s.live.map Prod.fst then ptr :: s.freed else s.freed
    { heap := s.heap.kfree ptr, live := s.live.filter (·.1 ≠ ptr), freed := freed }
  | .write addr value => { s with heap := { s.heap with mem := store s.heap.mem addr 1 value.toNat } }

/-- The calls clients may make: any allocation, the release of null, of a live pointer, or of a
pointer that was freed before and whose header still says so, and writes into live payloads. -/
def Session.Allows (s : Session) : HeapCall → Prop
  | .kmalloc _ => True
  | .kfree ptr => ptr = 0 ∨ ptr ∈ s.live.map Prod.fst ∨
      (ptr ∈ s.freed ∧ s.heap.mem.free (Kheap.block_of ptr) = 1)
  | .write addr _ => ∃ x ∈ s.live, x.1 ≤ addr ∧ addr < x.1 + x.2

/-- The payload `x` lies in a block in use. -/
def InUse (base : Nat) (ts : List Tile) (x : Nat × Nat) : Prop :=
  ∃ b t, (b, t) ∈ placed base ts ∧ t.free = false ∧ x.1 = b + HEADER_SIZE ∧
    x.2 + HEADER_SIZE + FOOTER_SIZE ≤ t.size

/-- The heap is intact and every live payload has its block. -/
structure Session.Sound (s : Session) (base limit : Nat) (ts : List Tile) : Prop where
  heap_base : s.heap.heap_base = base
  heap_limit : s.heap.heap_limit = limit
  intact : s.heap.Intact ts
  live : ∀ x ∈ s.live, InUse base ts x
  nodup : (s.live.map Prod.fst).Nodup

section Blocks

variable {m : Mem} {p a e : Nat} {ts : List Tile}

theorem Tiled.of_placed (h : Tiled m p a ts e) (haligned : a % KHEAP_ALIGN = 0) :
    ∀ x ∈ placed a ts, x.1 % KHEAP_ALIGN = 0 ∧ a ≤ x.1 ∧ x.1 + x.2.size ≤ e ∧
      HEADER_SIZE + FOOTER_SIZE ≤ x.2.size := by
  induction ts generalizing p a with
  | nil => simp [placed]
  | cons t ts ih =>
    intro x hx
    have hsum := h.2.end_eq
    have hmod := h.1.aligned
    simp only [placed, List.mem_cons] at hx
    rcases hx with rfl | hx
    · exact ⟨haligned, le_refl _, show a + t.size ≤ e by omega, h.1.large⟩
    · have hrest := ih h.2 (by simp only [KHEAP_ALIGN] at haligned hmod ⊢; omega) x hx
      exact ⟨hrest.1, by omega, hrest.2.2⟩

theorem Tiled.write {b addr : Nat} {t : Tile} {value : Nat} (h : Tiled m p a ts e)
    (haligned : a % KHEAP_ALIGN = 0) (hb : (b, t) ∈ placed a ts) (hlow : b + HEADER_SIZE ≤ addr)
    (hhigh : addr + FOOTER_SIZE < b + t.size) : Tiled (store m addr 1 value) p a ts e := by
  refine h.congr fun c u hc x hx => store_outside ?_
  have hlarge := (h.of_placed haligned (c, u) hc).2.2.2
  simp only [Meta, HEADER_SIZE, FOOTER_SIZE] at hx hlow hhigh hlarge
  rcases placed_apart hb hc with heq | hapart
  · obtain ⟨rfl, rfl⟩ := Prod.mk.injEq .. ▸ heq
    omega
  · simp only at hapart
    omega

end Blocks

/-- The heap before its first call. -/
theorem Kheap.format_intact {h : Kheap} {base limit : Nat} (hlow : 0 < base) (hhigh : limit < 2 ^ 64)
    (hbase : base % PAGE_SIZE = 0) (hlimit : limit % PAGE_SIZE = 0)
    (hroom : base + (HEADER_SIZE + FOOTER_SIZE) ≤ limit) :
    (h.format base limit).Intact [⟨limit - base, true⟩] ∧ (h.format base limit).heap_base = base ∧
      (h.format base limit).heap_limit = limit := by
  simp only [PAGE_SIZE, HEADER_SIZE, FOOTER_SIZE] at hbase hlimit hroom
  have htotal : (limit + 2 ^ 64 - base) % 2 ^ 64 = limit - base := by omega
  have hconst : KHEAP_MAGIC < 256 ^ 4 := by decide
  have hfooter : (((((h.mem.set_magic base KHEAP_MAGIC).set_free base 1).set_size base
      (limit - base)).set_next base 0).set_prev base 0).get_footer base = limit - FOOTER_SIZE := by
    simp (disch := omega) only [Mem.get_footer, Mem.size, Mem.set_prev, Mem.set_next, Mem.set_size,
      FOOTER_SIZE, load_store_apart, load_store]
    omega
  rw [Kheap.format, htotal, if_neg (by simp only [HEADER_SIZE, FOOTER_SIZE]; omega)]
  simp only [hfooter]
  have hend : base + (limit - base) = limit := by omega
  refine ⟨⟨rfl, hlow, hhigh, ?_, by simp, ⟨⟨?_, ?_, ?_, ?_, ?_, ?_, ?_, ?_, ?_⟩, hend⟩, ?_⟩, by simp⟩
  · simp only [KHEAP_ALIGN]
    omega
  · simp only [HEADER_SIZE, FOOTER_SIZE]
    omega
  · simp only [KHEAP_ALIGN]
    omega
  all_goals try
    simp (disch := omega) only [Mem.magic, Mem.free, Mem.size, Mem.next, Mem.prev, Mem.footer_size,
      Mem.footer_magic, Mem.set_footer, Mem.set_next, Mem.set_size, Mem.set_free, Mem.set_prev,
      Mem.set_magic, FOOTER_SIZE, hend, if_true, load_store_apart, load_store, Bool.toNat_true]
  · exact List.isChain_singleton _

section Steps

variable {s : Session} {base limit : Nat} {ts : List Tile}

theorem Session.Sound.kmalloc (h : s.Sound base limit ts) (size : Nat) :
    ∃ ts', (s.step (.kmalloc size)).Sound base limit ts' := by
  obtain ⟨r, h', hrun, hbase, hlimit, hcases⟩ := h.intact.kmalloc size
  rw [h.heap_base] at hbase hcases
  rw [h.heap_limit] at hlimit
  simp only [Session.step, hrun]
  rcases hcases with ⟨rfl, rfl⟩ | ⟨ts', b, t, hintact, rfl, ⟨u, hu, hufree, -⟩, ht, htfree, hsize, hkeep⟩
  · exact ⟨ts, h.heap_base, h.heap_limit, h.intact, h.live, h.nodup⟩
  · rw [if_neg (by simp [HEADER_SIZE])]
    refine ⟨ts', hbase, hlimit, hintact, fun x hx => ?_, List.nodup_cons.mpr ⟨fun hmem => ?_, h.nodup⟩⟩
    · rcases List.mem_cons.mp hx with rfl | hx
      · exact ⟨b, t, ht, htfree, rfl, hsize⟩
      · obtain ⟨c, v, hc, hv, hx, hle⟩ := h.live x hx
        exact ⟨c, v, hkeep (c, v) hc hv, hv, hx, hle⟩
    · -- the block was free, so no live payload lies in it
      obtain ⟨x, hx, hxr⟩ := List.mem_map.mp hmem
      obtain ⟨c, v, hc, hv, hx', hle⟩ := h.live x hx
      obtain rfl : c = b := by omega
      have hlarge := ((h.heap_base ▸ h.intact.tiled).of_placed (h.heap_base ▸ h.intact.aligned) (c, u) hu).2.2.2
      simp only [HEADER_SIZE, FOOTER_SIZE] at hlarge
      rcases placed_apart hu hc with heq | hapart
      · obtain rfl : u = v := (Prod.mk.injEq .. ▸ heq).2
        exact absurd (hufree.symm.trans hv) (by simp)
      · simp only [HEADER_SIZE, FOOTER_SIZE] at hapart hle
        omega

theorem Session.Sound.kfree_live {ptr : Nat} (h : s.Sound base limit ts)
    (hptr : ptr ∈ s.live.map Prod.fst) : ∃ ts', (s.step (.kfree ptr)).Sound base limit ts' := by
  obtain ⟨x, hx, rfl⟩ := List.mem_map.mp hptr
  obtain ⟨b, t, hb, ht, hxb, hsize⟩ := h.live x hx
  rw [← h.heap_base] at hb
  obtain ⟨ts', hintact, hbase, hlimit, hkeep⟩ := h.intact.kfree hb ht
  rw [h.heap_base] at hbase hkeep
  rw [h.heap_limit] at hlimit
  rw [← hxb] at hintact hbase hlimit
  refine ⟨ts', hbase, hlimit, hintact, fun y hy => ?_, ?_⟩
  · simp only [Session.step, List.mem_filter, decide_eq_true_eq] at hy
    obtain ⟨c, u, hc, hu, hyc, hle⟩ := h.live y hy.1
    exact ⟨c, u, hkeep (c, u) hc hu (by simp only; omega), hu, hyc, hle⟩
  · exact h.nodup.sublist ((List.filter_sublist).map _)

theorem kfree_ignored {h : Kheap} {ptr : Nat}
    (hptr : ptr = 0 ∨ h.mem.free (Kheap.block_of ptr) = 1) : h.kfree ptr = h := by
  rw [Kheap.kfree]
  split
  · rfl
  · next hne =>
    have hfree := hptr.resolve_left fun hzero => hne (.inl hzero)
    simp only [hfree]
    split
    · rfl
    · rw [if_pos (by simp)]

theorem Session.Sound.step (h : s.Sound base limit ts) {call : HeapCall} (hallows : s.Allows call) :
    ∃ ts', (s.step call).Sound base limit ts' := by
  cases call with
  | kmalloc size => exact h.kmalloc size
  | kfree ptr =>
    by_cases hlive : ptr ∈ s.live.map Prod.fst
    · exact h.kfree_live hlive
    · have hignored : s.heap.kfree ptr = s.heap :=
        kfree_ignored (hallows.imp_right fun hrest => (hrest.resolve_left hlive).2)
      have hfilter : s.live.filter (·.1 ≠ ptr) = s.live := by
        refine List.filter_eq_self.mpr fun x hx => ?_
        simpa using fun heq : x.1 = ptr => hlive (heq ▸ List.mem_map_of_mem hx)
      refine ⟨ts, ?_⟩
      simp only [Session.step, hignored, hfilter]
      exact ⟨h.heap_base, h.heap_limit, h.intact, h.live, h.nodup⟩
  | write addr value =>
    obtain ⟨x, hx, hlow, hhigh⟩ := hallows
    obtain ⟨b, t, hb, ht, hxb, hsize⟩ := h.live x hx
    have hin := h.intact
    have htiled : Tiled (store s.heap.mem addr 1 value.toNat) 0 s.heap.heap_base ts s.heap.heap_limit :=
      hin.tiled.write hin.aligned (h.heap_base ▸ hb) (by omega) (by omega)
    exact ⟨ts, h.heap_base, h.heap_limit, ⟨hin.start, hin.low, hin.high, hin.aligned, hin.nonempty,
      htiled, hin.coalesced⟩, h.live, h.nodup⟩

end Steps

/-- The payloads `x` and `y` share no byte. -/
def Apart (x y : Nat × Nat) : Prop := x.1 + x.2 ≤ y.1 ∨ y.1 + y.2 ≤ x.1

section Report

variable {s : Session} {base limit : Nat} {ts : List Tile}

theorem Session.Sound.start_eq (h : s.Sound base limit ts) : s.heap.heap_start = base :=
  h.intact.start.trans h.heap_base

theorem Session.Sound.tiled (h : s.Sound base limit ts) :
    Tiled s.heap.mem 0 s.heap.heap_start ts limit := by
  rw [h.intact.start, ← h.heap_limit]
  exact h.intact.tiled

theorem Session.Sound.live_apart (h : s.Sound base limit ts) : s.live.Pairwise Apart := by
  refine List.Pairwise.imp_of_mem ?_ (List.pairwise_map.mp h.nodup)
  intro x y hx hy hne
  obtain ⟨b, t, hb, _, hxb, hxt⟩ := h.live x hx
  obtain ⟨c, u, hc, _, hyc, hyu⟩ := h.live y hy
  rcases placed_apart hb hc with heq | hapart
  · obtain rfl : b = c := (Prod.mk.injEq .. ▸ heq).1
    exact absurd (hxb.trans hyc.symm) hne
  · simp only at hapart
    unfold Apart
    omega

theorem Session.Sound.live_aligned (h : s.Sound base limit ts) :
    ∀ x ∈ s.live, x.1 % KHEAP_ALIGN = 0 := by
  intro x hx
  obtain ⟨b, t, hbt, -, hxb, -⟩ := h.live x hx
  rw [← h.heap_base] at hbt
  have haligned := (h.intact.tiled.of_placed h.intact.aligned (b, t) hbt).1
  simp only [KHEAP_ALIGN, HEADER_SIZE] at haligned hxb ⊢
  omega

theorem Session.Sound.accounts (h : s.Sound base limit ts) :
    s.heap.kheap_get_used + s.heap.kheap_get_free = limit - base := by
  rw [h.intact.accounts, h.heap_base, h.heap_limit]

theorem Session.Sound.kmalloc_isSome (h : s.Sound base limit ts) (size : Nat) :
    (s.heap.kmalloc size).isSome := by
  obtain ⟨r, h', hrun, -⟩ := h.intact.kmalloc size
  rw [hrun]
  rfl

end Report

/-- The session right after the heap was laid over a region. -/
def Session.start (h : Kheap) (base limit : Nat) : Session := ⟨h.format base limit, [], []⟩

/-- However its clients allocate, write and release, the heap stays a tiling of its region by
coalesced blocks, and the live payloads lie apart in blocks in use. -/
theorem kheap_run_intact (h : Kheap) {base limit : Nat} (hlow : 0 < base) (hhigh : limit < 2 ^ 64)
    (hbase : base % PAGE_SIZE = 0) (hlimit : limit % PAGE_SIZE = 0)
    (hroom : base + (HEADER_SIZE + FOOTER_SIZE) ≤ limit) {calls : List HeapCall}
    (hallowed : Along Session.step Session.Allows (Session.start h base limit) calls) :
    let s := run Session.step (Session.start h base limit) calls
    (∃ ts, Tiled s.heap.mem 0 s.heap.heap_start ts limit ∧ s.heap.heap_start = base ∧ Coalesced ts ∧
      ∀ x ∈ s.live, InUse base ts x) ∧
    s.live.Pairwise Apart ∧ (∀ x ∈ s.live, x.1 % KHEAP_ALIGN = 0) ∧
    s.heap.kheap_get_used + s.heap.kheap_get_free = limit - base ∧
    ∀ size, (s.heap.kmalloc size).isSome := by
  obtain ⟨hformat, hb, hl⟩ := Kheap.format_intact (h := h) hlow hhigh hbase hlimit hroom
  have hstart : ∃ ts, (Session.start h base limit).Sound base limit ts :=
    ⟨_, hb, hl, hformat, by simp [Session.start], by simp [Session.start]⟩
  obtain ⟨ts, hsound⟩ := hallowed.invariant (I := fun s => ∃ ts, s.Sound base limit ts)
    (fun s call ⟨ts, hs⟩ hcall => hs.step hcall) hstart
  exact ⟨⟨ts, hsound.tiled, hsound.start_eq, hsound.intact.coalesced, hsound.live⟩, hsound.live_apart,
    hsound.live_aligned, hsound.accounts, fun size => hsound.kmalloc_isSome size⟩

/-- A heap of two pages on which a block is allocated and released twice. -/
theorem kheap_double_free_intact :
    let s := run Session.step (Session.start ⟨fun _ => 0, 0, 0, 0⟩ 0x400000 0x402000)
      [.kmalloc 100, .kmalloc 50, .kfree 0x400020, .kfree 0x400020]
    s.live = [(0x4000b8, 50)] ∧ s.heap.kheap_get_used + s.heap.kheap_get_free = 0x2000 := by
  refine ⟨by decide +kernel, (kheap_run_intact _ (by decide) (by decide) (by decide) (by decide)
    (by decide) ?_).2.2.2.1⟩
  refine ⟨trivial, trivial, .inr (.inl (by decide +kernel)), .inr (.inr ⟨by decide +kernel, by decide +kernel⟩),
    trivial⟩

end graceos.mm
