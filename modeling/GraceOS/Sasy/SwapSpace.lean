import GraceOS.Sasy.Effects
import GraceOS.Sasy.Paging
import Mathlib.Order.Interval.Finset.Nat

/-!
# Swap space is not used again

`swap_alloc` takes its blocks from a counter that only moves up, and `swap_free` gives back an entry
of the table but no blocks.
-/

namespace graceos.sasy

open mm machine

namespace Backing

variable {b b' b'' : Backing} {g : Segment} {i : Nat}

/-- What `swap_alloc` looks at besides the table. -/
structure SameSwap (b b' : Backing) : Prop where
  next : b'.next_swap_block = b.next_swap_block
  size : b'.swap_size = b.swap_size
  ready : b'.swap_ready = b.swap_ready

theorem SameSwap.refl : SameSwap b b := ⟨rfl, rfl, rfl⟩

theorem SameSwap.trans (h : SameSwap b b') (h' : SameSwap b' b'') : SameSwap b b'' :=
  ⟨h'.next.trans h.next, h'.size.trans h.size, h'.ready.trans h.ready⟩

theorem sameSwap_foldl {f : Backing → Nat → Backing} (hf : ∀ b a, SameSwap b (f b a)) (l : List Nat) (b : Backing) :
    SameSwap b (l.foldl f b) := by
  induction l generalizing b with
  | nil => exact .refl
  | cons a l ih => exact (hf b a).trans (ih _)

theorem evict_sameSwap (b : Backing) (g : Segment) (i : Nat) : SameSwap b (b.evict g i) := by
  have hunmap : SameSwap b (b.unmap_segment g) := by
    rw [unmap_segment]
    split
    · exact sameSwap_foldl (f := vmm_unmap) (fun _ _ => ⟨rfl, rfl, rfl⟩) _ b
    · exact .refl
  have hfree : SameSwap (b.unmap_segment g) ((b.unmap_segment g).free_frames g i) := by
    rw [free_frames]
    split
    · exact sameSwap_foldl (f := pmm_free_page) (fun _ _ => ⟨rfl, rfl, rfl⟩) _ _
    · exact .refl
  exact (hunmap.trans hfree).trans ⟨rfl, rfl, rfl⟩

theorem fill_sameSwap (b : Backing) (base : Nat) (value : Nat → UInt8) (n : Nat) : SameSwap b
    (b.fill base value n) := by
  induction n with
  | zero => exact .refl
  | succ n ih => exact ⟨ih.next, ih.size, ih.ready⟩

theorem pmem_read_sameSwap (b : Backing) (offset base size : Nat) : SameSwap b (b.pmem_read offset base size).2 := by
  rw [pmem_read]
  split_ifs
  · exact .refl
  · exact ⟨rfl, rfl, rfl⟩
  · have hfill := b.fill_sameSwap base (fun o => b.pmem (offset + o)) (size / PAGE_SIZE)
    exact ⟨hfill.next, hfill.size, hfill.ready⟩

theorem pmem_write_sameSwap (b : Backing) (offset base size : Nat) : SameSwap b (b.pmem_write offset base size).2 := by
  rw [pmem_write]
  split_ifs <;> exact ⟨rfl, rfl, rfl⟩

theorem swap_free_sameSwap (b : Backing) (swap_id : Nat) : SameSwap b (b.swap_free swap_id) := by
  rw [swap_free]
  split
  · exact .refl
  · split <;> exact ⟨rfl, rfl, rfl⟩

theorem swap_read_sameSwap (b : Backing) (g : Segment) (i : Nat) : SameSwap b (b.swap_read g i).2 := by
  rw [swap_read]
  split_ifs
  · exact .refl
  · exact .refl
  · exact .refl
  · exact .refl
  · have hread := b.pmem_read_sameSwap (b.swap_offset i) g.base g.size
    generalize b.pmem_read (b.swap_offset i) g.base g.size = r at hread ⊢
    obtain ⟨ok, b₁⟩ := r
    cases ok with
    | false => exact hread
    | true =>
      have hid : SameSwap b₁ (b₁.set_swap_id i 0) := ⟨rfl, rfl, rfl⟩
      exact (hread.trans hid).trans (swap_free_sameSwap _ _)

/-- The number of blocks that `swap_alloc` computes. -/
def swap_pages (size : Nat) : Nat := (size + SWAP_BLOCK_SIZE - 1) % 2 ^ 64 / SWAP_BLOCK_SIZE

/-- The call of `swap_out` allocates a slot. -/
def Allocates (b : Backing) (g : Segment) (i : Nat) : Prop :=
  (b.swap_ready = true ∧ b.present i = true ∧ g.locked = 0 ∧ g.has SEG_FLAG_NOSWAP = false) ∧ b.swap_id i = 0 ∧
    (b.swap_alloc g.size).1 ≠ 0

instance (b : Backing) (g : Segment) (i : Nat) : Decidable (b.Allocates g i) := by
  unfold Allocates
  infer_instance

theorem swap_alloc_cases (b : Backing) (size : Nat) :
    b.swap_alloc size = (0, b) ∨
    (b.swap_ready = true ∧ (b.next_swap_block + swap_pages size) % 2 ^ 64 ≤ b.swap_size / SWAP_BLOCK_SIZE ∧
      (∃ e < MAX_SWAP_ENTRIES, (b.swap_table e).in_use = false) ∧ (b.swap_alloc size).1 = b.next_swap_block ∧
      (b.swap_alloc size).2.next_swap_block = (b.next_swap_block + swap_pages size) % 2 ^ 64 ∧
      (b.swap_alloc size).2.swap_size = b.swap_size ∧ (b.swap_alloc size).2.swap_ready = b.swap_ready) := by
  rw [swap_alloc]
  split
  · exact .inl rfl
  · next hready =>
    dsimp only
    split
    · exact .inl rfl
    · next hroom =>
      cases hfree : first_from (fun i => !(b.swap_table i).in_use) MAX_SWAP_ENTRIES 0 with
      | none => exact .inl rfl
      | some e =>
        obtain ⟨-, hlt, huse, -⟩ := first_from_some hfree
        exact .inr ⟨by simpa using hready, not_lt.mp hroom, ⟨e, by omega, by simpa using huse⟩, rfl, rfl, rfl, rfl⟩

theorem swap_alloc_zero_iff (hready : b.swap_ready = true) (hnext : b.next_swap_block ≠ 0) (size : Nat) :
    (b.swap_alloc size).1 = 0 ↔ b.swap_size / SWAP_BLOCK_SIZE < (b.next_swap_block + swap_pages size) % 2 ^ 64 ∨
      ∀ e < MAX_SWAP_ENTRIES, (b.swap_table e).in_use = true := by
  rcases b.swap_alloc_cases size with hzero | ⟨-, hroom, ⟨e, he, huse⟩, hid, -⟩
  · simp only [hzero, true_iff]
    rw [swap_alloc, if_neg (by simp [hready])] at hzero
    dsimp only at hzero
    split at hzero
    · next hfull => exact .inl hfull
    · right
      cases hfree : first_from (fun i => !(b.swap_table i).in_use) MAX_SWAP_ENTRIES 0 with
      | none =>
        intro e he
        simpa using first_from_none hfree e (Nat.zero_le e) (by omega)
      | some e =>
        rw [hfree] at hzero
        exact absurd (congrArg Prod.fst hzero) hnext
  · rw [hid]
    refine ⟨fun h => absurd h hnext, ?_⟩
    rintro (hfull | hall)
    · omega
    · rw [hall e he] at huse
      cases huse

/-- What a call of `swap_out` does to the counter. -/
theorem swap_out_next (hnonzero : b.next_swap_block ≠ 0) (g : Segment) (i : Nat) :
    (b.swap_out g i).2.swap_size = b.swap_size ∧ (b.swap_out g i).2.swap_ready = b.swap_ready ∧
    (b.swap_out g i).2.next_swap_block =
      if b.Allocates g i then (b.next_swap_block + swap_pages g.size) % 2 ^ 64 else b.next_swap_block := by
  by_cases hmay : b.swap_ready = true ∧ b.present i = true ∧ g.locked = 0 ∧ g.has SEG_FLAG_NOSWAP = false
  · have hslot : (b.slot_of g i).2.swap_size = b.swap_size ∧ (b.slot_of g i).2.swap_ready = b.swap_ready ∧
        (b.slot_of g i).2.next_swap_block =
          if b.Allocates g i then (b.next_swap_block + swap_pages g.size) % 2 ^ 64 else b.next_swap_block := by
      rw [slot_of]
      by_cases hid : b.swap_id i = 0
      · rw [if_pos hid]
        rcases b.swap_alloc_cases g.size with hzero | ⟨-, -, -, hnum, hnext, hsize, hready⟩
        · rw [if_neg (fun h => h.2.2 (by rw [hzero])), hzero]
          exact ⟨rfl, rfl, rfl⟩
        · have halloc : b.Allocates g i := ⟨hmay, hid, by rwa [hnum]⟩
          rw [if_pos halloc]
          exact ⟨hsize, hready, hnext⟩
      · rw [if_neg hid, if_neg fun h => hid h.2.1]
        exact ⟨rfl, rfl, rfl⟩
    have hrest : SameSwap (b.slot_of g i).2 (b.swap_out g i).2 := by
      obtain ⟨hready, hpresent, hlocked, hswap⟩ := hmay
      rw [swap_out_eq hready hpresent hlocked hswap]
      have hid : SameSwap (b.slot_of g i).2 ((b.slot_of g i).2.set_swap_id i (b.slot_of g i).1) := ⟨rfl, rfl, rfl⟩
      dsimp only
      generalize (b.slot_of g i).2.set_swap_id i (b.slot_of g i).1 = b₂ at hid
      split_ifs
      · exact hid
      · exact hid
      · have hwrite := b₂.pmem_write_sameSwap (b₂.swap_offset i) g.base g.size
        generalize b₂.pmem_write (b₂.swap_offset i) g.base g.size = r at hwrite
        obtain ⟨ok, b₃⟩ := r
        cases ok with
        | false => exact hid.trans hwrite
        | true => exact (hid.trans hwrite).trans (evict_sameSwap b₃ g i)
    exact ⟨hrest.size.trans hslot.1, hrest.ready.trans hslot.2.1, hrest.next.trans hslot.2.2⟩
  · rw [swap_out_same hmay, if_neg fun h => hmay h.1]
    exact ⟨rfl, rfl, rfl⟩

/-- A block lies in the extent of an entry that is in use. -/
def Occupied (b : Backing) (k : Nat) : Prop :=
  ∃ e < MAX_SWAP_ENTRIES, (b.swap_table e).in_use = true ∧ (b.swap_table e).disk_block ≤ k ∧
    k < (b.swap_table e).disk_block + (b.swap_table e).pages

instance (b : Backing) : DecidablePred b.Occupied := fun k => by
  unfold Occupied
  infer_instance

/-- The number of usable blocks of the region that no entry in use takes. -/
def available (b : Backing) : Nat :=
  ((Finset.Ico 1 (b.swap_size / SWAP_BLOCK_SIZE)).filter fun k => ¬ b.Occupied k).card

/-- What justifies a refusal: too few blocks are left, or no entry is. -/
def Exhausted (b : Backing) (size : Nat) : Prop :=
  b.available < (size + SWAP_BLOCK_SIZE - 1) / SWAP_BLOCK_SIZE ∨
    ∀ e < MAX_SWAP_ENTRIES, (b.swap_table e).in_use = true

instance (b : Backing) (size : Nat) : Decidable (b.Exhausted size) := by
  unfold Exhausted
  infer_instance

/-- `swap_init`, with the answer of `pmem_ready`. -/
def swap_init (b : Backing) (pmem_ready : Bool) : Backing :=
  { b with
    swap_table := fun _ => ⟨0, 0, false⟩
    next_swap_block := 1
    swap_ready := pmem_ready && decide (b.swap_size ≥ SWAP_BLOCK_SIZE) }

end Backing

/-! ## Runs -/

/-- The swap space, with the number of blocks of all the slots that were ever allocated. -/
structure Swapping where
  backing : Backing
  spent : Nat

namespace Swapping

/-- The calls of the swap API. `rest` is anything else the kernel does, which leaves the variables of
`swap.c` alone. -/
inductive Call where
  | out (g : Segment) (i : Nat)
  | read (g : Segment) (i : Nat)
  | free (swap_id : Nat)
  | rest (b : Backing)

def init (b : Backing) (pmem_ready : Bool) : Swapping := ⟨b.swap_init pmem_ready, 0⟩

def step (s : Swapping) : Call → Swapping
  | .out g i =>
    ⟨(s.backing.swap_out g i).2, if s.backing.Allocates g i then s.spent + Backing.swap_pages g.size else s.spent⟩
  | .read g i => { s with backing := (s.backing.swap_read g i).2 }
  | .free swap_id => { s with backing := s.backing.swap_free swap_id }
  | .rest b => { s with backing := { b with
      swap_table := s.backing.swap_table
      next_swap_block := s.backing.next_swap_block
      swap_ready := s.backing.swap_ready
      swap_base := s.backing.swap_base
      swap_size := s.backing.swap_size } }

/-- The call reports success. -/
def Succeeds (s : Swapping) : Call → Prop
  | .out g i => (s.backing.swap_out g i).1 = true
  | .read g i => (s.backing.swap_read g i).1 = true
  | .free _ => True
  | .rest _ => True

instance (s : Swapping) : DecidablePred s.Succeeds
  | .out g i => inferInstanceAs (Decidable ((s.backing.swap_out g i).1 = true))
  | .read g i => inferInstanceAs (Decidable ((s.backing.swap_read g i).1 = true))
  | .free _ => .isTrue trivial
  | .rest _ => .isTrue trivial

/-- The counter stands behind all the blocks that were ever allocated. -/
structure Counts (size : Nat) (ready : Bool) (s : Swapping) : Prop where
  next : s.backing.next_swap_block = 1 + s.spent
  size_eq : s.backing.swap_size = size
  ready_eq : s.backing.swap_ready = ready
  fits : ready = true → 1 + s.spent ≤ size / SWAP_BLOCK_SIZE
  unused : ready = false → s.spent = 0

variable {s : Swapping} {size : Nat} {ready : Bool}

theorem Counts.of_sameSwap (hs : s.Counts size ready) {b : Backing} (hsame : s.backing.SameSwap b) :
    Counts size ready { s with backing := b } :=
  ⟨hsame.next.trans hs.next, hsame.size.trans hs.size_eq, hsame.ready.trans hs.ready_eq, hs.fits, hs.unused⟩

theorem swap_pages_le (n : Nat) : Backing.swap_pages n < 2 ^ 52 := by
  simp only [Backing.swap_pages, SWAP_BLOCK_SIZE]
  omega

theorem Counts.sum_eq (hs : s.Counts size ready) (hsize : size < 2 ^ 64) (n : Nat) :
    (s.backing.next_swap_block + Backing.swap_pages n) % 2 ^ 64 = 1 + s.spent + Backing.swap_pages n := by
  have hpages := swap_pages_le n
  have hspent : s.spent < 2 ^ 52 := by
    cases ready with
    | false =>
      rw [hs.unused rfl]
      decide
    | true =>
      have hfits := hs.fits rfl
      simp only [SWAP_BLOCK_SIZE] at hfits
      omega
  rw [hs.next, Nat.mod_eq_of_lt (by omega)]

theorem Counts.step (hs : s.Counts size ready) (hsize : size < 2 ^ 64) (call : Call) :
    (s.step call).Counts size ready := by
  cases call with
  | out g i =>
    have hnonzero : s.backing.next_swap_block ≠ 0 := by
      rw [hs.next]
      omega
    obtain ⟨hsame, hready, hnext⟩ := Backing.swap_out_next hnonzero g i
    have hsum := hs.sum_eq hsize g.size
    by_cases halloc : s.backing.Allocates g i
    · rw [if_pos halloc, hsum] at hnext
      have hon : ready = true := hs.ready_eq.symm.trans halloc.1.1
      have hroom : 1 + s.spent + Backing.swap_pages g.size ≤ size / SWAP_BLOCK_SIZE := by
        rcases s.backing.swap_alloc_cases g.size with hzero | ⟨-, hroom, -⟩
        · exact absurd (by rw [hzero]) halloc.2.2
        · rwa [hsum, hs.size_eq] at hroom
      simp only [Swapping.step, if_pos halloc]
      refine ⟨?_, hsame.trans hs.size_eq, hready.trans hs.ready_eq, fun _ => ?_, fun hoff => ?_⟩
      · dsimp only
        rw [hnext, Nat.add_assoc]
      · dsimp only
        omega
      · rw [hon] at hoff
        cases hoff
    · rw [if_neg halloc] at hnext
      simp only [Swapping.step, if_neg halloc]
      exact hs.of_sameSwap ⟨hnext, hsame, hready⟩
  | read g i => exact hs.of_sameSwap (s.backing.swap_read_sameSwap g i)
  | free swap_id => exact hs.of_sameSwap (s.backing.swap_free_sameSwap swap_id)
  | rest b => exact hs.of_sameSwap ⟨rfl, rfl, rfl⟩

theorem init_counts (b : Backing) (pmem_ready : Bool) :
    (init b pmem_ready).Counts b.swap_size (b.swap_init pmem_ready).swap_ready := by
  refine ⟨rfl, rfl, rfl, fun hready => ?_, fun _ => rfl⟩
  simp only [Backing.swap_init, Bool.and_eq_true, decide_eq_true_eq] at hready
  have hle := hready.2
  simp only [init, SWAP_BLOCK_SIZE] at hle ⊢
  omega

end Swapping

/-- In every state that calls reach, a refusal of `swap_alloc` is justified exactly when the blocks of
all the slots that were ever allocated and those asked for fit into the region, or the space is
exhausted anyway. -/
theorem swap_space_reused_iff (b : Backing) (hsize : b.swap_size < 2 ^ 64) (pmem_ready : Bool)
    (calls : List Swapping.Call) (size : Nat) :
    let s := run Swapping.step (.init b pmem_ready) calls
    ((s.backing.swap_alloc size).1 = 0 → s.backing.Exhausted size) ↔
      ((b.swap_init pmem_ready).swap_ready = true ∧
        1 + s.spent + Backing.swap_pages size ≤ b.swap_size / SWAP_BLOCK_SIZE) ∨
      s.backing.Exhausted size := by
  intro s
  have hs : s.Counts b.swap_size (b.swap_init pmem_ready).swap_ready :=
    (Along.of_forall (P := fun _ _ => True) (fun _ _ => trivial) calls).invariant
      (fun _ call hs _ => hs.step hsize call) (Swapping.init_counts b pmem_ready)
  have hnonzero : s.backing.next_swap_block ≠ 0 := by
    rw [hs.next]
    omega
  by_cases hready : (b.swap_init pmem_ready).swap_ready = true
  · rw [Backing.swap_alloc_zero_iff (hs.ready_eq.trans hready) hnonzero, hs.sum_eq hsize, hs.size_eq]
    constructor
    · intro hclaim
      by_cases hfits : 1 + s.spent + Backing.swap_pages size ≤ b.swap_size / SWAP_BLOCK_SIZE
      · exact .inl ⟨hready, hfits⟩
      · exact .inr (hclaim (.inl (not_le.mp hfits)))
    · rintro (⟨-, hfits⟩ | hexhausted) hrefused
      · rcases hrefused with hfull | hall
        · exact absurd hfits (not_le.mpr hfull)
        · exact .inr hall
      · exact hexhausted
  · have hzero : (s.backing.swap_alloc size).1 = 0 := by
      have hoff : s.backing.swap_ready = false := hs.ready_eq.trans (by simpa using hready)
      rw [Backing.swap_alloc, hoff]
      rfl
    constructor
    · exact fun hclaim => .inr (hclaim hzero)
    · rintro (⟨hon, -⟩ | hexhausted) -
      · exact absurd hon hready
      · exact hexhausted

/-- A region of three blocks, with a segment of one page in memory. -/
def three_blocks : Backing :=
  { Backing.blank with present := fun _ => true, swap_size := 12288, pmem_bytes := 12288 }

/-- The segment of one page that is swapped. -/
def one_page : Segment := { Segment.clear with id := 1, base := SASY_BASE_ADDR, size := 4096 }

/-- The segment goes out and comes in again. -/
def one_cycle : List Swapping.Call := [.out one_page 0, .read one_page 0, .rest three_blocks]

theorem swap_space_reused_iff_one_cycle : three_blocks.swap_size < 2 ^ 64 ∧
    (((run Swapping.step (.init three_blocks true) one_cycle).backing.swap_alloc 4096).1 = 0 →
      (run Swapping.step (.init three_blocks true) one_cycle).backing.Exhausted 4096) :=
  ⟨by decide +kernel,
    (swap_space_reused_iff three_blocks (by decide +kernel) true one_cycle 4096).mpr
      (.inl (by decide +kernel))⟩

/-- After two cycles nothing is in use, and a slot of one block is refused. -/
theorem swap_space_used_up :
    ¬ ∀ (b : Backing), b.swap_size < 2 ^ 64 → ∀ calls, Along Swapping.step Swapping.Succeeds (.init b true) calls →
      ∀ size, ((run Swapping.step (.init b true) calls).backing.swap_alloc size).1 = 0 →
        (run Swapping.step (.init b true) calls).backing.Exhausted size := by
  intro h
  have hexhausted := h three_blocks (by decide +kernel) (one_cycle ++ one_cycle)
    ⟨by decide +kernel, by decide +kernel, trivial, by decide +kernel, by decide +kernel, trivial, trivial⟩ 4096
    (by decide +kernel)
  exact absurd hexhausted (by decide +kernel)

end graceos.sasy
