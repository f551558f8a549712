import GraceOS.Sasy.MapFrames

/-!
# Page-ins that fail

`sasy_pagein` takes frames, maps them and reads the contents. When the frames run out everything is given back that
the bitmap has given; when a mapping fails, all but the page tables; when the contents cannot be read, nothing.
-/

namespace graceos.sasy

open mm machine

namespace Backing

variable {b : Backing} {g : Segment} {i k n first : Nat}

/-- The first loop touches frames only. -/
theorem alloc_pages_reframed (first k n : Nat) (b : Backing) :
    ∃ frames, (alloc_pages first k n b).2 = { b with frames := frames } := by
  have hfree : ∀ (addrs : List Nat) (b : Backing),
      ∃ frames, addrs.foldl Backing.pmm_free_page b = { b with frames := frames } := by
    intro addrs
    induction addrs with
    | nil => exact fun b => ⟨b.frames, rfl⟩
    | cons a addrs ih =>
      intro b
      obtain ⟨frames, hframes⟩ := ih (b.pmm_free_page a)
      exact ⟨frames, hframes⟩
  induction n generalizing first k b with
  | zero => exact ⟨b.frames, rfl⟩
  | succ n ih =>
    rw [alloc_pages]
    dsimp only
    split_ifs
    · obtain ⟨frames, hframes⟩ := hfree (page_addrs first k) b.pmm_alloc_page.2
      exact ⟨frames, hframes⟩
    · obtain ⟨frames, hframes⟩ := ih b.pmm_alloc_page.1 1 b.pmm_alloc_page.2
      exact ⟨frames, hframes⟩
    · obtain ⟨frames, hframes⟩ := hfree (page_addrs first k) b.pmm_alloc_page.2
      rw [free_pages, hframes]
      exact ⟨_, rfl⟩
    · obtain ⟨frames, hframes⟩ := ih first (k + 1) b.pmm_alloc_page.2
      exact ⟨frames, hframes⟩

theorem alloc_pages_some {b₁ : Backing} (halloc : alloc_pages first k n b = (some i, b₁)) :
    ∃ frames, b₁ = { b with frames := frames } := by
  obtain ⟨frames, hframes⟩ := alloc_pages_reframed first k n b
  rw [halloc] at hframes
  exact ⟨frames, hframes⟩

theorem set_phys_self (b : Backing) (i p : Nat) : (b.set_phys i p).phys i = p := by
  rw [set_phys]
  exact Function.update_self i p b.phys

theorem load_contents_failed (hfail : (b.load_contents g i).1 = false) :
    ∃ transfers, (b.load_contents g i).2 = { b with transfers := transfers } := by
  rw [load_contents] at hfail ⊢
  split_ifs at hfail with hcode hswap hzero
  rw [if_neg hcode, if_pos hswap]
  rw [swap_read] at hfail ⊢
  split_ifs at hfail ⊢
  · exact ⟨b.transfers, rfl⟩
  · exact ⟨b.transfers, rfl⟩
  · rw [pmem_read] at hfail ⊢
    split_ifs at hfail ⊢
    · exact ⟨b.transfers, rfl⟩
    · exact ⟨b.transfers + 1, rfl⟩

/-- Free frames, the pages of the segment, its descriptor and the swap space are the same. -/
structure Unmoved (g : Segment) (i : Nat) (b b' : Backing) : Prop where
  frames : ∀ f, b'.frames.pmm.bitmap_test f = b.frames.pmm.bitmap_test f
  page : ∀ v, g.Covers v → b'.map.page v = b.map.page v
  phys : b'.phys i = b.phys i
  present : b'.present i = b.present i
  swap_id : b'.swap_id i = b.swap_id i
  swap_table : b'.swap_table = b.swap_table
  pmem : b'.pmem = b.pmem

end Backing

/-- The number of the `j`-th page of the segment. -/
def Segment.page_number (g : Segment) (j : Nat) : Nat := vpage ((g.base + j * PAGE_SIZE) % 2 ^ 64)

namespace Backing

variable {b : Backing} {g : Segment} {i : Nat}

/-- The kernel heap is not asked for a page, neither by the first loop nor for a table that is missing. -/
structure Heapless (b : Backing) (g : Segment) : Prop where
  pages : b.frames.Plain 0 0 g.pages
  tables : b.frames.Gets 0 0 g.pages → (∃ j < g.pages, ¬ Reaches b.map (g.page_number j)) →
    (b.frames.after g.pages).Exhausted ∨ (b.frames.after g.pages).FromBitmap

/-- Nothing is left of an earlier page-in, and there is nothing to page in, or no frame for the table of the first page
that has none. -/
structure Undone (b : Backing) (g : Segment) (i : Nat) : Prop where
  phys : b.phys i = 0
  stuck : g.pages = 0 ∨ (b.frames.after g.pages).Exhausted ∧ ∃ m < g.pages,
    (∀ j < m, Reaches b.map (g.page_number j)) ∧ ¬ Reaches b.map (g.page_number m) ∧
      ∀ j ≤ m, b.map.page (g.page_number j) = none

section PageIn

variable {first : Nat} {b₁ : Backing}

/-- The mapping fails after all frames are there. -/
theorem mapping_unmoved_iff (hbase : g.base % PAGE_SIZE = 0) (hheap : b.Heapless g) (hgets : b.frames.Gets 0 0 g.pages)
    (halloc : alloc_pages 0 0 g.pages b = (some first, b₁)) (hafter : b₁.frames = b.frames.after g.pages)
    (htaken : Taken b b₁ first g.pages)
    (hfail : (map_pages g.base first g.pages 0 g.pages (b₁.set_phys i first)).1 = false) :
    Unmoved g i b ((map_pages g.base first g.pages 0 g.pages (b₁.set_phys i first)).2.set_phys i 0) ↔ b.Undone g i := by
  obtain ⟨frames₁, hb₁⟩ := alloc_pages_some halloc
  have hmap : b₁.map = b.map := by rw [hb₁]
  have hpos : ∀ j < 0 + g.pages, (first + j * PAGE_SIZE) % 2 ^ 64 ≠ 0 := by
    rw [Nat.zero_add]
    have hnonzero := alloc_pages_ne_zero (show ∀ m < 0, (0 + m * PAGE_SIZE) % 2 ^ 64 ≠ 0 by omega) (.inl rfl)
      (show (alloc_pages 0 0 g.pages b).1 = some first by rw [halloc])
    rwa [Nat.zero_add] at hnonzero
  have htaken' : Taken b (b₁.set_phys i first) first g.pages := htaken.congr rfl
  constructor
  · intro hun
    refine ⟨?_, .inr ?_⟩
    · exact hun.phys.symm.trans (set_phys_self _ i 0)
    have hmissing : ∃ j < g.pages, ¬ Reaches b.map (g.page_number j) := by
      by_contra hall
      push Not at hall
      have hok := @map_pages_reached (b₁.set_phys i first) 0 g.pages g.base first g.pages hbase htaken.aligned
        fun j _ hj => (by
          change Reaches b₁.map _
          rw [hmap]
          exact hall j (by omega))
      rw [hok] at hfail
      cases hfail
    rcases hheap.tables hgets hmissing with hexhausted | hbitmap
    · refine ⟨hexhausted, ?_⟩
      obtain ⟨m, -, hm, hnot, hnone, hbefore⟩ := @map_pages_missed (b₁.set_phys i first) 0 g.pages g.base first g.pages
        (by change b₁.frames.Exhausted; rw [hafter]; exact hexhausted) hbase htaken.aligned hpos hfail
      change ¬ Reaches b₁.map _ at hnot
      change ∀ j, 0 ≤ j → j < m → Reaches b₁.map _ ∨ b₁.map.page _ ≠ none at hbefore
      rw [hmap] at hnot hbefore
      rw [Nat.zero_add] at hm
      have hblank : ∀ j ≤ m, b.map.page (g.page_number j) = none := fun j hj =>
        (hun.page _ ⟨j, by omega, rfl⟩).symm.trans (hnone j hj)
      exact ⟨m, hm,
        fun j hj => (hbefore j (Nat.zero_le j) hj).resolve_right fun hne => hne (hblank j hj.le), hnot, hblank⟩
    · -- the next frame went into a table
      exfalso
      rw [← hafter] at hbitmap
      obtain ⟨j, -, -, -, -, -, -, hfree, -, htest⟩ := @alloc_from_bitmap (b₁.set_phys i first) hbitmap
      have hnext : (b₁.set_phys i first).pmm_alloc_page.2.Used j := by
        rw [Used, htest, decide_eq_true rfl, Bool.true_or]
      have haway : ∀ x < g.pages, j ≠ (first + x * PAGE_SIZE) % 2 ^ 64 / PAGE_SIZE := by
        intro x hx heq
        rw [htaken.frame hx] at heq
        have hin : ∃ y < g.pages, j = first / PAGE_SIZE + y := ⟨x, hx, heq⟩
        rw [htaken'.test, decide_eq_true hin, Bool.or_true] at hfree
        cases hfree
      have hused := map_pages_asks hnext hbase htaken.aligned haway hfail
      have hsame := hun.frames j
      change (map_pages g.base first g.pages 0 g.pages (b₁.set_phys i first)).2.frames.pmm.bitmap_test j = _ at hsame
      rw [show (map_pages g.base first g.pages 0 g.pages (b₁.set_phys i first)).2.frames.pmm.bitmap_test j =
        true from hused]
        at hsame
      rw [htaken'.test, ← hsame] at hfree
      cases hfree
  · rintro ⟨hphys, hzero | ⟨hexhausted, m, hm, hready, hnot, hblank⟩⟩
    · rw [hzero] at hfail
      cases hfail
    have hexhausted' : (b₁.set_phys i first).frames.Exhausted := by
      change b₁.frames.Exhausted
      rw [hafter]
      exact hexhausted
    have hpages := (@map_pages_stuck (b₁.set_phys i first) 0 g.pages g.base first g.pages m hexhausted' hbase
      htaken.aligned (Nat.zero_le m) (by omega) (fun j _ hj => (by
        change Reaches b₁.map _
        rw [hmap]
        exact hready j hj))
      (by
        change ¬ Reaches b₁.map _
        rw [hmap]
        exact hnot)
      (by
        change b₁.map.page _ = none
        rw [hmap]
        exact hblank m (le_refl m)) (hpos m (by omega))).2
    have hframes := map_pages_frames hexhausted' htaken' hfail
    have hfields := map_pages_remapped g.base first g.pages 0 g.pages (b₁.set_phys i first)
    obtain ⟨frames, map, hb₂⟩ := hfields
    refine ⟨hframes, fun v hv => ?_, ?_, ?_, ?_, ?_, ?_⟩
    · by_cases hin : ∃ j ≤ m, v = vpage ((g.base + j * PAGE_SIZE) % 2 ^ 64)
      · obtain ⟨j, hj, rfl⟩ := hin
        have hnone : b.map.page (vpage ((g.base + j * PAGE_SIZE) % 2 ^ 64)) = none := hblank j hj
        rw [hnone]
        exact map_pages_none hfail fun _ => (by
          change b₁.map.page _ = none
          rw [hmap]
          exact hnone)
      · refine (hpages v fun j hj heq => hin ⟨j, hj, heq⟩).trans ?_
        change b₁.map.page v = _
        rw [hmap]
    · exact (set_phys_self _ i 0).trans hphys.symm
    · rw [hb₂, hb₁]
      rfl
    · rw [hb₂, hb₁]
      rfl
    · rw [hb₂, hb₁]
      rfl
    · rw [hb₂, hb₁]
      rfl

/-- The mapping succeeds and the contents cannot be had. -/
theorem contents_unmoved_iff (hbase : g.base % PAGE_SIZE = 0)
    (halloc : alloc_pages 0 0 g.pages b = (some first, b₁)) (hafter : b₁.frames = b.frames.after g.pages)
    (htaken : Taken b b₁ first g.pages)
    (hok : (map_pages g.base first g.pages 0 g.pages (b₁.set_phys i first)).1 = true)
    (hfail : ((map_pages g.base first g.pages 0 g.pages (b₁.set_phys i first)).2.load_contents g i).1 = false) :
    Unmoved g i b ((map_pages g.base first g.pages 0 g.pages (b₁.set_phys i first)).2.load_contents g i).2 ↔
      b.Undone g i := by
  obtain ⟨transfers, hload⟩ := load_contents_failed hfail
  rw [hload]
  have hphys := (congrFun (map_pages_fields g.base first g.pages 0 g.pages (b₁.set_phys i first)).2.1 i).trans
    (set_phys_self b₁ i first)
  rcases Nat.eq_zero_or_pos g.pages with hzero | hpos
  · rw [hzero] at halloc hphys ⊢
    obtain ⟨hfirst, hb₁⟩ := Prod.mk.inj halloc
    obtain rfl := Option.some.inj hfirst
    obtain rfl := hb₁
    constructor
    · intro hun
      have hsame := hun.phys
      rw [show
        ({ (map_pages g.base 0 0 0 0 (b.set_phys i 0)).2 with transfers := transfers } : Backing).phys i = 0 from hphys]
        at hsame
      exact ⟨hsame.symm, .inl hzero⟩
    · rintro ⟨hnone, -⟩
      exact ⟨fun _ => rfl, fun _ _ => rfl, hphys.trans hnone.symm, rfl, rfl, rfl, rfl⟩
  · constructor
    · intro hun
      exfalso
      -- the first frame stays taken
      have hused : (b₁.set_phys i first).Used (first / PAGE_SIZE) := by
        have hin : ∃ j < g.pages, first / PAGE_SIZE = first / PAGE_SIZE + j := ⟨0, hpos, rfl⟩
        rw [Used, (htaken.congr (show (b₁.set_phys i first).frames = b₁.frames from rfl)).test, decide_eq_true hin,
          Bool.or_true]
      have hlater : (map_pages g.base first g.pages 0 g.pages (b₁.set_phys i first)).2.Used (first / PAGE_SIZE) :=
        hused.map_pages fun hno => (by rw [hok] at hno; cases hno)
      have hsame := (hun.frames (first / PAGE_SIZE)).symm.trans hlater
      have hfree := htaken.free 0 hpos
      rw [Nat.add_zero, hsame] at hfree
      cases hfree
    · rintro ⟨-, hzero | ⟨hexhausted, m, hm, hready, hnot, hblank⟩⟩
      · omega
      exfalso
      obtain ⟨frames₁, hb₁⟩ := alloc_pages_some halloc
      have hmap : b₁.map = b.map := by rw [hb₁]
      have hnonzero := alloc_pages_ne_zero (show ∀ m < 0, (0 + m * PAGE_SIZE) % 2 ^ 64 ≠ 0 by omega) (.inl rfl)
        (show (alloc_pages 0 0 g.pages b).1 = some first by rw [halloc]) m (by omega)
      have hstuck := (@map_pages_stuck (b₁.set_phys i first) 0 g.pages g.base first g.pages m
        (by change b₁.frames.Exhausted; rw [hafter]; exact hexhausted) hbase
        htaken.aligned (Nat.zero_le m) (by omega) (fun j _ hj => (by
          change Reaches b₁.map _
          rw [hmap]
          exact hready j hj))
        (by
          change ¬ Reaches b₁.map _
          rw [hmap]
          exact hnot)
        (by
          change b₁.map.page _ = none
          rw [hmap]
          exact hblank m (le_refl m)) hnonzero).1
      rw [hok] at hstuck
      cases hstuck

/-- A page-in that fails changes nothing exactly where the first loop does, or the mapping has nothing to undo. -/
theorem sasy_pagein_unmoved_iff (hbase : g.base % PAGE_SIZE = 0) (habsent : b.present i = false) (hheap : b.Heapless g)
    (hfail : (b.sasy_pagein g i).1 = false) :
    Unmoved g i b (b.sasy_pagein g i).2 ↔ (b.frames.Gets 0 0 g.pages → b.Undone g i) := by
  rw [sasy_pagein, if_neg (by simp [habsent])] at hfail ⊢
  rcases alloc_pages_spec (.start b) (fun _ => rfl) hheap.pages with ⟨hgets, hnone, hbits⟩ |
    ⟨hgets, hafter, first, hsome, htaken⟩
  · obtain ⟨frames, hb₁⟩ := alloc_pages_reframed 0 0 g.pages b
    generalize alloc_pages 0 0 g.pages b = r at hnone hbits hb₁ ⊢
    obtain ⟨o, b₁⟩ := r
    obtain rfl : o = none := hnone
    obtain rfl := hb₁
    refine iff_of_true ?_ fun hall => absurd hall hgets
    exact ⟨hbits, fun _ _ => rfl, rfl, rfl, rfl, rfl, rfl⟩
  · rw [Nat.zero_add] at htaken
    obtain ⟨b₁, halloc⟩ : ∃ b₁, alloc_pages 0 0 g.pages b = (some first, b₁) := ⟨_, Prod.ext hsome rfl⟩
    rw [halloc] at hafter htaken hfail ⊢
    dsimp only at hafter htaken hfail ⊢
    have hmapping := @mapping_unmoved_iff b g i first b₁ hbase hheap hgets halloc hafter htaken
    have hcontents := @contents_unmoved_iff b g i first b₁ hbase halloc hafter htaken
    generalize map_pages g.base first g.pages 0 g.pages (b₁.set_phys i first) = r at hfail hmapping hcontents ⊢
    obtain ⟨ok, b₂⟩ := r
    cases ok with
    | false =>
      exact (hmapping rfl).trans ⟨fun h _ => h, fun h => h hgets⟩
    | true =>
      have hiff := hcontents rfl
      dsimp only at hfail hiff ⊢
      generalize b₂.load_contents g i = r at hfail hiff ⊢
      obtain ⟨ok, b₃⟩ := r
      cases ok with
      | false => exact (hiff rfl).trans ⟨fun h _ => h, fun h => h hgets⟩
      | true => cases hfail

end PageIn

end Backing

open Backing

/-- In every state that calls reach, a page-in that fails changes nothing exactly where the first loop does not get all
of its frames, or the mapping has nothing to undo; and `sasy_lock` returns what the page-in has left. -/
theorem pagein_untraced (b : Backing) (calls : List Call) (i : Nat)
    (habsent : (run Sasy.step (.init b) calls).backing.present i = false)
    (hheap : (run Sasy.step (.init b) calls).backing.Heapless ((run Sasy.step (.init b) calls).segment i))
    (hfail : ((run Sasy.step (.init b) calls).backing.sasy_pagein
      ((run Sasy.step (.init b) calls).segment i) i).1 = false) :
    (Unmoved ((run Sasy.step (.init b) calls).segment i) i (run Sasy.step (.init b) calls).backing
        ((run Sasy.step (.init b) calls).backing.sasy_pagein ((run Sasy.step (.init b) calls).segment i) i).2 ↔
      ((run Sasy.step (.init b) calls).backing.frames.Gets 0 0 ((run Sasy.step (.init b) calls).segment i).pages →
        (run Sasy.step (.init b) calls).backing.Undone ((run Sasy.step (.init b) calls).segment i) i)) ∧
      ∀ h, (run Sasy.step (.init b) calls).table.handle_get_segment h = some i →
        ((run Sasy.step (.init b) calls).sasy_lock h).1 = 0 ∧
          ((run Sasy.step (.init b) calls).sasy_lock h).2 = { run Sasy.step (.init b) calls with
            backing := ((run Sasy.step (.init b) calls).backing.sasy_pagein
              ((run Sasy.step (.init b) calls).segment i) i).2 } := by
  have hbase := (Table.Paged.run b calls).base i
  generalize run Sasy.step (.init b) calls = s at habsent hheap hfail hbase ⊢
  refine ⟨sasy_pagein_unmoved_iff hbase habsent hheap hfail, fun h hget => ?_⟩
  rw [Sasy.sasy_lock, hget]
  dsimp only
  generalize s.backing.sasy_pagein (s.segment i) i = r at hfail
  obtain ⟨ok, b'⟩ := r
  dsimp only at hfail
  subst hfail
  exact ⟨rfl, rfl⟩

theorem exhausted_of_full {s : Phys} (hfull : s.pmm.free_frame s.pmm.max_frames = none)
    (hheap : s.heap.heap_start = 0) :
    s.Exhausted := by
  have hnone : s.fallback = (0, s) := by
    rw [Phys.fallback, Kheap.simple_fallback_alloc, Kheap.kmalloc, if_pos (.inl hheap)]
    rfl
  rw [Phys.Exhausted, Phys.pmm_alloc_page, hfull, hnone]
  split <;> rfl

/-- A machine with a single free frame, the last one. -/
def tight_machine : Backing :=
  { Backing.blank with frames := ⟨⟨fun i => if i = 7 then 0x7F else 0xFF, 64, 64, 63, true, 0⟩, ⟨fun _ => 0, 0, 0, 0⟩⟩ }

/-- A segment of one page. -/
def one_segment : List Call := [.create 4096 .data_auto 0 0]

/-- The last frame is taken for the page and given back, for there is none for its tables. -/
theorem pagein_untraced_tight : Unmoved ((run Sasy.step (.init tight_machine) one_segment).segment 0) 0
    (run Sasy.step (.init tight_machine) one_segment).backing
    ((run Sasy.step (.init tight_machine) one_segment).backing.sasy_pagein
      ((run Sasy.step (.init tight_machine) one_segment).segment 0) 0).2 := by
  have hpages : ((run Sasy.step (.init tight_machine) one_segment).segment 0).pages = 1 := by decide +kernel
  have hbitmap : (run Sasy.step (.init tight_machine) one_segment).backing.frames.FromBitmap :=
    ⟨by decide +kernel, 63, by decide +kernel, by decide, by decide⟩
  have hexhausted : ((run Sasy.step (.init tight_machine) one_segment).backing.frames.after 1).Exhausted :=
    exhausted_of_full (by decide +kernel) (by decide +kernel)
  have htables : (run Sasy.step (.init tight_machine) one_segment).backing.map.pdpt
      (((run Sasy.step (.init tight_machine) one_segment).segment 0).page_number 0 / 2 ^ 27) = false := by
        decide +kernel
  have hblank : (run Sasy.step (.init tight_machine) one_segment).backing.map.page
      (((run Sasy.step (.init tight_machine) one_segment).segment 0).page_number 0) = none := by decide +kernel
  refine (pagein_untraced tight_machine one_segment 0 (by decide +kernel) ?_ (by decide +kernel)).1.mpr fun _ => ?_
  · rw [← hpages] at hexhausted
    refine ⟨?_, fun _ _ => .inl hexhausted⟩
    rw [hpages]
    exact .inr ⟨hbitmap, fun _ => trivial⟩
  · refine ⟨by decide +kernel, .inr ?_⟩
    rw [hpages]
    refine ⟨hexhausted, 0, by decide, fun j hj => absurd hj (Nat.not_lt_zero j), fun hreach => ?_, fun j hj => ?_⟩
    · have hthere := hreach.pdpt
      rw [htables] at hthere
      cases hthere
    · rw [Nat.le_zero.mp hj]
      exact hblank

/-- A machine with swap space that can be written, and not read. -/
def unreadable_machine : Backing :=
  { Backing.blank with swap_ready := true, swap_size := 12288, pmem_bytes := 12288, works := fun n => n == 0 }

/-- A segment that is swapped out. -/
def swapped_segment : List Call := [.create 4096 .data_auto 0 0, .lock 0, .mark_dirty 0, .unlock 0]

theorem pagein_traced : ¬∀ (b : Backing) (calls : List Call) (i : Nat),
    (run Sasy.step (.init b) calls).backing.present i = false →
    ((run Sasy.step (.init b) calls).backing.sasy_pagein ((run Sasy.step (.init b) calls).segment i) i).1 = false →
      Unmoved ((run Sasy.step (.init b) calls).segment i) i (run Sasy.step (.init b) calls).backing
        ((run Sasy.step (.init b) calls).backing.sasy_pagein ((run Sasy.step (.init b) calls).segment i) i).2 := by
  intro h
  have hphys := (h unreadable_machine swapped_segment 0 (by decide +kernel) (by decide +kernel)).phys
  exact absurd hphys (by decide +kernel)

end graceos.sasy
