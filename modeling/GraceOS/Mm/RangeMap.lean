import GraceOS.Mm.Translate

/-!
# Mapping a range

`vmm_map_range` takes one, two or three levels down, as the alignment of both addresses and the rest of the range allow.
Whatever it takes, the addresses behind it are as they were, and a range is mapped as its pages would be.
-/

namespace graceos.mm

open radix machine

/-! ## Addresses and the slots they lie in -/

/-- The size of what an entry of level `l` stands for. -/
def span (l : Nat) : Nat := 4096 * 512 ^ (3 - l)

/-- The number of the slot of level `l` that an address lies in. -/
def slot_number (l : Nat) (w : BitVec 64) : Nat := page w / 512 ^ (3 - l)

theorem slot_number_eq (w : BitVec 64) : slot_number 0 w = key1 w ∧ slot_number 1 w = key2 w ∧
    slot_number 2 w = key3 w ∧ slot_number 3 w = page w := by
  refine ⟨rfl, rfl, rfl, ?_⟩
  rw [slot_number, Nat.sub_self, Nat.pow_zero, Nat.div_one]

theorem slot_number_pow {l j : Nat} (h : l + j ≤ 3) (w : BitVec 64) :
    slot_number (l + j) w / 512 ^ j = slot_number l w := by
  rw [slot_number, slot_number, Nat.div_div_eq_div_mul, ← Nat.pow_add]
  congr 2
  omega

theorem slot_number_iff {l : Nat} (hl : l ≤ 3) {v w : BitVec 64} (hv : v.toNat % span l = 0) (hlt : v.toNat < 2 ^ 48)
    (hw : w.toNat < 2 ^ 48) :
    slot_number l w = slot_number l v ↔ v.toNat ≤ w.toNat ∧ w.toNat < v.toNat + span l := by
  simp only [slot_number, page, span] at hv ⊢
  have hcases : l = 0 ∨ l = 1 ∨ l = 2 ∨ l = 3 := by omega
  rcases hcases with rfl | rfl | rfl | rfl <;> norm_num at hv ⊢ <;> omega

theorem slot_offset {e p w : BitVec 64} {v n : Nat} (he : e &&& VMM_ADDR_MASK = p) (hp : p.toNat % 2 ^ n = 0)
    (hv : v % 2 ^ n = 0) (hle : v ≤ w.toNat) (hlt : w.toNat < v + 2 ^ n) (hn : n < 64) :
    ((e &&& VMM_ADDR_MASK) ||| (w &&& BitVec.ofNat 64 (2 ^ n - 1))).toNat = p.toNat + (w.toNat - v) := by
  have hpow : 2 ^ n < 2 ^ 64 := Nat.pow_lt_pow_right (by omega) hn
  have hpos : 0 < 2 ^ n := Nat.two_pow_pos n
  have hoff : w.toNat % 2 ^ n = w.toNat - v := by
    obtain ⟨d, hd⟩ : ∃ d, w.toNat = v + d := ⟨w.toNat - v, by omega⟩
    rw [hd, Nat.add_mod, hv, Nat.zero_add, Nat.mod_mod, Nat.mod_eq_of_lt (by omega)]
    omega
  obtain ⟨q, hq⟩ := Nat.dvd_of_mod_eq_zero hp
  rw [he, BitVec.toNat_or, BitVec.toNat_and, BitVec.toNat_ofNat, Nat.mod_eq_of_lt (by omega),
    Nat.and_two_pow_sub_one_eq_mod, hoff, hq]
  exact (Nat.two_pow_add_eq_or_of_lt (by omega) q).symm

theorem huge_entry_frame {p flags : BitVec 64} (hp : p.toNat % 4096 = 0) (hlt : p.toNat < 2 ^ 52)
    (hflags : flags &&& VMM_ADDR_MASK = 0) : Vmm.huge_entry p flags &&& VMM_ADDR_MASK = p := by
  have hstrip : (flags &&& ~~~VMM_HUGE) &&& VMM_ADDR_MASK = 0#64 := by
    rw [BitVec.and_assoc, BitVec.and_comm (~~~VMM_HUGE), ← BitVec.and_assoc, hflags]
    exact BitVec.zero_and
  rw [Vmm.huge_entry, BitVec.and_or_distrib_right, BitVec.and_or_distrib_right, BitVec.and_or_distrib_right,
    and_mask hp hlt, and_mask hp hlt, hstrip, show VMM_PRESENT &&& VMM_ADDR_MASK = 0#64 by decide,
    show VMM_HUGE &&& VMM_ADDR_MASK = 0#64 by decide, BitVec.or_zero, BitVec.or_zero, BitVec.or_zero]

namespace Vmm

variable {frames : Nat → Nat} {s s' : Vmm} {l k t i : Nat}

/-! ## A huge page -/

section Huge

variable (hs : s.Sound frames) (hl : l ≤ 3) (hk : k < 512 ^ l) (ht : s.table l k = some t) (hi : i < 512)
  (hsame : ∀ a, a ≠ slot t i → s'.mem a = s.mem a) (hroot : s'.kernel_pml4 = s.kernel_pml4)
include hs hl hk ht hi hsame hroot

theorem Sound.table_apart : ∀ m ≤ 3, ∀ n, n < 512 ^ m → (∀ j, m = l + 1 + j → n / 512 ^ j ≠ k * 512 + i) →
    s'.table m n = s.table m n := by
  intro m hm
  induction m with
  | zero =>
    intro n _ _
    change some s'.kernel_pml4 = some s.kernel_pml4
    rw [hroot]
  | succ m ih =>
    intro n hn hne
    have habove := ih (by omega) (n / 512) (div_lt_pow hn) fun j hj => by
      have := hne (j + 1) (by omega)
      rwa [Nat.pow_succ, Nat.mul_comm, ← Nat.div_div_eq_div_mul] at this
    change (s'.table m (n / 512)).bind (fun u => next (s'.mem (slot u (n % 512)))) =
      (s.table m (n / 512)).bind fun u => next (s.mem (slot u (n % 512)))
    rw [habove]
    cases hu : s.table m (n / 512) with
    | none => rfl
    | some u =>
      rw [Option.bind_some, Option.bind_some, hsame]
      refine hs.tree.slot_ne hl hk ht hi (by omega) (div_lt_pow hn) hu (Nat.mod_lt _ (by omega)) ?_
      rintro ⟨rfl, heq⟩
      have := hne 0 (by omega)
      rw [Nat.pow_zero, Nat.div_one] at this
      omega

/-- An address that is not led through the entry is answered for as before. -/
theorem Sound.entry_apart {w : BitVec 64} (hne : slot_number l w ≠ k * 512 + i) :
    s'.view w = s.view w ∧ (s.NoHuge w → s'.NoHuge w) := by
  obtain ⟨hn0, hn1, hn2, hn3⟩ := slot_number_eq w
  obtain ⟨hk1, hk2, hk3, hk4⟩ := keys w
  obtain ⟨hlt1, hlt2, hlt3⟩ := keys_lt w
  obtain ⟨hi1, hi2, hi3, hi4⟩ := index_lt w
  have htable : ∀ m < 3, ∀ n, n = slot_number m w → n < 512 ^ (m + 1) → s'.table (m + 1) n = s.table (m + 1) n := by
    rintro m hm n rfl hn
    refine hs.table_apart hl hk ht hi hsame hroot (m + 1) (by omega) _ hn fun j hj => ?_
    obtain rfl : m = l + j := by omega
    rw [slot_number_pow (by omega)]
    exact hne
  have hmem : ∀ m ≤ 3, ∀ n u j, n < 512 ^ m → s.table m n = some u → j < 512 → n * 512 + j = slot_number m w →
      s'.mem (slot u j) = s.mem (slot u j) := by
    intro m hm n u j hn hu hj heq
    refine hsame _ (hs.tree.slot_ne hl hk ht hi hm hn hu hj ?_)
    rintro ⟨rfl, hsum⟩
    exact hne (heq.symm.trans hsum)
  have h1 := htable 0 (by omega) (key1 w) hn0.symm hlt1
  have h2 := htable 1 (by omega) (key2 w) hn1.symm hlt2
  have h3 := htable 2 (by omega) (key3 w) hn2.symm hlt3
  refine ⟨view_congr h1 h2 h3 (fun u hu => hmem 1 (by omega) _ u _ hlt1 hu hi2 (by omega))
    (fun u hu => hmem 2 (by omega) _ u _ hlt2 hu hi3 (by omega))
    fun u hu => hmem 3 (by omega) _ u _ hlt3 hu hi4 (by omega), fun hno => ⟨?_, fun u hu => ?_, fun u hu => ?_⟩⟩
  · rw [hroot, hmem 0 (by omega) 0 s.kernel_pml4 _ (by omega) rfl hi1 (by omega)]
    exact hno.1
  · rw [h1] at hu
    rw [hmem 1 (by omega) _ u _ hlt1 hu hi2 (by omega)]
    exact hno.2.1 u hu
  · rw [h2] at hu
    rw [hmem 2 (by omega) _ u _ hlt2 hu hi3 (by omega)]
    exact hno.2.2 u hu

theorem Sound.table_above : s'.table l k = s.table l k :=
  hs.table_apart hl hk ht hi hsame hroot l hl k hk fun j hj => by omega

end Huge

theorem view_1g {w : BitVec 64} (h : s.table 1 (key1 w) = some t)
    (hhuge : huge (s.mem (slot t (PDPT_INDEX w))) = true) :
    s.view w = (s.mem (slot t (PDPT_INDEX w)) &&& VMM_ADDR_MASK) ||| (w &&& 0x3FFFFFFF#64) := by
  rw [view, h]
  exact if_pos hhuge

theorem view_2m {w : BitVec 64} (h : s.table 2 (key2 w) = some t)
    (hhuge : huge (s.mem (slot t (PD_INDEX w))) = true) :
    s.view w = (s.mem (slot t (PD_INDEX w)) &&& VMM_ADDR_MASK) ||| (w &&& 0x1FFFFF#64) := by
  have h2 := (s.table_two w).symm.trans h
  obtain ⟨pdpt, hpdpt, hnext⟩ := Option.bind_eq_some_iff.mp h2
  have hnot : ¬ huge (s.mem (slot pdpt (PDPT_INDEX w))) = true := fun hh => by
    rw [next_huge hh] at hnext
    cases hnext
  rw [view, hpdpt]
  refine (if_neg hnot).trans ?_
  rw [h]
  exact if_pos hhuge

/-! ## Questions to the allocator -/

theorem get_or_create_asked (s : Vmm) (table index : Nat) (create : Bool) :
    s.asked ≤ (s.get_or_create_entry frames table index create).2.asked := by
  have halloc : s.asked ≤ (s.alloc_table frames).2.asked := by
    rw [alloc_table]
    split <;> exact Nat.le_succ _
  rw [get_or_create_entry]
  split
  · exact le_rfl
  · split
    · exact le_rfl
    · split
      · split
        · exact le_rfl
        · generalize s.alloc_table frames = r at halloc
          obtain ⟨_ | n, s₁⟩ := r <;> exact halloc
      · exact le_rfl

theorem last_table_asked (s : Vmm) (virt : BitVec 64) (create : Bool) :
    s.asked ≤ (s.last_table frames virt create).2.asked := by
  rw [last_table_eq]
  have h₁ := @get_or_create_asked frames s s.kernel_pml4 (PML4_INDEX virt) create
  dsimp only
  split
  · exact h₁
  · have h₂ := h₁.trans (@get_or_create_asked frames _
      (s.get_or_create_entry frames s.kernel_pml4 (PML4_INDEX virt) create).1 (PDPT_INDEX virt) create)
    split
    · exact h₂
    · exact h₂.trans (get_or_create_asked _ _ _ _)

theorem vmm_map_asked (s : Vmm) (virt phys flags : BitVec 64) : s.asked ≤ (s.vmm_map frames virt phys flags).asked := by
  have h := @last_table_asked frames s (ALIGN_DOWN_4K virt) true
  rw [vmm_map]
  split
  · exact le_rfl
  · generalize s.last_table frames (ALIGN_DOWN_4K virt) true = r at h
    obtain ⟨_ | n, s₁⟩ := r <;> exact h

theorem vmm_map_1g_asked (s : Vmm) (virt phys flags : BitVec 64) :
    s.asked ≤ (s.vmm_map_1g frames virt phys flags).2.asked := by
  have h := @get_or_create_asked frames s s.kernel_pml4 (PML4_INDEX virt) true
  rw [vmm_map_1g]
  split
  · exact le_rfl
  · split
    · exact le_rfl
    · generalize s.get_or_create_entry frames s.kernel_pml4 (PML4_INDEX virt) true = r at h
      obtain ⟨_ | n, s₁⟩ := r <;> exact h

theorem vmm_map_2m_asked (s : Vmm) (virt phys flags : BitVec 64) :
    s.asked ≤ (s.vmm_map_2m frames virt phys flags).2.asked := by
  have h := @get_or_create_asked frames s s.kernel_pml4 (PML4_INDEX virt) true
  rw [vmm_map_2m]
  split
  · exact le_rfl
  · split
    · exact le_rfl
    · generalize s.get_or_create_entry frames s.kernel_pml4 (PML4_INDEX virt) true = r at h
      obtain ⟨_ | n, s₁⟩ := r
      · exact h
      · have h' := h.trans (@get_or_create_asked frames s₁ (n + 1) (PDPT_INDEX virt) true)
        simp only at h' ⊢
        generalize s₁.get_or_create_entry frames (n + 1) (PDPT_INDEX virt) true = r at h'
        obtain ⟨_ | n, s₂⟩ := r <;> exact h'

theorem try_1g_asked (flags vend v p : BitVec 64) (s : Vmm) : s.asked ≤ (s.try_1g frames flags vend v p).2.asked := by
  rw [try_1g]
  split
  · exact vmm_map_1g_asked s v p flags
  · exact le_rfl

theorem try_2m_asked (flags vend v p : BitVec 64) (s : Vmm) : s.asked ≤ (s.try_2m frames flags vend v p).2.asked := by
  rw [try_2m]
  split
  · exact vmm_map_2m_asked s v p flags
  · exact le_rfl

theorem map_loop_asked (flags vend : BitVec 64) (fuel : Nat) (v p : BitVec 64) (s : Vmm) :
    s.asked ≤ (map_loop frames flags vend fuel v p s).asked := by
  induction fuel generalizing v p s with
  | zero => exact le_rfl
  | succ fuel ih =>
    rw [map_loop_succ]
    have h₁ := @try_1g_asked frames flags vend v p s
    have h₂ := h₁.trans (@try_2m_asked frames flags vend v p _)
    split
    · split
      · exact h₁.trans (ih _ _ _)
      · split
        · exact h₂.trans (ih _ _ _)
        · exact (h₂.trans (vmm_map_asked _ _ _ _)).trans (ih _ _ _)
    · exact le_rfl

/-- All questions between two states were answered with a frame. -/
def Answered (frames : Nat → Nat) (s s' : Vmm) : Prop := ∀ j, s.asked ≤ j → j < s'.asked → frames j ≠ 0

theorem Answered.left {s₁ : Vmm} (h : Answered frames s s') (hle : s₁.asked ≤ s'.asked) : Answered frames s s₁ :=
  fun j hj hlt => h j hj (hlt.trans_le hle)

theorem Answered.right {s₁ : Vmm} (h : Answered frames s s') (hle : s.asked ≤ s₁.asked) : Answered frames s₁ s' :=
  fun j hj hlt => h j (hle.trans hj) hlt

theorem Sound.get_or_create_answered (hf : FreshFrames frames s.kernel_pml4) (hs : s.Sound frames) (hl : l < 3)
    (hk : k < 512 ^ l) (ht : s.table l k = some t) (hi : i < 512) (hhuge : huge (s.mem (slot t i)) = false)
    (ha : Answered frames s (s.get_or_create_entry frames t i true).2) :
    (s.get_or_create_entry frames t i true).1 ≠ 0 := by
  have htz := table_ne_zero hs.root ht
  by_cases hframe : frames s.asked = 0
  · cases hp : present (s.mem (slot t i)) with
    | true =>
      have hsome := (hs.upper l hl k t hk ht i hi).2 hp hhuge
      rw [get_or_create_entry, if_neg htz, hp, hhuge]
      simp only [Bool.false_eq_true, and_false, if_false, Bool.not_true]
      intro hzero
      refine hsome ?_
      rw [next, if_neg]
      exact fun h => h.2.2 hzero
    | false =>
      rw [create_entry_eq htz hp, if_pos hframe] at ha
      exact absurd hframe (ha s.asked le_rfl (Nat.lt_succ_self _))
  · exact (hs.get_or_create hf hl hk ht hi).2.2 hhuge hframe

/-! ## A stretch of addresses -/

/-- A stretch of addresses is mapped; the addresses behind it and in front of it are answered for as before, and no huge
page comes into their way. -/
structure Maps (s s' : Vmm) (v e p : Nat) : Prop where
  inside : ∀ w : BitVec 64, v ≤ w.toNat → w.toNat < e → (s'.view w).toNat = p + (w.toNat - v)
  outside : ∀ w : BitVec 64, w.toNat < 2 ^ 48 → w.toNat < v ∨ e ≤ w.toNat → s'.view w = s.view w
  noHuge : ∀ w : BitVec 64, w.toNat < 2 ^ 48 → w.toNat < v ∨ e ≤ w.toNat → s.NoHuge w → s'.NoHuge w

theorem Maps.refl (v p : Nat) : Maps s s v v p :=
  ⟨fun w hle hlt => by omega, fun _ _ _ => rfl, fun _ _ _ h => h⟩

theorem Maps.trans {s₁ : Vmm} {v m e p : Nat} (h : Maps s s₁ v m p) (h' : Maps s₁ s' m e (p + (m - v))) (hm : v ≤ m)
    (he : m ≤ e) (hend : e ≤ 2 ^ 48) : Maps s s' v e p := by
  refine ⟨fun w hle hlt => ?_, fun w hw hout => ?_, fun w hw hout hno => ?_⟩
  · by_cases hmid : w.toNat < m
    · rw [h'.outside w (by omega) (.inl hmid)]
      exact h.inside w hle hmid
    · rw [h'.inside w (by omega) hlt]
      omega
  · rw [h'.outside w hw (by omega), h.outside w hw (by omega)]
  · exact h'.noHuge w hw (by omega) (h.noHuge w hw (by omega) hno)

theorem Sound.huge_apart (hs : s.Sound frames) (hl : l ≤ 3) (hk : k < 512 ^ l) (ht : s.table l k = some t)
    (hi : i < 512) {v w : BitVec 64} (hslot : slot_number l v = k * 512 + i) (hv : v.toNat % span l = 0)
    (hlt : v.toNat < 2 ^ 48) (hw : w.toNat < 2 ^ 48) (hout : w.toNat < v.toNat ∨ v.toNat + span l ≤ w.toNat)
    (e : BitVec 64) :
    (s.set (slot t i) e).view w = s.view w ∧ (s.NoHuge w → (s.set (slot t i) e).NoHuge w) := by
  have hsame : ∀ a, a ≠ slot t i → (s.set (slot t i) e).mem a = s.mem a := fun a ha => by simp [set, ha]
  have hne : slot_number l w ≠ k * 512 + i := by
    intro heq
    have hin := (slot_number_iff hl hv hlt hw).mp (heq.trans hslot.symm)
    omega
  exact hs.entry_apart hl hk ht hi hsame rfl hne

/-- A huge page maps its slot, where the answers in it are read from its entry. -/
theorem Grown.huge_maps {m n : Nat} {v p flags : BitVec 64} (hg : Grown frames m s s') (hl : l ≤ 3) (hk : k < 512 ^ l)
    (ht : s'.table l k = some t) (hi : i < 512) (hslot : slot_number l v = k * 512 + i) (hspan : span l = 2 ^ n)
    (hn : 12 ≤ n ∧ n < 64) (hv : v.toNat % 2 ^ n = 0) (hend : v.toNat + 2 ^ n ≤ 2 ^ 48) (hp : p.toNat % 2 ^ n = 0)
    (hlt : p.toNat < 2 ^ 52) (hflags : flags &&& VMM_ADDR_MASK = 0)
    (hview : ∀ s₁ : Vmm, s₁.table l k = some t → s₁.mem (slot t i) = huge_entry p flags →
      ∀ w, slot_number l w = slot_number l v →
        s₁.view w = (huge_entry p flags &&& VMM_ADDR_MASK) ||| (w &&& BitVec.ofNat 64 (2 ^ n - 1))) :
    Maps s (s'.set (slot t i) (huge_entry p flags)) v.toNat (v.toNat + 2 ^ n) p.toNat := by
  have hpos := Nat.two_pow_pos n
  have hlow : v.toNat < 2 ^ 48 := by omega
  have hpage : p.toNat % 4096 = 0 := by
    have hdvd : 4096 ∣ 2 ^ n := Nat.pow_dvd_pow 2 hn.1
    exact Nat.mod_eq_zero_of_dvd (hdvd.trans (Nat.dvd_of_mod_eq_zero hp))
  have hin : ∀ w : BitVec 64, w.toNat < 2 ^ 48 →
      (slot_number l w = slot_number l v ↔ v.toNat ≤ w.toNat ∧ w.toNat < v.toNat + 2 ^ n) := by
    intro w hw
    rw [← hspan]
    exact slot_number_iff hl (hspan ▸ hv) hlow hw
  have hapart := fun w hw hout => hg.sound.huge_apart (w := w) hl hk ht hi hslot (hspan ▸ hv) hlow hw hout
    (huge_entry p flags)
  rw [hspan] at hapart
  have hsame : ∀ a, a ≠ slot t i → (s'.set (slot t i) (huge_entry p flags)).mem a = s'.mem a := fun a ha => by
    simp [set, ha]
  have htable := (hg.sound.table_above hl hk ht hi hsame rfl).trans ht
  refine ⟨fun w hle hw => ?_, fun w hw hout => ?_, fun w hw hout hno => ?_⟩
  · rw [hview _ htable (by simp [set]) w ((hin w (by omega)).mpr ⟨hle, hw⟩)]
    exact slot_offset (huge_entry_frame hpage hlt hflags) hp hv hle hw hn.2
  · exact (hapart w hw hout).1.trans (hg.view w)
  · exact (hapart w hw hout).2 (hg.noHuge hno)

section Steps

variable (hf : FreshFrames frames s.kernel_pml4) (hs : s.Sound frames) {v p flags : BitVec 64}
include hf hs

theorem Sound.map_1g_maps (hflags : flags &&& VMM_ADDR_MASK = 0) (hv : v.toNat % 2 ^ 30 = 0) (hp : p.toNat % 2 ^ 30 = 0)
    (hend : v.toNat + 2 ^ 30 ≤ 2 ^ 48) (hlt : p.toNat < 2 ^ 52) (hno : s.NoHuge v)
    (ha : Answered frames s (s.vmm_map_1g frames v p flags).2) : (s.vmm_map_1g frames v p flags).1 = true ∧
      Maps s (s.vmm_map_1g frames v p flags).2 v.toNat (v.toNat + 2 ^ 30) p.toNat := by
  obtain ⟨hk1, hk2, -, -⟩ := keys v
  obtain ⟨hlt1, -, -⟩ := keys_lt v
  obtain ⟨hi1, hi2, -, -⟩ := index_lt v
  obtain ⟨hg, htable, -⟩ := hs.get_or_create hf (l := 0) (k := 0) (by omega) (by omega) rfl hi1
  have hok := hs.get_or_create_answered hf (l := 0) (k := 0) (by omega) (by omega) rfl hi1 hno.1
  have haligned : ¬ (v.toNat % PAGE_SIZE_1G ≠ 0 ∨ p.toNat % PAGE_SIZE_1G ≠ 0) := by
    rw [PAGE_SIZE_1G]
    omega
  rw [← hk1] at htable
  rw [Vmm.vmm_map_1g, if_neg hs.root, if_neg haligned] at ha ⊢
  generalize s.get_or_create_entry frames s.kernel_pml4 (PML4_INDEX v) true = r at hg htable hok ha
  obtain ⟨_ | n, s₁⟩ := r
  · exact absurd rfl (hok ha)
  have ht := htable.resolve_left (Nat.succ_ne_zero n)
  refine ⟨rfl, hg.huge_maps (by omega) hlt1 ht hi2 hk2 rfl ⟨by omega, by omega⟩ hv hend hp hlt hflags
    fun s₂ ht₂ hentry w hw => ?_⟩
  have hkeys : key1 w = key1 v ∧ PDPT_INDEX w = PDPT_INDEX v := by
    have h2 := (keys w).2.1
    have hlow := (index_lt w).2.1
    change key2 w = key2 v at hw
    omega
  rw [← hkeys.1] at ht₂
  rw [← hkeys.2] at hentry
  have hhuge : huge (s₂.mem (slot (n + 1) (PDPT_INDEX w))) = true := hentry ▸ (huge_entry_huge p flags).1
  rw [view_1g ht₂ hhuge, hentry]
  rfl

theorem Sound.map_2m_maps (hflags : flags &&& VMM_ADDR_MASK = 0) (hv : v.toNat % 2 ^ 21 = 0) (hp : p.toNat % 2 ^ 21 = 0)
    (hend : v.toNat + 2 ^ 21 ≤ 2 ^ 48) (hlt : p.toNat < 2 ^ 52) (hno : s.NoHuge v)
    (ha : Answered frames s (s.vmm_map_2m frames v p flags).2) : (s.vmm_map_2m frames v p flags).1 = true ∧
      Maps s (s.vmm_map_2m frames v p flags).2 v.toNat (v.toNat + 2 ^ 21) p.toNat := by
  obtain ⟨hk1, hk2, hk3, -⟩ := keys v
  obtain ⟨hlt1, hlt2, -⟩ := keys_lt v
  obtain ⟨hi1, hi2, hi3, -⟩ := index_lt v
  obtain ⟨hg, htable, -⟩ := hs.get_or_create hf (l := 0) (k := 0) (by omega) (by omega) rfl hi1
  have hok := hs.get_or_create_answered hf (l := 0) (k := 0) (by omega) (by omega) rfl hi1 hno.1
  have haligned : ¬ (v.toNat % PAGE_SIZE_2M ≠ 0 ∨ p.toNat % PAGE_SIZE_2M ≠ 0) := by
    rw [PAGE_SIZE_2M]
    omega
  rw [← hk1] at htable
  rw [Vmm.vmm_map_2m, if_neg hs.root, if_neg haligned] at ha ⊢
  generalize s.get_or_create_entry frames s.kernel_pml4 (PML4_INDEX v) true = r at hg htable hok ha
  obtain ⟨_ | n, s₁⟩ := r
  · exact absurd rfl (hok ha)
  have ht := htable.resolve_left (Nat.succ_ne_zero n)
  obtain ⟨hg₂, htable₂, -⟩ := hg.sound.get_or_create (hg.pml4 ▸ hf) (by omega) hlt1 ht hi2
  have hok₂ := hg.sound.get_or_create_answered (hg.pml4 ▸ hf) (by omega) hlt1 ht hi2
    ((hg.noHuge hno).2.1 _ ht)
  rw [← hk2] at htable₂
  have hasked := hg.asked.1
  simp only at hg₂ htable₂ ha hasked hok₂ ⊢
  generalize s₁.get_or_create_entry frames (n + 1) (PDPT_INDEX v) true = r₂ at hg₂ htable₂ hok₂ ha
  obtain ⟨_ | n', s₂⟩ := r₂
  · exact absurd rfl (hok₂ (ha.right hasked))
  have ht₂ := htable₂.resolve_left (Nat.succ_ne_zero n')
  refine ⟨rfl, (hg.trans hg₂).huge_maps (by omega) hlt2 ht₂ hi3 hk3 rfl ⟨by omega, by omega⟩ hv hend hp hlt hflags
    fun s₃ ht₃ hentry w hw => ?_⟩
  have hkeys : key2 w = key2 v ∧ PD_INDEX w = PD_INDEX v := by
    have h3 := (keys w).2.2.1
    have hlow := (index_lt w).2.2.1
    change key3 w = key3 v at hw
    omega
  rw [← hkeys.1] at ht₃
  rw [← hkeys.2] at hentry
  have hhuge : huge (s₃.mem (slot (n' + 1) (PD_INDEX w))) = true := hentry ▸ (huge_entry_huge p flags).1
  rw [view_2m ht₃ hhuge, hentry]
  rfl

/-- The way down to a page is made where the allocator answers. -/
theorem Sound.last_table_answered (hno : s.NoHuge v) (ha : Answered frames s (s.last_table frames v true).2) :
    (s.last_table frames v true).1 ≠ 0 := by
  obtain ⟨hk1, hk2, hk3, -⟩ := keys v
  obtain ⟨hlt1, hlt2, -⟩ := keys_lt v
  obtain ⟨hi1, hi2, hi3, -⟩ := index_lt v
  obtain ⟨hg, htable, -⟩ := hs.get_or_create hf (l := 0) (k := 0) (by omega) (by omega) rfl hi1
  have hok := hs.get_or_create_answered hf (l := 0) (k := 0) (by omega) (by omega) rfl hi1 hno.1
  rw [← hk1] at htable
  rw [last_table_eq] at ha ⊢
  dsimp only at hg htable ha ⊢
  generalize s.get_or_create_entry frames s.kernel_pml4 (PML4_INDEX v) true = r at hg htable hok ha ⊢
  by_cases hz : r.1 = 0
  · rw [if_pos hz] at ha
    exact absurd hz (hok ha)
  rw [if_neg hz] at ha ⊢
  have ht := htable.resolve_left hz
  obtain ⟨hg₂, htable₂, -⟩ := hg.sound.get_or_create (hg.pml4 ▸ hf) (by omega) hlt1 ht hi2
  have hok₂ := hg.sound.get_or_create_answered (hg.pml4 ▸ hf) (by omega) hlt1 ht hi2 ((hg.noHuge hno).2.1 _ ht)
  rw [← hk2] at htable₂
  have hasked := hg.asked.1
  generalize r.2.get_or_create_entry frames r.1 (PDPT_INDEX v) true = r₂ at hg₂ htable₂ hok₂ ha ⊢
  by_cases hz₂ : r₂.1 = 0
  · rw [if_pos hz₂] at ha
    exact absurd hz₂ (hok₂ (ha.right hasked))
  rw [if_neg hz₂] at ha ⊢
  have hg₁₂ := hg.trans hg₂
  have ht₂ := htable₂.resolve_left hz₂
  exact hg₂.sound.get_or_create_answered (hg₁₂.pml4 ▸ hf) (by omega) hlt2 ht₂ hi3 ((hg₁₂.noHuge hno).2.2 _ ht₂)
    (ha.right hg₁₂.asked.1)

theorem Sound.map_4k_maps (hflags : flags &&& VMM_ADDR_MASK = 0) (hv : v.toNat % 4096 = 0) (hp : p.toNat % 4096 = 0)
    (hend : v.toNat + 4096 ≤ 2 ^ 48) (hlt : p.toNat < 2 ^ 52) (hno : s.NoHuge v)
    (ha : Answered frames s (s.vmm_map frames v p flags)) :
    Maps s (s.vmm_map frames v p flags) v.toNat (v.toNat + 4096) p.toNat := by
  have hne : (s.last_table frames v true).1 ≠ 0 := by
    refine hs.last_table_answered hf hno (ha.left ?_)
    rw [vmm_map_eq hs.root, align_down_page hv]
    dsimp only
    split <;> exact le_rfl
  obtain ⟨hin, hout⟩ := hs.map_view_of hf hv hno hne hp hlt hflags
  have hpage : ∀ w : BitVec 64, w.toNat < 2 ^ 48 → w.toNat < v.toNat ∨ v.toNat + 4096 ≤ w.toNat → page w ≠ page v := by
    intro w hw hapart heq
    have hslot : slot_number 3 w = slot_number 3 v := by
      rw [(slot_number_eq w).2.2.2, (slot_number_eq v).2.2.2, heq]
    have hbetween := (slot_number_iff (l := 3) le_rfl hv (by omega) hw).mp hslot
    rw [show span 3 = 4096 from rfl] at hbetween
    omega
  refine ⟨fun w hle hw => ?_, fun w hw hapart => hout w (hpage w hw hapart), fun w hw hapart hnow => ?_⟩
  · have hsum : w = v + (w - v) := by rw [BitVec.add_comm, BitVec.sub_add_cancel]
    have hoff : (w - v).toNat = w.toNat - v.toNat := BitVec.toNat_sub_of_le (BitVec.le_def.mpr hle)
    have hsmall : (w - v).toNat < 4096 := by omega
    have hview := hin (w - v) hsmall
    rw [← hsum] at hview
    rw [hview, offset_toNat hp hsmall, hoff]
  · obtain ⟨hg, htable, -⟩ := hs.last_table hf v
    rw [vmm_map_eq hs.root, align_down_page hv]
    dsimp only
    rw [if_neg hne]
    exact (hg.noHuge hnow).set_leaf hg.sound (keys_lt v).2.2 (htable.resolve_left hne) (index_lt v).2.2.2 _

end Steps

theorem advance {v : BitVec 64} {n : Nat} (h : v.toNat + n < 2 ^ 64) : (v + BitVec.ofNat 64 n).toNat = v.toNat + n := by
  rw [BitVec.toNat_add, BitVec.toNat_ofNat, Nat.mod_eq_of_lt (show n < 2 ^ 64 by omega), Nat.mod_eq_of_lt h]

/-- The loop maps the rest of the range. -/
theorem Sound.map_loop_maps {flags vend : BitVec 64} (hflags : flags &&& VMM_ADDR_MASK = 0)
    (hvend : vend.toNat % 4096 = 0) (hhigh : vend.toNat ≤ 2 ^ 48) (fuel : Nat) (v p : BitVec 64)
    (hf : FreshFrames frames s.kernel_pml4) (hs : s.Sound frames) (hv : v.toNat % 4096 = 0) (hp : p.toNat % 4096 = 0)
    (hle : v.toNat ≤ vend.toNat) (hphys : p.toNat + (vend.toNat - v.toNat) ≤ 2 ^ 52)
    (hfuel : vend.toNat - v.toNat ≤ fuel) (hno : ∀ w : BitVec 64, v.toNat ≤ w.toNat → w.toNat < vend.toNat → s.NoHuge w)
    (ha : Answered frames s (s.map_loop frames flags vend fuel v p)) :
    Maps s (s.map_loop frames flags vend fuel v p) v.toNat vend.toNat p.toNat := by
  induction fuel generalizing v p s with
  | zero =>
    obtain heq : v.toNat = vend.toNat := by omega
    rw [← heq]
    exact .refl _ _
  | succ fuel ih =>
    -- a step of any size, and the rest of the loop behind it
    have hgo : ∀ (n : Nat) (s₁ : Vmm) (v' p' : BitVec 64), v'.toNat = v.toNat + n → p'.toNat = p.toNat + n →
        n % 4096 = 0 → 0 < n → v.toNat + n ≤ vend.toNat → s₁.Sound frames ∧ s₁.kernel_pml4 = s.kernel_pml4 →
        s.asked ≤ s₁.asked → Maps s s₁ v.toNat (v.toNat + n) p.toNat →
        Answered frames s (s₁.map_loop frames flags vend fuel v' p') →
        Maps s (s₁.map_loop frames flags vend fuel v' p') v.toNat vend.toNat p.toNat := by
      intro n s₁ v' p' hv' hp' hn hpos hfits hs₁ hasked hmaps ha'
      have hrest := ih v' p' (hs₁.2 ▸ hf) hs₁.1 (by omega) (by omega) (by omega) (by omega) (by omega)
        (fun w hlow hlt => hmaps.noHuge w (by omega) (by omega) (hno w (by omega) hlt)) (ha'.right hasked)
      rw [hv', hp'] at hrest
      refine hmaps.trans ?_ (by omega) hfits hhigh
      rwa [show v.toNat + n - v.toNat = n by omega]
    rw [map_loop_succ] at ha ⊢
    by_cases hlt : v.toNat < vend.toNat
    · rw [if_pos hlt] at ha ⊢
      have hstart := hno v le_rfl hlt
      by_cases hgig : vend.toNat - v.toNat ≥ PAGE_SIZE_1G ∧ v.toNat % PAGE_SIZE_1G = 0 ∧ p.toNat % PAGE_SIZE_1G = 0
      · rw [show s.try_1g frames flags vend v p = s.vmm_map_1g frames v p flags from if_pos hgig] at ha ⊢
        rw [PAGE_SIZE_1G] at hgig
        have hanswered : Answered frames s (s.vmm_map_1g frames v p flags).2 := by
          refine ha.left ?_
          split
          · exact map_loop_asked _ _ _ _ _ _
          · split
            · exact (try_2m_asked _ _ _ _ _).trans (map_loop_asked _ _ _ _ _ _)
            · exact ((try_2m_asked _ _ _ _ _).trans (vmm_map_asked _ _ _ _)).trans (map_loop_asked _ _ _ _ _ _)
        obtain ⟨hmade, hmaps⟩ := hs.map_1g_maps hf hflags (by omega) (by omega) (by omega) (by omega) hstart hanswered
        rw [if_pos hmade] at ha ⊢
        exact hgo (2 ^ 30) _ _ _ (@advance v 0x40000000 (by omega)) (@advance p 0x40000000 (by omega)) (by omega)
          (by omega) (by omega) (hs.vmm_map_1g hf v p flags) (vmm_map_1g_asked s v p flags) hmaps ha
      rw [show s.try_1g frames flags vend v p = (false, s) from if_neg hgig, if_neg Bool.false_ne_true] at ha ⊢
      by_cases hmeg : vend.toNat - v.toNat ≥ PAGE_SIZE_2M ∧ v.toNat % PAGE_SIZE_2M = 0 ∧ p.toNat % PAGE_SIZE_2M = 0
      · rw [show s.try_2m frames flags vend v p = s.vmm_map_2m frames v p flags from if_pos hmeg] at ha ⊢
        rw [PAGE_SIZE_2M] at hmeg
        have hanswered : Answered frames s (s.vmm_map_2m frames v p flags).2 := by
          refine ha.left ?_
          split
          · exact map_loop_asked _ _ _ _ _ _
          · exact (vmm_map_asked _ _ _ _).trans (map_loop_asked _ _ _ _ _ _)
        obtain ⟨hmade, hmaps⟩ := hs.map_2m_maps hf hflags (by omega) (by omega) (by omega) (by omega) hstart hanswered
        rw [if_pos hmade] at ha ⊢
        exact hgo (2 ^ 21) _ _ _ (@advance v 0x200000 (by omega)) (@advance p 0x200000 (by omega)) (by omega)
          (by omega) (by omega) (hs.vmm_map_2m hf v p flags) (vmm_map_2m_asked s v p flags) hmaps ha
      rw [show s.try_2m frames flags vend v p = (false, s) from if_neg hmeg, if_neg Bool.false_ne_true] at ha ⊢
      have hmaps := hs.map_4k_maps hf hflags hv hp (by omega) (by omega) hstart
        (ha.left (map_loop_asked _ _ _ _ _ _))
      exact hgo 4096 _ _ _ (@advance v 4096 (by omega)) (@advance p 4096 (by omega)) (by omega) (by omega) (by omega)
        (hs.vmm_map hf v p flags) (vmm_map_asked s v p flags) hmaps ha
    · obtain heq : v.toNat = vend.toNat := by omega
      rw [if_neg hlt, ← heq]
      exact .refl _ _

end Vmm

/-- An address lies in the pages that a range touches. -/
def InHull (virt size a : BitVec 64) : Prop :=
  ∃ b, virt.toNat ≤ b ∧ b < virt.toNat + size.toNat ∧ a.toNat / 4096 = b / 4096

theorem align_down_toNat (x : BitVec 64) : (ALIGN_DOWN_4K x).toNat = x.toNat / 4096 * 4096 := by
  have hbits : ∀ i < 64, (~~~0xFFF#64).getLsbD i = decide (12 ≤ i) := by decide
  apply Nat.eq_of_testBit_eq
  intro i
  change (x &&& ~~~0xFFF#64).getLsbD i = _
  rw [show x.toNat / 4096 * 4096 = x.toNat / 2 ^ 12 * 2 ^ 12 from rfl, Nat.testBit_mul_two_pow, Nat.testBit_div_two_pow,
    BitVec.getLsbD_and]
  by_cases hi : i < 64
  · rw [hbits i hi, Bool.and_comm]
    by_cases hlow : 12 ≤ i
    · rw [Nat.sub_add_cancel hlow]
      rfl
    · rw [decide_eq_false hlow, Bool.false_and, Bool.false_and]
  · rw [BitVec.getLsbD_of_ge x i (by omega), Bool.false_and, Nat.sub_add_cancel (by omega)]
    exact (Bool.and_eq_false_iff.mpr (.inr (BitVec.getLsbD_of_ge x i (by omega)))).symm

theorem align_up_toNat {x : BitVec 64} (h : x.toNat < 2 ^ 48) :
    (ALIGN_UP_4K x).toNat = (x.toNat + 4095) / 4096 * 4096 := by
  rw [ALIGN_UP_4K, align_down_toNat, show x + 0xFFF#64 = x + BitVec.ofNat 64 4095 from rfl, Vmm.advance (by omega)]

/-- Where no huge page is in the way and the allocator answers, a range is mapped as its pages, whatever entries are
used, and no address of another page is answered for differently. Every state that the calls of the manager build is
sound. -/
theorem vmm_map_range_maps {frames : Nat → Nat} {s : Vmm} (hf : Vmm.FreshFrames frames s.kernel_pml4)
    (hs : s.Sound frames) {virt phys size flags : BitVec 64} (hoff : virt.toNat % 4096 = phys.toNat % 4096)
    (hvirt : virt.toNat + size.toNat < 2 ^ 48) (hphys : phys.toNat + size.toNat < 2 ^ 52)
    (hflags : flags &&& VMM_ADDR_MASK = 0)
    (hno : ∀ a : BitVec 64, virt.toNat ≤ a.toNat → a.toNat < virt.toNat + size.toNat → s.NoHuge a)
    (ha : Vmm.Answered frames s (s.vmm_map_range frames virt phys size flags)) :
    (∀ a, InHull virt size a →
      (s.vmm_map_range frames virt phys size flags).vmm_translate frames a = phys + (a - virt)) ∧
    ∀ a : BitVec 64, a.toNat < 2 ^ 48 → ¬ InHull virt size a →
      (s.vmm_map_range frames virt phys size flags).vmm_translate frames a = s.vmm_translate frames a := by
  have hroot := hs.root
  by_cases hzero : size = 0
  · rw [Vmm.vmm_map_range, if_pos hzero] at ha ⊢
    subst hzero
    refine ⟨fun a ha => ?_, fun a _ _ => rfl⟩
    obtain ⟨b, hlow, hlt, -⟩ := ha
    exact absurd hlt (by rw [show (0 : BitVec 64).toNat = 0 from rfl]; omega)
  have hpos : 0 < size.toNat := Nat.pos_of_ne_zero fun h => hzero (BitVec.eq_of_toNat_eq h)
  have hsum : (virt + size).toNat = virt.toNat + size.toNat := by
    rw [BitVec.toNat_add]
    exact Nat.mod_eq_of_lt (by omega)
  have hstart := align_down_toNat virt
  have hframe := align_down_toNat phys
  have hend := @align_up_toNat (virt + size) (by omega)
  rw [hsum] at hend
  rw [Vmm.vmm_map_range, if_neg hzero] at ha ⊢
  dsimp only at ha ⊢
  generalize ALIGN_DOWN_4K virt = vstart at hstart ha ⊢
  generalize ALIGN_DOWN_4K phys = pstart at hframe ha ⊢
  generalize ALIGN_UP_4K (virt + size) = vend at hend ha ⊢
  -- the addresses between the aligned ends are those of the hull
  have hhull : ∀ a : BitVec 64, InHull virt size a ↔ vstart.toNat ≤ a.toNat ∧ a.toNat < vend.toNat := by
    intro a
    constructor
    · rintro ⟨b, hlow, hlt, heq⟩
      omega
    · rintro ⟨hlow, hlt⟩
      by_cases hbefore : a.toNat < virt.toNat
      · exact ⟨virt.toNat, le_rfl, by omega, by omega⟩
      by_cases hbehind : a.toNat < virt.toNat + size.toNat
      · exact ⟨a.toNat, by omega, hbehind, rfl⟩
      · exact ⟨virt.toNat + size.toNat - 1, by omega, by omega, by omega⟩
  have hno' : ∀ a : BitVec 64, vstart.toNat ≤ a.toNat → a.toNat < vend.toNat → s.NoHuge a := by
    intro a hlow hlt
    obtain ⟨b, hvirt_le, hb, heq⟩ := (hhull a).mpr ⟨hlow, hlt⟩
    have hb' : (BitVec.ofNat 64 b).toNat = b := by
      rw [BitVec.toNat_ofNat]
      exact Nat.mod_eq_of_lt (by omega)
    refine (hno (BitVec.ofNat 64 b) (by omega) (by omega)).of_page ?_
    rw [page, page, hb', heq]
  have hmaps := Vmm.Sound.map_loop_maps hflags (by omega) (by omega) (vend.toNat - vstart.toNat) vstart pstart hf hs
    (by omega) (by omega) (by omega) (by omega) le_rfl hno' ha
  have hroot' := (hs.map_loop flags vend (vend.toNat - vstart.toNat) vstart pstart hf).1.root
  refine ⟨fun a hin => ?_, fun a hlt hout => ?_⟩
  · obtain ⟨hlow, hlt⟩ := (hhull a).mp hin
    rw [Vmm.translate_view hroot']
    apply BitVec.eq_of_toNat_eq
    rw [hmaps.inside a hlow hlt, BitVec.toNat_add, BitVec.toNat_sub]
    omega
  · rw [Vmm.translate_view hroot', Vmm.translate_view hroot]
    refine hmaps.outside a hlt ?_
    rw [hhull] at hout
    omega

/-- A range that begins and ends in the middle of a page, with a page of 2 MiB in it. -/
theorem ragged_range_mapped :
    (Vmm.vmm_map_range next_frames (.start (fun _ => 0) 0x1000) 0x1FF123 0x5FF123 0x202000 3).vmm_translate next_frames
      0x312345 = 0x712345 ∧
    (Vmm.vmm_map_range next_frames (.start (fun _ => 0) 0x1000) 0x1FF123 0x5FF123 0x202000 3).vmm_translate next_frames
      0x402000 = Vmm.vmm_translate next_frames (.start (fun _ => 0) 0x1000) 0x402000 := by
  have hzero : ∀ a, (Vmm.start (fun _ => 0) 0x1000).mem a = 0 := fun a => ite_self _
  have hno : ∀ a, (Vmm.start (fun _ => 0) 0x1000).NoHuge a := by
    intro a
    rw [Vmm.NoHuge, hzero]
    refine ⟨rfl, fun t _ => ?_, fun t _ => ?_⟩ <;>
    · rw [hzero]
      rfl
  have hasked :
      (Vmm.vmm_map_range next_frames (.start (fun _ => 0) 0x1000) 0x1FF123 0x5FF123 0x202000 3).asked ≤ 1000 := by
    decide +kernel
  have hanswered : ∀ s', s'.asked ≤ 1000 → Vmm.Answered next_frames (.start (fun _ => 0) 0x1000) s' := by
    intro s' hle j _ hj
    rw [next_frames, if_pos (lt_of_lt_of_le hj hle)]
    omega
  have hmap := @vmm_map_range_maps next_frames (.start (fun _ => 0) 0x1000) next_frames_fresh
    (Vmm.start_sound (fun _ => 0) (by decide) (by decide)) 0x1FF123 0x5FF123 0x202000 3 (by decide) (by decide)
    (by decide) (by decide) (fun a _ _ => hno a) (hanswered _ hasked)
  refine ⟨hmap.1 0x312345 ⟨0x312345, by decide, by decide, by decide⟩, hmap.2 0x402000 (by decide) ?_⟩
  rintro ⟨b, hlow, hlt, heq⟩
  rw [show (0x402000 : BitVec 64).toNat = 0x402000 from rfl] at heq
  rw [show (0x1FF123 : BitVec 64).toNat + (0x202000 : BitVec 64).toNat = 0x401123 from rfl] at hlt
  omega

/-- A flag that is a bit of the address moves the frames of a range too. -/
theorem address_flag_moves_range : 0x1001#64 &&& VMM_HUGE = 0 ∧
    ¬ ((Vmm.vmm_map_range next_frames (.start (fun _ => 0) 0x1000) 0x400000 0x800000 0x1000 0x1001).vmm_translate
      next_frames 0x400000 = 0x800000) := by
  decide +kernel

end graceos.mm
