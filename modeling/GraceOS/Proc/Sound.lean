import GraceOS.Proc.Core

/-!
# Legal moves

`Legal` says what the code makes sure of before it makes a move, and `Sound` what holds of the
kernel at all times as a consequence, whatever is called.
-/

namespace graceos.proc

open linkq

/-- The process is in the process table. -/
def Core.Listed (c : Core) (p : Ptr) : Prop := ∃ pid, c.table pid = some p

/-- No link of the run queue leads to the process. -/
def Core.Apart (c : Core) (p : Ptr) : Prop := c.links.prev p = none ∧ c.links.head ≠ some p

/-- What the code makes sure of before a move. -/
def Core.Legal (c : Core) : Move → Prop
  | .ready p => c.Listed p ∧ c.state p ≠ .zombie
  | .park _ state => state = .blocked ∨ state = .wait ∨ state = .zombie
  | .yield p => c.current = some p
  | .dispatch p => p = idle_proc ∨ (c.state p = .ready ∧ c.links.Reached p)
  | .sleep _ _ => True
  | .wipe p => p ∉ c.heap ∧ p ≠ idle_proc
  | .spawn p pid =>
    p ∉ c.heap ∧ p ≠ idle_proc ∧ 1 ≤ pid ∧ pid < MAX_PROC ∧ c.table pid = none
  | .free p => c.Listed p ∧ c.state p = .zombie

/-- What holds in every kernel, even one whose run queue has come to pieces. -/
structure Core.Sound (c : Core) : Prop where
  slots : ∀ pid p, c.table pid = some p →
    1 ≤ pid ∧ pid < MAX_PROC ∧ c.pid p = pid ∧ p ∈ c.heap
  idle : idle_proc ∉ c.heap
  cursor : 1 ≤ c.cursor ∧ c.cursor ≤ MAX_PROC
  coherent : c.links.Coherent
  unused : ∀ p, p ∉ c.heap → c.Apart p
  zombies : ∀ p, c.state p = .zombie → c.Apart p

theorem Core.Sound.mem_heap {c : Core} (h : c.Sound) {p : Ptr} (hp : c.Listed p) : p ∈ c.heap := by
  obtain ⟨pid, hpid⟩ := hp
  exact (h.slots pid p hpid).2.2.2

theorem Core.Sound.ne_idle {c : Core} (h : c.Sound) {p : Ptr} (hp : c.Listed p) :
    p ≠ idle_proc := by
  rintro rfl
  exact h.idle (h.mem_heap hp)

theorem Core.Sound.not_reached {c : Core} (h : c.Sound) {p : Ptr} (hp : c.Apart p) :
    ¬ c.links.Reached p :=
  h.coherent.not_reached hp.1 hp.2

theorem Core.Sound.reached_mem_heap {c : Core} (h : c.Sound) {p : Ptr} (hp : c.links.Reached p) :
    p ∈ c.heap := by
  by_contra hunused
  exact h.not_reached (h.unused p hunused) hp

/-! ## Soundness is kept by every legal move -/

section Sound

variable {c : Core} {p : Ptr}

theorem Core.Apart.clear {x : Ptr} (h : c.Apart x) :
    (c.links.clear p).prev x = none ∧ (c.links.clear p).head ≠ some x :=
  ⟨by simp [Links.clear, write, h.1], h.2⟩

theorem Core.Sound.ready (h : c.Sound) (hlegal : c.Legal (.ready p)) :
    (c.apply (.ready p)).Sound := by
  obtain ⟨hlisted, hzombie⟩ := hlegal
  have hheap := h.mem_heap hlisted
  by_cases hlinked : c.Linked p
  · have hlinks : (c.apply (.ready p)).links = c.links := by simp [Core.apply, hlinked]
    refine ⟨h.slots, h.idle, h.cursor, hlinks ▸ h.coherent, ?_, ?_⟩
    · intro x hx
      simpa [Core.Apart, hlinks] using h.unused x hx
    · intro x hx
      by_cases hxp : x = p
      · simp [Core.apply, hxp] at hx
      · simp only [Core.apply, Function.update_of_ne hxp] at hx
        simpa [Core.Apart, hlinks] using h.zombies x hx
  · have hlinks : (c.apply (.ready p)).links = c.links.push_back p := by
      simp [Core.apply, hlinked]
    obtain ⟨-, hprev, hhead⟩ : c.links.next p = none ∧ c.links.prev p = none ∧
        c.links.head ≠ some p := by
      simpa [Core.Linked] using hlinked
    have happart : ∀ x, x ≠ p → c.Apart x → (c.apply (.ready p)).Apart x := by
      intro x hx hapart
      rw [Core.Apart, hlinks]
      exact Links.push_back_apart hx hapart.1 hapart.2
    refine ⟨h.slots, h.idle, h.cursor, ?_, ?_, ?_⟩
    · rw [hlinks]
      exact h.coherent.push_back hprev hhead
    · intro x hx
      exact happart x (by rintro rfl; exact hx hheap) (h.unused x hx)
    · intro x hx
      by_cases hxp : x = p
      · simp [Core.apply, hxp] at hx
      · simp only [Core.apply, Function.update_of_ne hxp] at hx
        exact happart x hxp (h.zombies x hx)

theorem Core.Sound.park (h : c.Sound) (state : ProcState) : (c.apply (.park p state)).Sound := by
  have hself : (c.apply (.park p state)).Apart p := h.coherent.unlink_self
  have happart : ∀ x, c.Apart x → (c.apply (.park p state)).Apart x := fun x hx =>
    h.coherent.unlink_apart hx.1 hx.2
  refine ⟨h.slots, h.idle, h.cursor, h.coherent.unlink, ?_, ?_⟩
  · exact fun x hx => happart x (h.unused x hx)
  · intro x hx
    by_cases hxp : x = p
    · exact hxp ▸ hself
    · simp only [Core.apply, Function.update_of_ne hxp] at hx
      exact happart x (h.zombies x hx)

theorem Core.Sound.restate {c' : Core} (h : c.Sound) (htable : c'.table = c.table)
    (hpid : c'.pid = c.pid) (hheap : c'.heap = c.heap) (hcursor : c'.cursor = c.cursor)
    (hlinks : c'.links = c.links) (hzombie : ∀ x, c'.state x = .zombie → c.state x = .zombie) :
    c'.Sound := by
  refine ⟨?_, hheap ▸ h.idle, hcursor ▸ h.cursor, hlinks ▸ h.coherent, ?_, ?_⟩
  · rw [htable, hpid, hheap]
    exact h.slots
  · intro x hx
    rw [Core.Apart, hlinks]
    exact h.unused x (hheap ▸ hx)
  · intro x hx
    rw [Core.Apart, hlinks]
    exact h.zombies x (hzombie x hx)

theorem Core.Sound.wipe (h : c.Sound) (hlegal : c.Legal (.wipe p)) :
    (c.apply (.wipe p)).Sound := by
  obtain ⟨hfresh, -⟩ := hlegal
  refine ⟨?_, h.idle, h.cursor, h.coherent.clear (h.unused p hfresh).1, ?_, ?_⟩
  · intro pid x hx
    obtain ⟨hpos, hmax, hpid, hheap⟩ := h.slots pid x hx
    have hxp : x ≠ p := by
      rintro rfl
      exact hfresh hheap
    exact ⟨hpos, hmax, by simp [Core.apply, hxp, hpid], hheap⟩
  · exact fun x hx => (h.unused x hx).clear
  · intro x hx
    by_cases hxp : x = p
    · simp [Core.apply, hxp] at hx
    · simp only [Core.apply, Function.update_of_ne hxp] at hx
      exact (h.zombies x hx).clear

theorem Core.Sound.spawn {pid : Nat} (h : c.Sound) (hlegal : c.Legal (.spawn p pid)) :
    (c.apply (.spawn p pid)).Sound := by
  obtain ⟨hfresh, hidle, hpos, hmax, hempty⟩ := hlegal
  refine ⟨?_, ?_, ?_, h.coherent.clear (h.unused p hfresh).1, ?_, ?_⟩
  · intro slot x hx
    by_cases hslot : slot = pid
    · obtain rfl : p = x := by simpa [Core.apply, hslot] using hx
      exact ⟨by omega, by omega, by simp [Core.apply, hslot], by simp [Core.apply]⟩
    · have hold : c.table slot = some x := by simpa [Core.apply, hslot] using hx
      obtain ⟨hspos, hsmax, hpid, hheap⟩ := h.slots slot x hold
      have hxp : x ≠ p := by
        rintro rfl
        exact hfresh hheap
      exact ⟨hspos, hsmax, by simp [Core.apply, hxp, hpid], by simp [Core.apply, hheap]⟩
  · simp [Core.apply, h.idle, Ne.symm hidle]
  · simp only [Core.apply]
    split <;> omega
  · intro x hx
    have hold : x ∉ c.heap := by
      simp only [Core.apply, List.mem_cons, not_or] at hx
      exact hx.2
    exact (h.unused x hold).clear
  · intro x hx
    by_cases hxp : x = p
    · simp [Core.apply, hxp] at hx
    · simp only [Core.apply, Function.update_of_ne hxp] at hx
      exact (h.zombies x hx).clear

theorem Core.Sound.free (h : c.Sound) (hlegal : c.Legal (.free p)) :
    (c.apply (.free p)).Sound := by
  obtain ⟨⟨pid, hpid⟩, hzombie⟩ := hlegal
  have hpidOf := (h.slots pid p hpid).2.2.1
  refine ⟨?_, ?_, h.cursor, h.coherent, ?_, ?_⟩
  · intro slot x hx
    have hslot : slot ≠ pid := by
      rintro rfl
      simp [Core.apply, hpidOf] at hx
    have hold : c.table slot = some x := by simpa [Core.apply, hpidOf, hslot] using hx
    obtain ⟨hpos, hmax, hslotOf, hheap⟩ := h.slots slot x hold
    have hxp : x ≠ p := by
      rintro rfl
      exact hslot (hslotOf.symm.trans hpidOf)
    exact ⟨hpos, hmax, hslotOf, by simp [Core.apply, hheap, hxp]⟩
  · simp [Core.apply, h.idle]
  · intro x hx
    by_cases hxp : x = p
    · exact hxp ▸ h.zombies p hzombie
    · exact h.unused x fun hheap => hx (by simp [Core.apply, hheap, hxp])
  · intro x hx
    by_cases hxp : x = p
    · simp [Core.apply, hxp] at hx
    · simp only [Core.apply, Function.update_of_ne hxp] at hx
      exact h.zombies x hx

theorem Core.Sound.apply {m : Move} (h : c.Sound) (hlegal : c.Legal m) : (c.apply m).Sound := by
  cases m with
  | ready p => exact h.ready hlegal
  | park p state => exact h.park state
  | yield p =>
    refine h.restate rfl rfl rfl rfl rfl fun x hx => ?_
    by_cases hxp : x = p
    · simp [Core.apply, hxp] at hx
    · simpa [Core.apply, hxp] using hx
  | dispatch p =>
    refine h.restate rfl rfl rfl rfl rfl fun x hx => ?_
    by_cases hxp : x = p
    · simp [Core.apply, hxp] at hx
    · simp only [Core.apply, Function.update_of_ne hxp, Core.preempted] at hx
      split at hx
      · simp at hx
      · exact hx
  | sleep p time => exact h.restate rfl rfl rfl rfl rfl fun _ hx => hx
  | wipe p => exact h.wipe hlegal
  | spawn p pid => exact h.spawn hlegal
  | free p => exact h.free hlegal

end Sound

end graceos.proc
