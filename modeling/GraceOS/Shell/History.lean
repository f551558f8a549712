import GraceOS.Lib.Machine
import GraceOS.Lib.Ring
import Mathlib.Algebra.Order.Ring.Int

/-!
# The command history

`history.c` of the shell: the commands lie in a ring, and a position of its own goes back and forth among them.
-/

namespace graceos.shell.history

open machine ring

def HIST_MAX : Nat := 32
def HIST_LEN : Nat := 256

/-- A line that fits into an entry. -/
structure Line where
  chars : List UInt8
  short : chars.length ≤ HIST_LEN - 1

/-- The entries, with the text that each one holds, and the browse position. -/
structure History where
  hist : Nat → List UInt8
  head : Nat
  count : Nat
  pos : Nat
  browsing : Bool

def hist_init : History := ⟨fun _ => [], 0, 0, 0, false⟩

namespace History

def newest (s : History) : Nat := (s.head + HIST_MAX - 1) % HIST_MAX

def oldest (s : History) : Nat := (s.head + HIST_MAX - s.count) % HIST_MAX

/-- The two early returns of `hist_add`: there is no command, or it is the last one again. -/
def Dropped (s : History) : Option Line → Prop
  | none => True
  | some cmd => cmd.chars = [] ∨ 0 < s.count ∧ cmd.chars = s.hist s.newest

instance (s : History) (cmd : Option Line) : Decidable (s.Dropped cmd) :=
  match cmd with
  | none => inferInstanceAs (Decidable True)
  | some cmd => inferInstanceAs (Decidable (cmd.chars = [] ∨ 0 < s.count ∧ cmd.chars = s.hist s.newest))

end History

def hist_add (s : History) (cmd : Option Line) : History :=
  match cmd with
  | none => s
  | some cmd =>
    if cmd.chars = [] then s
    else if 0 < s.count ∧ cmd.chars = s.hist s.newest then s
    else
      let head := (s.head + 1) % HIST_MAX
      { hist := Function.update s.hist s.head (cmd.chars.take (HIST_LEN - 1))
        head := head
        count := if s.count < HIST_MAX then s.count + 1 else s.count
        pos := head
        browsing := false }

def hist_prev (s : History) : Option (List UInt8) × History :=
  if s.count = 0 then (none, s)
  else if s.browsing = false then (some (s.hist s.newest), { s with pos := s.newest, browsing := true })
  else
    let prev := (s.pos + HIST_MAX - 1) % HIST_MAX
    if s.pos = s.oldest then (some (s.hist s.pos), s)
    else (some (s.hist prev), { s with pos := prev })

def hist_next (s : History) : Option (List UInt8) × History :=
  if s.count = 0 ∨ s.browsing = false then (none, s)
  else if s.pos = s.newest then (none, { s with browsing := false })
  else
    let pos := (s.pos + 1) % HIST_MAX
    (some (s.hist pos), { s with pos := pos })

def hist_get (s : History) (index : Int) : Option (List UInt8) :=
  if index < 0 ∨ s.count ≤ index then none
  else some (s.hist ((s.oldest + index.toNat) % HIST_MAX))

def hist_reset_pos (s : History) : History := { s with pos := s.head, browsing := false }

inductive Op where
  | add (cmd : Option Line)
  | prev
  | next
  | get (index : Int)
  | reset_pos

/-- What a call returns, and the state it leaves. -/
def call (s : History) : Op → Option (List UInt8) × History
  | .add cmd => (none, hist_add s cmd)
  | .prev => hist_prev s
  | .next => hist_next s
  | .get index => (hist_get s index, s)
  | .reset_pos => (none, hist_reset_pos s)

def step (s : History) (op : Op) : History := (call s op).2

/-- What the calls of a run return. -/
def answers : History → List Op → List (Option (List UInt8))
  | _, [] => []
  | s, op :: ops => (call s op).1 :: answers (step s op) ops

/-! ## A list with a cursor -/

/-- A command is kept at the end, unless it is empty or repeats the last one. -/
def keep (kept : List (List UInt8)) : Option Line → List (List UInt8)
  | none => kept
  | some cmd => if cmd.chars = [] ∨ kept.getLast? = some cmd.chars then kept else kept ++ [cmd.chars]

/-- The commands that were kept, and how many commands the cursor is behind the newest one. -/
structure Browser where
  kept : List (List UInt8)
  cursor : Option Nat

namespace Browser

/-- The last commands, in order. -/
def recent (b : Browser) : List (List UInt8) := b.kept.drop (b.kept.length - HIST_MAX)

/-- The command that is `k` behind the newest one. -/
def back (b : Browser) (k : Nat) : Option (List UInt8) := b.recent.reverse[k]?

/-- A browser starts at the newest command, goes back and stops at the oldest one. -/
def prev (b : Browser) : Option (List UInt8) × Browser :=
  if b.recent = [] then (none, b)
  else
    match b.cursor with
    | none => (b.back 0, { b with cursor := some 0 })
    | some k =>
      if k + 1 < b.recent.length then (b.back (k + 1), { b with cursor := some (k + 1) }) else (b.back k, b)

def next (b : Browser) : Option (List UInt8) × Browser :=
  match b.cursor with
  | none => (none, b)
  | some 0 => (none, { b with cursor := none })
  | some (k + 1) => (b.back k, { b with cursor := some k })

def get (b : Browser) (index : Int) : Option (List UInt8) := if index < 0 then none else b.recent[index.toNat]?

def call (b : Browser) : Op → Option (List UInt8) × Browser
  | .add cmd => (none, ⟨keep b.kept cmd, none⟩)
  | .prev => b.prev
  | .next => b.next
  | .get index => (b.get index, b)
  | .reset_pos => (none, { b with cursor := none })

def step (b : Browser) (op : Op) : Browser := (b.call op).2

def answers : Browser → List Op → List (Option (List UInt8))
  | _, [] => []
  | b, op :: ops => (b.call op).1 :: answers (b.step op) ops

end Browser

/-! ## The ring holds the last commands -/

/-- The commands `kept` were written through the ring. -/
structure Stored (s : History) (kept : List (List UInt8)) : Prop where
  latest : Latest s.hist HIST_MAX kept
  head : s.head = kept.length % HIST_MAX
  count : s.count = min HIST_MAX kept.length

theorem stored_init : Stored hist_init [] := ⟨Latest.nil, rfl, rfl⟩

section
variable {s : History} {kept : List (List UInt8)}

theorem length_recent (b : Browser) : b.recent.length = min HIST_MAX b.kept.length := by
  rw [Browser.recent, List.length_drop]
  omega

theorem Stored.oldest (h : Stored s kept) : s.oldest = (kept.length - s.count) % HIST_MAX := by
  have hcount := h.count
  rw [History.oldest, h.head]
  simp only [HIST_MAX] at hcount ⊢
  omega

theorem Stored.newest (h : Stored s kept) (hcount : 0 < s.count) : s.newest = (kept.length - 1) % HIST_MAX := by
  have hmin := h.count
  rw [History.newest, h.head]
  simp only [HIST_MAX] at hmin ⊢
  omega

theorem Stored.back {cursor : Option Nat} (h : Stored s kept) {k : Nat} (hk : k < s.count) :
    some (s.hist ((kept.length - 1 - k) % HIST_MAX)) = (⟨kept, cursor⟩ : Browser).back k := by
  have hmin := h.count
  have hlength := length_recent ⟨kept, cursor⟩
  dsimp only at hlength
  have hin : kept.length - 1 - k < kept.length := by omega
  rw [Browser.back, List.getElem?_reverse (by omega), hlength, Browser.recent, List.getElem?_drop,
    h.latest _ _ (List.getElem?_eq_getElem hin) (by omega), ← List.getElem?_eq_getElem hin]
  dsimp only
  congr 1
  omega

theorem Stored.last (h : Stored s kept) (hcount : 0 < s.count) : some (s.hist s.newest) = kept.getLast? := by
  have hmin := h.count
  have hin : kept.length - 1 < kept.length := by omega
  rw [h.newest hcount, h.latest _ _ (List.getElem?_eq_getElem hin) (by simp only [HIST_MAX]; omega),
    ← List.getElem?_eq_getElem hin, List.getLast?_eq_getElem?]

theorem Stored.get (h : Stored s kept) (cursor : Option Nat) (index : Int) :
    hist_get s index = (⟨kept, cursor⟩ : Browser).get index := by
  have hmin := h.count
  have hlength := length_recent ⟨kept, cursor⟩
  dsimp only at hlength
  rw [hist_get, Browser.get]
  by_cases hneg : index < 0
  · rw [if_pos (Or.inl hneg), if_pos hneg]
  rw [if_neg hneg]
  by_cases hover : s.count ≤ index
  · rw [if_pos (Or.inr hover), List.getElem?_eq_none (by omega)]
  have hin : kept.length - s.count + index.toNat < kept.length := by omega
  rw [if_neg (by omega), h.oldest, Nat.mod_add_mod, Browser.recent, List.getElem?_drop,
    h.latest _ _ (List.getElem?_eq_getElem hin) (by omega), ← List.getElem?_eq_getElem hin]
  dsimp only
  congr 1
  omega

theorem Stored.keep_of_dropped (h : Stored s kept) {cmd : Option Line} (hdrop : s.Dropped cmd) :
    keep kept cmd = kept := by
  cases cmd with
  | none => rfl
  | some cmd =>
    refine if_pos (hdrop.imp_right fun hlast => ?_)
    rw [← h.last hlast.1, hlast.2]

theorem Stored.keep_of_not_dropped (h : Stored s kept) {cmd : Line} (hdrop : ¬ s.Dropped (some cmd)) :
    keep kept (some cmd) = kept ++ [cmd.chars] := by
  refine if_neg fun hin => hdrop (hin.imp_right fun hlast => ?_)
  have hmin := h.count
  have hcount : 0 < s.count := by
    have hne : kept ≠ [] := fun hnil => by simp [hnil] at hlast
    have hpos := List.length_pos_iff.mpr hne
    simp only [HIST_MAX] at hmin
    omega
  exact ⟨hcount, Option.some.inj (hlast.symm.trans (h.last hcount).symm)⟩

theorem hist_add_of_dropped {cmd : Option Line} (hdrop : s.Dropped cmd) : hist_add s cmd = s := by
  cases cmd with
  | none => rfl
  | some cmd =>
    obtain hempty | hlast := hdrop
    · exact if_pos hempty
    · rw [hist_add, if_pos hlast, ite_self]

theorem hist_add_of_not_dropped {cmd : Line} (hdrop : ¬ s.Dropped (some cmd)) :
    hist_add s (some cmd) =
      { hist := Function.update s.hist s.head cmd.chars
        head := (s.head + 1) % HIST_MAX
        count := if s.count < HIST_MAX then s.count + 1 else s.count
        pos := (s.head + 1) % HIST_MAX
        browsing := false } := by
  obtain ⟨hempty, hlast⟩ := not_or.mp hdrop
  rw [hist_add, if_neg hempty, if_neg hlast, List.take_of_length_le cmd.short]

theorem Stored.add (h : Stored s kept) (cmd : Option Line) : Stored (hist_add s cmd) (keep kept cmd) := by
  by_cases hdrop : s.Dropped cmd
  · rwa [hist_add_of_dropped hdrop, h.keep_of_dropped hdrop]
  cases cmd with
  | none => exact absurd trivial hdrop
  | some cmd =>
    rw [hist_add_of_not_dropped hdrop, h.keep_of_not_dropped hdrop]
    have hmin := h.count
    refine ⟨?_, ?_, ?_⟩
    · dsimp only
      rw [h.head]
      exact h.latest.push cmd.chars
    · dsimp only
      rw [h.head, Nat.mod_add_mod, List.length_append, List.length_singleton]
    · dsimp only
      rw [List.length_append, List.length_singleton]
      by_cases hfull : s.count < HIST_MAX
      · rw [if_pos hfull]
        omega
      · rw [if_neg hfull]
        omega

end

/-! ## The browse position is the cursor -/

/-- The browse position of a cursor. Without one nothing is browsed, or the only command there is. -/
def Browses (s : History) (kept : List (List UInt8)) : Option Nat → Prop
  | none => s.browsing = true → s.count = 1 ∧ s.pos = (kept.length - 1) % HIST_MAX
  | some k => s.browsing = true ∧ k < s.count ∧ s.pos = (kept.length - 1 - k) % HIST_MAX

/-- A command that is dropped does not interrupt browsing. -/
def Uninterrupted (s : History) : Op → Prop
  | .add cmd => s.Dropped cmd → s.browsing = false ∨ s.count ≤ 1
  | _ => True

instance (s : History) : DecidablePred (Uninterrupted s)
  | .add cmd => inferInstanceAs (Decidable (s.Dropped cmd → s.browsing = false ∨ s.count ≤ 1))
  | .prev => inferInstanceAs (Decidable True)
  | .next => inferInstanceAs (Decidable True)
  | .get _ => inferInstanceAs (Decidable True)
  | .reset_pos => inferInstanceAs (Decidable True)

/-- The history does what the list with a cursor does. -/
structure Shows (s : History) (b : Browser) : Prop where
  stored : Stored s b.kept
  browses : Browses s b.kept b.cursor

theorem shows_init : Shows hist_init ⟨[], none⟩ := ⟨stored_init, fun h => by cases h⟩

section
variable {s : History} {b : Browser}

theorem Shows.recent (h : Shows s b) : b.recent = [] ↔ s.count = 0 := by
  have hlength := length_recent b
  rw [← h.stored.count] at hlength
  rw [← List.length_eq_zero_iff, hlength]

theorem Shows.idle (h : Shows s b) (hbrowsing : s.browsing = false) : b.cursor = none := by
  have hat := h.browses
  cases hcursor : b.cursor with
  | none => rfl
  | some k =>
    rw [hcursor] at hat
    rw [hat.1] at hbrowsing
    cases hbrowsing

theorem Shows.position (h : Shows s b) (hbrowsing : s.browsing = true) :
    ∃ k, k < s.count ∧ s.pos = (b.kept.length - 1 - k) % HIST_MAX ∧ (b.cursor = some k ∨ b.cursor = none ∧ k = 0 ∧
        s.count = 1) := by
  have hat := h.browses
  cases hcursor : b.cursor with
  | none =>
    rw [hcursor] at hat
    obtain ⟨hone, hpos⟩ := hat hbrowsing
    exact ⟨0, by omega, hpos, Or.inr ⟨rfl, rfl, hone⟩⟩
  | some k =>
    rw [hcursor] at hat
    exact ⟨k, hat.2.1, hat.2.2, Or.inl rfl⟩

theorem Stored.position_eq_iff {kept : List (List UInt8)} (h : Stored s kept) {k l : Nat} (hk : k < s.count)
    (hl : l < s.count) :
    (kept.length - 1 - k) % HIST_MAX = (kept.length - 1 - l) % HIST_MAX ↔ k = l := by
  have hmin := h.count
  simp only [HIST_MAX] at hmin ⊢
  omega

theorem Shows.add (h : Shows s b) {cmd : Option Line} (hop : Uninterrupted s (.add cmd)) :
    Shows (hist_add s cmd) (b.step (.add cmd)) := by
  refine ⟨h.stored.add cmd, ?_⟩
  change Browses (hist_add s cmd) (keep b.kept cmd) none
  by_cases hdrop : s.Dropped cmd
  · rw [hist_add_of_dropped hdrop, h.stored.keep_of_dropped hdrop]
    intro hbrowsing
    obtain ⟨k, hk, hpos, -⟩ := h.position hbrowsing
    obtain hidle | hone := hop hdrop
    · rw [hbrowsing] at hidle
      cases hidle
    · obtain rfl : k = 0 := by omega
      exact ⟨by omega, hpos⟩
  cases cmd with
  | none => exact absurd trivial hdrop
  | some cmd =>
    rw [hist_add_of_not_dropped hdrop]
    intro hbrowsing
    cases hbrowsing

theorem Shows.prev (h : Shows s b) : (hist_prev s).1 = b.prev.1 ∧ Shows (hist_prev s).2 b.prev.2 := by
  rw [hist_prev, Browser.prev]
  by_cases hcount : s.count = 0
  · rw [if_pos hcount, if_pos (h.recent.mpr hcount)]
    exact ⟨rfl, h⟩
  rw [if_neg hcount, if_neg (mt h.recent.mp hcount)]
  have hpos : 0 < s.count := Nat.pos_of_ne_zero hcount
  have hnewest := h.stored.newest hpos
  have hlength := length_recent b
  rw [← h.stored.count] at hlength
  cases hbrowsing : s.browsing with
  | false =>
    rw [if_pos rfl, h.idle hbrowsing]
    refine ⟨?_, ⟨h.stored.latest, h.stored.head, h.stored.count⟩, ⟨rfl, hpos, hnewest⟩⟩
    rw [hnewest]
    exact h.stored.back hpos
  | true =>
    obtain ⟨k, hk, hat, hcursor⟩ := h.position hbrowsing
    have holdest : s.oldest = (b.kept.length - 1 - (s.count - 1)) % HIST_MAX := by
      rw [h.stored.oldest]
      congr 1
      omega
    rw [if_neg (by decide), holdest, hat]
    simp only [h.stored.position_eq_iff hk (by omega : s.count - 1 < s.count)]
    by_cases hlast : k = s.count - 1
    · rw [if_pos hlast]
      obtain hsome | ⟨hnone, rfl, hone⟩ := hcursor
      · rw [hsome]
        dsimp only
        rw [if_neg (by omega)]
        exact ⟨h.stored.back hk, h⟩
      · rw [hnone]
        exact ⟨h.stored.back hk, h.stored, ⟨hbrowsing, hk, hat⟩⟩
    · obtain hsome | ⟨-, rfl, hone⟩ := hcursor
      · have hprev : ((b.kept.length - 1 - k) % HIST_MAX + HIST_MAX - 1) % HIST_MAX =
            (b.kept.length - 1 - (k + 1)) % HIST_MAX := by
          have hmin := h.stored.count
          simp only [HIST_MAX] at hmin ⊢
          omega
        rw [if_neg hlast, hsome, hprev]
        dsimp only
        rw [if_pos (by omega)]
        refine ⟨h.stored.back (by omega), ⟨h.stored.latest, h.stored.head, h.stored.count⟩, ⟨rfl, ?_, rfl⟩⟩
        dsimp only
        omega
      · omega

theorem Shows.next (h : Shows s b) : (hist_next s).1 = b.next.1 ∧ Shows (hist_next s).2 b.next.2 := by
  rw [hist_next, Browser.next]
  cases hbrowsing : s.browsing with
  | false =>
    rw [if_pos (Or.inr rfl), h.idle hbrowsing]
    exact ⟨rfl, h⟩
  | true =>
    obtain ⟨k, hk, hat, hcursor⟩ := h.position hbrowsing
    have hpos : 0 < s.count := by omega
    rw [if_neg (by simp; omega), h.stored.newest hpos, hat]
    have hsame := h.stored.position_eq_iff hk hpos
    rw [Nat.sub_zero] at hsame
    simp only [hsame]
    by_cases hzero : k = 0
    · subst hzero
      rw [if_pos rfl]
      obtain hsome | ⟨hnone, -, -⟩ := hcursor
      · rw [hsome]
        exact ⟨rfl, ⟨h.stored.latest, h.stored.head, h.stored.count⟩, fun hidle => by cases hidle⟩
      · rw [hnone]
        refine ⟨rfl, ⟨h.stored.latest, h.stored.head, h.stored.count⟩, ?_⟩
        dsimp only
        rw [hnone]
        intro hidle
        cases hidle
    · obtain hsome | ⟨-, hz, -⟩ := hcursor
      · obtain ⟨l, rfl⟩ := Nat.exists_eq_succ_of_ne_zero hzero
        have hnext : ((b.kept.length - 1 - (l + 1)) % HIST_MAX + 1) % HIST_MAX =
            (b.kept.length - 1 - l) % HIST_MAX := by
          have hmin := h.stored.count
          simp only [HIST_MAX] at hmin ⊢
          omega
        rw [if_neg hzero, hsome, hnext]
        refine ⟨h.stored.back (by omega), ⟨h.stored.latest, h.stored.head, h.stored.count⟩, ⟨rfl, ?_, rfl⟩⟩
        dsimp only
        omega
      · exact absurd hz hzero

theorem Shows.call (h : Shows s b) {op : Op} (hop : Uninterrupted s op) :
    (call s op).1 = (b.call op).1 ∧ Shows (step s op) (b.step op) := by
  cases op with
  | add cmd => exact ⟨rfl, h.add hop⟩
  | prev => exact h.prev
  | next => exact h.next
  | get index => exact ⟨h.stored.get b.cursor index, h⟩
  | reset_pos => exact ⟨rfl, ⟨h.stored.latest, h.stored.head, h.stored.count⟩, fun hidle => by cases hidle⟩

theorem Shows.answers (h : Shows s b) {ops : List Op} (halong : Along step Uninterrupted s ops) :
    answers s ops = b.answers ops := by
  induction ops generalizing s b with
  | nil => rfl
  | cons op ops ih =>
    obtain ⟨hop, hrest⟩ := halong
    obtain ⟨hanswer, hnext⟩ := h.call hop
    rw [history.answers, Browser.answers, hanswer, ih hnext hrest]

end

theorem hist_prev_frame (s : History) : (hist_prev s).2.hist = s.hist ∧ (hist_prev s).2.head = s.head ∧
    (hist_prev s).2.count = s.count := by
  rw [hist_prev]
  dsimp only
  split_ifs <;> exact ⟨rfl, rfl, rfl⟩

theorem hist_next_frame (s : History) : (hist_next s).2.hist = s.hist ∧ (hist_next s).2.head = s.head ∧
    (hist_next s).2.count = s.count := by
  rw [hist_next]
  dsimp only
  split_ifs <;> exact ⟨rfl, rfl, rfl⟩

namespace Browser

theorem kept_prev (b : Browser) : b.prev.2.kept = b.kept := by
  rw [prev]
  split_ifs with hnil
  · rfl
  · cases b.cursor with
    | none => rfl
    | some k =>
      dsimp only
      split_ifs <;> rfl

theorem kept_next (b : Browser) : b.next.2.kept = b.kept := by
  rw [next]
  match b.cursor with
  | none => rfl
  | some 0 => rfl
  | some (k + 1) => rfl

end Browser

theorem Stored.step {s : History} {b : Browser} (h : Stored s b.kept) (op : Op) : Stored (step s op)
    (b.step op).kept := by
  cases op with
  | add cmd => exact h.add cmd
  | prev =>
    obtain ⟨hhist, hhead, hcount⟩ := hist_prev_frame s
    change Stored (hist_prev s).2 b.prev.2.kept
    rw [b.kept_prev]
    exact ⟨hhist ▸ h.latest, hhead.trans h.head, hcount.trans h.count⟩
  | next =>
    obtain ⟨hhist, hhead, hcount⟩ := hist_next_frame s
    change Stored (hist_next s).2 b.next.2.kept
    rw [b.kept_next]
    exact ⟨hhist ▸ h.latest, hhead.trans h.head, hcount.trans h.count⟩
  | get index => exact h
  | reset_pos => exact ⟨h.latest, h.head, h.count⟩

theorem Stored.run {s : History} {b : Browser} (h : Stored s b.kept) (ops : List Op) :
    Stored (machine.run history.step s ops) (machine.run Browser.step b ops).kept := by
  induction ops generalizing s b with
  | nil => exact h
  | cons op ops ih => exact ih (h.step op)

/-- In a run in which no dropped command interrupts browsing, the calls return what they return for a list with a
cursor. -/
theorem history_refines_browser (ops : List Op) (h : Along step Uninterrupted hist_init ops) :
    answers hist_init ops = Browser.answers ⟨[], none⟩ ops ∧
      ∀ index, hist_get (run step hist_init ops) index = (run Browser.step ⟨[], none⟩ ops).get index :=
  ⟨shows_init.answers h, fun index => (@Stored.run hist_init ⟨[], none⟩ stored_init ops).get _ index⟩

/-- A line with one character. -/
def key (c : UInt8) : Op := .add (some ⟨[c], Nat.le_add_left 1 254⟩)

theorem browse_two :
    answers hist_init [key 97, key 98, .prev, .prev, .prev, .next, .next, key 98, .prev] =
      Browser.answers ⟨[], none⟩ [key 97, key 98, .prev, .prev, .prev, .next, .next, key 98, .prev] :=
  (history_refines_browser _ (by simp only [along_cons, along_nil]; decide)).1

/-- A repetition that is dropped does not end browsing: the next call goes on to an older command. -/
theorem repeated_command_keeps_browsing :
    ¬ ∀ ops : List Op, answers hist_init ops = Browser.answers ⟨[], none⟩ ops := by
  intro h
  have hrun := h [key 97, key 98, .prev, key 98, .prev]
  exact absurd hrun (by decide)

end graceos.shell.history
