import GraceOS.Quill.Text

/-!
# Editing sessions

What `quill_load` leaves, and what holds after any keys.
-/

namespace graceos.quill

/-- What holds of the buffer and the cursor between two keys. -/
structure Invariant (e : Editor) : Prop where
  line_count_pos : 1 ≤ e.buffer.line_count
  line_count_le : e.buffer.line_count ≤ Q_MAX_LINES
  row_lt : e.cursor.y < e.buffer.line_count
  col_le : e.cursor.x ≤ strlen (e.buffer.lines e.cursor.y).cells
  terminated : ∀ y < e.buffer.line_count, ∃ k < Q_MAX_COLS, (e.buffer.lines y).cells k = 0
  no_overrun : ∀ y, (e.buffer.lines y).overrun = false
  no_stray : e.buffer.stray = false

variable {e : Editor}

theorem Spells.terminated {cells : Nat → UInt8} {s : List UInt8} (h : Spells cells s) :
    ∃ k < Q_MAX_COLS, cells k = 0 := ⟨s.length, h.short, h.nul⟩

theorem Ready.invariant {A B : List (List UInt8)} {l : List UInt8} (h : Ready e A l B) : Invariant e where
  line_count_pos := by rw [h.count]; exact Nat.le_add_left _ _
  line_count_le := by rw [h.count]; exact h.room
  row_lt := by rw [h.count, h.row]; omega
  col_le := by rw [h.current.strlen_eq]; exact h.col
  terminated y hy := by
    rw [h.lines.count] at hy
    exact (h.lines.holds.rows y _ (List.getElem?_eq_getElem hy)).terminated
  no_overrun := h.lines.holds.clean
  no_stray := h.lines.holds.inside

theorem Invariant.shows (h : Invariant e) : Shows e.buffer e.buffer.line_texts := by
  have hcount : e.buffer.line_texts.length = e.buffer.line_count := by
    rw [Buffer.line_texts, List.length_map, List.length_range]
  refine ⟨⟨?_, h.no_overrun, h.no_stray⟩, hcount.symm⟩
  intro y s hs
  obtain ⟨hy, hs⟩ := List.getElem?_eq_some_iff.mp hs
  rw [hcount] at hy
  obtain ⟨k, hk, hzero⟩ := h.terminated y hy
  obtain ⟨t, ht⟩ := exists_spells hk hzero
  have hst : row_text (e.buffer.lines y) = s := by
    rw [← hs]
    simp only [Buffer.line_texts, List.getElem_map, List.getElem_range]
  rw [← hst, ht.row_text]
  exact ht

theorem Invariant.ready (h : Invariant e) : ∃ A l B, Ready e A l B := by
  have hshows := h.shows
  have hcount := hshows.count
  have hy : e.cursor.y < e.buffer.line_texts.length := by have := h.row_lt; omega
  exact hshows.ready (by have := h.line_count_le; omega) hy h.col_le

theorem Invariant.move (h : Invariant e) {cursor : Cursor} (hy : cursor.y < e.buffer.line_count)
    (hx : cursor.x ≤ strlen (e.buffer.lines cursor.y).cells) : Invariant { e with cursor } where
  line_count_pos := h.line_count_pos
  line_count_le := h.line_count_le
  row_lt := hy
  col_le := hx
  terminated := h.terminated
  no_overrun := h.no_overrun
  no_stray := h.no_stray

theorem move_y_lt (h : Invariant e) (dy : Int) : move_y dy e < e.buffer.line_count := by
  have hpos := h.line_count_pos
  have hrow := h.row_lt
  unfold move_y
  split
  · exact hrow
  · dsimp only
    split
    · omega
    · omega

theorem move_x_lt (dx : Int) {b : Buffer} {cursor : Cursor} (h : cursor.y < b.line_count) :
    (move_x dx b cursor).y < b.line_count := by
  unfold move_x
  split
  · split
    · exact h
    · split
      · exact (Nat.sub_le _ _).trans_lt h
      · exact h
  · split
    · split
      · exact h
      · split
        · next hlt => exact hlt
        · exact h
    · exact h

theorem press_effect (h : Invariant e) {key : Key} (hkey : key.Valid) :
    Invariant (press e key) ∧ Effect e (press e key) key := by
  obtain ⟨A, l, B, hready⟩ := h.ready
  cases key with
  | insert c =>
    have hc : c ≠ 0 := by
      rintro rfl
      exact absurd hkey.1 (by decide)
    obtain ⟨⟨_, _, _, hready'⟩, heffect⟩ := insert_effect hready hc
    exact ⟨hready'.invariant, heffect⟩
  | backspace =>
    obtain ⟨⟨_, _, _, hready'⟩, heffect⟩ := backspace_effect hready
    exact ⟨hready'.invariant, heffect⟩
  | enter =>
    obtain ⟨⟨_, _, _, hready'⟩, heffect⟩ := enter_effect hready
    exact ⟨hready'.invariant, heffect⟩
  | move dx dy =>
    refine ⟨h.move ?_ (Nat.min_le_right _ _), rfl⟩
    exact move_x_lt dx (move_y_lt h dy)
  | home => exact ⟨h.move h.row_lt (Nat.zero_le _), rfl⟩
  | end_key => exact ⟨h.move h.row_lt (le_refl _), rfl⟩

/-! ## Loading -/

/-- What the loop of `quill_load` keeps: the last cell of every row stays 0. -/
structure Loaded (b : Buffer) : Prop where
  line_count_pos : 1 ≤ b.line_count
  line_count_le : b.line_count ≤ Q_MAX_LINES
  last_cell : ∀ y, (b.lines y).cells (Q_MAX_COLS - 1) = 0
  no_overrun : ∀ y, (b.lines y).overrun = false
  no_stray : b.stray = false

theorem Loaded.set_char {b : Buffer} (h : Loaded b) {line col : Nat} (hline : line < Q_MAX_LINES)
    (hcol : col < Q_MAX_COLS - 1) (c : UInt8) :
    Loaded (b.set_line line (((b.lines line).put col c).put (col + 1) 0)) where
  line_count_pos := h.line_count_pos
  line_count_le := h.line_count_le
  last_cell y := by
    change (Function.update b.lines line _ y).cells (Q_MAX_COLS - 1) = 0
    by_cases hy : y = line
    · subst hy
      rw [Function.update_self]
      by_cases hlast : Q_MAX_COLS - 1 = col + 1
      · rw [hlast, Row.put_self]
      · rw [Row.put_of_ne hlast, Row.put_of_ne (by omega)]
        exact h.last_cell y
    · rw [Function.update_of_ne hy]
      exact h.last_cell y
  no_overrun y := by
    change (Function.update b.lines line _ y).overrun = false
    by_cases hy : y = line
    · subst hy
      rw [Function.update_self, Row.put_overrun (by omega), Row.put_overrun (by omega)]
      exact h.no_overrun y
    · rw [Function.update_of_ne hy]
      exact h.no_overrun y
  no_stray := by
    change (b.stray || decide (Q_MAX_LINES ≤ line)) = false
    rw [h.no_stray, decide_eq_false (by omega), Bool.or_false]

theorem Loaded.load_loop {b : Buffer} (h : Loaded b) (line col : Nat) (data : List UInt8) :
    Loaded (load_loop b line col data) := by
  induction data generalizing b line col with
  | nil => exact h
  | cons c data ih =>
    rw [quill.load_loop]
    split
    · exact h
    next hline =>
    split
    · exact ih h line col
    split
    · dsimp only
      split
      · exact h
      next hnext =>
      have hle := h.line_count_le
      have hnew : Loaded { b with line_count := max b.line_count (line + 1 + 1) } :=
        ⟨le_max_of_le_left h.line_count_pos, max_le hle (by omega), h.last_cell, h.no_overrun, h.no_stray⟩
      exact ih hnew _ _
    split
    · next hcol => exact ih (h.set_char (by omega) hcol c) line (col + 1)
    · exact ih h line col

theorem quill_load_loaded (filename : List UInt8) (r : Int) (data : List UInt8) :
    Loaded (quill_load filename r data) := by
  have hempty : Loaded { filename := filename.take 127 } :=
    ⟨le_refl _, (by decide : 1 ≤ Q_MAX_LINES), fun _ => rfl, fun _ => rfl, rfl⟩
  unfold quill_load
  dsimp only
  split
  · exact hempty
  split
  · exact hempty
  · have hloaded := hempty.load_loop 0 0 data
    exact ⟨hloaded.line_count_pos, hloaded.line_count_le, hloaded.last_cell, hloaded.no_overrun, hloaded.no_stray⟩

theorem Loaded.invariant {b : Buffer} (h : Loaded b) : Invariant (start b) where
  line_count_pos := h.line_count_pos
  line_count_le := h.line_count_le
  row_lt := h.line_count_pos
  col_le := Nat.zero_le _
  terminated y _ := ⟨Q_MAX_COLS - 1, by decide, h.last_cell y⟩
  no_overrun := h.no_overrun
  no_stray := h.no_stray

/-- After any keys the buffer is in order, and the next key does to its text what it should. -/
theorem quill_edits (filename : List UInt8) (r : Int) (data : List UInt8) (keys : List Key)
    (hkeys : ∀ key ∈ keys, key.Valid) :
    let e := keys.foldl press (start (quill_load filename r data))
    Invariant e ∧ ∀ key : Key, key.Valid → Effect e (press e key) key := by
  dsimp only
  have hrun : ∀ e : Editor, Invariant e → Invariant (keys.foldl press e) := by
    induction keys with
    | nil => exact fun e h => h
    | cons key keys ih =>
      intro e h
      exact ih (fun k hk => hkeys k (List.mem_cons_of_mem key hk)) _
        (press_effect h (hkeys key List.mem_cons_self)).1
  have hinv := hrun _ (quill_load_loaded filename r data).invariant
  exact ⟨hinv, fun key hkey => (press_effect hinv hkey).2⟩

/-- Three lines: the second is joined to the first, the text is split behind the third character, and one more is put
in. -/
theorem quill_edits_three_lines :
    let keys := [.move 0 1, .home, .backspace, .move 1 0, .enter, .insert 33]
    let e := keys.foldl press (start (quill_load [97] 0 [97, 98, 10, 99, 100, 10, 101, 102]))
    e.buffer.line_texts = [[97, 98, 99], [33, 100], [101, 102]] ∧
      Invariant e ∧ ∀ key : Key, key.Valid → Effect e (press e key) key :=
  ⟨by decide +kernel, quill_edits _ 0 _ [.move 0 1, .home, .backspace, .move 1 0, .enter, .insert 33] (by
    intro key hkey
    simp only [List.mem_cons, List.not_mem_nil, or_false] at hkey
    rcases hkey with rfl | rfl | rfl | rfl | rfl | rfl
    case inr.inr.inr.inr.inr => exact ⟨by decide, by decide⟩
    all_goals exact trivial)⟩

end graceos.quill
