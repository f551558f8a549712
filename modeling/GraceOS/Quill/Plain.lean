import GraceOS.Quill.Session

/-!
# What the cells can hold

Every edit moves bytes that are there, or puts in the byte of a key or a NUL. So no session has a line end in a row.
-/

namespace graceos.quill

/-! ## Rows -/

/-- All cells of a row satisfy `P`. -/
def Row.All (P : UInt8 → Prop) (row : Row) : Prop := ∀ k, P (row.cells k)

variable {P : UInt8 → Prop} {row : Row}

theorem Row.All.put (h : row.All P) (k : Nat) {c : UInt8} (hc : P c) : (row.put k c).All P := by
  intro j
  by_cases hj : j = k
  · rw [hj, Row.put_self]
    exact hc
  · rw [Row.put_of_ne hj]
    exact h j

theorem Row.All.copy_from (h : row.All P) {src : Nat → UInt8} (hsrc : ∀ k, P (src k)) (d i n : Nat) :
    (copy_from row d src i n).All P := by
  induction n generalizing row i with
  | zero => exact h
  | succ n ih =>
    rw [quill.copy_from]
    split
    · exact h.put _ (hsrc i)
    · exact ih (h.put _ (hsrc i)) (i + 1)

theorem Row.All.shift_right (h : row.All P) (x n : Nat) : (shift_right row x n).All P := by
  intro k
  rw [shift_right_cells]
  split
  · exact h (k - 1)
  · exact h k

theorem Row.All.shift_left (h : row.All P) (i n : Nat) : (shift_left row i n).All P := by
  intro k
  rw [shift_left_cells]
  split
  · exact h (k + 1)
  · exact h k

/-! ## Buffers -/

/-- All cells of a buffer satisfy `P`. -/
def Buffer.All (P : UInt8 → Prop) (b : Buffer) : Prop := ∀ y, (b.lines y).All P

variable {b : Buffer} {e : Editor}

theorem Buffer.All.set_line (h : b.All P) (y : Nat) (hrow : row.All P) : (b.set_line y row).All P := by
  intro j
  change Row.All P (Function.update b.lines y row j)
  by_cases hj : j = y
  · rw [hj, Function.update_self]
    exact hrow
  · rw [Function.update_of_ne hj]
    exact h j

theorem Buffer.All.strcpy_line (h : b.All P) (y : Nat) {src : Nat → UInt8} (hsrc : ∀ k, P (src k)) :
    (b.set_line y (strcpy (b.lines y) src)).All P :=
  h.set_line y ((h y).copy_from hsrc 0 0 Q_MAX_COLS)

theorem Buffer.All.pull_up (h : b.All P) (i n : Nat) : (pull_up b i n).All P := by
  induction n generalizing b i with
  | zero => exact h
  | succ n ih => exact ih (h.strcpy_line i (h (i + 1))) (i + 1)

theorem Buffer.All.push_down (h : b.All P) (y n : Nat) : (push_down b y n).All P := by
  induction n generalizing b with
  | zero => exact h
  | succ n ih => exact ih (h.strcpy_line (y + n + 2) (h (y + n + 1)))

theorem Buffer.All.load_loop (h : b.All P) (hzero : P 0) (line col : Nat) {data : List UInt8}
    (hdata : ∀ c ∈ data, c ≠ 10 → c ≠ 13 → P c) : (load_loop b line col data).All P := by
  induction data generalizing b line col with
  | nil => exact h
  | cons c data ih =>
    have hrest : ∀ c ∈ data, c ≠ 10 → c ≠ 13 → P c := fun c hc => hdata c (List.mem_cons_of_mem _ hc)
    rw [quill.load_loop]
    split
    · exact h
    split
    · exact ih h line col hrest
    next hreturn =>
    split
    · dsimp only
      split
      · exact h
      · have hgrown : Buffer.All P { b with line_count := max b.line_count (line + 1 + 1) } := h
        exact ih hgrown (line + 1) 0 hrest
    next hnewline =>
    split
    · have hc := hdata c List.mem_cons_self hnewline hreturn
      exact ih (h.set_line line (((h line).put col hc).put (col + 1) hzero)) line (col + 1) hrest
    · exact ih h line col hrest

theorem Buffer.All.quill_load {filename data : List UInt8} (hzero : P 0) (hdata : ∀ c ∈ data, c ≠ 10 → c ≠ 13 → P c)
    (r : Int) : (quill_load filename r data).All P := by
  have hempty : Buffer.All P { filename := filename.take 127 } := fun _ _ => hzero
  unfold quill.quill_load
  dsimp only
  split
  · exact hempty
  split
  · exact hempty
  · exact hempty.load_loop hzero 0 0 hdata

/-- A key keeps what holds of all cells, of the NUL and of the byte that it types. -/
theorem Buffer.All.press (h : e.buffer.All P) (hzero : P 0) {key : Key} (hkey : ∀ c, key = .insert c → P c) :
    (press e key).buffer.All P := by
  cases key with
  | insert c =>
    change (quill_insert c e).buffer.All P
    unfold quill_insert
    split
    · exact h
    dsimp only
    split
    · exact h
    · exact h.set_line _ (((h _).shift_right _ _).put _ (hkey c rfl))
  | backspace =>
    change (quill_backspace e).buffer.All P
    unfold quill_backspace
    dsimp only
    split
    · exact h
    split
    · exact h.set_line _ ((h _).shift_left _ _)
    split
    · exact (h.set_line _ ((h _).copy_from (h _) _ _ _)).pull_up _ _
    · exact h
  | enter =>
    change (quill_enter e).buffer.All P
    unfold quill_enter
    dsimp only
    split
    · exact h
    have hpushed := h.push_down e.cursor.y (e.buffer.line_count - (e.cursor.y + 1))
    split
    · exact (hpushed.strcpy_line _ fun k => hpushed _ _).set_line _ ((hpushed _).put _ hzero)
    · exact hpushed.set_line _ ((hpushed _).put _ hzero)
  | move | home | end_key => exact h

theorem Buffer.All.session (h : e.buffer.All P) (hzero : P 0) {keys : List Key}
    (hkeys : ∀ key ∈ keys, ∀ c, key = .insert c → P c) : (keys.foldl quill.press e).buffer.All P := by
  induction keys generalizing e with
  | nil => exact h
  | cons key keys ih =>
    exact ih (h.press hzero (hkeys key List.mem_cons_self)) fun k hk => hkeys k (List.mem_cons_of_mem key hk)

theorem Buffer.All.line_texts (h : b.All P) {l : List UInt8} (hl : l ∈ b.line_texts) : ∀ c ∈ l, P c := by
  intro c hc
  obtain ⟨y, -, rfl⟩ := List.mem_map.mp hl
  obtain ⟨k, -, rfl⟩ := List.mem_map.mp hc
  exact h y k

theorem session_plain {filename data : List UInt8} {r : Int} {keys : List Key} (hkeys : ∀ key ∈ keys, key.Valid)
    {l : List UInt8} (hl : l ∈ (keys.foldl press (start (quill_load filename r data))).buffer.line_texts) :
    (10 : UInt8) ∉ l ∧ (13 : UInt8) ∉ l := by
  have hall : Buffer.All (fun c => c ≠ 10 ∧ c ≠ 13) (keys.foldl press (start (quill_load filename r data))).buffer := by
    refine Buffer.All.session (Buffer.All.quill_load (by decide) (fun c _ h h' => ⟨h, h'⟩) r) (by decide) ?_
    rintro key hkey c rfl
    obtain ⟨hlow, -⟩ := hkeys _ hkey
    constructor
    · rintro rfl
      exact absurd hlow (by decide)
    · rintro rfl
      exact absurd hlow (by decide)
  have hline := hall.line_texts hl
  exact ⟨fun hc => (hline 10 hc).1 rfl, fun hc => (hline 13 hc).2 rfl⟩

end graceos.quill
