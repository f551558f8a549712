import GraceOS.Bfs.ReadBack
import GraceOS.Quill.Session

/-!
# Opening and saving

`quill_load` and `quill_save` on a BranchFS volume. A file comes back as it was where it fits the limits of the
loader and those of the saver, and the write succeeds; neither limit nor the result of the write is reported.
-/

namespace graceos.quill

open bfs List Function

/-- `sizeof(file_data)`. -/
def FILE_DATA_SIZE : Nat := Q_MAX_LINES * Q_MAX_COLS

/-- The bytes of a name. -/
def name_bytes (name : FileName) : List UInt8 := name.chars.map Int8.toUInt8

/-- The name that bytes without a NUL spell. -/
def file_name (bytes : List UInt8) : FileName where
  chars := (bytes.map UInt8.toInt8).filter (· ≠ 0)
  no_nul h := by simpa using (List.mem_filter.mp h).2

/-- `quill_load` on a volume. -/
def open_file (s : Bfs) (name : FileName) : Option (Buffer × Bfs) := do
  if name.chars.isEmpty then some (quill_load [] 0 [], s)
  else
    let r ← s.bfs_read_file name (UInt64.ofNat FILE_DATA_SIZE)
    let b := quill_load (name_bytes name) r.code r.data
    if r.code = -1 then
      let (_, s) ← s.bfs_create name 0
      some (b, s)
    else some (b, s)

/-- The loop of `quill_save` over the `n` lines from line `i` on. -/
def save_loop (b : Buffer) (file_data : List UInt8) (i : Nat) : Nat → List UInt8
  | 0 => file_data
  | n + 1 =>
    let line := row_text (b.lines i)
    if file_data.length + line.length + 1 ≥ FILE_DATA_SIZE then file_data
    else save_loop b (file_data ++ line ++ if i < b.line_count - 1 then [10] else []) (i + 1) n

/-- What `quill_save` gives to `bfs_write_file`. -/
def saved_data (b : Buffer) : List UInt8 := save_loop b [] 0 b.line_count

/-- `quill_save`, with the result of `bfs_write_file`, which it ignores. -/
def quill_save (s : Bfs) (b : Buffer) : Option (Int × Buffer × Bfs) := do
  if b.filename.isEmpty then some (0, b, s)
  else
    let data := saved_data b
    let (code, s) ← s.bfs_write_file (file_name b.filename) (fun i => data.getD i 0) (UInt64.ofNat data.length)
    some (code, { b with modified := false }, s)

/-! ## Lines of a file -/

variable {l : List UInt8} {L : List (List UInt8)} {c : UInt8}

/-- The lines of a file, where `l` is the part of the current line before `data`. -/
def split_lines (l : List UInt8) : List UInt8 → List (List UInt8)
  | [] => [l]
  | c :: data =>
    if c = 13 then split_lines l data
    else if c = 10 then l :: split_lines [] data
    else split_lines (l ++ [c]) data

theorem split_lines_head (l data : List UInt8) : ∃ t L, split_lines l data = (l ++ t) :: L := by
  induction data generalizing l with
  | nil => exact ⟨[], [], by rw [append_nil]; rfl⟩
  | cons c data ih =>
    rw [split_lines]
    split
    · exact ih l
    split
    · exact ⟨[], split_lines [] data, by rw [append_nil]⟩
    · obtain ⟨t, L, h⟩ := ih (l ++ [c])
      exact ⟨c :: t, L, by rw [h, append_assoc]; rfl⟩

theorem intercalate_split_lines (l data : List UInt8) :
    List.intercalate [10] (split_lines l data) = l ++ data.filter (· ≠ 13) := by
  induction data generalizing l with
  | nil => simp [split_lines]
  | cons c data ih =>
    rw [split_lines]
    split
    · next hc => rw [ih, filter_cons_of_neg (by simpa using hc)]
    next hc =>
    rw [filter_cons_of_pos (by simpa using hc)]
    split
    · next hnl =>
      obtain ⟨t, L, h⟩ := split_lines_head [] data
      rw [h, intercalate_cons_cons, ← h, ih, hnl]
      simp
    · rw [ih]
      simp

/-- Lines without line ends are the lines of the file that they join to. -/
theorem split_lines_intercalate {p : List UInt8} (hplain : ∀ s ∈ l :: L, (10 : UInt8) ∉ s ∧ (13 : UInt8) ∉ s) :
    split_lines p (List.intercalate [10] (l :: L)) = (p ++ l) :: L := by
  induction L generalizing l p with
  | nil =>
    rw [intercalate_singleton]
    have hl := hplain l mem_cons_self
    clear hplain
    induction l generalizing p with
    | nil => simp [split_lines]
    | cons c l ih =>
      have hc10 : c ≠ 10 := fun h => hl.1 (h ▸ mem_cons_self)
      have hc13 : c ≠ 13 := fun h => hl.2 (h ▸ mem_cons_self)
      rw [split_lines, if_neg hc13, if_neg hc10,
        ih ⟨fun h => hl.1 (mem_cons_of_mem c h), fun h => hl.2 (mem_cons_of_mem c h)⟩, append_assoc]
      rfl
  | cons m L ih =>
    have hl := hplain l mem_cons_self
    have hrest := @ih m [] fun s hs => hplain s (mem_cons_of_mem l hs)
    rw [intercalate_cons_cons]
    clear hplain ih
    induction l generalizing p with
    | nil =>
      change split_lines p (10 :: List.intercalate [10] (m :: L)) = _
      rw [split_lines, if_neg (by decide), if_pos rfl, hrest, append_nil]
      rfl
    | cons c l ih =>
      have hc10 : c ≠ 10 := fun h => hl.1 (h ▸ mem_cons_self)
      have hc13 : c ≠ 13 := fun h => hl.2 (h ▸ mem_cons_self)
      rw [cons_append, cons_append, split_lines, if_neg hc13, if_neg hc10,
        ih ⟨fun h => hl.1 (mem_cons_of_mem c h), fun h => hl.2 (mem_cons_of_mem c h)⟩, append_assoc]
      rfl

theorem mem_intercalate (h : c ∈ List.intercalate [10] (l :: L)) :
    c = 10 ∨ ∃ m ∈ l :: L, c ∈ m := by
  rw [intercalate_cons] at h
  rcases List.mem_append.mp h with h | h
  · exact .inr ⟨l, mem_cons_self, h⟩
  · obtain ⟨m, hm, hc⟩ := List.mem_flatMap.mp h
    rcases List.mem_cons.mp hc with rfl | hc
    · exact .inl rfl
    · exact .inr ⟨m, mem_cons_of_mem l hm, hc⟩

/-! ## Loading -/

variable {b : Buffer} {A : List (List UInt8)} {filename : List UInt8}

theorem Spells.snoc {row : Row} (h : Spells row.cells l) (hc : c ≠ 0) (hfits : l.length + 1 < Q_MAX_COLS) :
    Spells ((row.put l.length c).put (l.length + 1) 0).cells (l ++ [c]) ∧
      ((row.put l.length c).put (l.length + 1) 0).overrun = row.overrun := by
  refine ⟨⟨?_, ?_, ?_, ?_⟩, ?_⟩
  · intro k d hk
    obtain ⟨hlt, -⟩ := List.getElem?_eq_some_iff.mp hk
    rw [length_append, length_singleton] at hlt
    rw [Row.put_of_ne (by omega)]
    by_cases hlast : k = l.length
    · subst hlast
      rw [List.getElem?_append_right (le_refl _), Nat.sub_self, List.getElem?_cons_zero] at hk
      rw [Row.put_self]
      exact Option.some.inj hk
    · rw [List.getElem?_append_left (by omega)] at hk
      rw [Row.put_of_ne hlast]
      exact h.chars k d hk
  · rw [length_append, length_singleton, Row.put_self]
  · intro d hd
    rcases List.mem_append.mp hd with hd | hd
    · exact h.no_nul d hd
    · rw [List.mem_singleton.mp hd]
      exact hc
  · rw [length_append, length_singleton]
    exact hfits
  · rw [Row.put_overrun hfits, Row.put_overrun (by omega)]

theorem Shows.append_blank (h : Shows b L) (hblank : (b.lines L.length).cells 0 = 0) :
    Shows { b with line_count := max b.line_count (L.length + 1) } (L ++ [[]]) := by
  refine ⟨⟨?_, h.holds.clean, h.holds.inside⟩, ?_⟩
  · intro y s hs
    by_cases hy : y < L.length
    · rw [List.getElem?_append_left hy] at hs
      exact h.holds.rows y s hs
    · obtain ⟨hlt, -⟩ := List.getElem?_eq_some_iff.mp hs
      rw [length_append, length_singleton] at hlt
      obtain rfl : y = L.length := by omega
      rw [List.getElem?_append_right (le_refl _), Nat.sub_self, List.getElem?_cons_zero] at hs
      rw [← Option.some.inj hs]
      exact Spells.empty hblank
  · change max b.line_count (L.length + 1) = _
    rw [h.count, length_append, length_singleton]
    omega

theorem Shows.put_char (h : Shows b (A ++ [l]))
    (hline : A.length < Q_MAX_LINES) (hc0 : c ≠ 0) (hwide : l.length + 1 < Q_MAX_COLS) :
    Shows (b.set_line A.length (((b.lines A.length).put l.length c).put (l.length + 1) 0)) (A ++ [l ++ [c]]) := by
  have hcurrent : Spells (b.lines A.length).cells l := h.holds.rows A.length l (getElem?_at A [] l)
  obtain ⟨hspells, hclean⟩ := hcurrent.snoc hc0 hwide
  have hset := h.holds.set_line hline ⟨hspells, hclean.trans (h.holds.clean _)⟩
  refine ⟨hset.mono ?_, ?_⟩
  · intro y s hs
    by_cases hy : y = A.length
    · subst hy
      rw [update_self, ← hs]
      exact (getElem?_at A [] (l ++ [c])).symm
    · rw [update_of_ne hy, ← hs]
      exact getElem?_middle hy l
  · change b.line_count = _
    rw [h.count, length_append, length_append, length_singleton, length_singleton]

theorem Shows.put_behind {col : Nat}
    (h : Shows b (A ++ [l])) (hline : A.length < Q_MAX_LINES) (hcol : l.length ≤ col) (hc : c = 0 ∨ l.length < col)
    (hwide : col + 1 < Q_MAX_COLS) :
    Shows (b.set_line A.length (((b.lines A.length).put col c).put (col + 1) 0)) (A ++ [l]) := by
  have hcurrent : Spells (b.lines A.length).cells l := h.holds.rows A.length l (getElem?_at A [] l)
  have hspells : Spells (((b.lines A.length).put col c).put (col + 1) 0).cells l := by
    refine ⟨fun k d hk => ?_, ?_, hcurrent.no_nul, hcurrent.short⟩
    · obtain ⟨hlt, -⟩ := List.getElem?_eq_some_iff.mp hk
      rw [Row.put_of_ne (by omega), Row.put_of_ne (by omega)]
      exact hcurrent.chars k d hk
    · rw [Row.put_of_ne (by omega)]
      by_cases hat : l.length = col
      · rw [hat, Row.put_self]
        exact hc.resolve_right (by omega)
      · rw [Row.put_of_ne hat]
        exact hcurrent.nul
  have hclean : (((b.lines A.length).put col c).put (col + 1) 0).overrun = false := by
    rw [Row.put_overrun hwide, Row.put_overrun (by omega)]
    exact h.holds.clean _
  refine ⟨(h.holds.set_line hline ⟨hspells, hclean⟩).mono fun y s hs => ?_, h.count⟩
  by_cases hy : y = A.length
  · subst hy
    rw [update_self, ← hs]
    exact (getElem?_at A [] l).symm
  · rw [update_of_ne hy, ← hs]

/-- Where a file fits the buffer, the loop of `quill_load` finds all of its lines. -/
theorem load_loop_shows {data : List UInt8} (h : Shows b (A ++ [l]))
    (hblank : ∀ y, A.length < y → (b.lines y).cells 0 = 0) (hnul : (0 : UInt8) ∉ data)
    (hlines : (A ++ split_lines l data).length ≤ Q_MAX_LINES)
    (hcols : ∀ s ∈ split_lines l data, s.length < Q_MAX_COLS) :
    Shows (load_loop b A.length l.length data) (A ++ split_lines l data) := by
  induction data generalizing b A l with
  | nil => exact h
  | cons c data ih =>
    have hc0 : c ≠ 0 := fun hc => hnul (hc ▸ mem_cons_self)
    have hnul' : (0 : UInt8) ∉ data := fun hmem => hnul (mem_cons_of_mem c hmem)
    have hline : A.length < Q_MAX_LINES := by
      obtain ⟨t, L, hsplit⟩ := split_lines_head l (c :: data)
      rw [hsplit, length_append, length_cons] at hlines
      omega
    rw [load_loop, if_neg (not_le.mpr hline)]
    rw [split_lines] at hlines hcols ⊢
    by_cases hc : c = 13
    · rw [if_pos hc] at hlines hcols
      rw [if_pos hc, if_pos hc]
      exact ih h hblank hnul' hlines hcols
    rw [if_neg hc] at hlines hcols
    rw [if_neg hc, if_neg hc]
    by_cases hnl : c = 10
    · rw [if_pos hnl] at hlines hcols
      rw [if_pos hnl, if_pos hnl]
      obtain ⟨t, L, hsplit⟩ := split_lines_head [] data
      have hnext : A.length + 1 < Q_MAX_LINES := by
        rw [hsplit, length_append, length_cons, length_cons] at hlines
        omega
      dsimp only
      rw [if_neg (not_le.mpr hnext)]
      have hlen : (A ++ [l]).length = A.length + 1 := by rw [length_append, length_singleton]
      have hshows := h.append_blank (by rw [hlen]; exact hblank _ (Nat.lt_succ_self _))
      have hrest := ih hshows (by rw [hlen]; exact fun y hy => hblank y (by omega)) hnul'
        (by rw [append_assoc]; exact hlines) fun s hs => hcols s (mem_cons_of_mem l hs)
      rw [hlen, append_assoc] at hrest
      exact hrest
    rw [if_neg hnl] at hlines hcols
    rw [if_neg hnl, if_neg hnl]
    obtain ⟨t, L, hsplit⟩ := split_lines_head (l ++ [c]) data
    have hwide : l.length + 1 < Q_MAX_COLS := by
      have hfirst := hcols _ (hsplit ▸ mem_cons_self)
      rw [length_append, length_append, length_singleton] at hfirst
      omega
    rw [if_pos (by omega)]
    have hshows := h.put_char hline hc0 hwide
    have hrest := ih hshows (by
      intro y hy
      change (update b.lines A.length _ y).cells 0 = 0
      rw [update_of_ne (by omega)]
      exact hblank y hy) hnul' hlines hcols
    rw [length_append, length_singleton] at hrest
    exact hrest

theorem length_intercalate (hne : L ≠ []) :
    (List.intercalate [10] L).length + 1 = (L.map (·.length + 1)).sum := by
  induction L with
  | nil => exact absurd rfl hne
  | cons l L ih =>
    cases L with
    | nil => simp
    | cons m L =>
      rw [intercalate_cons_cons, length_append, length_append, length_singleton, Nat.add_assoc,
        ih (cons_ne_nil _ _), map_cons (l := m :: L), sum_cons, Nat.add_right_comm]

theorem length_intercalate_snoc (A : List (List UInt8)) (l : List UInt8) :
    (List.intercalate [10] (A ++ [l])).length = (A.map (·.length + 1)).sum + l.length := by
  have hlength := length_intercalate (append_ne_nil_of_right_ne_nil A (cons_ne_nil l []))
  rw [map_append, sum_append, map_singleton, sum_singleton] at hlength
  omega

/-- The loop of `quill_load` never makes the text longer than the file, and shows all of it only where the file fits the
buffer. -/
theorem load_loop_text {b : Buffer} {A : List (List UInt8)} {l data : List UInt8} {col : Nat} (h : Shows b (A ++ [l]))
    (hblank : ∀ y, A.length < y → (b.lines y).cells 0 = 0) (hline : A.length < Q_MAX_LINES) (hcol : l.length ≤ col) :
    ∃ L, Shows (load_loop b A.length col data) L ∧ (List.intercalate [10] L).length ≤
        (A.map (·.length + 1)).sum + l.length + (data.filter (· ≠ 13)).length ∧
      ((List.intercalate [10] L).length = (A.map (·.length + 1)).sum + l.length + (data.filter (· ≠ 13)).length →
        (0 : UInt8) ∉ data ∧ (A ++ split_lines l data).length ≤ Q_MAX_LINES ∧
          ∀ s ∈ split_lines l data, s.length < Q_MAX_COLS) := by
  have hshort : l.length < Q_MAX_COLS := (h.holds.rows A.length l (getElem?_at A [] l)).short
  induction data generalizing b A l col with
  | nil =>
    refine ⟨A ++ [l], h, (length_intercalate_snoc A l).le, fun _ => ⟨not_mem_nil, ?_, fun s hs => ?_⟩⟩
    · rw [split_lines, length_append, length_singleton]
      exact hline
    · rw [List.mem_singleton.mp hs]
      exact hshort
  | cons c data ih =>
    rw [load_loop, if_neg (not_le.mpr hline), split_lines]
    by_cases hc : c = 13
    · rw [if_pos hc, if_pos hc, filter_cons_of_neg (by simpa using hc)]
      obtain ⟨L, hshows, hle, hfits⟩ := ih h hblank hline hcol hshort
      refine ⟨L, hshows, hle, fun heq => ?_⟩
      obtain ⟨hnul, hrest⟩ := hfits heq
      refine ⟨fun hmem => ?_, hrest⟩
      rcases List.mem_cons.mp hmem with hzero | hmem
      · rw [hc] at hzero
        exact absurd hzero (by decide)
      · exact hnul hmem
    rw [if_neg hc, if_neg hc, filter_cons_of_pos (by simpa using hc), length_cons]
    by_cases hnl : c = 10
    · rw [if_pos hnl, if_pos hnl]
      dsimp only
      have hlen : (A ++ [l]).length = A.length + 1 := by rw [length_append, length_singleton]
      have hsum : ((A ++ [l]).map (·.length + 1)).sum = (A.map (·.length + 1)).sum + l.length + 1 := by
        rw [map_append, sum_append, map_singleton, sum_singleton, Nat.add_assoc]
      split
      · -- the line behind the last one of the buffer is lost
        refine ⟨A ++ [l], h, ?_, fun heq => ?_⟩
        · rw [length_intercalate_snoc]
          omega
        · rw [length_intercalate_snoc] at heq
          omega
      next hnext =>
      have hshows := h.append_blank (by rw [hlen]; exact hblank _ (Nat.lt_succ_self _))
      obtain ⟨L, hloop, hle, hfits⟩ := ih hshows (by rw [hlen]; exact fun y hy => hblank y (by omega))
        (by rw [hlen]; omega) (le_refl 0) (by decide)
      rw [hlen] at hloop
      rw [hsum, length_nil] at hle hfits
      refine ⟨L, hloop, by omega, fun heq => ?_⟩
      obtain ⟨hnul, hlines, hcols⟩ := hfits (by omega)
      refine ⟨fun hmem => ?_, ?_, fun s hs => ?_⟩
      · rcases List.mem_cons.mp hmem with hzero | hmem
        · rw [hnl] at hzero
          exact absurd hzero (by decide)
        · exact hnul hmem
      · rw [append_assoc] at hlines
        exact hlines
      · rcases List.mem_cons.mp hs with rfl | hs
        · exact hshort
        · exact hcols s hs
    rw [if_neg hnl, if_neg hnl]
    by_cases hkept : c ≠ 0 ∧ col = l.length ∧ col < Q_MAX_COLS - 1
    · obtain ⟨hc0, rfl, hwide⟩ := hkept
      rw [if_pos hwide]
      have hshows := h.put_char hline hc0 (by omega)
      obtain ⟨L, hloop, hle, hfits⟩ := ih hshows (by
        intro y hy
        change (update b.lines A.length _ y).cells 0 = 0
        rw [update_of_ne (by omega)]
        exact hblank y hy) hline (by rw [length_append, length_singleton])
        (by rw [length_append, length_singleton]; omega)
      rw [length_append, length_singleton] at hle hfits
      refine ⟨L, hloop, by omega, fun heq => ?_⟩
      obtain ⟨hnul, hrest⟩ := hfits (by omega)
      refine ⟨fun hmem => ?_, hrest⟩
      rcases List.mem_cons.mp hmem with hzero | hmem
      · exact hc0 hzero.symm
      · exact hnul hmem
    -- the character is lost, so the text stays shorter than the file
    have hlost : ∃ L, Shows (if col < Q_MAX_COLS - 1 then
        load_loop (b.set_line A.length (((b.lines A.length).put col c).put (col + 1) 0)) A.length (col + 1) data
        else load_loop b A.length col data) L ∧ (List.intercalate [10] L).length ≤
          (A.map (·.length + 1)).sum + l.length + (data.filter (· ≠ 13)).length := by
      split
      · next hwide =>
        have hshows := h.put_behind (c := c) hline hcol (by
          by_contra hneither
          obtain ⟨hc0, hat⟩ := not_or.mp hneither
          exact hkept ⟨hc0, by omega, hwide⟩) (by omega)
        obtain ⟨L, hloop, hle, -⟩ := ih hshows (by
          intro y hy
          change (update b.lines A.length _ y).cells 0 = 0
          rw [update_of_ne (by omega)]
          exact hblank y hy) hline (show l.length ≤ col + 1 by omega) hshort
        exact ⟨L, hloop, hle⟩
      · obtain ⟨L, hloop, hle, -⟩ := ih h hblank hline hcol hshort
        exact ⟨L, hloop, hle⟩
    obtain ⟨L, hloop, hle⟩ := hlost
    exact ⟨L, hloop, by omega, fun heq => absurd heq (by omega)⟩

/-- The files that the loader takes whole. -/
structure Loadable (data : List UInt8) : Prop where
  no_nul : (0 : UInt8) ∉ data
  lines : (split_lines [] data).length ≤ Q_MAX_LINES
  cols : ∀ s ∈ split_lines [] data, s.length < Q_MAX_COLS

theorem shows_blank (filename : List UInt8) : Shows { filename } ([] ++ [[]]) := by
  refine ⟨⟨?_, fun _ => rfl, rfl⟩, rfl⟩
  intro y s hs
  obtain ⟨hy, hs⟩ := List.getElem?_eq_some_iff.mp hs
  have hs0 : s = [] := by
    rw [← hs]
    exact List.mem_singleton.mp (getElem_mem hy)
  rw [hs0]
  exact Spells.empty rfl

theorem quill_load_eq (hname : filename ≠ []) (data : List UInt8) :
    quill_load filename 0 data = { load_loop { filename := filename.take 127 } 0 0 data with modified := false } := by
  have hne : filename.isEmpty = false := by
    cases filename with
    | nil => exact absurd rfl hname
    | cons c cs => rfl
  rw [quill_load]
  dsimp only
  rw [if_neg (by rw [hne]; exact Bool.false_ne_true), if_neg (not_not.mpr rfl)]

theorem quill_load_shows {data : List UInt8} (hname : filename ≠ []) (h : Loadable data) :
    Shows (quill_load filename 0 data) (split_lines [] data) := by
  have hloop := load_loop_shows (shows_blank (filename.take 127)) (fun _ _ => rfl) h.no_nul h.lines h.cols
  rw [quill_load_eq hname]
  exact ⟨⟨hloop.holds.rows, hloop.holds.clean, hloop.holds.inside⟩, hloop.count⟩

theorem quill_load_text (hname : filename ≠ []) (data : List UInt8) :
    ∃ L, Shows (quill_load filename 0 data) L ∧ (List.intercalate [10] L).length ≤ (data.filter (· ≠ 13)).length ∧
      ((List.intercalate [10] L).length = (data.filter (· ≠ 13)).length → Loadable data) := by
  obtain ⟨L, hloop, hle, hfits⟩ := @load_loop_text _ [] [] data 0 (shows_blank (filename.take 127))
    (fun _ _ => rfl) (by decide) (le_refl 0)
  rw [map_nil, sum_nil, length_nil, Nat.zero_add] at hle hfits
  rw [quill_load_eq hname]
  refine ⟨L, ⟨⟨hloop.holds.rows, hloop.holds.clean, hloop.holds.inside⟩, hloop.count⟩, by omega, fun heq => ?_⟩
  obtain ⟨hnul, hlines, hcols⟩ := hfits (by omega)
  exact ⟨hnul, hlines, hcols⟩

theorem quill_load_failed (filename : List UInt8) {r : Int} (hr : r ≠ 0) (data : List UInt8) :
    Shows (quill_load filename r data) [[]] := by
  rw [quill_load]
  simp only [if_pos hr, ite_self]
  exact shows_blank _

/-! ## Saving -/

/-- The saver takes all lines that fit its buffer. -/
theorem save_loop_eq {B : List (List UInt8)} (h : Shows b L) (hsplit : A ++ B = L)
    {file_data : List UInt8} (hfits : file_data.length + (List.intercalate [10] B).length + 1 < FILE_DATA_SIZE) :
    save_loop b file_data A.length B.length = file_data ++ List.intercalate [10] B := by
  induction B generalizing A file_data with
  | nil =>
    change file_data = file_data ++ []
    rw [append_nil]
  | cons l B ih =>
    have hrow : row_text (b.lines A.length) = l := by
      apply (h.holds.rows A.length l ?_).row_text
      rw [← hsplit]
      exact getElem?_at A B l
    have hcount : b.line_count = A.length + B.length + 1 := by
      rw [h.count, ← hsplit, length_append, length_cons]
      omega
    have hlen : (A ++ [l]).length = A.length + 1 := by rw [length_append, length_singleton]
    rw [length_cons, save_loop]
    rw [hrow]
    cases B with
    | nil =>
      rw [intercalate_singleton] at hfits ⊢
      rw [if_neg (by omega), if_neg (by rw [hcount, length_nil]; omega), append_nil]
      rfl
    | cons m B =>
      rw [intercalate_cons_cons] at hfits ⊢
      rw [length_append, length_append, length_singleton] at hfits
      rw [if_neg (by omega), if_pos (by rw [hcount, length_cons]; omega)]
      have hfits' : (file_data ++ l ++ [10]).length + (List.intercalate [10] (m :: B)).length + 1 < FILE_DATA_SIZE := by
        rw [length_append, length_append, length_singleton]
        omega
      have hrest := @ih (A ++ [l]) (by rw [append_assoc]; exact hsplit) (file_data ++ l ++ [10]) hfits'
      rw [hlen] at hrest
      rw [hrest]
      simp

theorem saved_data_eq (h : Shows b L)
    (hfits : (List.intercalate [10] L).length + 1 < FILE_DATA_SIZE) : saved_data b = List.intercalate [10] L := by
  rw [saved_data, h.count]
  exact save_loop_eq h (nil_append L) (by rw [length_nil]; omega)

/-- The saver stops before a line only where all lines of the buffer are full. -/
theorem save_loop_lt {B : List (List UInt8)} (h : Shows b L) (hsplit : A ++ B = L)
    (hcount : L.length ≤ Q_MAX_LINES) {file_data : List UInt8}
    (hdata : file_data.length ≤ A.length * 256) (hne : B ≠ [])
    (hfull : FILE_DATA_SIZE ≤ file_data.length + (List.intercalate [10] B).length + 1) :
    FILE_DATA_SIZE - 256 ≤ (save_loop b file_data A.length B.length).length ∧
      (save_loop b file_data A.length B.length).length < file_data.length + (List.intercalate [10] B).length := by
  induction B generalizing A file_data with
  | nil => exact absurd rfl hne
  | cons l B ih =>
    have hspells : Spells (b.lines A.length).cells l := by
      apply h.holds.rows A.length l
      rw [← hsplit]
      exact getElem?_at A B l
    have hshort : l.length < 256 := hspells.short
    have hlength : A.length + B.length + 1 ≤ 2048 := by
      have hlines : (A ++ l :: B).length ≤ 2048 := hsplit ▸ hcount
      rw [length_append, length_cons] at hlines
      omega
    have hline_count : b.line_count = A.length + B.length + 1 := by
      rw [h.count, ← hsplit, length_append, length_cons]
      omega
    have hsize : FILE_DATA_SIZE = 524288 := rfl
    have hlen : (A ++ [l]).length = A.length + 1 := by rw [length_append, length_singleton]
    rw [length_cons, save_loop, hspells.row_text]
    split
    · next hstop =>
      refine ⟨by omega, ?_⟩
      rw [intercalate_cons, length_append]
      omega
    next hroom =>
    cases B with
    | nil =>
      rw [intercalate_singleton] at hfull
      omega
    | cons m B =>
      rw [intercalate_cons_cons] at hfull ⊢
      rw [length_append, length_append, length_singleton] at hfull ⊢
      rw [if_pos (by rw [hline_count, length_cons]; omega)]
      have hnext : (file_data ++ l ++ [10]).length = file_data.length + l.length + 1 := by
        rw [length_append, length_append, length_singleton]
      have hrest := @ih (A ++ [l]) (by rw [append_assoc]; exact hsplit) (file_data ++ l ++ [10])
        (by rw [hnext, hlen]; omega) (cons_ne_nil _ _) (by rw [hnext]; omega)
      rw [hlen, hnext] at hrest
      omega

theorem saved_data_cases (h : Shows b L) (hne : L ≠ []) (hcount : L.length ≤ Q_MAX_LINES) :
    (List.intercalate [10] L).length + 1 < FILE_DATA_SIZE ∧ saved_data b = List.intercalate [10] L ∨
      FILE_DATA_SIZE ≤ (List.intercalate [10] L).length + 1 ∧ FILE_DATA_SIZE - 256 ≤ (saved_data b).length ∧
        (saved_data b).length < (List.intercalate [10] L).length := by
  rcases lt_or_ge ((List.intercalate [10] L).length + 1) FILE_DATA_SIZE with hfits | hfull
  · exact .inl ⟨hfits, saved_data_eq h hfits⟩
  · have hstops := save_loop_lt h (nil_append L) hcount (Nat.zero_le _) hne (by rw [length_nil]; omega)
    change _ ∧ _ < 0 + _ at hstops
    rw [Nat.zero_add] at hstops
    rw [saved_data, h.count]
    exact .inr ⟨hfull, hstops⟩

theorem file_name_bytes (name : FileName) : file_name (name_bytes name) = name := by
  obtain ⟨chars, hno_nul⟩ := name
  have hchars : ((chars.map Int8.toUInt8).map UInt8.toInt8).filter (· ≠ 0) = chars := by
    rw [map_map, show UInt8.toInt8 ∘ Int8.toUInt8 = id from funext fun c => Int8.toInt8_toUInt8 c, map_id]
    apply List.filter_eq_self.mpr
    intro c hc
    simp only [decide_eq_true_eq]
    rintro rfl
    exact hno_nul hc
  rw [file_name, name_bytes]
  simp only [hchars]

/-! ## Named files -/

variable {name : FileName}

/-- A name that the buffer keeps whole. -/
structure Named (name : FileName) : Prop where
  ne_nil : name.chars ≠ []
  short : name.chars.length ≤ 127

theorem Named.bytes (h : Named name) :
    name_bytes name ≠ [] ∧ (name_bytes name).take 127 = name_bytes name := by
  constructor
  · intro hnil
    exact h.ne_nil (List.map_eq_nil_iff.mp hnil)
  · apply take_of_length_le
    rw [name_bytes, length_map]
    exact h.short

theorem Named.chars_isEmpty (h : Named name) : name.chars.isEmpty = false := by
  cases hc : name.chars with
  | nil => exact absurd hc h.ne_nil
  | cons c cs => rfl

theorem Named.bytes_isEmpty (h : Named name) : (name_bytes name).isEmpty = false := by
  cases hc : name_bytes name with
  | nil => exact absurd hc h.bytes.1
  | cons c cs => rfl

theorem load_loop_filename (b : Buffer) (line col : Nat) (data : List UInt8) :
    (load_loop b line col data).filename = b.filename := by
  induction data generalizing b line col with
  | nil => rfl
  | cons c data ih =>
    rw [load_loop]
    split
    · rfl
    split
    · exact ih b line col
    split
    · dsimp only
      split
      · rfl
      · exact ih _ _ _
    split
    · exact ih _ _ _
    · exact ih b line col

end graceos.quill
