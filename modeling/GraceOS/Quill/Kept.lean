import GraceOS.Bfs.Room
import GraceOS.Quill.Files
import GraceOS.Quill.Plain
import Mathlib.Algebra.Order.BigOperators.Group.List

/-!
# What quill keeps

A file that is opened and saved keeps its bytes but for the carriage returns exactly where it fits the limits of the
loader and those of the saver. The lines of a session that was saved are loaded again where they fit the saver and the
disk has room for them. Neither limit, nor the result of the write, is reported.
-/

namespace graceos.quill

open bfs bplus List

section Session

variable {b : Buffer} {e : Editor}

theorem pull_up_filename (b : Buffer) (i n : Nat) : (pull_up b i n).filename = b.filename := by
  induction n generalizing b i with
  | zero => rfl
  | succ n ih => exact ih _ _

theorem push_down_filename (b : Buffer) (y n : Nat) : (push_down b y n).filename = b.filename := by
  induction n generalizing b with
  | zero => rfl
  | succ n ih => exact ih _

theorem press_filename (e : Editor) (key : Key) : (press e key).buffer.filename = e.buffer.filename := by
  cases key with
  | insert c =>
    change (quill_insert c e).buffer.filename = _
    unfold quill_insert
    split
    · rfl
    dsimp only
    split
    · rfl
    · rfl
  | backspace =>
    change (quill_backspace e).buffer.filename = _
    unfold quill_backspace
    dsimp only
    split
    · rfl
    split
    · rfl
    split
    · exact pull_up_filename _ _ _
    · rfl
  | enter =>
    change (quill_enter e).buffer.filename = _
    unfold quill_enter
    dsimp only
    split
    · rfl
    split
    · exact push_down_filename _ _ _
    · exact push_down_filename _ _ _
  | move | home | end_key => rfl

theorem quill_load_filename (filename : List UInt8) (r : Int) (data : List UInt8) :
    (quill_load filename r data).filename = filename.take 127 := by
  unfold quill_load
  dsimp only
  split
  · rfl
  split
  · rfl
  · exact load_loop_filename _ _ _ _

theorem session_filename (filename : List UInt8) (r : Int) (data : List UInt8) (keys : List Key) :
    (keys.foldl press (start (quill_load filename r data))).buffer.filename = filename.take 127 := by
  have hrun : ∀ e : Editor, (keys.foldl press e).buffer.filename = e.buffer.filename := by
    induction keys with
    | nil => exact fun e => rfl
    | cons key keys ih => exact fun e => (ih (press e key)).trans (press_filename e key)
  exact (hrun _).trans (quill_load_filename filename r data)

end Session

section Volume

variable {s s' : Bfs} {σ : Space} {t : BTree} {name : FileName} {data : List UInt8} {b : Buffer}

/-- The file as a reader with a buffer of any size gets it. -/
def Stored (s : Bfs) (name : FileName) (data : List UInt8) : Prop :=
  ∃ out_size, s.bfs_read_file name (UInt64.ofNat (2 ^ 64 - 1)) = some { code := 0, out_size, data }

/-- Opening the file and saving it without an edit leaves its bytes but for the carriage returns. -/
def Kept (s : Bfs) (name : FileName) (data : List UInt8) : Prop :=
  ∃ b s₁ code b' s', open_file s name = some (b, s₁) ∧ quill_save s₁ b = some (code, b', s') ∧
    Stored s' name (data.filter (· ≠ 13))

/-- Saving clears the modified flag, and opening the name again shows the lines of the buffer. -/
def Reloads (s : Bfs) (name : FileName) (b : Buffer) : Prop :=
  ∃ code b₁ s₁ b₂ s₂, quill_save s b = some (code, b₁, s₁) ∧ b₁.modified = false ∧
    open_file s₁ name = some (b₂, s₂) ∧ b₂.line_texts = b.line_texts

/-- The files within the limits of `quill_load` and `quill_save`. -/
structure Fits (data : List UInt8) : Prop where
  read : data.length ≤ FILE_DATA_SIZE ∨ data.filter (· ≠ 13) = []
  loads : Loadable data
  saves : (data.filter (· ≠ 13)).length + 1 < FILE_DATA_SIZE

/-- The texts that `quill_save` writes whole, with room for them. No room is needed for the empty one: a file that is
not there is opened as an empty one. -/
structure Saveable (σ : Space) (t : BTree) (name : FileName) (text : List UInt8) : Prop where
  saves : text.length + 1 < FILE_DATA_SIZE
  room : text = [] ∨ Room σ t (bfs_hash name) (UInt64.ofNat text.length)

theorem Stored.read (h : Volume s σ t) (hstored : Stored s name data) : ∃ value,
    t.2.entries.lookup (bfs_hash name) = some value ∧ data.length = (size_bytes value).toNat ∧
      ∀ max_size, s.bfs_read_file name max_size =
        if max_size < size_bytes value then some { code := -2, out_size := some (size_bytes value), data := [] }
        else some { code := 0, out_size := some (size_bytes value), data } := by
  obtain ⟨out_size, hread⟩ := hstored
  cases hlookup : t.2.entries.lookup (bfs_hash name) with
  | none =>
    rw [read_absent h hlookup] at hread
    cases hread
  | some value =>
    obtain ⟨data', hlength, hreads⟩ := read_whole h hlookup
    have hall : ¬ UInt64.ofNat (2 ^ 64 - 1) < size_bytes value := by
      rw [UInt64.lt_iff_toNat_lt]
      have hsize := size_bytes_lt value
      change ¬ 2 ^ 64 - 1 < _
      omega
    rw [hreads, if_neg hall] at hread
    have hdata : data' = data := congrArg ReadResult.data (Option.some.inj hread)
    exact ⟨value, rfl, hdata ▸ hlength, hdata ▸ hreads⟩

/-! ## One call -/

theorem open_file_found (hname : Named name) {r : ReadResult}
    (hread : s.bfs_read_file name (UInt64.ofNat FILE_DATA_SIZE) = some r) (hcode : r.code ≠ -1) :
    open_file s name = some (quill_load (name_bytes name) r.code r.data, s) := by
  rw [open_file, if_neg (by rw [hname.chars_isEmpty]; exact Bool.false_ne_true), hread]
  simp only [Option.bind_eq_bind, Option.bind_some, if_neg hcode]

theorem open_file_absent (h : Volume s σ t) (hnext : σ.next.toNat < 2 ^ 32) (hname : Named name)
    (hlookup : t.2.entries.lookup (bfs_hash name) = none) :
    ∃ s', open_file s name = some (quill_load (name_bytes name) (-1) [], s') := by
  obtain ⟨code, s', σ', t', hcreate, -⟩ := h.create hnext (show (0 : UInt64).toNat + 4095 < 2 ^ 64 by decide) name
  refine ⟨s', ?_⟩
  rw [open_file, if_neg (by rw [hname.chars_isEmpty]; exact Bool.false_ne_true), read_absent h hlookup]
  simp only [Option.bind_eq_bind, Option.bind_some, hcreate, if_true]

theorem quill_save_eq (hname : Named name) (hfilename : b.filename = name_bytes name) (s : Bfs) :
    quill_save s b = (s.bfs_write_file name (fun i => (saved_data b).getD i 0)
      (UInt64.ofNat (saved_data b).length)).map fun w => (w.1, { b with modified := false }, w.2) := by
  have hempty : b.filename.isEmpty = false := by
    rw [hfilename]
    exact hname.bytes_isEmpty
  rw [quill_save, if_neg (by rw [hempty]; exact Bool.false_ne_true), hfilename, file_name_bytes]
  dsimp only
  cases s.bfs_write_file name (fun i => (saved_data b).getD i 0) (UInt64.ofNat (saved_data b).length) with
  | none => rfl
  | some w => rfl

theorem saved_read_back (h : Accounted s σ t) (hname : Named name) (hfilename : b.filename = name_bytes name)
    (hlinked : t.2.entries.lookup (bfs_hash name) = none → t.2.PathLinked (bfs_hash name))
    (hsize : (saved_data b).length < 2 ^ 32)
    (hroom : Room σ t (bfs_hash name) (UInt64.ofNat (saved_data b).length)) :
    ∃ s', quill_save s b = some (0, { b with modified := false }, s') ∧
      ∀ max_size, UInt64.ofNat (saved_data b).length ≤ max_size → s'.bfs_read_file name max_size =
        some { code := 0, out_size := some (UInt64.ofNat (saved_data b).length), data := saved_data b } := by
  have hlength := toNat_length hsize
  obtain ⟨s', hwrite⟩ := (bfs_write_file_succeeds_iff h.toVolume (by rw [hlength]; omega) hlinked _).mpr hroom
  refine ⟨s', ?_, write_read_back h hsize hlinked hwrite⟩
  rw [quill_save_eq hname hfilename, hwrite]
  rfl

/-! ## Saving without an edit -/

theorem resaved (h : Accounted s σ t) (hname : Named name) (hfilename : b.filename = name_bytes name)
    (hstored : Stored s name data) (hle : (saved_data b).length ≤ data.length) :
    ∃ s', quill_save s b = some (0, { b with modified := false }, s') ∧ ∀ kept, Stored s' name kept ↔
        kept = saved_data b := by
  obtain ⟨value, hlookup, hlength, -⟩ := hstored.read h.toVolume
  have hbytes := size_bytes_lt value
  have hsize : (saved_data b).length < 2 ^ 32 := by omega
  have hroom : Room σ t (bfs_hash name) (UInt64.ofNat (saved_data b).length) := by
    rw [Room, hlookup]
    refine .inl ?_
    rw [UInt64.le_iff_toNat_le, toNat_length hsize]
    omega
  obtain ⟨s', hsave, hread⟩ := saved_read_back h hname hfilename
    (fun hnone => (by rw [hlookup] at hnone; cases hnone)) hsize hroom
  have hback := hread (UInt64.ofNat (2 ^ 64 - 1)) (by
    rw [UInt64.le_iff_toNat_le, toNat_length hsize]
    change _ ≤ 2 ^ 64 - 1
    omega)
  refine ⟨s', hsave, fun kept => ⟨fun hkept => ?_, fun heq => ⟨_, heq ▸ hback⟩⟩⟩
  obtain ⟨_, hkept⟩ := hkept
  exact congrArg ReadResult.data (Option.some.inj (hkept.symm.trans hback))

theorem split_lines_blank {l : List UInt8} (h : data.filter (· ≠ 13) = []) : split_lines l data = [l] := by
  induction data with
  | nil => rfl
  | cons c data ih =>
    by_cases hc : c = 13
    · rw [filter_cons_of_neg (by simpa using hc)] at h
      rw [split_lines, if_pos hc, ih h]
    · rw [filter_cons_of_pos (by simpa using hc)] at h
      cases h

theorem kept_iff_saved {b b' : Buffer} {s' : Bfs} (hopen : open_file s name = some (b, s))
    (hsave : quill_save s b = some (0, b', s')) (hkept : ∀ kept, Stored s' name kept ↔ kept = saved_data b) :
    Kept s name data ↔ data.filter (· ≠ 13) = saved_data b := by
  constructor
  · rintro ⟨b₁, s₁, code, b₂, s₂, hopen', hsave', hstored'⟩
    obtain ⟨rfl, rfl⟩ := Prod.mk.inj (Option.some.inj (hopen.symm.trans hopen'))
    obtain rfl : s' = s₂ := congrArg (fun p => p.2.2) (Option.some.inj (hsave.symm.trans hsave'))
    exact (hkept _).mp hstored'
  · exact fun hsaved => ⟨b, s, 0, b', s', hopen, hsave, (hkept _).mpr hsaved⟩

theorem kept_iff (h : Accounted s σ t) (hname : Named name) (hstored : Stored s name data) :
    Kept s name data ↔ Fits data := by
  obtain ⟨value, hlookup, hlength, hread⟩ := hstored.read h.toVolume
  have hlimit : UInt64.ofNat FILE_DATA_SIZE < size_bytes value ↔ FILE_DATA_SIZE < data.length := by
    rw [UInt64.lt_iff_toNat_lt, hlength]
    rfl
  have hfilter : (data.filter (· ≠ 13)).length ≤ data.length := length_filter_le _ _
  by_cases hbig : FILE_DATA_SIZE < data.length
  · -- the file is not read, so an empty one is saved
    have hopen := open_file_found hname ((hread _).trans (if_pos (hlimit.mpr hbig))) (show (-2 : Int) ≠ -1 by decide)
    have hshows := quill_load_failed (name_bytes name) (show (-2 : Int) ≠ 0 by decide) []
    have hsaved : saved_data (quill_load (name_bytes name) (-2) []) = [] := saved_data_eq hshows (by decide)
    obtain ⟨s', hsave, hkept⟩ := resaved h hname
      ((quill_load_filename _ _ _).trans hname.bytes.2) hstored (by rw [hsaved]; exact Nat.zero_le _)
    rw [kept_iff_saved hopen hsave hkept, hsaved]
    constructor
    · intro hempty
      refine ⟨.inr hempty, ⟨fun hmem => ?_, ?_, ?_⟩, ?_⟩
      · exact not_mem_nil (hempty ▸ List.mem_filter.mpr ⟨hmem, by decide⟩)
      · rw [split_lines_blank hempty]
        decide
      · rw [split_lines_blank hempty]
        decide
      · rw [hempty]
        decide
    · intro hfits
      exact hfits.read.resolve_left (not_le.mpr hbig)
  · have hopen := open_file_found hname ((hread _).trans (if_neg (mt hlimit.mp hbig))) (show (0 : Int) ≠ -1 by decide)
    obtain ⟨L, hshows, hle, hloads⟩ := quill_load_text hname.bytes.1 data
    have hcount : L.length = (quill_load (name_bytes name) 0 data).line_count := hshows.count.symm
    have hloaded := quill_load_loaded (name_bytes name) 0 data
    have hne : L ≠ [] := by
      rintro rfl
      have hpos := hloaded.line_count_pos
      rw [← hcount] at hpos
      exact absurd hpos (by decide)
    have hcases := saved_data_cases hshows hne (hcount ▸ hloaded.line_count_le)
    have hjoin := intercalate_split_lines [] data
    rw [nil_append] at hjoin
    obtain ⟨s', hsave, hkept⟩ := resaved h hname ((quill_load_filename _ _ _).trans hname.bytes.2) hstored (by
      rcases hcases with ⟨-, heq⟩ | ⟨-, -, hlt⟩
      · rw [heq]
        omega
      · omega)
    rw [kept_iff_saved hopen hsave hkept]
    constructor
    · intro hall
      rcases hcases with ⟨hfits, heq⟩ | ⟨-, -, hlt⟩
      · rw [heq] at hall
        exact ⟨.inl (not_lt.mp hbig), hloads (by rw [hall]), by rw [hall]; exact hfits⟩
      · rw [← hall] at hlt
        omega
    · intro hfits
      have hwhole := quill_load_shows hname.bytes.1 hfits.loads
      exact hjoin.symm.trans (saved_data_eq hwhole (by rw [hjoin]; exact hfits.saves)).symm

/-! ## Saving a session -/

/-- What the buffer of a session satisfies. -/
structure Edited (name : FileName) (b : Buffer) : Prop where
  shows : Shows b b.line_texts
  ne_nil : b.line_texts ≠ []
  count : b.line_texts.length ≤ Q_MAX_LINES
  plain : ∀ l ∈ b.line_texts, (10 : UInt8) ∉ l ∧ (13 : UInt8) ∉ l
  filename : b.filename = name_bytes name

theorem session_edited (hname : Named name) (r : Int) (data : List UInt8) {keys : List Key}
    (hkeys : ∀ key ∈ keys, key.Valid) :
    Edited name (keys.foldl press (start (quill_load (name_bytes name) r data))).buffer := by
  obtain ⟨hinv, -⟩ := quill_edits (name_bytes name) r data keys hkeys
  have hshows := hinv.shows
  have hcount := hshows.count
  refine ⟨hshows, fun hnil => ?_, hcount ▸ hinv.line_count_le, fun l hl => session_plain hkeys hl,
    (session_filename _ _ _ _).trans hname.bytes.2⟩
  have hpos := hinv.line_count_pos
  rw [hcount, hnil] at hpos
  exact absurd hpos (by decide)

theorem Edited.short (h : Edited name b) {l : List UInt8} (hl : l ∈ b.line_texts) : l.length < Q_MAX_COLS := by
  obtain ⟨y, hy⟩ := mem_iff_getElem?.mp hl
  exact (h.shows.holds.rows y l hy).short

theorem Edited.split_text (h : Edited name b) : split_lines [] b.text = b.line_texts := by
  rw [Buffer.text]
  cases hlines : b.line_texts with
  | nil => exact absurd hlines h.ne_nil
  | cons l L => exact split_lines_intercalate fun m hm => h.plain m (hlines ▸ hm)

theorem Edited.loadable (h : Edited name b) : Loadable b.text := by
  refine ⟨fun hmem => ?_, ?_, ?_⟩
  · rw [Buffer.text] at hmem
    cases hlines : b.line_texts with
    | nil => exact absurd hlines h.ne_nil
    | cons l L =>
      rw [hlines] at hmem
      rcases mem_intercalate hmem with hzero | ⟨m, hm, hc⟩
      · exact absurd hzero (by decide)
      obtain ⟨y, hy⟩ := mem_iff_getElem?.mp hm
      exact (h.shows.holds.rows y m (hlines ▸ hy)).no_nul 0 hc rfl
  · rw [h.split_text]
    exact h.count
  · rw [h.split_text]
    exact fun l hl => h.short hl

theorem Edited.text_length (h : Edited name b) : b.text.length + 1 ≤ FILE_DATA_SIZE := by
  rw [Buffer.text, length_intercalate h.ne_nil]
  refine (sum_le_card_nsmul _ 256 fun n hn => ?_).trans ?_
  · obtain ⟨l, hl, rfl⟩ := List.mem_map.mp hn
    exact h.short hl
  · rw [length_map]
    exact Nat.mul_le_mul_right 256 h.count

theorem loaded_text_le (hname : Named name) {b' : Buffer}
    (hlines : (quill_load (name_bytes name) 0 data).line_texts = b'.line_texts) : b'.text.length ≤ data.length := by
  obtain ⟨L, hshows, hle, -⟩ := quill_load_text hname.bytes.1 data
  rw [Buffer.text, ← hlines, hshows.line_texts]
  exact hle.trans (length_filter_le _ _)

/-- An empty file that is not there yet is empty afterwards, or is still not there. -/
theorem written_empty (h : Accounted s σ t) (hnone : t.2.entries.lookup (bfs_hash name) = none)
    (hlinked : t.2.PathLinked (bfs_hash name)) (buffer : Nat → UInt8) :
    ∃ code s' σ' t', s.bfs_write_file name buffer 0 = some (code, s') ∧ Volume s' σ' t' ∧ σ'.next.toNat < 2 ^ 32 ∧
      ∀ value, t'.2.entries.lookup (bfs_hash name) = some value → size_bytes value = 0 := by
  have hdisk := h.on_disk
  have hsmall := h.small
  obtain ⟨code, s', σ', t', hrun, hstep, hread⟩ := h.toVolume.write_file (by omega)
    (show (0 : UInt64).toNat + 4095 < 2 ^ 64 by decide) name buffer
  have hdisk' := hstep.volume.on_disk
  have htotal : s'.root.total_pages = s.root.total_pages := hstep.moves.touches.total_pages
  rw [htotal] at hdisk'
  refine ⟨code, s', σ', t', hrun, hstep.volume, by omega, fun value hvalue => ?_⟩
  have hbytes : ∀ start : UInt64, start.toNat < 2 ^ 32 → size_bytes (pack start 0) = 0 := fun start hstart => by
    rw [← UInt64.toNat_inj, size_bytes_pack hstart]
    rfl
  obtain ⟨r, hsearch, ⟨-, hsome⟩ | ⟨hfound, -⟩⟩ := h.toImage.search_found (bfs_hash name)
  · rw [hnone] at hsome
    cases hsome
  have hreserve : s.reserve 0 = (some 0, s) := by
    have hneeded : Bfs.blocks_needed 0 = 0 := by decide
    rw [Bfs.reserve, hneeded, if_neg UInt64.not_lt_zero, if_pos rfl]
  obtain ⟨flag, t₁, s₁, σ₁, hends, hinsert, himage, -⟩ := h.toImage.insert (bfs_hash name) (pack 0 0)
  rw [Bfs.bfs_write_file] at hrun
  simp only [hsearch, hfound, hreserve, hinsert, Option.bind_eq_bind, Option.bind_some, Bool.false_eq_true,
    if_false] at hrun
  cases flag with
  | true =>
    obtain rfl : 0 = code := (Prod.mk.inj (Option.some.inj hrun)).1
    obtain ⟨start, hstart, hlookup, -⟩ := hread rfl fun _ => hlinked
    rw [hlookup] at hvalue
    rw [← Option.some.inj hvalue]
    exact hbytes start hstart
  | false =>
    obtain rfl : s₁ = s' := (Prod.mk.inj (Option.some.inj hrun)).2
    have hsame := (himage.report_eq (bfs_hash name)).symm.trans (hstep.volume.report_eq (bfs_hash name))
    rw [hvalue] at hsame
    cases hlookup : t₁.2.entries.lookup (bfs_hash name) with
    | none =>
      rw [hlookup] at hsame
      cases hsame
    | some found =>
      rw [hlookup] at hsame
      obtain rfl : found = value := congrArg Prod.snd (Option.some.inj hsame)
      rcases hends.mem_entries h.bounded _ (Volume.mem_of_lookup hlookup) with hnew | hold
      · rw [(Prod.mk.inj hnew).2]
        exact hbytes 0 (by decide)
      · exact absurd rfl (lookup_eq_none_iff_forall.mp hnone _ hold)

theorem Edited.reloads (hb : Edited name b) (h : Accounted s σ t) (hname : Named name)
    (hlinked : t.2.entries.lookup (bfs_hash name) = none → t.2.PathLinked (bfs_hash name))
    (hsave : Saveable σ t name b.text) : Reloads s name b := by
  have hsaved : saved_data b = b.text := saved_data_eq hb.shows hsave.saves
  have hlimit : b.text.length + 1 ≤ 524288 := hb.text_length
  by_cases hroom : Room σ t (bfs_hash name) (UInt64.ofNat b.text.length)
  · obtain ⟨s', hrun, hread⟩ := saved_read_back h hname hb.filename hlinked (by rw [hsaved]; omega)
      (by rw [hsaved]; exact hroom)
    rw [hsaved] at hread
    have hopen := open_file_found hname (hread (UInt64.ofNat FILE_DATA_SIZE) (by
      rw [UInt64.le_iff_toNat_le, toNat_length (by omega)]
      change _ ≤ 524288
      omega)) (show (0 : Int) ≠ -1 by decide)
    refine ⟨0, _, s', _, s', hrun, rfl, hopen, ?_⟩
    rw [(quill_load_shows hname.bytes.1 hb.loadable).line_texts, hb.split_text]
  · have hempty := hsave.room.resolve_right hroom
    have hlines : b.line_texts = [[]] := by
      rw [← hb.split_text, hempty]
      rfl
    have hnone : t.2.entries.lookup (bfs_hash name) = none := by
      cases hlookup : t.2.entries.lookup (bfs_hash name) with
      | none => rfl
      | some value =>
        refine absurd ?_ hroom
        rw [Room, hlookup, hempty]
        exact .inl UInt64.zero_le
    obtain ⟨code, s', σ', t', hwrite, hvolume, hnext, hzero⟩ := written_empty h hnone (hlinked hnone)
      fun i => (saved_data b).getD i 0
    have hrun : quill_save s b = some (code, { b with modified := false }, s') := by
      have hlength : UInt64.ofNat (saved_data b).length = 0 := by
        rw [hsaved, hempty]
        rfl
      rw [quill_save_eq hname hb.filename, hlength, hwrite]
      rfl
    cases hlookup : t'.2.entries.lookup (bfs_hash name) with
    | none =>
      obtain ⟨s'', hopen⟩ := open_file_absent hvolume hnext hname hlookup
      refine ⟨code, _, s', _, s'', hrun, rfl, hopen, ?_⟩
      rw [(quill_load_failed _ (by decide) _).line_texts, hlines]
    | some value =>
      obtain ⟨data, hlength, hread⟩ := read_whole hvolume hlookup
      have hdata : data = [] := by
        rw [hzero value hlookup] at hlength
        exact eq_nil_of_length_eq_zero hlength
      have hopen := open_file_found hname ((hread _).trans (if_neg (by
        rw [hzero value hlookup]
        exact UInt64.not_lt_zero))) (show (0 : Int) ≠ -1 by decide)
      refine ⟨code, _, s', _, s', hrun, rfl, hopen, ?_⟩
      rw [hdata, hlines]
      exact (quill_load_shows hname.bytes.1 ⟨not_mem_nil, by decide, by decide⟩).line_texts

theorem Edited.saveable (hb : Edited name b) (h : Accounted s σ t) (hname : Named name)
    (hlinked : t.2.entries.lookup (bfs_hash name) = none → t.2.PathLinked (bfs_hash name))
    (hwhole : Whole σ t (bfs_hash name) (UInt64.ofNat b.text.length)) (hreloads : Reloads s name b) :
    Saveable σ t name b.text := by
  obtain ⟨code, b₁, s₁, b₂, s₂, hrun, -, hopen, hlines⟩ := hreloads
  have hlimit : b.text.length + 1 ≤ 524288 := hb.text_length
  have hsize : FILE_DATA_SIZE = 524288 := rfl
  have hcases : b.text.length + 1 < 524288 ∧ saved_data b = b.text ∨ 524288 ≤ b.text.length + 1 ∧
      524032 ≤ (saved_data b).length ∧ (saved_data b).length < b.text.length :=
    saved_data_cases hb.shows hb.ne_nil hb.count
  have hle : (saved_data b).length ≤ b.text.length := by
    rcases hcases with ⟨-, heq⟩ | ⟨-, -, hlt⟩
    · rw [heq]
    · exact hlt.le
  have hlength := toNat_length (show (saved_data b).length < 2 ^ 32 by omega)
  by_cases hroom : Room σ t (bfs_hash name) (UInt64.ofNat (saved_data b).length)
  · obtain ⟨s', hrun', hread⟩ := saved_read_back h hname hb.filename hlinked (by omega) hroom
    obtain rfl : s' = s₁ := congrArg (fun p => p.2.2) (Option.some.inj (hrun'.symm.trans hrun))
    have hopen' := open_file_found hname (hread (UInt64.ofNat FILE_DATA_SIZE) (by
      rw [UInt64.le_iff_toNat_le, hlength]
      change _ ≤ 524288
      omega)) (show (0 : Int) ≠ -1 by decide)
    obtain rfl := (Prod.mk.inj (Option.some.inj (hopen'.symm.trans hopen))).1
    have hshown : b.text.length ≤ (saved_data b).length := loaded_text_le hname hlines
    rcases hcases with ⟨hfits, heq⟩ | ⟨-, -, hlt⟩
    · exact ⟨hfits, .inr (heq ▸ hroom)⟩
    · omega
  · -- the disk stays as it is, and shows less than was to be saved
    have hblocks : blocks (UInt64.ofNat b.text.length).toNat = blocks (UInt64.ofNat (saved_data b).length).toNat := by
      rw [hlength, toNat_length (by omega)]
      rcases hcases with ⟨-, heq⟩ | ⟨hfull, hlow, hlt⟩
      · rw [heq]
      · change (b.text.length + 4095) / 4096 = ((saved_data b).length + 4095) / 4096
        omega
    obtain ⟨hfew, hsmaller, code', hwrite⟩ := bfs_write_file_full h.toVolume (by rw [hlength]; omega)
      (fun hnone hfree => hblocks ▸ hwhole hnone (hblocks ▸ hfree)) hroom fun i => (saved_data b).getD i 0
    have hrun' : quill_save s b = some (code', { b with modified := false }, s) := by
      rw [quill_save_eq hname hb.filename, hwrite]
      rfl
    obtain rfl : s = s₁ := congrArg (fun p => p.2.2) (Option.some.inj (hrun'.symm.trans hrun))
    exfalso
    cases hlookup : t.2.entries.lookup (bfs_hash name) with
    | none =>
      have hdisk := h.on_disk
      have hsmall := h.small
      obtain ⟨s', hopen'⟩ := open_file_absent h.toVolume (by omega) hname hlookup
      obtain rfl := (Prod.mk.inj (Option.some.inj (hopen'.symm.trans hopen))).1
      rw [(quill_load_failed _ (by decide) _).line_texts] at hlines
      have hempty : b.text = [] := by
        rw [Buffer.text, ← hlines]
        rfl
      rw [hempty, length_nil] at hle hblocks
      rw [← hblocks] at hfew
      exact absurd hfew (Nat.not_lt_zero _)
    | some value =>
      have hgrows := hsmaller value hlookup
      rw [UInt64.lt_iff_toNat_lt, hlength] at hgrows
      obtain ⟨data, hdata, hread⟩ := read_whole h.toVolume hlookup
      have hopen' := open_file_found hname ((hread _).trans (if_neg (by
        rw [UInt64.lt_iff_toNat_lt]
        change ¬ 524288 < _
        omega))) (show (0 : Int) ≠ -1 by decide)
      obtain rfl := (Prod.mk.inj (Option.some.inj (hopen'.symm.trans hopen))).1
      have hshown : b.text.length ≤ data.length := loaded_text_le hname hlines
      omega

/-- A file that is opened and saved keeps its bytes, but for the carriage returns, exactly where it is within the
limits. A session that is saved is loaded again where its text is within them and there is room on the disk, and
otherwise not, unless a write that found room for the text but none for the entry leaves the lines there by chance. -/
theorem quill_keeps_contents (h : Accounted s σ t) (hname : Named name) :
    (∀ data, Stored s name data → (Kept s name data ↔ Fits data)) ∧
      ∀ (r : Int) (data : List UInt8) (keys : List Key), (∀ key ∈ keys, key.Valid) →
        (t.2.entries.lookup (bfs_hash name) = none → t.2.PathLinked (bfs_hash name)) →
        let b := (keys.foldl press (start (quill_load (name_bytes name) r data))).buffer
        (Saveable σ t name b.text → Reloads s name b) ∧
          (Whole σ t (bfs_hash name) (UInt64.ofNat b.text.length) → Reloads s name b → Saveable σ t name b.text) := by
  refine ⟨fun data hstored => kept_iff h hname hstored, fun r data keys hkeys hlinked => ?_⟩
  have hedited := session_edited hname r data hkeys
  exact ⟨hedited.reloads h hname hlinked, hedited.saveable h hname hlinked⟩

/-- A file of two lines with a carriage return, and a session that types into its first line and splits it. -/
theorem quill_keeps_contents_typed : ∃ s, s.Reachable ∧ Stored s name_a [97, 98, 13, 10, 99, 100] ∧
    Kept s name_a [97, 98, 13, 10, 99, 100] ∧
    Reloads s name_a ([Key.insert 120, .enter, .insert 121].foldl press
      (start (quill_load (name_bytes name_a) 0 [97, 98, 13, 10, 99, 100]))).buffer := by
  obtain ⟨s, -, hreachable, hshallow, hread⟩ := @disk_with name_a [97, 98, 13, 10, 99, 100] (by decide) (by decide)
  obtain ⟨σ, t, haccounted⟩ := hreachable.accounted
  obtain ⟨-, -, hkeys, hfree⟩ := hshallow.leaf haccounted.toImage
  have hstored : Stored s name_a [97, 98, 13, 10, 99, 100] := ⟨_, hread _ (by decide)⟩
  obtain ⟨hkept, hsession⟩ := quill_keeps_contents haccounted (show Named name_a from ⟨by decide, by decide⟩)
  refine ⟨s, hreachable, hstored, (hkept _ hstored).mpr ⟨.inl (by decide),
    ⟨by decide, by decide, by decide⟩, by decide⟩,
    (hsession 0 [97, 98, 13, 10, 99, 100] _ ?_ ?_).1 ?_⟩
  · intro key hkey
    rcases List.mem_cons.mp hkey with rfl | hkey
    · exact ⟨by decide, by decide⟩
    rcases List.mem_cons.mp hkey with rfl | hkey
    · trivial
    · rw [List.mem_singleton.mp hkey]
      exact ⟨by decide, by decide⟩
  · exact fun hnone => absurd (mem_singleton_self _) ((hkeys _).mp hnone)
  · have htext : ([Key.insert 120, .enter, .insert 121].foldl press
        (start (quill_load (name_bytes name_a) 0 [97, 98, 13, 10, 99, 100]))).buffer.text =
          [120, 10, 121, 97, 98, 10, 99, 100] := by
      decide +kernel
    rw [htext]
    refine ⟨by decide, .inr ?_⟩
    cases hlookup : t.2.entries.lookup (bfs_hash name_a) with
    | none => exact absurd (mem_singleton_self _) ((hkeys _).mp hlookup)
    | some value =>
      rw [Room, hlookup]
      refine .inr ?_
      rw [hfree]
      decide

/-- A line of 256 characters loses its last one. -/
theorem long_line_lost : ∃ s, s.Reachable ∧ Stored s name_a (List.replicate 256 97) ∧
    ¬ Kept s name_a (List.replicate 256 97) := by
  obtain ⟨s, -, hreachable, -, hread⟩ := @disk_with name_a (List.replicate 256 97)
    (by rw [length_replicate]; decide) (by rw [length_replicate]; decide)
  obtain ⟨σ, t, haccounted⟩ := hreachable.accounted
  have hstored : Stored s name_a (List.replicate 256 97) := ⟨_, hread _ (by rw [length_replicate]; decide)⟩
  refine ⟨s, hreachable, hstored, fun hkept => ?_⟩
  have hcols := ((kept_iff haccounted ⟨by decide, by decide⟩ hstored).mp hkept).loads.cols
  have hline : List.replicate 256 (97 : UInt8) ∈ split_lines [] (List.replicate 256 97) := by decide +kernel
  have hshort := hcols _ hline
  rw [length_replicate] at hshort
  exact absurd hshort (by decide)

end Volume

end graceos.quill
