import GraceOS.Llm.Gguf
import Mathlib.Logic.Function.Iterate

/-!
# What the parser reads lies in the file

Where the parts of a file lie follows from the lengths and counts that it declares, which may be any 64-bit numbers.
What the parser reads and records lies inside if and only if each part that it comes to is of a kind that its checks
cover. -/

namespace graceos.llm

open exec word List

section
variable (buf : Nat → UInt8) (buf_sz : Nat)

/-! ## The layout of a file -/

/-- The end of a key or a name, and of a token, as a 64-bit position. -/
def name_end (off : Nat) : Nat := (off + 8 + load buf off 8) % 2 ^ 64

def string_end (off : Nat) : Nat := off + 8 + load buf off 8

/-- The `i`th string of an array that starts at `off`. -/
def string_at (off i : Nat) : Nat := (string_end buf)^[i] (off + 12)

def value_end (type off : Nat) : Nat :=
  match scalar_size type with
  | some sz => off + sz
  | none =>
    if type = GGUF_VAL_STRING then string_end buf off
    else if load buf off 4 = GGUF_VAL_STRING then string_at buf off (load buf (off + 4) 8)
    else off + 12 + elem_size (load buf off 4) * load buf (off + 4) 8

def pair_type (off : Nat) : Nat := load buf (name_end buf off) 4

def pair_end (off : Nat) : Nat := value_end buf (pair_type buf off) (name_end buf off + 4)

/-- The last two fields of a tensor, behind its dims. -/
def fields_at (off : Nat) : Nat :=
  name_end buf off + 4 + 8 * min (load buf (name_end buf off) 4) GGUF_TENSOR_MAX_DIMS

def tensor_end (off : Nat) : Nat := fields_at buf off + 12

def pair_at (k : Nat) : Nat := (pair_end buf)^[k] 24

def tensor_at (t : Nat) : Nat := (tensor_end buf)^[t] (pair_at buf (load buf 16 8))

/-! ## Parts that are there -/

def NameWhole (off : Nat) : Prop := off + 8 ≤ buf_sz ∧ name_end buf off ≤ buf_sz
deriving Decidable

def StringWhole (off : Nat) : Prop := off + 8 ≤ buf_sz ∧ string_end buf off ≤ buf_sz
deriving Decidable

def ValueWhole (type off : Nat) : Prop :=
  (∀ sz ∈ scalar_size type, off + sz ≤ buf_sz) ∧ (type = GGUF_VAL_STRING → StringWhole buf buf_sz off) ∧
    (type = GGUF_VAL_ARRAY → off + 12 ≤ buf_sz ∧
      (load buf off 4 = GGUF_VAL_STRING → ∀ i < load buf (off + 4) 8, StringWhole buf buf_sz (string_at buf off i))) ∧
    (scalar_size type = none → type = GGUF_VAL_STRING ∨ type = GGUF_VAL_ARRAY)

instance (type off : Nat) : Decidable (ValueWhole buf buf_sz type off) := by
  unfold ValueWhole
  infer_instance

def PairWhole (off : Nat) : Prop :=
  NameWhole buf buf_sz off ∧ ValueWhole buf buf_sz (pair_type buf off) (name_end buf off + 4)
deriving Decidable

def TensorWhole (off : Nat) : Prop := NameWhole buf buf_sz off ∧ tensor_end buf off ≤ buf_sz
deriving Decidable

/-- The header starts as it should. -/
def Counted : Prop :=
  24 ≤ buf_sz ∧ load buf 0 4 = GGUF_MAGIC ∧ (GGUF_VERSION_MIN ≤ load buf 4 4 ∧ load buf 4 4 ≤ GGUF_VERSION_MAX) ∧
    load buf 16 8 ≤ GGUF_MAX_KV ∧ load buf 8 8 ≤ GGUF_MAX_TENSORS
deriving Decidable

def HeaderWhole : Prop :=
  Counted buf buf_sz ∧ (∀ k < load buf 16 8, PairWhole buf buf_sz (pair_at buf k)) ∧
    ∀ t < load buf 8 8, TensorWhole buf buf_sz (tensor_at buf t)

instance : Decidable (HeaderWhole buf buf_sz) := by
  unfold HeaderWhole
  infer_instance

/-! ## Parts that the checks cover -/

/-- A length that is accepted leaves room for the 127 bytes that are copied. -/
def NameSafe (off : Nat) : Prop := NameWhole buf buf_sz off → off + 8 + min (load buf off 8) 127 ≤ buf_sz
deriving Decidable

/-- A length that is accepted does not wrap around. -/
def StringSafe (off : Nat) : Prop :=
  off + 8 ≤ buf_sz → string_end buf off % 2 ^ 64 ≤ buf_sz → string_end buf off ≤ buf_sz
deriving Decidable

/-- Each string of an array behind whole ones is covered, and scalars of an array are there. -/
def ValueSafe (type off : Nat) : Prop :=
  (type = GGUF_VAL_STRING → StringSafe buf buf_sz off) ∧
    (type = GGUF_VAL_ARRAY → off + 12 ≤ buf_sz →
      (load buf off 4 = GGUF_VAL_STRING → ∀ i < load buf (off + 4) 8,
        (∀ j < i, StringWhole buf buf_sz (string_at buf off j)) → StringSafe buf buf_sz (string_at buf off i)) ∧
      (load buf off 4 ≠ GGUF_VAL_STRING → value_end buf type off ≤ buf_sz))

instance (type off : Nat) : Decidable (ValueSafe buf buf_sz type off) := by
  unfold ValueSafe
  infer_instance

def PairSafe (off : Nat) : Prop :=
  NameSafe buf buf_sz off ∧
    (NameWhole buf buf_sz off → ValueSafe buf buf_sz (pair_type buf off) (name_end buf off + 4))
deriving Decidable

/-- With 8 bytes left for the last two fields, the 12 that they take are there. -/
def TensorSafe (off : Nat) : Prop :=
  NameSafe buf buf_sz off ∧
    (NameWhole buf buf_sz off → fields_at buf off + 8 ≤ buf_sz → tensor_end buf off ≤ buf_sz)
deriving Decidable

/-- Each pair behind whole ones is covered, and each tensor behind them. -/
def HeaderSafe : Prop :=
  Counted buf buf_sz →
    (∀ k < load buf 16 8, (∀ j < k, PairWhole buf buf_sz (pair_at buf j)) → PairSafe buf buf_sz (pair_at buf k)) ∧
    ((∀ k < load buf 16 8, PairWhole buf buf_sz (pair_at buf k)) → ∀ t < load buf 8 8,
      (∀ s < t, TensorWhole buf buf_sz (tensor_at buf s)) → TensorSafe buf buf_sz (tensor_at buf t))

instance : Decidable (HeaderSafe buf buf_sz) := by
  unfold HeaderSafe
  infer_instance

/-! ## The vocabulary -/

/-- The bytes of a key that are kept. -/
def key_at (off : Nat) : List UInt8 := (List.range (min (load buf off 8) 127)).map fun i => buf (off + 8 + i)

/-- The first pair with a key. -/
def find_pair (key : List UInt8) : Option Nat :=
  ((List.range (load buf 16 8)).map (pair_at buf)).find? fun off => str_eq (key_at buf off) key

/-- Where the scores lie, if there are any. -/
def scores_at : Option Nat :=
  (find_pair buf (ascii "tokenizer.ggml.scores")).bind fun off =>
    if pair_type buf off = GGUF_VAL_ARRAY ∧ load buf (name_end buf off + 4) 4 = GGUF_VAL_FLOAT32 then
      some (name_end buf off + 16)
    else none

/-- The `i`th token, at `off`, lies in the file as far as it is copied, and so does its score. -/
def TokenSafe (scores : Option Nat) (i off : Nat) : Prop :=
  off + 8 + min (load buf off 8) 63 ≤ buf_sz ∧ ∀ data ∈ scores, (data + 4 * i) % 2 ^ 64 + 4 ≤ buf_sz
deriving Decidable

/-- The tokens that are taken are covered, `n_vocab` at most. -/
def VocabSafe (n_vocab : Nat) : Prop :=
  ∀ off ∈ find_pair buf (ascii "tokenizer.ggml.tokens"), pair_type buf off = GGUF_VAL_ARRAY →
    ∀ i < min (load buf (name_end buf off + 8) 8) n_vocab,
      TokenSafe buf buf_sz (scores_at buf) i ((name_end buf)^[i] (name_end buf off + 16))

instance (n_vocab : Nat) : Decidable (VocabSafe buf buf_sz n_vocab) := by
  unfold VocabSafe
  infer_instance

end

/-! ## Reading parts -/

variable {r : Reader}

/-- All places lie in the buffer. -/
def Reader.Inside (buf_sz : Nat) (r : Reader) : Prop := ∀ x ∈ r.places, x.1 + x.2 ≤ buf_sz

/-- No place is forgotten. -/
def Grows {α : Type} (m : Parse α) : Prop := ∀ r : Reader, ∀ x ∈ r.places, x ∈ (m r).2.places

/-- What a piece of the parser does at a position: the part there is read and its value given if it is whole, refused if
it is not, and a place outside is touched if its checks do not cover it. -/
structure Reads (buf_sz : Nat) {α : Type} (m : Parse α) (Safe Whole : Nat → Prop) (value : Nat → α) (next : Nat → Nat) :
    Prop where
  grows : Grows m
  whole : ∀ r : Reader, r.off ≤ buf_sz → r.Inside buf_sz → Safe r.off → Whole r.off → next r.off ≤ buf_sz ∧
    ∃ places, m r = (.ok (value r.off), ⟨next r.off, places⟩) ∧ (⟨next r.off, places⟩ : Reader).Inside buf_sz
  broken : ∀ r : Reader, r.off ≤ buf_sz → r.Inside buf_sz → Safe r.off → ¬ Whole r.off →
    ∃ r', m r = (.error, r') ∧ r'.Inside buf_sz
  outside : ∀ r : Reader, r.off ≤ buf_sz → r.Inside buf_sz → ¬ Safe r.off → ¬ (m r).2.Inside buf_sz

variable {buf : Nat → UInt8} {buf_sz : Nat} {α β : Type} {m : Parse α} {k : α → Parse β}
  {Safe Whole Safe' Whole' : Nat → Prop} {value value' : Nat → α} {next next' : Nat → Nat}

theorem Grows.bind (hm : Grows m) (hk : ∀ a, Grows (k a)) : Grows (m >>= k) := by
  intro r x hx
  have hfirst := hm r x hx
  rcases hr : m r with ⟨_ | a, r'⟩
  all_goals rw [hr] at hfirst
  case ok a =>
    rw [bind_ok hr]
    exact hk a r' x hfirst
  case error => rwa [bind_error hr]
  case hang => rwa [bind_hang hr]

/-- Places outside stay noted. -/
theorem Grows.inside (hm : Grows m) (h : (m r).2.Inside buf_sz) : r.Inside buf_sz :=
  fun x hx => h x (hm r x hx)

theorem Reads.congr (h : Reads buf_sz m Safe Whole value next)
    (hsafe : ∀ off, off ≤ buf_sz → (Safe' off ↔ Safe off))
    (hwhole : ∀ off, off ≤ buf_sz → Safe off → (Whole' off ↔ Whole off))
    (hvalue : ∀ off, off ≤ buf_sz → Safe off → Whole off → value' off = value off ∧ next' off = next off) :
    Reads buf_sz m Safe' Whole' value' next' where
  grows := h.grows
  whole r hoff hin hs hw := by
    have hs' := (hsafe r.off hoff).mp hs
    have hw' := (hwhole r.off hoff hs').mp hw
    obtain ⟨hv, hn⟩ := hvalue r.off hoff hs' hw'
    rw [hv, hn]
    exact h.whole r hoff hin hs' hw'
  broken r hoff hin hs hw := by
    have hs' := (hsafe r.off hoff).mp hs
    exact h.broken r hoff hin hs' fun hw' => hw ((hwhole r.off hoff hs').mpr hw')
  outside r hoff hin hs := h.outside r hoff hin fun hs' => hs ((hsafe r.off hoff).mpr hs')

theorem Reads.bind {Safe' Whole' : α → Nat → Prop} {value' : α → Nat → β} {next' : α → Nat → Nat}
    (h : Reads buf_sz m Safe Whole value next)
    (h' : ∀ a, Reads buf_sz (k a) (Safe' a) (Whole' a) (value' a) (next' a)) :
    Reads buf_sz (m >>= k) (fun off => Safe off ∧ (Whole off → Safe' (value off) (next off)))
      (fun off => Whole off ∧ Whole' (value off) (next off)) (fun off => value' (value off) (next off))
      fun off => next' (value off) (next off) where
  grows := h.grows.bind fun a => (h' a).grows
  whole r hoff hin hs hw := by
    obtain ⟨hle, places, hm, hin'⟩ := h.whole r hoff hin hs.1 hw.1
    rw [bind_ok hm]
    exact (h' _).whole ⟨next r.off, places⟩ hle hin' (hs.2 hw.1) hw.2
  broken r hoff hin hs hw := by
    by_cases hfirst : Whole r.off
    · obtain ⟨hle, places, hm, hin'⟩ := h.whole r hoff hin hs.1 hfirst
      rw [bind_ok hm]
      exact (h' _).broken ⟨next r.off, places⟩ hle hin' (hs.2 hfirst) fun hsecond => hw ⟨hfirst, hsecond⟩
    · obtain ⟨r', hm, hin'⟩ := h.broken r hoff hin hs.1 hfirst
      exact ⟨r', bind_error hm, hin'⟩
  outside r hoff hin hs := by
    by_cases hsafe : Safe r.off
    · by_cases hfirst : Whole r.off
      · obtain ⟨hle, places, hm, hin'⟩ := h.whole r hoff hin hsafe hfirst
        rw [bind_ok hm]
        exact (h' _).outside ⟨next r.off, places⟩ hle hin' fun hsecond => hs ⟨hsafe, fun _ => hsecond⟩
      · exact absurd ⟨hsafe, fun hw => absurd hw hfirst⟩ hs
    · intro hafter
      refine h.outside r hoff hin hsafe ?_
      rcases hm : m r with ⟨_ | a, r'⟩
      case ok a =>
        rw [bind_ok hm] at hafter
        exact (h' a).grows.inside hafter
      case error => rwa [bind_error hm] at hafter
      case hang => rwa [bind_hang hm] at hafter

theorem Reads.pure (a : α) : Reads buf_sz (Pure.pure a) (fun _ => True) (fun _ => True) (fun _ => a) id where
  grows _ _ hx := hx
  whole r hoff hin _ _ := ⟨hoff, r.places, rfl, hin⟩
  broken _ _ _ _ hw := absurd trivial hw
  outside _ _ _ hs := absurd trivial hs

theorem Reads.error (value : Nat → α) (next : Nat → Nat) : Reads buf_sz
    (Exec.error : Parse α) (fun _ => True) (fun _ => False) value next where
  grows _ _ hx := hx
  whole _ _ _ _ hw := hw.elim
  broken r _ hin _ _ := ⟨r, rfl, hin⟩
  outside _ _ _ hs := absurd trivial hs

theorem Reads.map (h : Reads buf_sz m Safe Whole value next) (f : α → β) :
    Reads buf_sz (m >>= fun a => Pure.pure (f a)) Safe Whole (fun off => f (value off)) next :=
  (h.bind fun a => Reads.pure (f a)).congr (fun _ _ => (and_iff_left fun _ => trivial).symm)
    (fun _ _ _ => (and_iff_left trivial).symm) fun _ _ _ _ => ⟨rfl, rfl⟩

/-- Parts of one kind, one behind the other. -/
theorem Reads.times (h : Reads buf_sz m Safe Whole value next) (n : Nat) :
    Reads buf_sz (llm.times m n) (fun off => ∀ i < n, (∀ j < i, Whole (next^[j] off)) → Safe (next^[i] off))
      (fun off => ∀ i < n, Whole (next^[i] off)) (fun off => (List.range n).map fun i => value (next^[i] off))
      (next^[n]) := by
  induction n with
  | zero => exact (Reads.pure []).congr (fun _ _ => by simp) (fun _ _ _ => by simp) fun _ _ _ _ => ⟨rfl, rfl⟩
  | succ n ih =>
    refine (h.bind fun a => ih.map fun rest => a :: rest).congr (fun off _ => ?_) (fun off _ _ => ?_)
      fun off _ _ _ => ⟨?_, rfl⟩
    · rw [Nat.forall_lt_succ_left]
      refine and_congr (by simp) ⟨fun hs hfirst i hi hbefore => ?_, fun hs i hi hbefore => ?_⟩
      · exact hs i hi (Nat.forall_lt_succ_left.mpr ⟨hfirst, hbefore⟩)
      · obtain ⟨hfirst, hrest⟩ := Nat.forall_lt_succ_left.mp hbefore
        exact hs hfirst i hi hrest
    · exact Nat.forall_lt_succ_left
    · rw [range_succ_eq_map, map_cons, map_map]
      rfl

/-! ## Single steps -/

variable {n off : Nat}

theorem check_pass (h : ¬(r.off + n) % 2 ^ 64 > buf_sz) : check buf_sz n r = (.ok (), r) := if_neg h

theorem check_fail (h : (r.off + n) % 2 ^ 64 > buf_sz) : check buf_sz n r = (.error, r) := if_pos h

theorem skip_eq (n : Nat) (r : Reader) : skip n r = (.ok (), { r with off := (r.off + n) % 2 ^ 64 }) := rfl

theorem grows_check (n : Nat) : Grows (check buf_sz n) := by
  intro r x hx
  unfold check
  split <;> exact hx

theorem inside_append {place : Nat} :
    (⟨off, r.places ++ [(place, n)]⟩ : Reader).Inside buf_sz ↔ r.Inside buf_sz ∧ place + n ≤ buf_sz := by
  constructor
  · exact fun h => ⟨fun x hx => h x (mem_append_left _ hx), h (place, n) (mem_append_right _ mem_cons_self)⟩
  · rintro ⟨hr, hplace⟩ x hx
    rcases List.mem_append.mp hx with hold | hnew
    · exact hr x hold
    · rw [List.mem_singleton.mp hnew]
      exact hplace

/-- A step that notes one place and moves on. -/
theorem reads_place (keep : Nat) (value : Nat → α) (next : Nat → Nat)
    (hm : ∀ r : Reader, m r = (.ok (value r.off), ⟨next r.off, r.places ++ [(r.off, keep)]⟩))
    (hnext : ∀ off, off ≤ buf_sz → off + keep ≤ buf_sz → next off ≤ buf_sz) :
    Reads buf_sz m (fun off => off + keep ≤ buf_sz) (fun _ => True) value next where
  grows r x hx := by
    rw [hm]
    exact mem_append_left _ hx
  whole r hoff hin hs _ := ⟨hnext _ hoff hs, _, hm r, inside_append.mpr ⟨hin, hs⟩⟩
  broken _ _ _ _ hw := absurd trivial hw
  outside r _ _ hs := by
    rw [hm]
    exact fun h => hs (inside_append.mp h).2

/-- A checked step over `n` bytes, of which `keep` are needed. -/
theorem reads_text (n keep : Nat) (value : Nat → α)
    (hm : ∀ r : Reader, m r = (.ok (value r.off), ⟨(r.off + n) % 2 ^ 64, r.places ++ [(r.off, keep)]⟩)) :
    Reads buf_sz (check buf_sz n >>= fun _ => m) (fun off => (off + n) % 2 ^ 64 ≤ buf_sz → off + keep ≤ buf_sz)
      (fun off => (off + n) % 2 ^ 64 ≤ buf_sz) value fun off => (off + n) % 2 ^ 64 where
  grows := (grows_check n).bind fun _ r x hx => by
    rw [hm]
    exact mem_append_left _ hx
  whole r _ hin hs hw := by
    rw [bind_ok (check_pass (Nat.not_lt.mpr hw)), hm]
    exact ⟨hw, _, rfl, inside_append.mpr ⟨hin, hs hw⟩⟩
  broken r _ hin _ hw := ⟨r, bind_error (check_fail (Nat.not_le.mp hw)), hin⟩
  outside r _ _ hs := by
    rw [Classical.not_imp] at hs
    rw [bind_ok (check_pass (Nat.not_lt.mpr hs.1)), hm]
    exact fun h => hs.2 (inside_append.mp h).2

/-! ## Numbers, names and strings -/

variable {type : Nat}

theorem read_bind (n : Nat) (k : Nat → Parse β) : (do
    check buf_sz n
    let x ← copy buf 0 n
    skip n
    k x) = READ buf buf_sz n >>= k := by
  funext r
  by_cases hfar : (r.off + n) % 2 ^ 64 > buf_sz
  · have hread : READ buf buf_sz n r = (.error, r) := bind_error (check_fail hfar)
    rw [bind_error (check_fail hfar), bind_error hread]
  · have hread : READ buf buf_sz n r =
        (.ok (load buf (r.off + 0) n), ⟨(r.off + n) % 2 ^ 64, r.places ++ [(r.off + 0, n)]⟩) := by
      rw [READ, bind_ok (check_pass hfar), bind_ok (copy_ok 0 n r), bind_ok (skip_eq n _), pure_apply]
    rw [bind_ok (check_pass hfar), bind_ok (copy_ok 0 n r), bind_ok (skip_eq n _), bind_ok hread]

theorem scalar_size_le {sz : Nat} (h : scalar_size type = some sz) : sz ≤ 16 := by
  unfold scalar_size at h
  split at h <;> first
    | exact Option.some.inj h ▸ by decide
    | cases h

section
variable (hlt : buf_sz + 16 < 2 ^ 64)
include hlt

theorem reads_READ (hn : n ≤ 16) :
    Reads buf_sz (READ buf buf_sz n) (fun _ => True) (fun off => off + n ≤ buf_sz) (fun off => load buf off n)
      fun off => off + n := by
  have htext : Reads buf_sz (READ buf buf_sz n) _ _ (fun off => load buf off n) _ := reads_text n n _ fun r => rfl
  refine htext.congr (fun off hoff => ⟨fun _ hle => ?_, fun _ => trivial⟩) (fun off hoff _ => ?_)
    fun off hoff _ hw => ⟨rfl, ?_⟩
  all_goals omega

theorem reads_name : Reads buf_sz (parse_gguf_string buf buf_sz 128) (NameSafe buf buf_sz) (NameWhole buf buf_sz)
    (key_at buf) (name_end buf) := by
  have hparse : parse_gguf_string buf buf_sz 128 = READ buf buf_sz 8 >>= fun slen =>
      (check buf_sz slen >>= fun _ => (copy_bytes buf (if slen < 128 - 1 then slen else 128 - 1) >>= fun dst =>
        (skip slen >>= fun _ => pure dst))) := read_bind 8 _
  have hkeep (slen : Nat) : (if slen < 128 - 1 then slen else 128 - 1) = min slen 127 := by
    split <;> omega
  rw [hparse]
  simp only [hkeep]
  refine ((reads_READ hlt (by decide)).bind fun slen => reads_text slen (min slen 127)
    (fun off => (List.range (min slen 127)).map fun i => buf (off + i)) fun r => rfl).congr
      (fun off _ => ?_) (fun off _ _ => Iff.rfl) fun off _ _ _ => ⟨rfl, rfl⟩
  unfold NameSafe NameWhole name_end
  exact ⟨fun h => ⟨trivial, fun hnumber htext => h ⟨hnumber, htext⟩⟩, fun h hboth => h.2 hboth.1 hboth.2⟩

/-- Strings that are recorded, with what is made of each. -/
theorem reads_string {f : Nat → Parse α} (value : Nat → Nat → α)
    (hf : ∀ slen (r : Reader), f slen r =
      (.ok (value slen r.off), ⟨(r.off + slen) % 2 ^ 64, r.places ++ [(r.off, slen)]⟩)) :
    Reads buf_sz (READ buf buf_sz 8 >>= fun slen => check buf_sz slen >>= fun _ => f slen) (StringSafe buf buf_sz)
      (StringWhole buf buf_sz) (fun off => value (load buf off 8) (off + 8)) (string_end buf) := by
  refine ((reads_READ hlt (by decide)).bind
    fun slen => reads_text slen slen (value slen) (hf slen)).congr (fun off _ => ?_)
    (fun off _ hs => ?_) fun off _ hs hw => ⟨rfl, ?_⟩
  · exact (and_iff_right trivial).symm
  · refine and_congr_right fun hnumber => ⟨fun hle => ?_, fun hle => hs.2 hnumber hle⟩
    change off + 8 + load buf off 8 ≤ buf_sz at hle
    omega
  · have hle := hs.2 hw.1 hw.2
    change off + 8 + load buf off 8 = _
    omega

end

/-! ## Values -/

/-- The value of a type that lies at `off`. -/
def value_at (buf : Nat → UInt8) (type off : Nat) : Val :=
  match scalar_size type with
  | some sz => .scalar (load buf off sz)
  | none =>
    if type = GGUF_VAL_STRING then .str (off + 8) (load buf off 8)
    else .arr (load buf off 4) (load buf (off + 4) 8) (off + 12)

theorem reads_here {k : Nat → Parse β} {Safe Whole : Nat → Prop} {value : Nat → Nat → β} {next : Nat → Nat}
    (h : ∀ data, Reads buf_sz (k data) Safe Whole (value data) next) :
    Reads buf_sz (here >>= k) Safe Whole (fun off => value off off) next where
  grows := Grows.bind (fun _ _ hx => hx) fun data => (h data).grows
  whole r := (h r.off).whole r
  broken r := (h r.off).broken r
  outside r := (h r.off).outside r

theorem reads_unless {c : Prop} [Decidable c] (h : Reads buf_sz m Safe Whole value next) :
    Reads buf_sz (if c then Exec.error else m) (fun off => ¬ c → Safe off) (fun off => ¬ c ∧ Whole off) value next := by
  by_cases hc : c
  · rw [if_pos hc]
    exact (Reads.error value next).congr (fun _ _ => iff_of_true (fun hn => absurd hc hn) trivial)
      (fun _ _ _ => iff_of_false (fun hw => hw.1 hc) id) fun _ _ _ hw => hw.elim
  · rw [if_neg hc]
    exact h.congr (fun _ _ => ⟨fun hs => hs hc, fun hs _ => hs⟩)
      (fun _ _ _ => and_iff_right hc) fun _ _ _ _ => ⟨rfl, rfl⟩

theorem val_cases (type : Nat) : (∃ sz, scalar_size type = some sz) ∨ type = GGUF_VAL_STRING ∨ type = GGUF_VAL_ARRAY ∨
    (scalar_size type = none ∧ type ≠ GGUF_VAL_STRING ∧ type ≠ GGUF_VAL_ARRAY) := by
  cases hsz : scalar_size type with
  | some sz => exact .inl ⟨sz, rfl⟩
  | none =>
    by_cases hstring : type = GGUF_VAL_STRING
    · exact .inr (.inl hstring)
    · by_cases harray : type = GGUF_VAL_ARRAY
      · exact .inr (.inr (.inl harray))
      · exact .inr (.inr (.inr ⟨rfl, hstring, harray⟩))

theorem ValueWhole.le (h : ValueWhole buf buf_sz type off) : off ≤ buf_sz := by
  obtain ⟨hscalar, hstring, harray, hknown⟩ := h
  cases hsz : scalar_size type with
  | some sz =>
    have := hscalar sz hsz
    omega
  | none =>
    rcases hknown hsz with htype | htype
    · have := (hstring htype).1
      omega
    · have := (harray htype).1
      omega

theorem valueSafe_of_lt (h : buf_sz < off) : ValueSafe buf buf_sz type off :=
  ⟨fun _ hnumber => by omega, fun _ htwelve => by omega⟩

section
variable (hlt : buf_sz + 16 < 2 ^ 64)
include hlt

theorem reads_elements (elem_type count data : Nat) :
    Reads buf_sz (if elem_type = GGUF_VAL_STRING then do
        let _ ← times (skip_string buf buf_sz) count
        pure (Val.arr elem_type count data)
      else do
        let _ ← record (elem_size elem_type * count)
        skip (elem_size elem_type * count % 2 ^ 64)
        pure (.arr elem_type count data))
      (fun off => (elem_type = GGUF_VAL_STRING → ∀ i < count,
          (∀ j < i, StringWhole buf buf_sz ((string_end buf)^[j] off)) →
            StringSafe buf buf_sz ((string_end buf)^[i] off)) ∧
        (elem_type ≠ GGUF_VAL_STRING → off + elem_size elem_type * count ≤ buf_sz))
      (fun off => elem_type = GGUF_VAL_STRING → ∀ i < count, StringWhole buf buf_sz ((string_end buf)^[i] off))
      (fun _ => .arr elem_type count data)
      (fun off => if elem_type = GGUF_VAL_STRING then (string_end buf)^[count] off
        else off + elem_size elem_type * count) := by
  by_cases helem : elem_type = GGUF_VAL_STRING
  · simp only [if_pos helem]
    have hstring : Reads buf_sz (skip_string buf buf_sz) (StringSafe buf buf_sz) (StringWhole buf buf_sz) (fun _ => ())
        (string_end buf) := reads_string hlt (fun _ _ => ()) fun _ _ => rfl
    refine ((hstring.times count).map fun _ => Val.arr elem_type count data).congr (fun off _ => ?_) (fun off _ _ => ?_)
      fun _ _ _ _ => ⟨rfl, rfl⟩
    · exact ⟨fun hs => hs.1 helem, fun hs => ⟨fun _ => hs, fun hne => absurd helem hne⟩⟩
    · exact ⟨fun hw => hw helem, fun hw _ => hw⟩
  · simp only [if_neg helem]
    refine (reads_place (elem_size elem_type * count) (fun _ => Val.arr elem_type count data)
      (fun off => (off + elem_size elem_type * count % 2 ^ 64) % 2 ^ 64) (fun r => rfl) fun off _ hle => ?_).congr
        (fun off _ => ?_) (fun off _ _ => iff_of_true (fun h => absurd h helem) trivial) fun off _ hs _ => ⟨rfl, ?_⟩
    · rw [Nat.add_mod_mod]
      omega
    · exact ⟨fun hs => hs.2 helem, fun hs => ⟨fun h => absurd h helem, fun _ => hs⟩⟩
    · rw [Nat.add_mod_mod, Nat.mod_eq_of_lt (by omega)]

theorem reads_val (type : Nat) :
    Reads buf_sz (parse_gguf_val buf buf_sz type) (ValueSafe buf buf_sz type) (ValueWhole buf buf_sz type)
      (value_at buf type) (value_end buf type) := by
  rcases val_cases type with ⟨sz, hsz⟩ | rfl | rfl | ⟨hsz, hstring, harray⟩
  · have hne : type ≠ GGUF_VAL_STRING ∧ type ≠ GGUF_VAL_ARRAY := by
      constructor <;> rintro rfl <;> cases hsz
    simp only [parse_gguf_val, hsz]
    refine ((reads_READ hlt (scalar_size_le hsz) : Reads buf_sz (READ buf buf_sz sz) _ _ _ _).map Val.scalar).congr
      (fun off _ => ?_) (fun off _ _ => ?_)
      fun off _ _ _ => ?_
    · simp [ValueSafe, hne]
    · simp [ValueWhole, hne, hsz]
    · simp [value_at, value_end, hsz]
  · have hsz : scalar_size GGUF_VAL_STRING = none := rfl
    have hne : GGUF_VAL_STRING ≠ GGUF_VAL_ARRAY := by decide
    have hparse : parse_gguf_val buf buf_sz GGUF_VAL_STRING = READ buf buf_sz 8 >>= fun slen =>
        (check buf_sz slen >>= fun _ => (record slen >>= fun data => (skip slen >>= fun _ => pure (.str data slen)))) :=
      read_bind 8 _
    rw [hparse]
    refine (reads_string hlt (fun slen off => Val.str off slen) fun _ _ => rfl).congr (fun off _ => ?_)
      (fun off _ _ => ?_) fun off _ _ _ => ?_
    · simp [ValueSafe, hne]
    · simp [ValueWhole, hne, hsz]
    · simp [value_at, value_end, hsz]
  · have hsz : scalar_size GGUF_VAL_ARRAY = none := rfl
    have hne : GGUF_VAL_ARRAY ≠ GGUF_VAL_STRING := by decide
    have hparse : parse_gguf_val buf buf_sz GGUF_VAL_ARRAY = READ buf buf_sz 4 >>= fun elem_type =>
        (READ buf buf_sz 8 >>= fun count => (here >>= fun data => if elem_type = GGUF_VAL_STRING then do
            let _ ← times (skip_string buf buf_sz) count
            pure (Val.arr elem_type count data)
          else do
            let _ ← record (elem_size elem_type * count)
            skip (elem_size elem_type * count % 2 ^ 64)
            pure (.arr elem_type count data))) := rfl
    rw [hparse]
    refine ((reads_READ hlt (by decide)).bind fun elem_type => (reads_READ hlt (by decide)).bind fun count =>
      reads_here fun data => reads_elements hlt elem_type count data).congr (fun off _ => ?_) (fun off _ _ => ?_)
        fun off _ _ _ => ?_
    · have hend : load buf off 4 ≠ GGUF_VAL_STRING → value_end buf GGUF_VAL_ARRAY off =
          off + 4 + 8 + elem_size (load buf off 4) * load buf (off + 4) 8 := fun helem => if_neg helem
      constructor
      · rintro ⟨-, hs⟩
        refine ⟨trivial, fun _ => ⟨trivial, fun htwelve => ?_⟩⟩
        obtain ⟨hstrings, hscalars⟩ := hs rfl (by omega)
        exact ⟨hstrings, fun helem => (hend helem).symm.trans_le (hscalars helem)⟩
      · rintro ⟨-, hs⟩
        refine ⟨fun h => absurd h hne, fun _ htwelve => ?_⟩
        obtain ⟨hstrings, hscalars⟩ := (hs (by omega)).2 (by omega)
        exact ⟨hstrings, fun helem => (hend helem).trans_le (hscalars helem)⟩
    · constructor
      · rintro ⟨-, -, hw, -⟩
        obtain ⟨htwelve, hstrings⟩ := hw rfl
        exact ⟨by omega, by omega, hstrings⟩
      · rintro ⟨hfour, htwelve, hstrings⟩
        exact ⟨fun sz h => (by cases h), fun h => absurd h hne, fun _ => ⟨by omega, hstrings⟩, fun _ => Or.inr rfl⟩
    · simp [value_at, value_end, hsz, hne, string_at]
  · simp only [parse_gguf_val, hsz, if_neg hstring, if_neg harray]
    refine (Reads.error (value_at buf type) (value_end buf type)).congr
      (fun off _ => ?_) (fun off _ _ => ?_) fun _ _ _ hw => hw.elim
    · simp [ValueSafe, hstring, harray]
    · simp [ValueWhole, hstring, harray, hsz]

end

/-! ## The header -/

/-- The pair that lies at a position. -/
def pair_value (buf : Nat → UInt8) (off : Nat) : Kv :=
  ⟨key_at buf off, pair_type buf off, value_at buf (pair_type buf off) (name_end buf off + 4)⟩

/-- Two numbers behind one check. -/
def read_pair (buf : Nat → UInt8) (buf_sz n : Nat) : Parse (Nat × Nat) := do
  check buf_sz (n + n)
  let a ← copy buf 0 n
  let b ← copy buf n n
  skip (n + n)
  pure (a, b)

theorem read_pair_eq (h : ¬(r.off + (n + n)) % 2 ^ 64 > buf_sz) :
    read_pair buf buf_sz n r = (.ok (load buf (r.off + 0) n, load buf (r.off + n) n),
      ⟨(r.off + (n + n)) % 2 ^ 64, r.places ++ [(r.off + 0, n)] ++ [(r.off + n, n)]⟩) := by
  rw [read_pair, bind_ok (check_pass h), bind_ok (copy_ok 0 n r), bind_ok (copy_ok n n _),
    bind_ok (skip_eq _ _), pure_apply]

theorem read_pair_bind (n : Nat) (k : Nat → Nat → Parse β) : (do
    check buf_sz (n + n)
    let a ← copy buf 0 n
    let b ← copy buf n n
    skip (n + n)
    k a b) = read_pair buf buf_sz n >>= fun x => k x.1 x.2 := by
  funext r
  by_cases hfar : (r.off + (n + n)) % 2 ^ 64 > buf_sz
  · have hread : read_pair buf buf_sz n r = (.error, r) := bind_error (check_fail hfar)
    rw [bind_error (check_fail hfar), bind_error hread]
  · rw [bind_ok (check_pass hfar), bind_ok (copy_ok 0 n r), bind_ok (copy_ok n n _), bind_ok (skip_eq _ _),
      bind_ok (read_pair_eq hfar)]

theorem inside_append_two {first second n' : Nat} :
    (⟨off, r.places ++ [(first, n)] ++ [(second, n')]⟩ : Reader).Inside buf_sz ↔
      r.Inside buf_sz ∧ first + n ≤ buf_sz ∧ second + n' ≤ buf_sz := by
  rw [inside_append (r := ⟨off, r.places ++ [(first, n)]⟩), inside_append, and_assoc]

/-- What a piece does at the start of a file, before anything was read. -/
theorem Reads.start {S W : Prop} (h : Reads buf_sz m Safe Whole value next) (hsafe : Safe 0 ↔ S)
    (hwhole : Whole 0 ↔ W) :
    ((m ⟨0, []⟩).2.Inside buf_sz ↔ S) ∧ (S → W → (m ⟨0, []⟩).1 = .ok (value 0)) ∧
      (S → ¬ W → (m ⟨0, []⟩).1 = .error) := by
  have hzero : 0 ≤ buf_sz := Nat.zero_le _
  have hempty : (⟨0, []⟩ : Reader).Inside buf_sz := fun x hx => absurd hx not_mem_nil
  have hok (hs : S) (hw : W) := h.whole ⟨0, []⟩ hzero hempty (hsafe.mpr hs) (hwhole.mpr hw)
  have herror (hs : S) (hw : ¬ W) := h.broken ⟨0, []⟩ hzero hempty (hsafe.mpr hs) (mt hwhole.mp hw)
  refine ⟨⟨fun hin => ?_, fun hs => ?_⟩, fun hs hw => ?_, fun hs hw => ?_⟩
  · by_contra hs
    exact h.outside ⟨0, []⟩ hzero hempty (mt hsafe.mp hs) hin
  · by_cases hw : W
    · obtain ⟨-, places, hm, hin⟩ := hok hs hw
      rw [hm]
      exact hin
    · obtain ⟨r', hm, hin⟩ := herror hs hw
      rw [hm]
      exact hin
  · obtain ⟨-, places, hm, -⟩ := hok hs hw
    rw [hm]
  · obtain ⟨r', hm, -⟩ := herror hs hw
    rw [hm]

section
variable (hlt : buf_sz + 16 < 2 ^ 64)
include hlt

theorem reads_pair {n : Nat} (hn : n ≤ 8) : Reads buf_sz (read_pair buf buf_sz n) (fun _ => True)
    (fun off => off + (n + n) ≤ buf_sz) (fun off => (load buf off n, load buf (off + n) n))
    fun off => off + (n + n) where
  grows := (grows_check _).bind fun _ r x hx => mem_append_left _ (mem_append_left _ hx)
  whole r hoff hin _ hw := by
    have hmod : (r.off + (n + n)) % 2 ^ 64 = r.off + (n + n) := Nat.mod_eq_of_lt (by omega)
    refine ⟨hw, _, (read_pair_eq (by omega)).trans (by rw [hmod]; rfl), inside_append_two.mpr ⟨hin, by omega, by omega⟩⟩
  broken r hoff hin _ hw := ⟨r, bind_error (check_fail (by omega)), hin⟩
  outside _ _ _ hs := absurd trivial hs

theorem reads_kv : Reads buf_sz (parse_kv buf buf_sz) (PairSafe buf buf_sz) (PairWhole buf buf_sz) (pair_value buf)
    (pair_end buf) := by
  refine ((reads_name hlt).bind fun key => (reads_READ hlt (by decide)).bind fun type =>
    (reads_val hlt type).map (Kv.mk key type)).congr (fun off _ => ?_) (fun off _ _ => ?_) fun off _ _ _ => ⟨rfl, rfl⟩
  · refine and_congr_right fun _ => forall_congr' fun _ => ⟨fun hs => ⟨trivial, fun _ => hs⟩, fun hs => ?_⟩
    by_cases hle : name_end buf off + 4 ≤ buf_sz
    · exact hs.2 hle
    · exact valueSafe_of_lt (Nat.not_le.mp hle)
  · exact and_congr_right fun _ => ⟨fun hw => ⟨hw.le, hw⟩, fun hw => hw.2⟩

/-- The last two fields: 12 bytes are read, 8 are checked. -/
theorem reads_fields (f : Nat → Nat → TensorInfo) :
    Reads buf_sz (do
      check buf_sz 8
      let type ← copy buf 0 4
      skip 4
      let data_offset ← copy buf 0 8
      skip 8
      pure (f type data_offset)) (fun off => off + 8 ≤ buf_sz → off + 12 ≤ buf_sz) (fun off => off + 12 ≤ buf_sz)
      (fun off => f (load buf off 4) (load buf (off + 4) 8)) fun off => off + 12 := by
  have hrun {r : Reader} (hoff : r.off ≤ buf_sz) (hle : r.off + 8 ≤ buf_sz) : (do
      check buf_sz 8
      let type ← copy buf 0 4
      skip 4
      let data_offset ← copy buf 0 8
      skip 8
      pure (f type data_offset)) r = (.ok (f (load buf r.off 4) (load buf (r.off + 4) 8)),
        ⟨r.off + 12, r.places ++ [(r.off, 4)] ++ [(r.off + 4, 8)]⟩) := by
    have hfour : (r.off + 4) % 2 ^ 64 = r.off + 4 := Nat.mod_eq_of_lt (by omega)
    have htwelve : (r.off + 4 + 8) % 2 ^ 64 = r.off + 12 := Nat.mod_eq_of_lt (by omega)
    rw [bind_ok (check_pass (by omega)), bind_ok (copy_ok 0 4 r), bind_ok (skip_eq 4 _), bind_ok (copy_ok 0 8 _),
      bind_ok (skip_eq 8 _), pure_apply]
    simp only [Nat.add_zero, hfour, htwelve]
  refine ⟨?_, fun r hoff hin _ hw => ?_, fun r hoff hin hs hw => ?_, fun r hoff hin hs => ?_⟩
  · exact (grows_check 8).bind fun _ r x hx => mem_append_left _ (mem_append_left _ hx)
  · exact ⟨hw, _, hrun hoff (by omega), inside_append_two.mpr ⟨hin, by omega, by omega⟩⟩
  · exact ⟨r, bind_error (check_fail (by omega)), hin⟩
  · rw [Classical.not_imp] at hs
    rw [hrun hoff hs.1]
    exact fun h => hs.2 (inside_append_two.mp h).2.2

theorem reads_dims (n : Nat) : ∃ value, Reads buf_sz (times (READ buf buf_sz 8) n) (fun _ => True)
    (fun off => off + 8 * n ≤ buf_sz) value fun off => off + 8 * n := by
  have hplace (i off : Nat) : (fun off => off + 8)^[i] off = off + 8 * i := by
    induction i generalizing off with
    | zero => rfl
    | succ i ih =>
      rw [Function.iterate_succ_apply, ih]
      omega
  have htimes : Reads buf_sz (times (READ buf buf_sz 8) n) _ _ _ _ := (reads_READ hlt (by decide)).times n
  refine ⟨_, htimes.congr (fun _ _ => iff_of_true trivial fun _ _ _ => trivial) (fun off hoff _ => ?_)
    fun off _ _ _ => ⟨rfl, (hplace n off).symm⟩⟩
  simp only [hplace]
  constructor
  · intro hle i hi
    omega
  · intro hall
    cases n with
    | zero => exact hoff
    | succ n => exact hall n (Nat.lt_succ_self n)

theorem reads_tensor : ∃ value, Reads buf_sz (parse_tensor buf buf_sz) (TensorSafe buf buf_sz) (TensorWhole buf buf_sz)
    value (tensor_end buf) := by
  choose value hdims using @reads_dims buf buf_sz hlt
  refine ⟨_, ((reads_name hlt).bind fun name => (reads_READ hlt (by decide)).bind fun n =>
    (hdims (min n GGUF_TENSOR_MAX_DIMS)).bind fun dims => reads_fields hlt fun type data_offset =>
      ⟨name, n, dims, type, data_offset⟩).congr (fun off _ => ?_) (fun off _ _ => ?_) fun off _ _ _ => ⟨rfl, rfl⟩⟩
  · refine and_congr_right fun _ => forall_congr' fun _ => ?_
    change (fields_at buf off + 8 ≤ buf_sz → fields_at buf off + 12 ≤ buf_sz) ↔
      True ∧ (name_end buf off + 4 ≤ buf_sz → True ∧ (fields_at buf off ≤ buf_sz → fields_at buf off + 8 ≤ buf_sz →
        fields_at buf off + 12 ≤ buf_sz))
    have hle : name_end buf off + 4 ≤ fields_at buf off := Nat.le_add_right _ _
    exact ⟨fun hs => ⟨trivial, fun _ => ⟨trivial, fun _ => hs⟩⟩, fun hs height =>
      (hs.2 (by omega)).2 (by omega) height⟩
  · refine and_congr_right fun _ => ?_
    change fields_at buf off + 12 ≤ buf_sz ↔ name_end buf off + 4 ≤ buf_sz ∧ fields_at buf off ≤ buf_sz ∧
      fields_at buf off + 12 ≤ buf_sz
    have hle : name_end buf off + 4 ≤ fields_at buf off := Nat.le_add_right _ _
    omega

/-- The header as a whole: from the start of the file, with the pairs that lie in it. -/
theorem reads_header :
    ((parse_gguf_header buf buf_sz ⟨0, []⟩).2.Inside buf_sz ↔ HeaderSafe buf buf_sz) ∧
      (HeaderSafe buf buf_sz → HeaderWhole buf buf_sz → ∃ hdr, (parse_gguf_header buf buf_sz ⟨0, []⟩).1 = .ok hdr ∧
        hdr.kv = (List.range (load buf 16 8)).map fun k => pair_value buf (pair_at buf k)) ∧
      (HeaderSafe buf buf_sz → ¬ HeaderWhole buf buf_sz → (parse_gguf_header buf buf_sz ⟨0, []⟩).1 = .error) := by
  obtain ⟨tensor_value, htensor⟩ := @reads_tensor buf buf_sz hlt
  have hkv := @reads_kv buf buf_sz hlt
  have hparse : parse_gguf_header buf buf_sz = read_pair buf buf_sz 4 >>= fun start =>
      if start.1 ≠ GGUF_MAGIC then Exec.error
      else if start.2 < GGUF_VERSION_MIN ∨ start.2 > GGUF_VERSION_MAX then Exec.error
      else read_pair buf buf_sz 8 >>= fun counts =>
        if counts.2 > GGUF_MAX_KV ∨ counts.1 > GGUF_MAX_TENSORS then Exec.error
        else times (parse_kv buf buf_sz) counts.2 >>= fun kv =>
          (times (parse_tensor buf buf_sz) counts.1 >>= fun tensors =>
          (here >>= fun off => pure ⟨start.2, counts.1, counts.2, kv, tensors, align off⟩)) := by
    refine (read_pair_bind 4 _).trans ?_
    congr 1
    funext start
    congr 2
    exact read_pair_bind 8 _
  have hreads := (@reads_pair buf buf_sz hlt 4 (by decide)).bind fun start =>
    reads_unless (c := start.1 ≠ GGUF_MAGIC) <|
    reads_unless (c := start.2 < GGUF_VERSION_MIN ∨ start.2 > GGUF_VERSION_MAX) <|
    (@reads_pair buf buf_sz hlt 8 (by decide)).bind fun counts =>
      reads_unless (c := counts.2 > GGUF_MAX_KV ∨ counts.1 > GGUF_MAX_TENSORS) <|
      (hkv.times counts.2).bind fun kv => (htensor.times counts.1).bind fun tensors =>
        reads_here fun off => Reads.pure (Header.mk start.2 counts.1 counts.2 kv tensors (align off))
  rw [← hparse] at hreads
  have hcounted (hmagic : ¬ load buf 0 4 ≠ GGUF_MAGIC)
      (hversion : ¬ (load buf 4 4 < GGUF_VERSION_MIN ∨ load buf 4 4 > GGUF_VERSION_MAX)) (hsize : 24 ≤ buf_sz)
      (hcounts : ¬ (load buf 16 8 > GGUF_MAX_KV ∨ load buf 8 8 > GGUF_MAX_TENSORS)) : Counted buf buf_sz := by
    rw [not_or] at hversion hcounts
    exact ⟨hsize, not_not.mp hmagic, ⟨Nat.not_lt.mp hversion.1, Nat.not_lt.mp hversion.2⟩, Nat.not_lt.mp hcounts.1,
      Nat.not_lt.mp hcounts.2⟩
  have hcounts (hc : Counted buf buf_sz) : 24 ≤ buf_sz ∧ ¬ load buf 0 4 ≠ GGUF_MAGIC ∧
      ¬ (load buf 4 4 < GGUF_VERSION_MIN ∨ load buf 4 4 > GGUF_VERSION_MAX) ∧
      ¬ (load buf 16 8 > GGUF_MAX_KV ∨ load buf 8 8 > GGUF_MAX_TENSORS) := by
    obtain ⟨hsize, hmagic, ⟨hmin, hmax⟩, hkvs, htensors⟩ := hc
    exact ⟨hsize, not_not.mpr hmagic, not_or.mpr ⟨Nat.not_lt.mpr hmin, Nat.not_lt.mpr hmax⟩,
      not_or.mpr ⟨Nat.not_lt.mpr hkvs, Nat.not_lt.mpr htensors⟩⟩
  obtain ⟨hinside, hwhole, hbroken⟩ := hreads.start (S := HeaderSafe buf buf_sz) (W := HeaderWhole buf buf_sz) (by
    constructor
    · intro h hc
      obtain ⟨hsize, hmagic, hversion, hlimits⟩ := hcounts hc
      obtain ⟨hpairs, htensors⟩ := (((h.2 (by omega)) hmagic hversion).2 (by omega)) hlimits
      exact ⟨hpairs, fun hp => (htensors hp).1⟩
    · intro h
      refine ⟨trivial, fun _ hmagic hversion => ⟨trivial, fun hsize hlimits => ?_⟩⟩
      obtain ⟨hpairs, htensors⟩ := h (hcounted hmagic hversion (by omega) hlimits)
      exact ⟨hpairs, fun hp => ⟨htensors hp, fun _ => trivial⟩⟩) (by
    constructor
    · rintro ⟨-, hmagic, hversion, hsize, hlimits, hpairs, htensors, -⟩
      exact ⟨hcounted hmagic hversion (by omega) hlimits, hpairs, htensors⟩
    · rintro ⟨hc, hpairs, htensors⟩
      obtain ⟨hsize, hmagic, hversion, hlimits⟩ := hcounts hc
      exact ⟨by omega, hmagic, hversion, by omega, hlimits, hpairs, htensors, trivial⟩)
  refine ⟨hinside, fun hs hw => ⟨_, hwhole hs hw, ?_⟩, hbroken⟩
  simp only [Nat.zero_add, Nat.reduceAdd, pair_at]

end

/-! ## The tokens -/

variable {hdr : Header}

theorem load_tokens_inside (hlt : buf_sz + 16 < 2 ^ 64) (scores : Option Nat) (left i : Nat) (r : Reader) :
    (load_tokens buf scores i left r).2.Inside buf_sz ↔ r.Inside buf_sz ∧
      ∀ j < left, TokenSafe buf buf_sz scores (i + j) ((name_end buf)^[j] r.off) := by
  induction left generalizing i r with
  | zero => exact ⟨fun h => ⟨h, fun j hj => absurd hj (Nat.not_lt_zero j)⟩, fun h => h.1⟩
  | succ left ih =>
    have hkeep (slen : Nat) : (if slen < LLM_TOKEN_STR_MAX - 1 then slen else LLM_TOKEN_STR_MAX - 1) = min slen 63 := by
      change (if slen < 63 then slen else 63) = min slen 63
      split <;> omega
    have hnext : ((r.off + 8) % 2 ^ 64 + load buf r.off 8) % 2 ^ 64 = name_end buf r.off := Nat.mod_add_mod _ _ _
    -- one turn: the token, and the score if there are scores
    let scored := (scores.map fun data => ((data + 4 * i) % 2 ^ 64, 4)).toList
    have hscore (r : Reader) : ∃ score, read_score buf scores i r =
        (.ok score, { r with places := r.places ++ scored }) := by
      cases scores with
      | some data => exact ⟨_, rfl⟩
      | none => exact ⟨0, by simp [read_score, scored]⟩
    let text : List (Nat × Nat) := [(r.off, 8)] ++ [((r.off + 8) % 2 ^ 64, min (load buf r.off 8) 63)]
    have hturn : (load_tokens buf scores i (left + 1) r).2 =
        (load_tokens buf scores (i + 1) left ⟨name_end buf r.off, r.places ++ text ++ scored⟩).2 := by
      obtain ⟨score, hscore⟩ := hscore ⟨name_end buf r.off, r.places ++ text⟩
      have hcopy (n : Nat) (r : Reader) : ∃ bytes, copy_bytes buf n r =
          (.ok bytes, ⟨r.off, r.places ++ [(r.off, n)]⟩) :=
        ⟨_, rfl⟩
      obtain ⟨bytes, hbytes⟩ := hcopy (min (load buf r.off 8) 63) ⟨(r.off + 8) % 2 ^ 64, r.places ++ [(r.off, 8)]⟩
      rw [load_tokens, bind_ok (copy_ok 0 8 r), bind_ok (skip_eq 8 _)]
      dsimp only
      rw [Nat.add_zero, hkeep, bind_ok hbytes, bind_ok (skip_eq _ _), hnext, append_assoc, bind_ok hscore]
      rcases hrest : load_tokens buf scores (i + 1) left
        ⟨name_end buf r.off, r.places ++ text ++ scored⟩ with ⟨_ | a, r'⟩
      case ok a => rw [bind_ok hrest, pure_apply]
      case error => rw [bind_error hrest]
      case hang => rw [bind_hang hrest]
    have hplaces : (⟨name_end buf r.off, r.places ++ text ++ scored⟩ : Reader).Inside buf_sz ↔
        r.Inside buf_sz ∧ TokenSafe buf buf_sz scores i r.off := by
      have hscored : (∀ x ∈ scored, x.1 + x.2 ≤ buf_sz) ↔ ∀ data ∈ scores, (data + 4 * i) % 2 ^ 64 + 4 ≤ buf_sz := by
        simp [scored]
      have htext : (∀ x ∈ text, x.1 + x.2 ≤ buf_sz) ↔ r.off + 8 + min (load buf r.off 8) 63 ≤ buf_sz := by
        simp only [text, cons_append, nil_append, forall_mem_cons]
        have hmod (hle : r.off + 8 ≤ buf_sz) : (r.off + 8) % 2 ^ 64 = r.off + 8 := Nat.mod_eq_of_lt (by omega)
        constructor
        · rintro ⟨hnumber, hcopied, -⟩
          rwa [hmod hnumber] at hcopied
        · intro hle
          have hnumber : r.off + 8 ≤ buf_sz := by omega
          exact ⟨hnumber, (hmod hnumber).symm ▸ hle, fun _ hx => absurd hx not_mem_nil⟩
      rw [TokenSafe, ← hscored, ← htext]
      simp only [Reader.Inside, mem_append, or_imp, forall_and, and_assoc]
    rw [hturn, ih, hplaces, Nat.forall_lt_succ_left, and_assoc]
    simp only [Function.iterate_succ_apply, Function.iterate_zero, id, Nat.add_zero, Nat.add_assoc, Nat.add_comm 1]

/-- The pairs of a parsed header are those that lie in the file. -/
theorem find_kv_eq (hkv : hdr.kv = (List.range (load buf 16 8)).map fun k => pair_value buf (pair_at buf k))
    (key : List UInt8) : llm_mmap_find_kv hdr key = (find_pair buf key).map (pair_value buf) := by
  have hmap : hdr.kv = ((List.range (load buf 16 8)).map (pair_at buf)).map (pair_value buf) := by
    rw [hkv, map_map]
    rfl
  rw [llm_mmap_find_kv, hmap, List.find?_map, find_pair]
  simp only [Function.comp_def, pair_value]

theorem scores_data_eq
    (hkv : hdr.kv = (List.range (load buf 16 8)).map fun k => pair_value buf (pair_at buf k)) :
    scores_data (llm_mmap_find_kv hdr (ascii "tokenizer.ggml.scores")) = scores_at buf := by
  rw [find_kv_eq hkv, scores_at]
  generalize find_pair buf (ascii "tokenizer.ggml.scores") = found
  cases found with
  | none => rfl
  | some off =>
    by_cases htype : pair_type buf off = GGUF_VAL_ARRAY
    · simp [scores_data, pair_value, value_at, htype, scalar_size, GGUF_VAL_ARRAY, GGUF_VAL_STRING]
    · have hnot : ¬(pair_type buf off = GGUF_VAL_ARRAY ∧ load buf (name_end buf off + 4) 4 = GGUF_VAL_FLOAT32) :=
        fun h => htype h.1
      rw [Option.bind_some, if_neg hnot, Option.map_some, pair_value]
      cases value_at buf (pair_type buf off) (name_end buf off + 4) with
      | scalar _ | str _ _ => rfl
      | arr elem_type count data => exact if_neg fun h => htype h.1

theorem load_vocab_inside (hlt : buf_sz + 16 < 2 ^ 64)
    (hkv : hdr.kv = (List.range (load buf 16 8)).map fun k => pair_value buf (pair_at buf k)) (n_vocab : Nat) :
    (load_vocab buf hdr n_vocab ⟨0, []⟩).2.Inside buf_sz ↔ VocabSafe buf buf_sz n_vocab := by
  have hempty (off : Nat) : (⟨off, []⟩ : Reader).Inside buf_sz := fun x hx => absurd hx not_mem_nil
  unfold load_vocab VocabSafe
  rw [find_kv_eq hkv, scores_data_eq hkv]
  generalize find_pair buf (ascii "tokenizer.ggml.tokens") = found
  cases found with
  | none => exact iff_of_true (hempty 0) fun off hoff => by cases hoff
  | some off =>
    simp only [Option.map_some, pair_value, Option.mem_def, Option.some.injEq, forall_eq']
    by_cases htype : pair_type buf off = GGUF_VAL_ARRAY
    · have hvalue : value_at buf (pair_type buf off) (name_end buf off + 4) =
          .arr (load buf (name_end buf off + 4) 4) (load buf (name_end buf off + 8) 8) (name_end buf off + 16) := by
        rw [htype]
        rfl
      have hcount (count : Nat) : (if count > n_vocab then n_vocab else count) = min count n_vocab := by
        split <;> omega
      have hseek (data : Nat) : Exec.modify (fun r : Reader => { r with off := data }) ⟨0, []⟩ = (.ok (), ⟨data, []⟩) :=
        rfl
      rw [hvalue]
      dsimp only
      rw [if_pos htype, bind_ok (hseek _), load_tokens_inside hlt, hcount, and_iff_right (hempty _)]
      simp only [htype, forall_const, Nat.zero_add]
    · refine iff_of_true ?_ fun h => absurd h htype
      cases value_at buf (pair_type buf off) (name_end buf off + 4) with
      | scalar _ | str _ _ => exact hempty 0
      | arr elem_type count data =>
        dsimp only
        rw [if_neg htype]
        exact hempty 0

/-- Loading a model reads and records inside the file: the header, and what is taken of the vocabulary of an accepted
one, for `n_vocab` entries. -/
def LoadsInside (buf : Nat → UInt8) (buf_sz n_vocab : Nat) : Prop :=
  (parse_gguf_header buf buf_sz ⟨0, []⟩).2.Inside buf_sz ∧
  ∀ hdr, (parse_gguf_header buf buf_sz ⟨0, []⟩).1 = .ok hdr → (load_vocab buf hdr n_vocab ⟨0, []⟩).2.Inside buf_sz

/-- Loading stays in the file if and only if the checks cover the parts that the file declares: those of the header, as
far as the parts before them are there, and the tokens if all of them are there. -/
theorem loads_inside_iff (buf : Nat → UInt8) (buf_sz n_vocab : Nat) (hlt : buf_sz + 16 < 2 ^ 64) :
    LoadsInside buf buf_sz n_vocab ↔
      HeaderSafe buf buf_sz ∧ (HeaderWhole buf buf_sz → VocabSafe buf buf_sz n_vocab) := by
  obtain ⟨hinside, hwhole, hbroken⟩ := @reads_header buf buf_sz hlt
  rw [LoadsInside, hinside]
  refine and_congr_right fun hs => ⟨fun hvocab hw => ?_, fun hvocab hdr hhdr => ?_⟩
  · obtain ⟨hdr, hok, hkv⟩ := hwhole hs hw
    exact (load_vocab_inside hlt hkv n_vocab).mp (hvocab hdr hok)
  · by_cases hw : HeaderWhole buf buf_sz
    · obtain ⟨hdr', hok, hkv⟩ := hwhole hs hw
      obtain rfl : hdr' = hdr := Outcome.ok.inj (hok.symm.trans hhdr)
      exact (load_vocab_inside hlt hkv n_vocab).mpr (hvocab hw)
    · cases (hbroken hs hw).symm.trans hhdr

/-- A number in `n` bytes, the lowest first. -/
def number (n value : Nat) : List UInt8 := (List.range n).map (byte value)

/-- A header with two tokens, their scores and a tensor of two entries. -/
def two_tokens : List UInt8 :=
  ascii "GGUF" ++ number 4 3 ++ number 8 1 ++ number 8 2 ++
    number 8 21 ++ ascii "tokenizer.ggml.tokens" ++ number 4 9 ++ number 4 8 ++ number 8 2 ++
      number 8 1 ++ ascii "a" ++ number 8 2 ++ ascii "bc" ++
    number 8 21 ++ ascii "tokenizer.ggml.scores" ++ number 4 9 ++ number 4 6 ++ number 8 2 ++
      number 4 5 ++ number 4 7 ++
    number 8 1 ++ ascii "w" ++ number 4 1 ++ number 8 2 ++ number 4 0 ++ number 8 32

theorem loads_inside_two_tokens :
    (HeaderWhole (two_tokens.getD · 0) 174 ∧ VocabSafe (two_tokens.getD · 0) 174 2) ∧ two_tokens.length = 174 ∧
      LoadsInside (two_tokens.getD · 0) 174 2 :=
  ⟨by decide +kernel, by decide +kernel, (loads_inside_iff _ 174 2 (by decide)).mpr (by decide +kernel)⟩

/-- A header with a tensor without name and dimensions, whose offset is cut off in the middle. -/
def cut_off : List UInt8 := ascii "GGUF" ++ number 4 3 ++ number 8 1 ++ number 8 0 ++ number 8 0 ++
    number 4 0 ++ number 8 0

theorem tensor_read_outside : ¬∀ bytes : List UInt8, 16 ≤ bytes.length → bytes.length + 16 < 2 ^ 64 →
    ∀ n_vocab, LoadsInside (bytes.getD · 0) bytes.length n_vocab := by
  intro h
  have hlength : cut_off.length = 44 := by decide +kernel
  have hin := (h cut_off (by rw [hlength]; decide) (by rw [hlength]; decide) 0).1
  have hread : (40, 8) ∈ (parse_gguf_header (cut_off.getD · 0) 44 ⟨0, []⟩).2.places := by decide +kernel
  have hplace := hin (40, 8) hread
  rw [hlength] at hplace
  exact absurd hplace (by decide)

end graceos.llm
