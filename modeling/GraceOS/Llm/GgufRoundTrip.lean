import GraceOS.Llm.Gguf

/-!
# Headers are read back

The layout of a header, and that the parser recovers from it what was laid out. `Decodes` says that a
piece of the parser, started where the bytes of something lie, yields it and stops right behind them.
-/

namespace graceos.llm

open exec word List

/-! ## The layout -/

/-- A number in `n` bytes, little-endian. -/
def le (n v : Nat) : List UInt8 := (List.range n).map (byte v)

/-- A length and that many bytes. -/
def encode_string (s : List UInt8) : List UInt8 := le 8 s.length ++ s

/-- A metadata value. -/
inductive Value where
  | scalar (type bits : Nat)
  | string (s : List UInt8)
  | scalars (elem_type : Nat) (bits : List Nat)
  | strings (ss : List (List UInt8))

def Value.type : Value → Nat
  | .scalar type _ => type
  | .string _ => GGUF_VAL_STRING
  | .scalars _ _ | .strings _ => GGUF_VAL_ARRAY

def Value.encode : Value → List UInt8
  | .scalar type bits => le ((scalar_size type).getD 0) bits
  | .string s => encode_string s
  | .scalars elem_type bits => le 4 elem_type ++ le 8 bits.length ++ bits.flatMap (le ((scalar_size elem_type).getD 0))
  | .strings ss => le 4 GGUF_VAL_STRING ++ le 8 ss.length ++ ss.flatMap encode_string

/-- The value has one of the types of the format, and its numbers fit their fields. -/
def Value.Valid : Value → Prop
  | .scalar type bits => ∃ sz, scalar_size type = some sz ∧ bits < 256 ^ sz
  | .string _ => True
  | .scalars elem_type bits => ∃ sz, scalar_size elem_type = some sz ∧ ∀ b ∈ bits, b < 256 ^ sz
  | .strings _ => True

/-- What is recorded of a value that starts at offset `off`. -/
def Value.recorded (off : Nat) : Value → Val
  | .scalar _ bits => .scalar bits
  | .string s => .str (off + 8) s.length
  | .scalars elem_type bits => .arr elem_type bits.length (off + 12)
  | .strings ss => .arr GGUF_VAL_STRING ss.length (off + 12)

/-- A metadata pair. -/
structure Pair where
  key : List UInt8
  value : Value

def Pair.encode (x : Pair) : List UInt8 := encode_string x.key ++ (le 4 x.value.type ++ x.value.encode)

structure Pair.Valid (x : Pair) : Prop where
  short : x.key.length ≤ 127
  text : ∀ b ∈ x.key, b ≠ 0
  value : x.value.Valid

def Pair.recorded (off : Nat) (x : Pair) : Kv :=
  ⟨x.key, x.value.type, x.value.recorded (off + (encode_string x.key).length + 4)⟩

/-- A tensor. -/
structure Tensor where
  name : List UInt8
  dims : List Nat
  type : Nat
  data_offset : Nat

def Tensor.encode (x : Tensor) : List UInt8 :=
  encode_string x.name ++ (le 4 x.dims.length ++ (x.dims.flatMap (le 8) ++ (le 4 x.type ++ le 8 x.data_offset)))

structure Tensor.Valid (x : Tensor) : Prop where
  short : x.name.length ≤ 127
  dims_le : x.dims.length ≤ 4
  dims_lt : ∀ d ∈ x.dims, d < 2 ^ 64
  type_lt : x.type < 2 ^ 32
  offset_lt : x.data_offset < 2 ^ 64

def Tensor.recorded (x : Tensor) : TensorInfo := ⟨x.name, x.dims.length, x.dims, x.type, x.data_offset⟩

/-- The contents of a header. -/
structure Contents where
  version : Nat
  pairs : List Pair
  tensors : List Tensor

def Contents.encode (x : Contents) : List UInt8 :=
  le 4 GGUF_MAGIC ++ le 4 x.version ++ (le 8 x.tensors.length ++ le 8 x.pairs.length ++
    (x.pairs.flatMap Pair.encode ++ x.tensors.flatMap Tensor.encode))

structure Contents.Valid (x : Contents) : Prop where
  version : x.version = 2 ∨ x.version = 3
  pairs_le : x.pairs.length ≤ 512
  tensors_le : x.tensors.length ≤ 1024
  pairs : ∀ y ∈ x.pairs, y.Valid
  tensors : ∀ y ∈ x.tensors, y.Valid

/-- What is recorded of elements that lie one behind the other from `off` on. -/
def record_from {α β : Type} (encode : α → List UInt8) (recorded : Nat → α → β) (off : Nat) : List α → List β
  | [] => []
  | x :: xs => recorded off x :: record_from encode recorded (off + (encode x).length) xs

def Contents.recorded (x : Contents) : Header where
  version := x.version
  n_tensors := x.tensors.length
  n_kv := x.pairs.length
  kv := record_from Pair.encode Pair.recorded 24 x.pairs
  tensors := x.tensors.map Tensor.recorded
  data_section_offset := (x.encode.length + 31) / 32 * 32

/-! ## Decoding -/

/-- The bytes lie at `off`. -/
def At (buf : Nat → UInt8) (off : Nat) (bytes : List UInt8) : Prop :=
  ∀ i, (h : i < bytes.length) → buf (off + i) = bytes[i]

variable {buf : Nat → UInt8} {buf_sz off : Nat} {bytes bytes' : List UInt8} {α β : Type}

theorem at_append : At buf off (bytes ++ bytes') ↔ At buf off bytes ∧ At buf (off + bytes.length) bytes' := by
  constructor
  · refine fun h => ⟨fun i hi => ?_, fun i hi => ?_⟩
    · rw [h i (by rw [length_append]; omega), getElem_append_left hi]
    · have hbyte := h (bytes.length + i) (by rw [length_append]; omega)
      rw [Nat.add_assoc, hbyte, getElem_append_right (by omega)]
      congr 1
      omega
  · rintro ⟨hfirst, hsecond⟩ i hi
    by_cases hlt : i < bytes.length
    · rw [hfirst i hlt, getElem_append_left hlt]
    · have hbyte := hsecond (i - bytes.length) (by rw [length_append] at hi; omega)
      rw [getElem_append_right (by omega), ← hbyte]
      congr 1
      omega

/-- Started where `bytes` lie at `off`, the parser yields `a` and stops behind them. -/
def Decodes (buf : Nat → UInt8) (buf_sz : Nat) (m : Parse α) (off : Nat) (bytes : List UInt8) (a : α) : Prop :=
  At buf off bytes → off + bytes.length ≤ buf_sz → ∀ r : Reader, r.off = off →
    ∃ r' : Reader, m r = (.ok a, r') ∧ r'.off = off + bytes.length

theorem Decodes.bind {m : Parse α} {k : α → Parse β} {a : α} {b : β} (h : Decodes buf buf_sz m off bytes a)
    (h' : Decodes buf buf_sz (k a) (off + bytes.length) bytes' b) :
    Decodes buf buf_sz (m >>= k) off (bytes ++ bytes') b := by
  intro hat hsize r hr
  rw [length_append] at hsize
  obtain ⟨hfirst, hsecond⟩ := at_append.mp hat
  obtain ⟨r₁, hm, hr₁⟩ := h hfirst (by omega) r hr
  obtain ⟨r₂, hk, hr₂⟩ := h' hsecond (by omega) r₁ hr₁
  refine ⟨r₂, (bind_ok hm).trans hk, ?_⟩
  rw [hr₂, length_append, Nat.add_assoc]

theorem Decodes.pure (a : α) : Decodes buf buf_sz (pure a) off [] a := fun _ _ r hr => ⟨r, rfl, hr⟩

theorem Decodes.map {m : Parse α} {a : α} (f : α → β) (h : Decodes buf buf_sz m off bytes a) :
    Decodes buf buf_sz (m >>= fun a => Pure.pure (f a)) off bytes (f a) := by
  have hbind := h.bind (k := fun a => Pure.pure (f a)) (Decodes.pure (f a))
  rwa [append_nil] at hbind

@[simp] theorem length_le (n v : Nat) : (le n v).length = n := by simp [le]

theorem load_at {n v : Nat} (hv : v < 256 ^ n) (hat : At buf off (le n v)) : load buf off n = v := by
  refine (load_of_bytes fun i hi => ?_).trans (Nat.mod_eq_of_lt hv)
  rw [hat i (by simpa using hi)]
  simp [le]

theorem check_ok {n : Nat} {r : Reader} (hsize : r.off + n ≤ buf_sz) (hlt : buf_sz < 2 ^ 64) :
    check buf_sz n r = (.ok (), r) := by
  rw [check, Nat.mod_eq_of_lt (by omega), if_neg (by omega)]

theorem skip_ok {n : Nat} {r : Reader} (hsize : r.off + n < 2 ^ 64) :
    skip n r = (.ok (), { r with off := r.off + n }) := by
  rw [skip, modify_apply, Nat.mod_eq_of_lt hsize]

theorem record_ok (n : Nat) (r : Reader) :
    record n r = (.ok r.off, { r with places := r.places ++ [(r.off, n)] }) := rfl

theorem decodes_READ (hlt : buf_sz < 2 ^ 64) {n v : Nat} (hv : v < 256 ^ n) :
    Decodes buf buf_sz (READ buf buf_sz n) off (le n v) v := by
  intro hat hsize r hr
  rw [length_le] at hsize ⊢
  refine ⟨⟨off + n, r.places ++ [(off, n)]⟩, ?_, rfl⟩
  rw [READ, bind_ok (check_ok (by omega) hlt), bind_ok (copy_ok 0 n r), bind_ok (skip_ok (by dsimp only; omega)),
    Nat.add_zero, hr, load_at hv hat]
  rfl

theorem length_read (hlt : buf_sz < 2 ^ 64) {s : List UInt8} (hat : At buf off (encode_string s))
    (hsize : off + (encode_string s).length ≤ buf_sz) {r : Reader} (hr : r.off = off) (k : Nat → Parse α) :
    (do check buf_sz 8
        let slen ← copy buf 0 8
        skip 8
        check buf_sz slen
        k slen) r = k s.length ⟨off + 8, r.places ++ [(off, 8)]⟩ := by
  rw [encode_string, length_append, length_le] at hsize
  have hlen : s.length < 256 ^ 8 := by omega
  have hload : load buf off 8 = s.length := load_at hlen (at_append.mp hat).1
  rw [bind_ok (check_ok (by omega) hlt), bind_ok (copy_ok 0 8 r), bind_ok (skip_ok (by dsimp only; omega)),
    Nat.add_zero, hr, hload, bind_ok (check_ok (by dsimp only; omega) hlt)]

theorem decodes_string (hlt : buf_sz < 2 ^ 64) {s : List UInt8} (hs : s.length ≤ 127) :
    Decodes buf buf_sz (parse_gguf_string buf buf_sz 128) off (encode_string s) s := by
  intro hat hsize r hr
  refine ⟨⟨off + (encode_string s).length, r.places ++ [(off, 8)] ++ [(off + 8, s.length)]⟩, ?_, rfl⟩
  have hchars : At buf (off + 8) s := by
    have hsecond := (at_append.mp hat).2
    rwa [length_le] at hsecond
  have hcopy : (if s.length < 128 - 1 then s.length else 128 - 1) = s.length := by
    split <;> omega
  have hbytes : (List.range s.length).map (fun i => buf (off + 8 + i)) = s := by
    refine ext_getElem (by simp) fun i hi hi' => ?_
    simp [hchars i hi']
  rw [parse_gguf_string, length_read hlt hat hsize hr, hcopy]
  have hread : copy_bytes buf s.length ⟨off + 8, r.places ++ [(off, 8)]⟩ =
      (.ok s, ⟨off + 8, r.places ++ [(off, 8)] ++ [(off + 8, s.length)]⟩) := by
    rw [copy_bytes, hbytes]
  rw [encode_string, length_append, length_le] at hsize ⊢
  rw [bind_ok hread, bind_ok (skip_ok (by dsimp only; omega)), pure_apply, Nat.add_assoc]

theorem decodes_skip_string (hlt : buf_sz < 2 ^ 64) (s : List UInt8) :
    Decodes buf buf_sz (skip_string buf buf_sz) off (encode_string s) () := by
  intro hat hsize r hr
  have hlen : s.length < 256 ^ 8 := by
    rw [encode_string, length_append] at hsize
    omega
  obtain ⟨hfirst, -⟩ := at_append.mp hat
  rw [encode_string, length_append] at hsize ⊢
  obtain ⟨r₁, hread, hr₁⟩ := decodes_READ hlt hlen hfirst (by omega) r hr
  refine ⟨⟨r₁.off + s.length, r₁.places ++ [(r₁.off, s.length)]⟩, ?_, ?_⟩
  · rw [skip_string, bind_ok hread, bind_ok (check_ok (by omega) hlt), bind_ok (record_ok s.length r₁),
      skip_ok (by dsimp only; omega)]
  · dsimp only
    omega

theorem decodes_times {m : Parse β} {encode : α → List UInt8} {recorded : Nat → α → β} {xs : List α}
    (h : ∀ x ∈ xs, ∀ off, Decodes buf buf_sz m off (encode x) (recorded off x)) :
    Decodes buf buf_sz (times m xs.length) off (xs.flatMap encode) (record_from encode recorded off xs) := by
  induction xs generalizing off with
  | nil => exact .pure []
  | cons x xs ih =>
    have hrest : Decodes buf buf_sz (times m xs.length) (off + (encode x).length) (xs.flatMap encode)
        (record_from encode recorded (off + (encode x).length) xs) :=
      ih fun y hy => h y (mem_cons_of_mem x hy)
    rw [flatMap_cons]
    exact (h x mem_cons_self off).bind (hrest.map fun rest => recorded off x :: rest)

theorem decodes_times_map {m : Parse β} {encode : α → List UInt8} {recorded : α → β} {xs : List α}
    (h : ∀ x ∈ xs, ∀ off, Decodes buf buf_sz m off (encode x) (recorded x)) :
    Decodes buf buf_sz (times m xs.length) off (xs.flatMap encode) (xs.map recorded) := by
  have hconst : ∀ (xs : List α) (off : Nat), record_from encode (fun _ => recorded) off xs = xs.map recorded := by
    intro xs
    induction xs with
    | nil => exact fun _ => rfl
    | cons x xs ih => exact fun off => by rw [record_from, ih, map_cons]
  rw [← hconst xs off]
  exact decodes_times h

/-! ## Values -/

theorem elem_size_eq {elem_type sz : Nat} (h : scalar_size elem_type = some sz) : elem_size elem_type = sz := by
  unfold scalar_size at h
  split at h <;> first
    | exact Option.some.inj h
    | cases h

theorem scalar_size_some {type sz : Nat} (h : scalar_size type = some sz) :
    type < 13 ∧ type ≠ GGUF_VAL_STRING ∧ 1 ≤ sz := by
  unfold scalar_size at h
  split at h <;> first
    | exact ⟨by decide, by decide, Option.some.inj h ▸ by decide⟩
    | cases h

theorem length_flatMap_le (n : Nat) (vs : List Nat) : (vs.flatMap (le n)).length = n * vs.length := by
  induction vs with
  | nil => rfl
  | cons v vs ih =>
    rw [flatMap_cons, length_append, length_le, ih, length_cons, Nat.mul_succ, Nat.add_comm]

theorem length_le_flatMap {encode : α → List UInt8} (xs : List α) (h : ∀ x, 1 ≤ (encode x).length) :
    xs.length ≤ (xs.flatMap encode).length := by
  induction xs with
  | nil => exact Nat.le_refl 0
  | cons x xs ih =>
    rw [flatMap_cons, length_append, length_cons]
    have hx := h x
    omega

theorem decodes_here {k : Nat → Parse α} {a : α} (h : Decodes buf buf_sz (k off) off bytes a) :
    Decodes buf buf_sz (here >>= k) off bytes a := by
  intro hat hsize r hr
  obtain ⟨r', hk, hr'⟩ := h hat hsize r hr
  refine ⟨r', ?_, hr'⟩
  rw [← hr] at hk
  have hhere : (here : Parse Nat) r = (.ok r.off, r) := rfl
  exact (bind_ok hhere).trans hk

theorem decodes_skip (hlt : buf_sz < 2 ^ 64) (a : α) : Decodes buf buf_sz (do
    let _ ← record bytes.length
    skip (bytes.length % 2 ^ 64)
    pure a) off bytes a := by
  intro _ hsize r hr
  refine ⟨⟨r.off + bytes.length, r.places ++ [(r.off, bytes.length)]⟩, ?_, by dsimp only; omega⟩
  rw [bind_ok (record_ok _ r), Nat.mod_eq_of_lt (by omega), bind_ok (skip_ok (by dsimp only; omega)), pure_apply]

theorem decodes_array (hlt : buf_sz < 2 ^ 64) {elem_type count : Nat} (helem : elem_type < 2 ^ 32)
    (hcount : off + (le 4 elem_type ++ (le 8 count ++ bytes)).length ≤ buf_sz → count < 2 ^ 64)
    {v : Val}
    (h : Decodes buf buf_sz (if elem_type = GGUF_VAL_STRING then do
        let _ ← times (skip_string buf buf_sz) count
        pure (.arr elem_type count (off + 12))
      else do
        let _ ← record (elem_size elem_type * count)
        skip (elem_size elem_type * count % 2 ^ 64)
        pure (.arr elem_type count (off + 12))) (off + 12) bytes v) :
    Decodes buf buf_sz (parse_gguf_val buf buf_sz GGUF_VAL_ARRAY) off (le 4 elem_type ++ (le 8 count ++ bytes)) v := by
  intro hat hsize
  have hfits : count < 256 ^ 8 := by
    have := hcount hsize
    omega
  have hread : Decodes buf buf_sz (parse_gguf_val buf buf_sz GGUF_VAL_ARRAY) off
      (le 4 elem_type ++ (le 8 count ++ bytes)) v := by
    refine (decodes_READ hlt (n := 4) (by omega)).bind ?_
    refine (decodes_READ hlt hfits).bind ?_
    refine decodes_here ?_
    simpa only [length_le, Nat.add_assoc] using h
  exact hread hat hsize

theorem decodes_val (hlt : buf_sz < 2 ^ 64) {v : Value} (hv : v.Valid) :
    Decodes buf buf_sz (parse_gguf_val buf buf_sz v.type) off v.encode (v.recorded off) := by
  cases v with
  | scalar type bits =>
    obtain ⟨sz, hsz, hbits⟩ := hv
    have hread : Decodes buf buf_sz (READ buf buf_sz sz >>= fun x => pure (Val.scalar x))
        off (le sz bits) (.scalar bits) :=
      (decodes_READ hlt hbits).map Val.scalar
    simpa only [Value.type, Value.encode, Value.recorded, parse_gguf_val, hsz, Option.getD_some] using hread
  | string s =>
    intro hat hsize r hr
    simp only [Value.encode, Value.recorded, Value.type] at hat hsize ⊢
    have hparse : parse_gguf_val buf buf_sz GGUF_VAL_STRING = (do
        check buf_sz 8
        let slen ← copy buf 0 8
        skip 8
        check buf_sz slen
        let data ← record slen
        skip slen
        pure (.str data slen)) := rfl
    refine ⟨⟨off + (encode_string s).length, r.places ++ [(off, 8)] ++ [(off + 8, s.length)]⟩, ?_, rfl⟩
    rw [hparse, length_read hlt hat hsize hr]
    rw [encode_string, length_append, length_le] at hsize ⊢
    rw [bind_ok (record_ok s.length _), bind_ok (skip_ok (by dsimp only; omega)), pure_apply, Nat.add_assoc]
  | scalars elem_type bits =>
    obtain ⟨sz, hsz, hbits⟩ := hv
    obtain ⟨helem, hstring, hpos⟩ := scalar_size_some hsz
    have hbytes : elem_size elem_type * bits.length = (bits.flatMap (le sz)).length := by
      rw [elem_size_eq hsz, length_flatMap_le]
    have hcount : bits.length ≤ (bits.flatMap (le sz)).length :=
      length_le_flatMap bits fun _ => by rwa [length_le]
    simp only [Value.type, Value.encode, Value.recorded, hsz, Option.getD_some, append_assoc]
    refine decodes_array hlt (by omega) (fun hsize => ?_) ?_
    · simp only [length_append] at hsize
      omega
    · rw [if_neg hstring, hbytes]
      exact decodes_skip hlt (Val.arr elem_type bits.length (off + 12))
  | strings ss =>
    have hcount : ss.length ≤ (ss.flatMap encode_string).length := length_le_flatMap ss fun s => by
      rw [encode_string, length_append, length_le]
      omega
    simp only [Value.type, Value.encode, Value.recorded, append_assoc]
    refine decodes_array hlt (by decide) (fun hsize => ?_) ?_
    · simp only [length_append] at hsize
      omega
    · rw [if_pos rfl]
      have hskips : Decodes buf buf_sz (times (skip_string buf buf_sz) ss.length) (off + 12) (ss.flatMap encode_string)
          (ss.map fun _ => ()) := decodes_times_map fun s _ _ => decodes_skip_string hlt s
      exact hskips.map fun _ => Val.arr GGUF_VAL_STRING ss.length (off + 12)

/-! ## The whole header -/

theorem type_lt {v : Value} (hv : v.Valid) : v.type < 256 ^ 4 := by
  cases v with
  | scalar type bits =>
    obtain ⟨sz, hsz, -⟩ := hv
    exact Nat.lt_trans (scalar_size_some hsz).1 (by decide)
  | string s => exact (by decide : GGUF_VAL_STRING < 256 ^ 4)
  | scalars elem_type bits => exact (by decide : GGUF_VAL_ARRAY < 256 ^ 4)
  | strings ss => exact (by decide : GGUF_VAL_ARRAY < 256 ^ 4)

theorem decodes_kv (hlt : buf_sz < 2 ^ 64) {x : Pair} (hx : x.Valid) :
    Decodes buf buf_sz (parse_kv buf buf_sz) off x.encode (x.recorded off) := by
  refine (decodes_string hlt hx.short).bind ?_
  refine (decodes_READ hlt (type_lt hx.value)).bind ?_
  rw [length_le]
  exact (decodes_val hlt hx.value).map fun val => Kv.mk x.key x.value.type val

theorem decodes_tensor (hlt : buf_sz < 2 ^ 64) {x : Tensor} (hx : x.Valid) :
    Decodes buf buf_sz (parse_tensor buf buf_sz) off x.encode x.recorded := by
  have hdims : Decodes buf buf_sz (times (READ buf buf_sz 8) (min x.dims.length GGUF_TENSOR_MAX_DIMS))
      (off + (encode_string x.name).length + (le 4 x.dims.length).length) (x.dims.flatMap (le 8)) x.dims := by
    have hall : Decodes buf buf_sz (times (READ buf buf_sz 8) x.dims.length)
        (off + (encode_string x.name).length + (le 4 x.dims.length).length) (x.dims.flatMap (le 8)) (x.dims.map id) :=
      decodes_times_map fun d hd _ => decodes_READ hlt (n := 8) (hx.dims_lt d hd)
    rw [map_id] at hall
    rwa [GGUF_TENSOR_MAX_DIMS, Nat.min_eq_left hx.dims_le]
  refine (decodes_string hlt hx.short).bind ?_
  refine (decodes_READ hlt (n := 4) (Nat.lt_of_le_of_lt hx.dims_le (by decide))).bind ?_
  refine hdims.bind ?_
  generalize off + (encode_string x.name).length + (le 4 x.dims.length).length + (x.dims.flatMap (le 8)).length = place
  intro hat hsize r hr
  obtain ⟨htype, hoffset⟩ := at_append.mp hat
  simp only [length_append, length_le] at hsize hoffset ⊢
  refine ⟨⟨place + 12, r.places ++ [(place, 4)] ++ [(place + 4, 8)]⟩, ?_, rfl⟩
  rw [bind_ok (check_ok (by omega) hlt), bind_ok (copy_ok 0 4 r), bind_ok (skip_ok (by dsimp only; omega)),
    bind_ok (copy_ok 0 8 _), bind_ok (skip_ok (by dsimp only; omega)), pure_apply]
  simp only [Nat.add_zero, hr, load_at (n := 4) hx.type_lt htype, load_at (n := 8) hx.offset_lt hoffset]
  rfl

theorem decodes_header (hlt : buf_sz < 2 ^ 64) {x : Contents} (hx : x.Valid) (hend : x.encode.length + 31 < 2 ^ 64) :
    Decodes buf buf_sz (parse_gguf_header buf buf_sz) 0 x.encode x.recorded := by
  have hbody : Decodes buf buf_sz (do
      let kv ← times (parse_kv buf buf_sz) x.pairs.length
      let tensors ← times (parse_tensor buf buf_sz) x.tensors.length
      let off ← here
      pure (⟨x.version, x.tensors.length, x.pairs.length, kv, tensors, align off⟩ : Header)) 24
      (x.pairs.flatMap Pair.encode ++ x.tensors.flatMap Tensor.encode) x.recorded := by
    refine (decodes_times fun y hy _ => decodes_kv hlt (hx.pairs y hy)).bind ?_
    have htensors : Decodes buf buf_sz (times (parse_tensor buf buf_sz) x.tensors.length)
        (24 + (x.pairs.flatMap Pair.encode).length) (x.tensors.flatMap Tensor.encode) (x.tensors.map Tensor.recorded) :=
      decodes_times_map fun y hy _ => decodes_tensor hlt (hx.tensors y hy)
    have hdata : align (24 + (x.pairs.flatMap Pair.encode).length + (x.tensors.flatMap Tensor.encode).length) =
        x.recorded.data_section_offset := by
      have hlen : x.encode.length =
          24 + (x.pairs.flatMap Pair.encode).length + (x.tensors.flatMap Tensor.encode).length := by
        simp only [Contents.encode, length_append, length_le]
        omega
      rw [align, ← hlen, Nat.mod_eq_of_lt hend]
      rfl
    rw [← append_nil (x.tensors.flatMap Tensor.encode)]
    refine htensors.bind (decodes_here ?_)
    rw [hdata]
    exact .pure x.recorded
  intro hat hsize r hr
  have hwhole := hsize
  obtain ⟨hnumbers, hbehind⟩ := at_append.mp hat
  obtain ⟨hmagic, hversion⟩ := at_append.mp hnumbers
  obtain ⟨hcounts, hbodyAt⟩ := at_append.mp hbehind
  obtain ⟨hntensors, hnkv⟩ := at_append.mp hcounts
  simp only [Contents.encode, length_append, length_le, Nat.zero_add] at hsize hversion hntensors hnkv hbodyAt ⊢
  have hv : x.version < 256 ^ 4 := by
    rcases hx.version with h | h <;> rw [h] <;> decide
  have hlow : ¬(x.version < GGUF_VERSION_MIN ∨ x.version > GGUF_VERSION_MAX) := by
    rcases hx.version with h | h <;> rw [h] <;> decide
  have hfew : ¬(x.pairs.length > GGUF_MAX_KV ∨ x.tensors.length > GGUF_MAX_TENSORS) := by
    have hpairs := hx.pairs_le
    have htensors := hx.tensors_le
    simp only [GGUF_MAX_KV, GGUF_MAX_TENSORS]
    omega
  have hpairs : x.pairs.length < 256 ^ 8 := Nat.lt_of_le_of_lt hx.pairs_le (by decide)
  have htensors : x.tensors.length < 256 ^ 8 := Nat.lt_of_le_of_lt hx.tensors_le (by decide)
  obtain ⟨r', hparse, hoff⟩ := hbody hbodyAt (by rw [length_append]; omega)
    ⟨24, r.places ++ [(0, 4)] ++ [(4, 4)] ++ [(8, 8)] ++ [(16, 8)]⟩ rfl
  refine ⟨r', ?_, by rw [hoff, length_append]; omega⟩
  rw [parse_gguf_header, bind_ok (check_ok (by omega) hlt), bind_ok (copy_ok 0 4 r), bind_ok (copy_ok 4 4 _),
    bind_ok (skip_ok (by dsimp only; omega))]
  dsimp only
  rw [hr, Nat.add_zero, Nat.zero_add, load_at (by decide) hmagic, load_at hv hversion, if_neg (by simp), if_neg hlow,
    bind_ok (check_ok (by dsimp only; omega) hlt), bind_ok (copy_ok 0 8 _), bind_ok (copy_ok 8 8 _),
    bind_ok (skip_ok (by dsimp only; omega))]
  dsimp only
  rw [Nat.zero_add, Nat.add_zero, load_at htensors hntensors, load_at hpairs hnkv, if_neg hfew]
  exact hparse

/-! ## Keys -/

theorem str_eq_iff : ∀ {a b : List UInt8}, (∀ c ∈ a, c ≠ 0) → (∀ c ∈ b, c ≠ 0) → (str_eq a b = true ↔ a = b)
  | [], [], _, _ => by simp [str_eq]
  | [], c :: b, _, hb => by simp [str_eq, hb c mem_cons_self]
  | c :: a, [], ha, _ => by simp [str_eq, ha c mem_cons_self]
  | c :: a, d :: b, ha, hb => by
    have hrest := str_eq_iff (fun x hx => ha x (mem_cons_of_mem c hx)) (fun x hx => hb x (mem_cons_of_mem d hx))
    have hc := ha c mem_cons_self
    have hd := hb d mem_cons_self
    by_cases hcd : c = d
    · simp [str_eq, hd, hcd, hrest]
    · simp [str_eq, hc, hd, hcd]

theorem recorded_keys {xs : List Pair} (h : ∀ x ∈ xs, x.Valid) :
    ∀ kv ∈ record_from Pair.encode Pair.recorded off xs, ∀ c ∈ kv.key, c ≠ 0 := by
  induction xs generalizing off with
  | nil => exact fun kv hkv => absurd hkv not_mem_nil
  | cons x xs ih =>
    intro kv hkv
    rcases List.mem_cons.mp hkv with rfl | hrest
    · exact (h x mem_cons_self).text
    · exact ih (fun y hy => h y (mem_cons_of_mem x hy)) kv hrest

theorem find_kv_first {x : Contents} (hx : x.Valid) {key : List UInt8} (hkey : ∀ c ∈ key, c ≠ 0) :
    llm_mmap_find_kv x.recorded key = x.recorded.kv.find? fun kv => kv.key = key := by
  have htext : ∀ kv ∈ x.recorded.kv, ∀ c ∈ kv.key, c ≠ 0 := recorded_keys hx.pairs
  have hsame : ∀ kv ∈ x.recorded.kv, str_eq kv.key key = decide (kv.key = key) := by
    intro kv hkv
    rw [Bool.eq_iff_iff, str_eq_iff (htext kv hkv) hkey, decide_eq_true_iff]
  unfold llm_mmap_find_kv
  generalize x.recorded.kv = kvs at hsame
  induction kvs with
  | nil => rfl
  | cons kv kvs ih =>
    rw [List.find?_cons, List.find?_cons, hsame kv mem_cons_self,
      ih fun kv hkv => hsame kv (mem_cons_of_mem _ hkv)]

/-- A header that is laid out in the buffer, with anything behind it, is parsed into what it was made from,
and a key is found where it comes first. The cursor is a 64-bit number. -/
theorem header_decoded (x : Contents) (hx : x.Valid) (buf : Nat → UInt8) (buf_sz : Nat) (hat : At buf 0 x.encode)
    (hsize : x.encode.length ≤ buf_sz) (hlt : buf_sz + 31 < 2 ^ 64) :
    (parse_gguf_header buf buf_sz ⟨0, []⟩).1 = .ok x.recorded ∧
    ∀ key : List UInt8, (∀ c ∈ key, c ≠ 0) →
      llm_mmap_find_kv x.recorded key = x.recorded.kv.find? fun kv => kv.key = key := by
  have hparses : Decodes buf buf_sz (parse_gguf_header buf buf_sz) 0 x.encode x.recorded :=
    decodes_header (by omega) hx (by omega)
  obtain ⟨r', hparse, -⟩ := hparses hat (by omega) ⟨0, []⟩ rfl
  exact ⟨by rw [hparse], fun key hkey => find_kv_first hx hkey⟩

theorem at_getD (bytes : List UInt8) : At (bytes.getD · 0) 0 bytes := by
  intro i hi
  simp [hi]

/-- A header with one pair and one tensor. -/
def small : Contents where
  version := 3
  pairs := [⟨[97], .scalars 2 [1, 2]⟩]
  tensors := [⟨[98], [5], 1, 0⟩]

theorem small_valid : small.Valid where
  version := .inr rfl
  pairs_le := by decide
  tensors_le := by decide
  pairs := by
    intro y hy
    obtain rfl := List.mem_singleton.mp hy
    have htext : ∀ b ∈ ([97] : List UInt8), b ≠ 0 := by
      intro b hb
      rw [List.mem_singleton.mp hb]
      decide
    exact ⟨by decide, htext, 2, rfl, by simp⟩
  tensors := by
    intro y hy
    obtain rfl := List.mem_singleton.mp hy
    exact ⟨by decide, by decide, by decide, by decide, by decide⟩

theorem small_decoded : small.Valid ∧
    (parse_gguf_header (small.encode.getD · 0) small.encode.length ⟨0, []⟩).1 = .ok small.recorded ∧
    ∀ key : List UInt8, (∀ c ∈ key, c ≠ 0) →
      llm_mmap_find_kv small.recorded key = small.recorded.kv.find? fun kv => kv.key = key :=
  ⟨small_valid, header_decoded small small_valid _ _ (at_getD _) (Nat.le_refl _) (by decide)⟩

end graceos.llm
