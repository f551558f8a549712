import GraceOS.Llm.Gguf
import Mathlib.Algebra.BigOperators.Group.List.Basic
import Mathlib.Algebra.Order.Ring.Int

/-!
# The data of a tensor

`llm_mmap_tensor_data` on a header that `llm_mmap_open` has parsed. All that it computes with comes from the file, and
nothing of it is checked: the data lies in the file for the tensors whose fields say so.
-/

namespace graceos.llm

open exec word List

/-- `type_info_t` without the name. -/
structure type_info_t where
  t : Nat
  ele_sz : Nat
  blk : Nat
  deriving DecidableEq

def type_table : List type_info_t :=
  [⟨0, 4, 1⟩, ⟨1, 2, 1⟩, ⟨2, 18, 32⟩, ⟨3, 20, 32⟩, ⟨6, 22, 32⟩, ⟨7, 24, 32⟩, ⟨8, 34, 32⟩, ⟨9, 40, 32⟩, ⟨10, 84, 256⟩,
    ⟨11, 110, 256⟩, ⟨12, 144, 256⟩, ⟨13, 176, 256⟩, ⟨14, 210, 256⟩, ⟨15, 292, 256⟩, ⟨16, 1, 1⟩, ⟨17, 2, 1⟩, ⟨18, 4, 1⟩]

/-- The first row stands for all types that have none. -/
def type_info (t : Nat) : type_info_t := (type_table.find? fun info => info.t = t).getD ⟨0, 4, 1⟩

def ggml_type_size (t : Nat) : Nat := (type_info t).ele_sz
def ggml_blck_size (t : Nat) : Nat := (type_info t).blk

/-- `ti->dims[d]`; `behind` is what lies behind the entries. -/
def TensorInfo.dim (ti : TensorInfo) (behind : Nat → Nat) (d : Nat) : Nat :=
  if d < GGUF_TENSOR_MAX_DIMS then ti.dims.getD d 0 else behind d

/-- The loop over the dimensions. -/
def n_elem (ti : TensorInfo) (behind : Nat → Nat) : Nat :=
  (List.range ti.n_dims).foldl (fun n d => n * ti.dim behind d % 2 ^ 64) 1

def tensor_bytes (ti : TensorInfo) (behind : Nat → Nat) : Nat :=
  n_elem ti behind / ggml_blck_size ti.type * ggml_type_size ti.type % 2 ^ 64

def find_tensor (hdr : Header) (name : List UInt8) : Option TensorInfo :=
  hdr.tensors.find? fun ti => str_eq ti.name name

/-- The returned pointer, as its offset in the file, and `*out_bytes`. -/
def llm_mmap_tensor_data (hdr : Header) (behind : TensorInfo → Nat → Nat) (name : List UInt8) : Option (Nat × Nat) :=
  (find_tensor hdr name).map fun ti =>
    ((hdr.data_section_offset + ti.data_offset) % 2 ^ 64, tensor_bytes ti (behind ti))

/-- The header of a file that could be read; `buf` holds its bytes and what lies behind them. -/
def llm_mmap_open (buf : Nat → UInt8) (file_sz : Nat) : Option Header :=
  if file_sz < 16 then none
  else
    match (parse_gguf_header buf file_sz ⟨0, []⟩).1 with
    | .ok hdr => some hdr
    | _ => none

/-- The size of whole blocks of a type of the table. -/
def ExactBytes (ti : TensorInfo) (bytes : Nat) : Prop :=
  ∃ info ∈ type_table, info.t = ti.type ∧ info.blk ∣ ti.dims.prod ∧ bytes = ti.dims.prod / info.blk * info.ele_sz

/-- What is returned for a tensor lies in the file and has its exact size, and only entries of `dims` were read. -/
structure DataInside (file_sz : Nat) (ti : TensorInfo) (data : Nat × Nat) : Prop where
  dims : ∀ d < ti.n_dims, d < GGUF_TENSOR_MAX_DIMS
  exact : ExactBytes ti data.2
  inside : data.1 + data.2 ≤ file_sz

/-- The fields of a tensor: at most four dimensions, whole blocks of a type of the table, less than `2 ^ 64` elements,
and an offset with that many bytes behind it in the file. -/
structure TensorFits (hdr : Header) (file_sz : Nat) (ti : TensorInfo) : Prop where
  dims : ti.n_dims ≤ GGUF_TENSOR_MAX_DIMS
  elements : ti.dims.prod < 2 ^ 64
  bytes : ∃ info ∈ type_table, info.t = ti.type ∧ info.blk ∣ ti.dims.prod ∧
    (hdr.data_section_offset + ti.data_offset) % 2 ^ 64 + ti.dims.prod / info.blk * info.ele_sz ≤ file_sz

/-! ## Parsed tensors -/

section Parsed

variable {buf : Nat → UInt8} {file_sz : Nat}

theorem times_yields_length {σ α : Type} (m : Exec σ α) (n : Nat) : Yields (times m n) fun l => l.length = n := by
  induction n with
  | zero => exact .pure rfl
  | succ n ih =>
    refine .bind (.any m) fun a _ => .bind ih fun rest hrest => .pure ?_
    rw [length_cons, hrest]

theorem times_yields_all {σ α : Type} {m : Exec σ α} {P : α → Prop} (hm : Yields m P) (n : Nat) :
    Yields (times m n) fun l => ∀ a ∈ l, P a := by
  induction n with
  | zero => exact .pure fun a ha => absurd ha (by simp)
  | succ n ih => exact .bind hm fun a ha => .bind ih fun rest hrest => .pure (List.forall_mem_cons.mpr ⟨ha, hrest⟩)

theorem parse_tensor_dims :
    Yields (parse_tensor buf file_sz) fun ti => ti.dims.length = min ti.n_dims GGUF_TENSOR_MAX_DIMS :=
  .bind (.any _) fun _ _ => .bind (.any _) fun _ _ => .bind (times_yields_length _ _) fun _ hdims =>
    .bind (.any _) fun _ _ => .bind (.any _) fun _ _ => .bind (.any _) fun _ _ => .bind (.any _) fun _ _ =>
      .bind (.any _) fun _ _ => .pure hdims

theorem parse_header_dims : Yields (parse_gguf_header buf file_sz) fun hdr =>
    ∀ ti ∈ hdr.tensors, ti.dims.length = min ti.n_dims GGUF_TENSOR_MAX_DIMS := by
  refine .bind (.any _) fun _ _ => .bind (.any _) fun _ _ => .bind (.any _) fun _ _ => .bind (.any _) fun _ _ => ?_
  split
  · exact .error
  split
  · exact .error
  refine .bind (.any _) fun _ _ => .bind (.any _) fun _ _ => .bind (.any _) fun _ _ => .bind (.any _) fun _ _ => ?_
  split
  · exact .error
  exact .bind (.any _) fun _ _ => .bind (times_yields_all parse_tensor_dims _) fun _ htensors =>
    .bind (.any _) fun _ _ => .pure htensors

theorem open_dims {hdr : Header} (h : llm_mmap_open buf file_sz = some hdr) :
    ∀ ti ∈ hdr.tensors, ti.dims.length = min ti.n_dims GGUF_TENSOR_MAX_DIMS := by
  unfold llm_mmap_open at h
  split at h
  · cases h
  split at h
  · next hparse =>
    obtain rfl := Option.some.inj h
    exact parse_header_dims _ _ _ (run_of_value hparse)
  · cases h

end Parsed

/-! ## The size -/

theorem foldl_mul_mod (l : List Nat) (a m : Nat) :
    l.foldl (fun n x => n * x % m) (a % m) = a * l.prod % m := by
  induction l generalizing a with
  | nil => rw [foldl_nil, prod_nil, Nat.mul_one]
  | cons x l ih =>
    rw [foldl_cons, prod_cons, ← Nat.mul_assoc, ← ih, Nat.mod_mul_mod]

theorem n_elem_eq {ti : TensorInfo} (hdims : ti.n_dims ≤ GGUF_TENSOR_MAX_DIMS) (hlen : ti.dims.length = ti.n_dims)
    (behind : Nat → Nat) : n_elem ti behind = ti.dims.prod % 2 ^ 64 := by
  have hread : (List.range ti.n_dims).map (ti.dim behind) = ti.dims := by
    refine ext_getElem (by rw [length_map, length_range, hlen]) fun d hd hd' => ?_
    rw [length_map, length_range] at hd
    rw [getElem_map, getElem_range, TensorInfo.dim, if_pos (by omega), getD_eq_getElem?_getD,
      List.getElem?_eq_getElem hd', Option.getD_some]
  have hfold := foldl_mul_mod ti.dims 1 (2 ^ 64)
  rw [Nat.one_mul, ← hread, foldl_map] at hfold
  rw [hread] at hfold
  exact hfold

theorem type_info_row : ∀ info ∈ type_table, type_info info.t = info ∧ 0 < info.blk ∧ 0 < info.ele_sz := by
  decide

theorem bytes_exact_iff {prod blk sz : Nat} (hsz : 0 < sz) (hdvd : blk ∣ prod) :
    prod % 2 ^ 64 / blk * sz % 2 ^ 64 = prod / blk * sz ↔ prod < 2 ^ 64 ∧ prod / blk * sz < 2 ^ 64 := by
  constructor
  · intro h
    refine ⟨?_, h ▸ Nat.mod_lt _ (by decide)⟩
    by_contra hge
    have hless : prod % 2 ^ 64 < prod := lt_of_lt_of_le (Nat.mod_lt _ (by decide)) (Nat.not_lt.mp hge)
    have hdiv : prod % 2 ^ 64 / blk < prod / blk := Nat.div_lt_div_of_lt_of_dvd hdvd hless
    have hmul : prod % 2 ^ 64 / blk * sz < prod / blk * sz := Nat.mul_lt_mul_of_pos_right hdiv hsz
    have hle := Nat.mod_le (prod % 2 ^ 64 / blk * sz) (2 ^ 64)
    omega
  · rintro ⟨hprod, hbytes⟩
    rw [Nat.mod_eq_of_lt hprod, Nat.mod_eq_of_lt hbytes]

section Data

variable {hdr : Header} {file_sz : Nat} {ti : TensorInfo}

/-- One tensor. -/
theorem data_inside_iff (hlt : file_sz < 2 ^ 64) (hlen : ti.dims.length = min ti.n_dims GGUF_TENSOR_MAX_DIMS)
    (behind : Nat → Nat) :
    DataInside file_sz ti ((hdr.data_section_offset + ti.data_offset) % 2 ^ 64, tensor_bytes ti behind) ↔
      TensorFits hdr file_sz ti := by
  have hindex : (∀ d < ti.n_dims, d < GGUF_TENSOR_MAX_DIMS) ↔ ti.n_dims ≤ GGUF_TENSOR_MAX_DIMS :=
    ⟨fun h => Nat.not_lt.mp fun hgt => absurd (h _ hgt) (Nat.lt_irrefl _), fun h d hd => Nat.lt_of_lt_of_le hd h⟩
  have hbytes : ti.n_dims ≤ GGUF_TENSOR_MAX_DIMS → ∀ info ∈ type_table, info.t = ti.type →
      tensor_bytes ti behind = ti.dims.prod % 2 ^ 64 / info.blk * info.ele_sz % 2 ^ 64 := by
    intro hdims info hinfo htype
    have hrow := (type_info_row info hinfo).1
    rw [htype] at hrow
    rw [tensor_bytes, n_elem_eq hdims (by rw [hlen, Nat.min_eq_left hdims]), ggml_blck_size, ggml_type_size, hrow]
  constructor
  · rintro ⟨hdims, ⟨info, hinfo, htype, hdvd, hexact⟩, hinside⟩
    have hle := hindex.mp hdims
    have hsz := (type_info_row info hinfo).2.2
    dsimp only at hexact hinside
    have hwrap := hbytes hle info hinfo htype
    rw [hexact] at hwrap hinside
    exact ⟨hle, ((bytes_exact_iff hsz hdvd).mp hwrap.symm).1, info, hinfo, htype, hdvd, hinside⟩
  · rintro ⟨hdims, hprod, info, hinfo, htype, hdvd, hinside⟩
    have hsz := (type_info_row info hinfo).2.2
    have hsmall : ti.dims.prod / info.blk * info.ele_sz < 2 ^ 64 := by omega
    have hexact := hbytes hdims info hinfo htype
    rw [(bytes_exact_iff hsz hdvd).mpr ⟨hprod, hsmall⟩] at hexact
    refine ⟨hindex.mpr hdims, ⟨info, hinfo, htype, hdvd, hexact⟩, ?_⟩
    dsimp only
    rw [hexact]
    exact hinside

end Data

/-- The data of a tensor lies in an accepted file if and only if the fields of the tensor fit. -/
theorem tensor_data_inside_iff (buf : Nat → UInt8) (file_sz : Nat) (hlt : file_sz < 2 ^ 64) (hdr : Header)
    (hopen : llm_mmap_open buf file_sz = some hdr) (behind : TensorInfo → Nat → Nat) (name : List UInt8) :
    (∀ ti data, find_tensor hdr name = some ti → llm_mmap_tensor_data hdr behind name = some data →
      DataInside file_sz ti data) ↔
    ∀ ti, find_tensor hdr name = some ti → TensorFits hdr file_sz ti := by
  cases hfind : find_tensor hdr name with
  | none => exact ⟨fun _ ti h => absurd h (by simp), fun _ ti data h => absurd h (by simp)⟩
  | some ti =>
    have hdims := open_dims hopen ti (List.mem_of_find?_eq_some hfind)
    have hiff := @data_inside_iff hdr file_sz ti hlt hdims (behind ti)
    have hdata : llm_mmap_tensor_data hdr behind name =
        some ((hdr.data_section_offset + ti.data_offset) % 2 ^ 64, tensor_bytes ti (behind ti)) := by
      rw [llm_mmap_tensor_data, hfind, Option.map_some]
    constructor
    · intro h ti' hti'
      obtain rfl := Option.some.inj hti'
      exact hiff.mp (h ti _ rfl hdata)
    · intro h ti' data hti' hdata'
      obtain rfl := Option.some.inj hti'
      obtain rfl := Option.some.inj (hdata.symm.trans hdata')
      exact hiff.mpr (h ti rfl)

/-- A file with one tensor `t` of four floats, whose data starts at the offset that the last bytes of its entry give. -/
def one_tensor (data_offset : List UInt8) : List UInt8 :=
  [0x47, 0x47, 0x55, 0x46, 3, 0, 0, 0] ++ [1, 0, 0, 0, 0, 0, 0, 0] ++ [0, 0, 0, 0, 0, 0, 0, 0] ++
    [1, 0, 0, 0, 0, 0, 0, 0, 116] ++ [1, 0, 0, 0] ++ [4, 0, 0, 0, 0, 0, 0, 0] ++ [0, 0, 0, 0] ++ data_offset ++
    List.replicate 55 0

def one_header (data_offset : Nat) : Header := ⟨3, 1, 0, [], [⟨[116], 1, [4], 0, data_offset⟩], 64⟩

theorem tensor_data_inside_one :
    llm_mmap_tensor_data (one_header 32) (fun _ _ => 0) [116] = some (96, 16) ∧
    DataInside 112 ⟨[116], 1, [4], 0, 32⟩ (96, 16) := by
  have hdata : llm_mmap_tensor_data (one_header 32) (fun _ _ => 0) [116] = some (96, 16) := by decide +kernel
  refine ⟨hdata, (tensor_data_inside_iff ((one_tensor [32, 0, 0, 0, 0, 0, 0, 0]).getD · 0) 112 (by decide)
    (one_header 32) (by decide +kernel) (fun _ _ => 0) [116]).mpr (fun ti hti => ?_) _ _ rfl hdata⟩
  obtain rfl := Option.some.inj hti
  exact ⟨by decide, by decide, ⟨0, 4, 1⟩, by decide, rfl, by decide, by decide⟩

/-- The file is accepted with any offset. -/
theorem tensor_data_outside :
    llm_mmap_open ((one_tensor [0, 0, 0, 0, 1, 0, 0, 0]).getD · 0) 112 = some (one_header 4294967296) ∧
    llm_mmap_tensor_data (one_header 4294967296) (fun _ _ => 0) [116] = some (4294967360, 16) ∧
    ∀ ti, ¬ DataInside 112 ti (4294967360, 16) :=
  ⟨by decide +kernel, by decide +kernel, fun ti h => absurd h.inside (by decide)⟩

end graceos.llm
