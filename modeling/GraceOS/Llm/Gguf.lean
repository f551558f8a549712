import GraceOS.Lib.Exec
import GraceOS.Lib.Word

/-!
# The header of a model file

The parser of `llama-mmap.c`. It walks a buffer of `buf_sz` bytes with a 64-bit cursor; `buf` is the
memory from the buffer on, with what lies behind its end. A pointer into the buffer is its offset, and
the places that were read or recorded are noted on the way.
-/

namespace graceos.llm

open exec word

def GGUF_MAGIC : Nat := 0x46554747
def GGUF_VERSION_MIN : Nat := 2
def GGUF_VERSION_MAX : Nat := 3

def GGUF_VAL_STRING : Nat := 8
def GGUF_VAL_ARRAY : Nat := 9

def GGUF_KV_KEY_MAX : Nat := 128
def GGUF_TENSOR_NAME_MAX : Nat := 128
def GGUF_TENSOR_MAX_DIMS : Nat := 4
def GGUF_MAX_KV : Nat := 512
def GGUF_MAX_TENSORS : Nat := 1024

/-- The union in `gguf_kv_t`. A scalar is the number its bytes spell. -/
inductive Val where
  | scalar (bits : Nat)
  | str (data len : Nat)
  | arr (elem_type count data : Nat)
  deriving DecidableEq, Repr

/-- `gguf_kv_t`; the key without its NUL. -/
structure Kv where
  key : List UInt8
  type : Nat
  val : Val
  deriving DecidableEq, Repr

/-- `gguf_tensor_info_t`; `dims` are those that were parsed. -/
structure TensorInfo where
  name : List UInt8
  n_dims : Nat
  dims : List Nat
  type : Nat
  data_offset : Nat
  deriving DecidableEq, Repr

/-- `gguf_header_t`. -/
structure Header where
  version : Nat
  n_tensors : Nat
  n_kv : Nat
  kv : List Kv
  tensors : List TensorInfo
  data_section_offset : Nat
  deriving DecidableEq, Repr

/-- The cursor, and the places read and the strings and arrays recorded so far, each with its length. -/
structure Reader where
  off : Nat
  places : List (Nat × Nat) := []
  deriving DecidableEq, Repr

abbrev Parse := Exec Reader

variable (buf : Nat → UInt8) (buf_sz : Nat)

/-- `if (*off + n > buf_sz) return -1;` -/
def check (n : Nat) : Parse Unit := fun r =>
  if (r.off + n) % 2 ^ 64 > buf_sz then (.error, r) else (.ok (), r)

/-- `llm_copy(&x, buf + *off + ahead, n);` into a number. -/
def copy (ahead n : Nat) : Parse Nat := fun r =>
  (.ok (load buf (r.off + ahead) n), { r with places := r.places ++ [(r.off + ahead, n)] })

variable {buf} in
theorem copy_ok (ahead n : Nat) (r : Reader) :
    copy buf ahead n r = (.ok (load buf (r.off + ahead) n),
      { r with places := r.places ++ [(r.off + ahead, n)] }) := rfl

/-- `llm_copy(dst, buf + *off, n);` into an array. -/
def copy_bytes (n : Nat) : Parse (List UInt8) := fun r =>
  (.ok ((List.range n).map fun i => buf (r.off + i)), { r with places := r.places ++ [(r.off, n)] })

/-- `*off += n;` -/
def skip (n : Nat) : Parse Unit := Exec.modify fun r => { r with off := (r.off + n) % 2 ^ 64 }

/-- `buf + *off` as a pointer. -/
def here : Parse Nat := fun r => (.ok r.off, r)

/-- The macro `READ`. -/
def READ (n : Nat) : Parse Nat := do
  check buf_sz n
  let x ← copy buf 0 n
  skip n
  pure x

/-- `buf + *off` as a pointer to `n` bytes that is kept. -/
def record (n : Nat) : Parse Nat := fun r => (.ok r.off, { r with places := r.places ++ [(r.off, n)] })

/-- A loop of `n` turns that keeps what each of them makes. -/
def times {σ α : Type} (m : Exec σ α) : Nat → Exec σ (List α)
  | 0 => pure []
  | n + 1 => do
    let a ← m
    let rest ← times m n
    pure (a :: rest)

def parse_gguf_string (dst_max : Nat) : Parse (List UInt8) := do
  check buf_sz 8
  let slen ← copy buf 0 8
  skip 8
  check buf_sz slen
  let dst ← copy_bytes buf (if slen < dst_max - 1 then slen else dst_max - 1)
  skip slen
  pure dst

/-- The bytes of a scalar: the cases of `parse_gguf_val` that are a single `READ`. -/
def scalar_size : Nat → Option Nat
  | 0 | 1 | 7 => some 1
  | 2 | 3 => some 2
  | 4 | 5 | 6 => some 4
  | 10 | 11 | 12 => some 8
  | _ => none

/-- The table `sizes` of array elements; 4 behind its end. -/
def elem_size (elem_type : Nat) : Nat := [1, 1, 2, 2, 4, 4, 4, 1, 0, 0, 8, 8, 8].getD elem_type 4

/-- Steps over one string of an array. -/
def skip_string : Parse Unit := do
  let sl ← READ buf buf_sz 8
  check buf_sz sl
  let _ ← record sl
  skip sl

def parse_gguf_val (type : Nat) : Parse Val :=
  match scalar_size type with
  | some sz => do
    let x ← READ buf buf_sz sz
    pure (.scalar x)
  | none =>
    if type = GGUF_VAL_STRING then do
      check buf_sz 8
      let slen ← copy buf 0 8
      skip 8
      check buf_sz slen
      let data ← record slen
      skip slen
      pure (.str data slen)
    else if type = GGUF_VAL_ARRAY then do
      let elem_type ← READ buf buf_sz 4
      let count ← READ buf buf_sz 8
      let data ← here
      if elem_type = GGUF_VAL_STRING then do
        let _ ← times (skip_string buf buf_sz) count
        pure (.arr elem_type count data)
      else do
        -- no check that the elements are there
        let _ ← record (elem_size elem_type * count)
        skip (elem_size elem_type * count % 2 ^ 64)
        pure (.arr elem_type count data)
    else Exec.error

def parse_kv : Parse Kv := do
  let key ← parse_gguf_string buf buf_sz GGUF_KV_KEY_MAX
  let type ← READ buf buf_sz 4
  let val ← parse_gguf_val buf buf_sz type
  pure ⟨key, type, val⟩

def parse_tensor : Parse TensorInfo := do
  let name ← parse_gguf_string buf buf_sz GGUF_TENSOR_NAME_MAX
  let n_dims ← READ buf buf_sz 4
  let dims ← times (READ buf buf_sz 8) (min n_dims GGUF_TENSOR_MAX_DIMS)
  -- 12 bytes are read behind a check of 8
  check buf_sz 8
  let type ← copy buf 0 4
  skip 4
  let data_offset ← copy buf 0 8
  skip 8
  pure ⟨name, n_dims, dims, type, data_offset⟩

/-- `(off + 31) & ~(uint64_t)31`. -/
def align (off : Nat) : Nat := (off + 31) % 2 ^ 64 / 32 * 32

def parse_gguf_header : Parse Header := do
  check buf_sz 8
  let magic ← copy buf 0 4
  let version ← copy buf 4 4
  skip 8
  if magic ≠ GGUF_MAGIC then Exec.error
  else if version < GGUF_VERSION_MIN ∨ version > GGUF_VERSION_MAX then Exec.error
  else do
    check buf_sz 16
    let n_tensors ← copy buf 0 8
    let n_kv ← copy buf 8 8
    skip 16
    if n_kv > GGUF_MAX_KV ∨ n_tensors > GGUF_MAX_TENSORS then Exec.error
    else do
      let kv ← times (parse_kv buf buf_sz) n_kv
      let tensors ← times (parse_tensor buf buf_sz) n_tensors
      let off ← here
      pure ⟨version, n_tensors, n_kv, kv, tensors, align off⟩

/-- `str_eq` on strings without their NULs. -/
def str_eq : List UInt8 → List UInt8 → Bool
  | a :: as, b :: bs => if a = 0 ∨ b = 0 then a = b else if a ≠ b then false else str_eq as bs
  | [], b :: _ => b = 0
  | a :: _, [] => a = 0
  | [], [] => true

def llm_mmap_find_kv (hdr : Header) (key : List UInt8) : Option Kv := hdr.kv.find? fun kv => str_eq kv.key key

/-! ## The vocabulary -/

def GGUF_VAL_FLOAT32 : Nat := 6
def LLM_TOKEN_STR_MAX : Nat := 64

/-- The array of scores, when there is one of floats. -/
def scores_data (scrs_kv : Option Kv) : Option Nat :=
  match scrs_kv with
  | some ⟨_, type, .arr elem_type _ data⟩ =>
    if type = GGUF_VAL_ARRAY ∧ elem_type = GGUF_VAL_FLOAT32 then some data else none
  | _ => none

/-- `scores[i]`; the entries start out as zeros. -/
def read_score (scores : Option Nat) (i : Nat) : Parse Nat := fun r =>
  match scores with
  | some data => (.ok (load buf ((data + 4 * i) % 2 ^ 64) 4),
      { r with places := r.places ++ [((data + 4 * i) % 2 ^ 64, 4)] })
  | none => (.ok 0, r)

/-- The loop over the token strings; the cursor is `ptr`. -/
def load_tokens (scores : Option Nat) : (i left : Nat) → Parse (List (List UInt8 × Nat))
  | _, 0 => pure []
  | i, left + 1 => do
    let slen ← copy buf 0 8
    skip 8
    let text ← copy_bytes buf (if slen < LLM_TOKEN_STR_MAX - 1 then slen else LLM_TOKEN_STR_MAX - 1)
    skip slen
    let score ← read_score buf scores i
    let rest ← load_tokens scores (i + 1) left
    pure ((text, score) :: rest)

/-- The vocabulary part of `llm_model_load`. -/
def load_vocab (hdr : Header) (n_tokens : Nat) : Parse (List (List UInt8 × Nat)) :=
  match llm_mmap_find_kv hdr (ascii "tokenizer.ggml.tokens") with
  | some ⟨_, type, .arr _ count data⟩ =>
    if type = GGUF_VAL_ARRAY then do
      Exec.modify fun r => { r with off := data }
      load_tokens buf (scores_data (llm_mmap_find_kv hdr (ascii "tokenizer.ggml.scores"))) 0
        (if count > n_tokens then n_tokens else count)
    else pure []
  | _ => pure []

end graceos.llm
