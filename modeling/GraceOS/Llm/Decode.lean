import GraceOS.Lib.Exec
import Mathlib.Data.List.Basic
import Mathlib.Tactic.Ring

/-!
# Decoding a token

Hyperparameters, contexts and `llm_ctx_decode` of `llama-context.c`, as far as they decide which buffers
are asked for: the tensors are known by whether the file has them, and what is computed is left out.
-/

namespace graceos.llm

open exec

/-- `llm_hparams_t`. -/
structure Hparams where
  n_embd : UInt32
  n_head : UInt32
  n_head_kv : UInt32
  n_layer : UInt32
  n_ff : UInt32
  n_vocab : UInt32
  n_embd_head_k : UInt32 := 0
  n_embd_gqa : UInt32 := 0

/-- The number of key and value heads; 0 stands for as many as there are heads. -/
def Hparams.kv_heads (hp : Hparams) : UInt32 := if hp.n_head_kv > 0 then hp.n_head_kv else hp.n_head

def llm_hparams_derive (hp : Hparams) : Hparams :=
  let n_embd_head_k := if hp.n_head > 0 then hp.n_embd / hp.n_head else 0
  { hp with n_embd_head_k, n_embd_gqa := n_embd_head_k * hp.kv_heads }

/-- The hyperparameters that `llm_model_load` finds; `kv_u32` is `llm_mmap_kv_u32` on the file. -/
def llm_model_hparams (kv_u32 : String → UInt32 → UInt32) : Hparams :=
  llm_hparams_derive {
    n_embd := kv_u32 "llama.embedding_length" 4096
    n_head := kv_u32 "llama.attention.head_count" 32
    n_head_kv := kv_u32 "llama.attention.head_count_kv" 32
    n_layer := kv_u32 "llama.block_count" 32
    n_ff := kv_u32 "llama.feed_forward_length" 11008
    n_vocab := kv_u32 "llama.vocab_size" 32000 }

/-- `llm_compute_buf_t`. `oom` notes that a request was refused. -/
structure ComputeBuf where
  total : Nat
  used : Nat := 0
  oom : Bool := false
  deriving DecidableEq

/-- `llm_ctx_t`. -/
structure Ctx where
  n_ctx : UInt32
  n_past : UInt32 := 0
  cbuf : ComputeBuf
  deriving DecidableEq

/-- `cbuf_sz` of `llm_ctx_create`. -/
def cbuf_sz (hp : Hparams) (n_ctx : UInt32) : Nat :=
  let per_layer := (hp.n_embd.toNat * 4 + hp.n_head.toNat * hp.n_embd_head_k.toNat * 3 + n_ctx.toNat +
    hp.n_ff.toNat * 3) * 4
  (per_layer * 2 + hp.n_vocab.toNat * 4 + 4096) % 2 ^ 64

/-- `kv_bytes` of `llm_ctx_create`. -/
def kv_bytes (hp : Hparams) (n_ctx : UInt32) : Nat :=
  2 * hp.n_layer.toNat * n_ctx.toNat * hp.n_embd_gqa.toNat * 2 % 2 ^ 64

/-- `llm_ctx_create`; `segment` says which sizes the segment allocator has room for. It refuses size 0. -/
def llm_ctx_create (segment : Nat → Bool) (hp : Hparams) (n_ctx : UInt32) : Option Ctx :=
  if kv_bytes hp n_ctx = 0 ∨ !segment (kv_bytes hp n_ctx) then none
  else if !segment (cbuf_sz hp n_ctx) then none
  else some { n_ctx, cbuf := { total := cbuf_sz hp n_ctx } }

/-! ## The compute buffer -/

/-- The place of `n_floats` floats, or nothing. -/
def cbuf_alloc (cb : ComputeBuf) (n_floats : Nat) : Option Nat × ComputeBuf :=
  if (cb.used + n_floats * 4) % 2 ^ 64 > cb.total then (none, { cb with oom := true })
  else (some cb.used, { cb with used := (cb.used + n_floats * 4) % 2 ^ 64 })

def cbuf_reset (cb : ComputeBuf) : ComputeBuf := { cb with used := 0 }

/-- Requests one after the other, and whether all were met. -/
def cbuf_alloc_all (cb : ComputeBuf) : List Nat → Bool × ComputeBuf
  | [] => (true, cb)
  | n :: ns =>
    let (p, cb) := cbuf_alloc cb n
    let (met, cb) := cbuf_alloc_all cb ns
    (p.isSome && met, cb)

/-- Requests whose results are then compared with null. -/
def alloc (ns : List Nat) : Exec Ctx Unit := fun ctx =>
  let (met, cbuf) := cbuf_alloc_all ctx.cbuf ns
  (if met then .ok () else .error, { ctx with cbuf })

/-- A request whose result is used as it is. -/
def alloc_unchecked (n : Nat) : Exec Ctx Unit := fun ctx =>
  (.ok (), { ctx with cbuf := (cbuf_alloc ctx.cbuf n).2 })

/-- A condition without which the caller returns -1. -/
def require (b : Bool) : Exec Ctx Unit := if b then pure () else Exec.error

/-! ## The forward pass -/

/-- The tensors of a model file: those of the layers by pattern and layer, the others as layer 0. -/
abbrev Tensors := String → Nat → Bool

variable (hp : Hparams) (tensors : Tensors)

def forward_layer (layer : Nat) (pos : UInt32) : Exec Ctx Unit := do
  alloc [hp.n_embd.toNat]
  require (tensors "blk.%d.attn_norm.weight" layer)
  require (hp.n_embd ≤ 8192)
  alloc [(hp.n_head * hp.n_embd_head_k).toNat, (hp.kv_heads * hp.n_embd_head_k).toNat,
    (hp.kv_heads * hp.n_embd_head_k).toNat]
  require (tensors "blk.%d.attn_q.weight" layer && tensors "blk.%d.attn_k.weight" layer &&
    tensors "blk.%d.attn_v.weight" layer)
  alloc [hp.n_embd.toNat, (pos + 1).toNat]
  require (tensors "blk.%d.attn_output.weight" layer)
  alloc [hp.n_embd.toNat]
  alloc [hp.n_embd.toNat]
  require (tensors "blk.%d.ffn_norm.weight" layer)
  require (hp.n_embd ≤ 8192)
  require (tensors "blk.%d.ffn_gate.weight" layer && tensors "blk.%d.ffn_up.weight" layer &&
    tensors "blk.%d.ffn_down.weight" layer)
  alloc [hp.n_ff.toNat, hp.n_ff.toNat, hp.n_ff.toNat, hp.n_embd.toNat]

/-- The loop over `n` layers from `layer` on. -/
def forward_layers (pos : UInt32) (layer : Nat) : Nat → Exec Ctx Unit
  | 0 => pure ()
  | n + 1 => do
    forward_layer hp tensors layer pos
    forward_layers pos (layer + 1) n

/-- What `llm_ctx_decode` does for a token at `pos` once the compute buffer is empty. -/
def token_pass (pos : UInt32) : Exec Ctx Unit := do
  alloc [hp.n_embd.toNat]
  require (tensors "token_embd.weight" 0)
  forward_layers hp tensors pos 0 hp.n_layer.toNat
  require (tensors "output_norm.weight" 0)
  require (hp.n_embd ≤ 8192)
  alloc_unchecked hp.n_embd.toNat
  require (tensors "output.weight" 0)
  alloc [hp.n_vocab.toNat]

/-- One turn of the loop of `llm_ctx_decode`, for the token `tok`. -/
def decode_token (tok : Int) : Exec Ctx Unit := do
  require (0 ≤ tok ∧ tok < hp.n_vocab.toNat)
  let ctx ← Exec.get
  require (ctx.n_past < ctx.n_ctx)
  Exec.modify fun ctx => { ctx with cbuf := cbuf_reset ctx.cbuf }
  token_pass hp tensors ctx.n_past
  Exec.modify fun ctx => { ctx with n_past := ctx.n_past + 1 }

/-- `llm_ctx_decode` behind its null checks. -/
def llm_ctx_decode : List Int → Exec Ctx Unit
  | [] => pure ()
  | tok :: tokens => do
    decode_token hp tensors tok
    llm_ctx_decode tokens

end graceos.llm
