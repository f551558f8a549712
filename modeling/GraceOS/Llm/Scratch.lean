import GraceOS.Llm.Decode
import Mathlib.Tactic.Linarith

/-!
# Scratch space for decoding

The compute buffer is emptied before each token and never between two layers, while its size allows for two
layers. What a computation asks for adds up over its steps.
-/

namespace graceos.llm

open exec List

/-! ## Counting requests -/

/-- `m` asks for at most `n` floats. -/
def AsksAtMost (m : Exec Ctx Unit) (n : Nat) : Prop :=
  ∀ ctx : Ctx, ctx.cbuf.oom = false → ctx.cbuf.total < 2 ^ 62 → ctx.cbuf.used + 4 * n ≤ ctx.cbuf.total →
    (m ctx).2.cbuf.oom = false ∧ (m ctx).2.cbuf.total = ctx.cbuf.total ∧
      (m ctx).2.cbuf.used ≤ ctx.cbuf.used + 4 * n ∧ (m ctx).2.n_ctx = ctx.n_ctx

/-- `m` takes `n` floats where there is room for them, and is refused some of them elsewhere. -/
structure Takes (m : Exec Ctx Unit) (n : Nat) : Prop where
  met : ∀ ctx : Ctx, ctx.cbuf.total < 2 ^ 62 → ctx.cbuf.used + 4 * n ≤ ctx.cbuf.total →
    m ctx = (.ok (), { ctx with cbuf := { ctx.cbuf with used := ctx.cbuf.used + 4 * n } })
  refused : ∀ ctx : Ctx, ctx.cbuf.total < 2 ^ 62 → ctx.cbuf.used ≤ ctx.cbuf.total →
    ctx.cbuf.total < ctx.cbuf.used + 4 * n → (m ctx).2.cbuf.oom = true
  sticky : ∀ ctx : Ctx, ctx.cbuf.oom = true → (m ctx).2.cbuf.oom = true

variable {m : Exec Ctx Unit} {f : Unit → Exec Ctx Unit} {n k : Nat}

theorem AsksAtMost.bind (hm : AsksAtMost m n) (hf : AsksAtMost (f ()) k) : AsksAtMost (m >>= f) (n + k) := by
  intro ctx hoom htotal hroom
  obtain ⟨hoom', htotal', hused', hn_ctx⟩ := hm ctx hoom htotal (by omega)
  rcases h : m ctx with ⟨r, ctx'⟩
  rw [h] at hoom' htotal' hused' hn_ctx
  dsimp only at hoom' htotal' hused' hn_ctx
  cases r with
  | ok u =>
    cases u
    rw [bind_ok h]
    have htotal'' : ctx'.cbuf.total < 2 ^ 62 := by rw [htotal']; exact htotal
    obtain ⟨h1, h2, h3, h4⟩ := hf ctx' hoom' htotal'' (by rw [htotal']; omega)
    exact ⟨h1, h2.trans htotal', h3.trans (by omega), h4.trans hn_ctx⟩
  | error => rw [bind_error h]; exact ⟨hoom', htotal', by dsimp only; omega, hn_ctx⟩
  | hang => rw [bind_hang h]; exact ⟨hoom', htotal', by dsimp only; omega, hn_ctx⟩

theorem sticky_bind (hf : ∀ ctx : Ctx, ctx.cbuf.oom = true → (f () ctx).2.cbuf.oom = true) (ctx : Ctx)
    (h : (m ctx).2.cbuf.oom = true) : ((m >>= f) ctx).2.cbuf.oom = true := by
  rcases hr : m ctx with ⟨r, ctx'⟩
  rw [hr] at h
  cases r with
  | ok u => rw [bind_ok hr]; exact hf ctx' h
  | error => rw [bind_error hr]; exact h
  | hang => rw [bind_hang hr]; exact h

theorem Takes.bind (hm : Takes m n) (hf : Takes (f ()) k) : Takes (m >>= f) (n + k) where
  met ctx htotal hroom := by
    let ctx' : Ctx := { ctx with cbuf := { ctx.cbuf with used := ctx.cbuf.used + 4 * n } }
    have hm' : m ctx = (.ok (), ctx') := hm.met ctx htotal (by omega)
    have hroom' : ctx'.cbuf.used + 4 * k ≤ ctx'.cbuf.total := by
      change ctx.cbuf.used + 4 * n + 4 * k ≤ ctx.cbuf.total
      omega
    rw [bind_ok hm', hf.met ctx' htotal hroom', Nat.mul_add, ← Nat.add_assoc]
  refused ctx htotal hused hfull := by
    by_cases hroom : ctx.cbuf.used + 4 * n ≤ ctx.cbuf.total
    · rw [bind_ok (hm.met ctx htotal hroom)]
      let ctx' : Ctx := { ctx with cbuf := { ctx.cbuf with used := ctx.cbuf.used + 4 * n } }
      have hfull' : ctx'.cbuf.total < ctx'.cbuf.used + 4 * k := by
        change ctx.cbuf.total < ctx.cbuf.used + 4 * n + 4 * k
        omega
      exact hf.refused ctx' htotal hroom hfull'
    · exact sticky_bind hf.sticky ctx (hm.refused ctx htotal hused (by omega))
  sticky ctx h := sticky_bind hf.sticky ctx (hm.sticky ctx h)

theorem asksAtMost_require (b : Bool) : AsksAtMost (require b) 0 := by
  intro ctx hoom _ _
  cases b
  · exact ⟨hoom, rfl, le_refl _, rfl⟩
  · exact ⟨hoom, rfl, le_refl _, rfl⟩

theorem takes_pure : Takes (pure ()) 0 where
  met _ _ _ := rfl
  refused _ _ hused hfull := by omega
  sticky _ h := h

theorem takes_require {b : Bool} (hb : b = true) : Takes (require b) 0 := by
  rw [hb]
  exact takes_pure

/-! ## Requests -/

theorem cbuf_alloc_sticky {cb : ComputeBuf} (h : cb.oom = true) (n : Nat) : (cbuf_alloc cb n).2.oom = true := by
  rw [cbuf_alloc]
  split
  · rfl
  · exact h

theorem cbuf_alloc_met {cb : ComputeBuf} (htotal : cb.total < 2 ^ 62) (hroom : cb.used + 4 * n ≤ cb.total) :
    cbuf_alloc cb n = (some cb.used, { cb with used := cb.used + 4 * n }) := by
  have hmod : (cb.used + n * 4) % 2 ^ 64 = cb.used + 4 * n := by
    rw [Nat.mod_eq_of_lt (by omega), Nat.mul_comm n 4]
  rw [cbuf_alloc, if_neg (by omega), hmod]

theorem cbuf_alloc_refused {cb : ComputeBuf} (htotal : cb.total < 2 ^ 62) (hused : cb.used ≤ cb.total)
    (hn : n < 2 ^ 32) (hfull : cb.total < cb.used + 4 * n) : (cbuf_alloc cb n).2.oom = true := by
  rw [cbuf_alloc, if_pos]
  rw [Nat.mod_eq_of_lt (by omega)]
  omega

theorem cbuf_alloc_all_sticky (ns : List Nat) {cb : ComputeBuf} (h : cb.oom = true) :
    (cbuf_alloc_all cb ns).2.oom = true := by
  induction ns generalizing cb with
  | nil => exact h
  | cons n ns ih => exact ih (cbuf_alloc_sticky h n)

theorem cbuf_alloc_all_met (ns : List Nat) {cb : ComputeBuf} (htotal : cb.total < 2 ^ 62)
    (hroom : cb.used + 4 * ns.sum ≤ cb.total) :
    cbuf_alloc_all cb ns = (true, { cb with used := cb.used + 4 * ns.sum }) := by
  induction ns generalizing cb with
  | nil => rfl
  | cons n ns ih =>
    rw [sum_cons] at hroom ⊢
    let cb' : ComputeBuf := { cb with used := cb.used + 4 * n }
    have hroom' : cb'.used + 4 * ns.sum ≤ cb'.total := by
      change cb.used + 4 * n + 4 * ns.sum ≤ cb.total
      omega
    have hrest := @ih cb' htotal hroom'
    rw [cbuf_alloc_all, cbuf_alloc_met htotal (by omega), Nat.mul_add, ← Nat.add_assoc]
    dsimp only [cb'] at hrest ⊢
    rw [hrest]
    rfl

theorem cbuf_alloc_all_refused (ns : List Nat) {cb : ComputeBuf} (htotal : cb.total < 2 ^ 62)
    (hused : cb.used ≤ cb.total) (hns : ∀ n ∈ ns, n < 2 ^ 32) (hfull : cb.total < cb.used + 4 * ns.sum) :
    (cbuf_alloc_all cb ns).2.oom = true := by
  induction ns generalizing cb with
  | nil => rw [sum_nil] at hfull; omega
  | cons n ns ih =>
    rw [sum_cons] at hfull
    by_cases hroom : cb.used + 4 * n ≤ cb.total
    · rw [cbuf_alloc_all, cbuf_alloc_met htotal hroom]
      exact ih htotal hroom (fun x hx => hns x (mem_cons_of_mem n hx)) (by dsimp only; omega)
    · exact cbuf_alloc_all_sticky ns
        (cbuf_alloc_refused htotal hused (hns n mem_cons_self) (by omega))

theorem asksAtMost_alloc (ns : List Nat) : AsksAtMost (alloc ns) ns.sum := by
  intro ctx hoom htotal hroom
  rw [alloc, cbuf_alloc_all_met ns htotal hroom]
  exact ⟨hoom, rfl, le_refl _, rfl⟩

theorem takes_alloc {ns : List Nat} (hns : ∀ n ∈ ns, n < 2 ^ 32) : Takes (alloc ns) ns.sum where
  met ctx htotal hroom := by
    rw [alloc, cbuf_alloc_all_met ns htotal hroom]
    rfl
  refused ctx htotal hused hfull := cbuf_alloc_all_refused ns htotal hused hns hfull
  sticky ctx h := cbuf_alloc_all_sticky ns h

theorem asksAtMost_alloc_unchecked (n : Nat) : AsksAtMost (alloc_unchecked n) n := by
  intro ctx hoom htotal hroom
  rw [alloc_unchecked, cbuf_alloc_met htotal hroom]
  exact ⟨hoom, rfl, le_refl _, rfl⟩

theorem takes_alloc_unchecked (hn : n < 2 ^ 32) : Takes (alloc_unchecked n) n where
  met ctx htotal hroom := by rw [alloc_unchecked, cbuf_alloc_met htotal hroom]
  refused ctx htotal hused hfull := cbuf_alloc_refused htotal hused hn hfull
  sticky ctx h := cbuf_alloc_sticky h n

/-! ## The forward pass -/

/-- The floats that `forward_layer` asks for at a position with `seq_len - 1` others before it. -/
def layer_floats (hp : Hparams) (seq_len : Nat) : Nat :=
  5 * hp.n_embd.toNat + (hp.n_head * hp.n_embd_head_k).toNat + 2 * (hp.kv_heads * hp.n_embd_head_k).toNat +
    seq_len + 3 * hp.n_ff.toNat

/-- The floats that a token asks for. -/
def token_floats (hp : Hparams) (seq_len : Nat) : Nat :=
  hp.n_embd.toNat + hp.n_layer.toNat * layer_floats hp seq_len + hp.n_embd.toNat + hp.n_vocab.toNat

theorem token_floats_mono (hp : Hparams) {a b : Nat} (h : a ≤ b) : token_floats hp a ≤ token_floats hp b := by
  unfold token_floats layer_floats
  gcongr

variable {hp : Hparams} {tensors : Tensors}

theorem AsksAtMost.of_eq (h : AsksAtMost m n) (hk : n = k) : AsksAtMost m k := hk ▸ h

theorem Takes.of_eq (h : Takes m n) (hk : n = k) : Takes m k := hk ▸ h

theorem forward_layer_asks (layer : Nat) (pos : UInt32) :
    AsksAtMost (forward_layer hp tensors layer pos) (layer_floats hp (pos + 1).toNat) := by
  unfold forward_layer
  refine .of_eq (.bind (asksAtMost_alloc _) <| .bind (asksAtMost_require _) <| .bind (asksAtMost_require _) <|
    .bind (asksAtMost_alloc _) <| .bind (asksAtMost_require _) <| .bind (asksAtMost_alloc _) <|
    .bind (asksAtMost_require _) <| .bind (asksAtMost_alloc _) <| .bind (asksAtMost_alloc _) <|
    .bind (asksAtMost_require _) <| .bind (asksAtMost_require _) <| .bind (asksAtMost_require _) <|
    asksAtMost_alloc _) ?_
  simp only [layer_floats, sum_cons, sum_nil]
  omega

theorem forward_layers_asks (pos : UInt32) (layer n : Nat) :
    AsksAtMost (forward_layers hp tensors pos layer n) (n * layer_floats hp (pos + 1).toNat) := by
  induction n generalizing layer with
  | zero => exact (asksAtMost_require true).of_eq (Nat.zero_mul _).symm
  | succ n ih =>
    refine .of_eq (.bind (forward_layer_asks layer pos) (ih (layer + 1))) ?_
    rw [Nat.succ_mul, Nat.add_comm]

/-- Every tensor is in the file. -/
def all_tensors : Tensors := fun _ _ => true

theorem forward_layer_takes (hn : hp.n_embd ≤ 8192) (layer : Nat) (pos : UInt32) :
    Takes (forward_layer hp all_tensors layer pos) (layer_floats hp (pos + 1).toNat) := by
  have hwords (ns : List UInt32) : Takes (alloc (ns.map UInt32.toNat)) (ns.map UInt32.toNat).sum := by
    apply takes_alloc
    intro n hmem
    obtain ⟨x, -, rfl⟩ := List.mem_map.mp hmem
    exact x.toNat_lt
  unfold forward_layer
  refine .of_eq (.bind (hwords [hp.n_embd]) <| .bind (takes_require rfl) <| .bind (takes_require (decide_eq_true hn)) <|
    .bind (hwords [hp.n_head * hp.n_embd_head_k, hp.kv_heads * hp.n_embd_head_k, hp.kv_heads * hp.n_embd_head_k]) <|
    .bind (takes_require rfl) <| .bind (hwords [hp.n_embd, pos + 1]) <|
    .bind (takes_require rfl) <| .bind (hwords [hp.n_embd]) <| .bind (hwords [hp.n_embd]) <|
    .bind (takes_require rfl) <| .bind (takes_require (decide_eq_true hn)) <| .bind (takes_require rfl) <|
    hwords [hp.n_ff, hp.n_ff, hp.n_ff, hp.n_embd]) ?_
  simp only [layer_floats, map_cons, map_nil, sum_cons, sum_nil]
  omega

theorem forward_layers_takes (hn : hp.n_embd ≤ 8192) (pos : UInt32) (layer n : Nat) :
    Takes (forward_layers hp all_tensors pos layer n) (n * layer_floats hp (pos + 1).toNat) := by
  induction n generalizing layer with
  | zero => exact takes_pure.of_eq (Nat.zero_mul _).symm
  | succ n ih =>
    refine .of_eq (.bind (forward_layer_takes hn layer pos) (ih (layer + 1))) ?_
    rw [Nat.succ_mul, Nat.add_comm]

/-! ## Tokens -/

theorem token_pass_asks (pos : UInt32) :
    AsksAtMost (token_pass hp tensors pos) (token_floats hp (pos + 1).toNat) := by
  unfold token_pass
  refine .of_eq (.bind (asksAtMost_alloc _) <| .bind (asksAtMost_require _) <|
    .bind (forward_layers_asks pos 0 _) <| .bind (asksAtMost_require _) <| .bind (asksAtMost_require _) <|
    .bind (asksAtMost_alloc_unchecked _) <| .bind (asksAtMost_require _) <| asksAtMost_alloc _) ?_
  simp only [token_floats, sum_cons, sum_nil]
  omega

theorem takes_alloc_word (x : UInt32) : Takes (alloc [x.toNat]) x.toNat := by
  refine .of_eq (takes_alloc ?_) sum_singleton
  intro n hmem
  rw [List.mem_singleton.mp hmem]
  exact x.toNat_lt

theorem token_pass_takes (hn : hp.n_embd ≤ 8192) (pos : UInt32) :
    Takes (token_pass hp all_tensors pos) (token_floats hp (pos + 1).toNat) := by
  unfold token_pass
  refine .of_eq (.bind (takes_alloc_word _) <| .bind (takes_require rfl) <|
    .bind (forward_layers_takes hn pos 0 _) <| .bind (takes_require rfl) <|
    .bind (takes_require (decide_eq_true hn)) <| .bind (takes_alloc_unchecked hp.n_embd.toNat_lt) <|
    .bind (takes_require rfl) <| takes_alloc_word _) ?_
  simp only [token_floats]
  omega

theorem require_bind (b : Bool) (f : Unit → Exec Ctx Unit) (ctx : Ctx) :
    (require b >>= f) ctx = if b then f () ctx else (.error, ctx) := by
  cases b
  · rfl
  · rfl

theorem seq_len_le {pos n_ctx : UInt32} (h : pos < n_ctx) : (pos + 1).toNat ≤ n_ctx.toNat := by
  have hlt : pos.toNat < n_ctx.toNat := UInt32.lt_iff_toNat_lt.mp h
  rw [UInt32.toNat_add]
  exact (Nat.mod_le _ _).trans hlt

theorem asksAtMost_advance : AsksAtMost (Exec.modify fun ctx => { ctx with n_past := ctx.n_past + 1 }) 0 :=
  fun _ hoom _ _ => ⟨hoom, rfl, le_refl _, rfl⟩

theorem decode_token_asks {ctx : Ctx} (hoom : ctx.cbuf.oom = false) (htotal : ctx.cbuf.total < 2 ^ 62)
    (hroom : 4 * token_floats hp ctx.n_ctx.toNat ≤ ctx.cbuf.total) (tok : Int) :
    (decode_token hp tensors tok ctx).2.cbuf.oom = false ∧
      (decode_token hp tensors tok ctx).2.cbuf.total = ctx.cbuf.total ∧
      (decode_token hp tensors tok ctx).2.n_ctx = ctx.n_ctx := by
  unfold decode_token
  rw [require_bind]
  split
  · rw [bind_ok (get_apply ctx), require_bind]
    split
    · next hpos =>
      rw [bind_ok (modify_apply _ ctx)]
      have hlen := token_floats_mono hp (seq_len_le (of_decide_eq_true hpos))
      have hfits : (cbuf_reset ctx.cbuf).used + 4 * (token_floats hp (ctx.n_past + 1).toNat + 0) ≤ ctx.cbuf.total := by
        change 0 + _ ≤ _
        omega
      obtain ⟨h1, h2, -, h4⟩ := (token_pass_asks ctx.n_past).bind (f := fun _ => Exec.modify _) asksAtMost_advance
        { ctx with cbuf := cbuf_reset ctx.cbuf } hoom htotal hfits
      exact ⟨h1, h2, h4⟩
    · exact ⟨hoom, rfl, rfl⟩
  · exact ⟨hoom, rfl, rfl⟩

theorem llm_ctx_decode_asks (tokens : List Int) {ctx : Ctx} (hoom : ctx.cbuf.oom = false)
    (htotal : ctx.cbuf.total < 2 ^ 62) (hroom : 4 * token_floats hp ctx.n_ctx.toNat ≤ ctx.cbuf.total) :
    (llm_ctx_decode hp tensors tokens ctx).2.cbuf.oom = false := by
  induction tokens generalizing ctx with
  | nil => exact hoom
  | cons tok tokens ih =>
    obtain ⟨hoom', htotal', hn_ctx⟩ := @decode_token_asks hp tensors ctx hoom htotal hroom tok
    unfold llm_ctx_decode
    rcases h : decode_token hp tensors tok ctx with ⟨r, ctx'⟩
    rw [h] at hoom' htotal' hn_ctx
    dsimp only at hoom' htotal' hn_ctx
    cases r with
    | ok u => rw [bind_ok h]; exact ih hoom' (by rw [htotal']; exact htotal) (by rw [htotal', hn_ctx]; exact hroom)
    | error => rw [bind_error h]; exact hoom'
    | hang => rw [bind_hang h]; exact hoom'

theorem llm_ctx_decode_refused {ctx : Ctx} (hn : hp.n_embd ≤ 8192) (htotal : ctx.cbuf.total < 2 ^ 62)
    (hpos : ctx.n_past < ctx.n_ctx) {tok : Int} (htok : 0 ≤ tok ∧ tok < hp.n_vocab.toNat)
    (hfull : ctx.cbuf.total < 4 * token_floats hp (ctx.n_past + 1).toNat) :
    (llm_ctx_decode hp all_tensors [tok] ctx).2.cbuf.oom = true := by
  let ctx' : Ctx := { ctx with cbuf := cbuf_reset ctx.cbuf }
  have hpass : (token_pass hp all_tensors ctx.n_past ctx').2.cbuf.oom = true := by
    apply (token_pass_takes hn ctx.n_past).refused ctx' htotal (Nat.zero_le _)
    change ctx.cbuf.total < 0 + _
    omega
  unfold llm_ctx_decode llm_ctx_decode
  apply sticky_bind (fun _ h => h)
  unfold decode_token
  rw [require_bind, if_pos (decide_eq_true htok), bind_ok (get_apply ctx), require_bind,
    if_pos (decide_eq_true hpos), bind_ok (modify_apply _ ctx)]
  exact sticky_bind (fun _ h => h) ctx' hpass

/-! ## The size chosen at creation -/

theorem heads_le_embd (raw : Hparams) :
    raw.n_head.toNat * (llm_hparams_derive raw).n_embd_head_k.toNat ≤ raw.n_embd.toNat := by
  unfold llm_hparams_derive
  dsimp only
  split
  · rw [UInt32.toNat_div]
    exact Nat.mul_div_le _ _
  · exact Nat.zero_le _

theorem cbuf_sz_lt (raw : Hparams) (n_ctx : UInt32) : cbuf_sz (llm_hparams_derive raw) n_ctx < 2 ^ 62 := by
  have hheads := heads_le_embd raw
  have hn_embd := raw.n_embd.toNat_lt
  have hn_ctx := n_ctx.toNat_lt
  have hn_ff := raw.n_ff.toNat_lt
  have hn_vocab := raw.n_vocab.toNat_lt
  apply (Nat.mod_le _ _).trans_lt
  change ((raw.n_embd.toNat * 4 + raw.n_head.toNat * (llm_hparams_derive raw).n_embd_head_k.toNat * 3 +
    n_ctx.toNat + raw.n_ff.toNat * 3) * 4) * 2 + raw.n_vocab.toNat * 4 + 4096 < 2 ^ 62
  omega

theorem llm_ctx_create_eq {segment : Nat → Bool} {hp : Hparams} {n_ctx : UInt32} {ctx : Ctx}
    (h : llm_ctx_create segment hp n_ctx = some ctx) :
    0 < n_ctx ∧ ctx = { n_ctx, cbuf := { total := cbuf_sz hp n_ctx } } := by
  unfold llm_ctx_create at h
  split at h
  · cases h
  · next hkv =>
    split at h
    · cases h
    · refine ⟨?_, (Option.some.inj h).symm⟩
      rw [UInt32.pos_iff_ne_zero]
      rintro rfl
      apply hkv
      left
      simp [kv_bytes]

/-- No request of a decode is refused, whatever the file holds and however far the context is filled, where the
buffer has room for all layers together. -/
theorem compute_buffer_suffices_iff {segment : Nat → Bool} {raw : Hparams} {n_ctx : UInt32} {ctx : Ctx}
    (hcreate : llm_ctx_create segment (llm_hparams_derive raw) n_ctx = some ctx) (hn : raw.n_embd ≤ 8192) :
    (∀ (tensors : Tensors) (tokens : List Int) (n_past : UInt32),
        (llm_ctx_decode (llm_hparams_derive raw) tensors tokens { ctx with n_past }).2.cbuf.oom = false) ↔
      raw.n_vocab = 0 ∨
        4 * token_floats (llm_hparams_derive raw) n_ctx.toNat ≤ cbuf_sz (llm_hparams_derive raw) n_ctx := by
  obtain ⟨hpos, rfl⟩ := llm_ctx_create_eq hcreate
  have htotal := cbuf_sz_lt raw n_ctx
  constructor
  · intro hsafe
    by_contra hcon
    obtain ⟨hvocab, hfull⟩ := not_or.mp hcon
    have hpos' : 0 < n_ctx.toNat := UInt32.lt_iff_toNat_lt.mp hpos
    have hle : 1 ≤ n_ctx := UInt32.le_iff_toNat_le.mpr hpos'
    have hlast : (n_ctx - 1).toNat = n_ctx.toNat - 1 := UInt32.toNat_sub_of_le _ _ hle
    have hlt : n_ctx - 1 < n_ctx := UInt32.lt_iff_toNat_lt.mpr (by omega)
    have hvalid : (0 : Int) ≤ 0 ∧ (0 : Int) < (llm_hparams_derive raw).n_vocab.toNat := by
      have hne : raw.n_vocab.toNat ≠ 0 := fun h => hvocab (UInt32.toNat_inj.mp h)
      change (0 : Int) ≤ 0 ∧ (0 : Int) < raw.n_vocab.toNat
      omega
    let last : Ctx := { n_ctx, n_past := n_ctx - 1, cbuf := { total := cbuf_sz (llm_hparams_derive raw) n_ctx } }
    have hfull' : last.cbuf.total < 4 * token_floats (llm_hparams_derive raw) (last.n_past + 1).toNat := by
      change cbuf_sz (llm_hparams_derive raw) n_ctx < 4 * token_floats _ (n_ctx - 1 + 1).toNat
      rw [UInt32.sub_add_cancel]
      exact not_le.mp hfull
    have hrefused : (llm_ctx_decode (llm_hparams_derive raw) all_tensors [0] last).2.cbuf.oom = true :=
      @llm_ctx_decode_refused (llm_hparams_derive raw) last hn htotal hlt 0 hvalid hfull'
    rw [hsafe all_tensors [0] (n_ctx - 1)] at hrefused
    cases hrefused
  · rintro (hvocab | hroom) tensors tokens n_past
    · cases tokens with
      | nil => rfl
      | cons tok tokens =>
        have hinvalid : ¬ (0 ≤ tok ∧ tok < (llm_hparams_derive raw).n_vocab.toNat) := by
          change ¬ (0 ≤ tok ∧ tok < raw.n_vocab.toNat)
          rw [hvocab]
          change ¬ (0 ≤ tok ∧ tok < 0)
          omega
        unfold llm_ctx_decode decode_token
        have hstop : ∀ ctx, require (decide (0 ≤ tok ∧ tok < (llm_hparams_derive raw).n_vocab.toNat)) ctx =
            (.error, ctx) := by
          intro ctx
          rw [decide_eq_false hinvalid]
          rfl
        rw [bind_error (bind_error (hstop _))]
    · exact llm_ctx_decode_asks tokens rfl htotal hroom

/-- The default hyperparameters have room for all layers in no context. -/
theorem compute_buffer_too_small_default :
    ¬ ∀ (segment : Nat → Bool) (raw : Hparams) (n_ctx : UInt32) (ctx : Ctx) (tensors : Tensors) (tokens : List Int)
      (n_past : UInt32), raw.n_embd.toNat = raw.n_head.toNat * (llm_hparams_derive raw).n_embd_head_k.toNat →
      raw.n_embd ≤ 8192 →
      raw.n_head_kv.toNat ∣ raw.n_head.toNat → 1 ≤ raw.n_layer →
      llm_ctx_create segment (llm_hparams_derive raw) n_ctx = some ctx → n_past < n_ctx →
      (∀ tok ∈ tokens, 0 ≤ tok ∧ tok < raw.n_vocab.toNat) →
      (llm_ctx_decode (llm_hparams_derive raw) tensors tokens { ctx with n_past }).2.cbuf.oom = false := by
  intro hclaim
  let raw := llm_model_hparams fun _ d => d
  let ctx : Ctx := { n_ctx := 512, cbuf := { total := 629760 } }
  have hsafe := hclaim (fun _ => true) raw 512 ctx all_tensors [1] 0 (by decide) (by decide) ⟨1, by decide⟩
    (by decide) (by decide) (by decide) (by decide)
  have hrefused : (llm_ctx_decode (llm_hparams_derive raw) all_tensors [1] { ctx with n_past := 0 }).2.cbuf.oom =
      true :=
    @llm_ctx_decode_refused (llm_hparams_derive raw) { ctx with n_past := 0 } (by decide) (by decide) (by decide) 1
      (by decide) (by decide)
  rw [hsafe] at hrefused
  cases hrefused

/-- A small model of one layer. -/
def one_layer : Hparams := { n_embd := 64, n_head := 4, n_head_kv := 4, n_layer := 1, n_ff := 172, n_vocab := 512 }

theorem compute_buffer_suffices_iff_one_layer :
    (∀ (tensors : Tensors) (tokens : List Int) (n_past : UInt32),
        (llm_ctx_decode (llm_hparams_derive one_layer) tensors tokens
          { n_ctx := 512, n_past, cbuf := { total := 17952 } }).2.cbuf.oom = false) ↔
      one_layer.n_vocab = 0 ∨ 4 * token_floats (llm_hparams_derive one_layer) (512 : UInt32).toNat ≤
        cbuf_sz (llm_hparams_derive one_layer) 512 :=
  @compute_buffer_suffices_iff (fun _ => true) one_layer 512 { n_ctx := 512, cbuf := { total := 17952 } }
    (by decide) (by decide)

end graceos.llm
