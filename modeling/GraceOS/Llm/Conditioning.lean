import GraceOS.Llm.Chat
import GraceOS.Llm.Scratch
import GraceOS.Lib.Machine

/-!
# What generation is conditioned on

Decoding appends to the tokens of the context. `sys_llm_chat_generate` decodes the front of the whole chat behind
whatever was decoded before.
-/

namespace graceos.llm

open exec machine List

/-! ## Positions -/

/-- `m` leaves the length and the fill level of a context alone. -/
def KeepsPlace (m : Exec Ctx Unit) : Prop := ∀ ctx : Ctx, (m ctx).2.n_past = ctx.n_past ∧ (m ctx).2.n_ctx = ctx.n_ctx

variable {m : Exec Ctx Unit} {f : Unit → Exec Ctx Unit}

theorem KeepsPlace.bind (hm : KeepsPlace m) (hf : KeepsPlace (f ())) : KeepsPlace (m >>= f) := by
  intro ctx
  obtain ⟨hpast, hctx⟩ := hm ctx
  rcases h : m ctx with ⟨r, ctx'⟩
  rw [h] at hpast hctx
  dsimp only at hpast hctx
  cases r with
  | ok u =>
    cases u
    rw [bind_ok h]
    obtain ⟨h1, h2⟩ := hf ctx'
    exact ⟨h1.trans hpast, h2.trans hctx⟩
  | error => rw [bind_error h]; exact ⟨hpast, hctx⟩
  | hang => rw [bind_hang h]; exact ⟨hpast, hctx⟩

theorem keepsPlace_require (b : Bool) : KeepsPlace (require b) := by
  intro ctx
  cases b
  · exact ⟨rfl, rfl⟩
  · exact ⟨rfl, rfl⟩

theorem keepsPlace_alloc (ns : List Nat) : KeepsPlace (alloc ns) := fun _ => ⟨rfl, rfl⟩

theorem forward_layer_keepsPlace (hp : Hparams) (tensors : Tensors) (layer : Nat) (pos : UInt32) :
    KeepsPlace (forward_layer hp tensors layer pos) := by
  unfold forward_layer
  exact .bind (keepsPlace_alloc _) <| .bind (keepsPlace_require _) <| .bind (keepsPlace_require _) <|
    .bind (keepsPlace_alloc _) <| .bind (keepsPlace_require _) <| .bind (keepsPlace_alloc _) <|
    .bind (keepsPlace_require _) <| .bind (keepsPlace_alloc _) <| .bind (keepsPlace_alloc _) <|
    .bind (keepsPlace_require _) <| .bind (keepsPlace_require _) <| .bind (keepsPlace_require _) <|
    keepsPlace_alloc _

theorem forward_layers_keepsPlace (hp : Hparams) (tensors : Tensors) (pos : UInt32) (layer n : Nat) :
    KeepsPlace (forward_layers hp tensors pos layer n) := by
  induction n generalizing layer with
  | zero => exact keepsPlace_require true
  | succ n ih => exact .bind (forward_layer_keepsPlace hp tensors layer pos) (ih (layer + 1))

theorem token_pass_keepsPlace (hp : Hparams) (tensors : Tensors) (pos : UInt32) :
    KeepsPlace (token_pass hp tensors pos) := by
  unfold token_pass
  exact .bind (keepsPlace_alloc _) <| .bind (keepsPlace_require _) <| .bind (forward_layers_keepsPlace _ _ _ _ _) <|
    .bind (keepsPlace_require _) <| .bind (keepsPlace_require _) <| .bind (fun _ => ⟨rfl, rfl⟩) <|
    .bind (keepsPlace_require _) <| keepsPlace_alloc _

/-- A token that is decoded takes one position of the context. -/
theorem decode_token_ok {hp : Hparams} {tensors : Tensors} {tok : Int} {ctx ctx' : Ctx}
    (h : decode_token hp tensors tok ctx = (.ok (), ctx')) :
    ctx.n_past < ctx.n_ctx ∧ ctx'.n_past = ctx.n_past + 1 := by
  unfold decode_token at h
  rw [require_bind] at h
  split at h
  · rw [bind_ok (get_apply ctx), require_bind] at h
    split at h
    · next hpos =>
      rw [bind_ok (modify_apply _ ctx)] at h
      obtain ⟨hpast, -⟩ := token_pass_keepsPlace hp tensors ctx.n_past { ctx with cbuf := cbuf_reset ctx.cbuf }
      refine ⟨of_decide_eq_true hpos, ?_⟩
      rcases hpass : token_pass hp tensors ctx.n_past { ctx with cbuf := cbuf_reset ctx.cbuf } with ⟨r, ctx1⟩
      rw [hpass] at hpast
      dsimp only at hpast
      cases r with
      | ok u =>
        rw [bind_ok hpass, modify_apply] at h
        rw [← (Prod.mk.inj h).2, hpast]
      | error =>
        rw [bind_error hpass] at h
        cases (Prod.mk.inj h).1
      | hang =>
        rw [bind_hang hpass] at h
        cases (Prod.mk.inj h).1
    · cases (Prod.mk.inj h).1
  · cases (Prod.mk.inj h).1

/-! ## Decoding appends -/

variable {model : Model} {s s' : Conversation}

theorem decode_all_appends {tokens : List Int}
    (h : decode_all model tokens s = (true, s')) : context_tokens s' = context_tokens s ++ tokens := by
  induction tokens generalizing s with
  | nil =>
    rw [← (Prod.mk.inj h).2, append_nil]
  | cons tok tokens ih =>
    rw [decode_all] at h
    split at h
    · next ctx hdecode =>
      obtain ⟨hlt, hpast⟩ := decode_token_ok hdecode
      rw [ih h]
      have hsucc : ctx.n_past.toNat = s.ctx.n_past.toNat + 1 := by
        have hlt' : s.ctx.n_past.toNat < s.ctx.n_ctx.toNat := UInt32.lt_iff_toNat_lt.mp hlt
        have hbound := s.ctx.n_ctx.toNat_lt
        rw [hpast, UInt32.toNat_add]
        exact Nat.mod_eq_of_lt (by change s.ctx.n_past.toNat + 1 < 2 ^ 32; omega)
      have hstep : context_tokens { s with ctx, cells := Function.update s.cells s.ctx.n_past.toNat tok } =
          context_tokens s ++ [tok] := by
        unfold context_tokens
        dsimp only
        rw [hsucc, range_succ, map_append, map_singleton, Function.update_self]
        congr 1
        apply map_congr_left
        intro k hk
        rw [Function.update_of_ne (Nat.ne_of_lt (List.mem_range.mp hk))]
      rw [hstep, append_assoc]
      rfl
    · cases (Prod.mk.inj h).1

/-! ## Tokens of a prompt -/

theorem tokenize_loop_take (model : Model) (fuel : Nat) (s : Text) (room k : Nat) (hk : k ≤ room) :
    tokenize_loop model fuel s k = (tokenize_loop model fuel s room).take k := by
  induction fuel generalizing s room k with
  | zero => rw [tokenize_loop, tokenize_loop, take_nil]
  | succ fuel ih =>
    cases s with
    | nil => rw [tokenize_loop, tokenize_loop, take_nil]
    | cons c s =>
      cases k with
      | zero => rw [take_zero, tokenize_loop]; simp
      | succ k =>
        cases room with
        | zero => omega
        | succ room =>
          rw [tokenize_loop, tokenize_loop, take_succ_cons, ih _ room k (by omega)]

theorem tokenize_loop_length (model : Model) (fuel : Nat) (s : Text) (room : Nat) :
    (tokenize_loop model fuel s room).length ≤ fuel := by
  induction fuel generalizing s room with
  | zero => rw [tokenize_loop]; exact le_refl _
  | succ fuel ih =>
    cases s with
    | nil => rw [tokenize_loop]; exact Nat.zero_le _
    | cons c s =>
      cases room with
      | zero => simp [tokenize_loop]
      | succ room =>
        rw [tokenize_loop, length_cons]
        exact Nat.succ_le_succ (ih _ room)

theorem llm_tokenize_eq (model : Model) (s : Text) {n : Nat} (hn : 0 < n) :
    llm_tokenize model s n = (tokens_of model s).take n := by
  obtain ⟨n, rfl⟩ : ∃ k, n = k + 1 := ⟨n - 1, by omega⟩
  rw [tokens_of, llm_tokenize, llm_tokenize, if_pos hn, if_pos (Nat.succ_pos _), take_succ_cons]
  congr 1
  rw [Nat.add_sub_cancel, Nat.add_sub_cancel]
  rcases Nat.le_total n s.length with hle | hge
  · exact tokenize_loop_take model s.length s s.length n hle
  · rw [tokenize_loop_take model s.length s n s.length hge, take_take, Nat.min_eq_right hge,
      take_of_length_le (tokenize_loop_length model s.length s n)]

/-- The tokens that a chat should be generated from. -/
def prompt_tokens (model : Model) (chat : Chat) : List Int := tokens_of model (chat_text chat)

theorem context_tokens_nil_iff (s : Conversation) : context_tokens s = [] ↔ s.ctx.n_past = 0 := by
  rw [context_tokens, map_eq_nil_iff, range_eq_nil, ← UInt32.toNat_inj]
  rfl

theorem decode_prompt_context (h : decode_prompt model s = (true, s')) :
    context_tokens s' = context_tokens s ++ (prompt_tokens model s.now).take LLM_BATCH_MAX := by
  unfold decode_prompt llm_chat_format at h
  split at h
  · cases (Prod.mk.inj h).1
  · next prompt hprompt =>
    split at hprompt
    · dsimp only at h
      split at h
      · cases (Prod.mk.inj h).1
      · rw [decode_all_appends h, ← Option.some.inj hprompt, llm_tokenize_eq model _ (by decide), take_take,
          Nat.min_eq_left (by decide)]
        rfl
    · cases hprompt

/-! ## What a call is conditioned on -/

/-- The context holds the tokens of the chat that the first batch leaves out, and the chat repeats itself behind them.
A chat of one batch asks for an empty context. -/
def Fresh (model : Model) (s : Conversation) : Prop :=
  let chat := prompt_tokens model s.now
  let behind := chat.length - LLM_BATCH_MAX
  context_tokens s = chat.take behind ∧ chat.drop behind = chat.take LLM_BATCH_MAX

theorem fresh_iff_empty (hfits : (prompt_tokens model s.now).length ≤ LLM_BATCH_MAX) :
    Fresh model s ↔ s.ctx.n_past = 0 := by
  unfold Fresh
  dsimp only
  rw [Nat.sub_eq_zero_of_le hfits, take_zero, drop_zero, take_of_length_le hfits, context_tokens_nil_iff]
  exact and_iff_left rfl

theorem batch_appended_iff (past chat : List Int) :
    past ++ chat.take LLM_BATCH_MAX = chat ↔
      past = chat.take (chat.length - LLM_BATCH_MAX) ∧ chat.drop (chat.length - LLM_BATCH_MAX) =
          chat.take LLM_BATCH_MAX := by
  constructor
  · intro h
    have hlength := congrArg List.length h
    rw [length_append, length_take] at hlength
    have hpast : past.length = chat.length - LLM_BATCH_MAX := by omega
    rw [← hpast]
    constructor
    · conv_rhs => rw [← h, take_left]
    · conv_lhs => rw [← h, drop_left]
  · rintro ⟨hpast, hrest⟩
    rw [hpast, ← hrest, take_append_drop]

/-- Sampling starts from exactly the tokens of the chat, or the call returns -1. -/
structure Conditioned (model : Model) (s : Conversation) (g : Generated) : Prop where
  sampled : ∀ s', g.sampling = some s' → context_tokens s' = prompt_tokens model s.now
  refused : g.sampling = none → g.ret = -1

/-- What is decoded and sampled, by the two things that decide it. -/
theorem sys_llm_chat_generate_conditioned (model : Model) (s : Conversation) (out_buf : Nat) (max_tokens buf_sz : Int)
    (sample : Nat → Int) :
    Conditioned model s (sys_llm_chat_generate model s out_buf max_tokens buf_sz sample) ↔
      (out_buf ≠ 0 → 0 < buf_sz → (decode_prompt model s).1 = true → buf_sz ≠ 1 ∧ Fresh model s) := by
  rw [sys_llm_chat_generate]
  by_cases hargs : out_buf = 0 ∨ buf_sz ≤ 0
  · rw [if_pos hargs]
    refine iff_of_true ⟨fun _ h => absurd h (by simp [Generated.failed]), fun _ => rfl⟩ fun hbuf hsize => ?_
    exact absurd hargs (not_or.mpr ⟨hbuf, by omega⟩)
  rw [if_neg hargs]
  obtain ⟨hbuf, hsize⟩ := not_or.mp hargs
  rcases hdecode : decode_prompt model s with ⟨_ | _, s'⟩
  · exact iff_of_true ⟨fun _ h => absurd h (by simp [Generated.failed]), fun _ => rfl⟩ fun _ _ h => absurd h (by simp)
  · have hcontext := decode_prompt_context hdecode
    dsimp only
    rcases hloop : generate_loop model buf_sz sample _ 0 [] s' with ⟨out, after⟩
    dsimp only
    by_cases hone : buf_sz = 1
    · -- the call returns the length of what it wrote
      rw [if_neg (by omega)]
      refine iff_of_false (fun h => ?_) fun h => ?_
      · have hret : (out.length : Int) = -1 := h.refused rfl
        omega
      · exact (h hbuf (by omega) rfl).1 hone
    · rw [if_pos (by omega)]
      constructor
      · intro h _ _ _
        have htokens := h.sampled s' rfl
        rw [hcontext, batch_appended_iff] at htokens
        exact ⟨hone, htokens⟩
      · intro h
        refine ⟨fun s'' hs'' => ?_, fun hnone => absurd hnone (by simp)⟩
        rw [← Option.some.inj hs'', hcontext, batch_appended_iff]
        exact (h hbuf (by omega) rfl).2

/-- The context after a sequence of calls. -/
def chat_run (model : Model) (s0 : Conversation) (calls : List ChatCall) : Conversation :=
  run (fun s c => (call model s c).2) s0 calls

theorem chat_run_snoc (model : Model) (s0 : Conversation) (calls : List ChatCall) (c : ChatCall) :
    chat_run model s0 (calls ++ [c]) = (call model (chat_run model s0 calls) c).2 := by
  rw [chat_run, run_append, run_cons, run_nil]
  rfl

/-- The model has all its tensors, and the compute buffer suffices for the last position. -/
structure Roomy (model : Model) (ctx : Ctx) : Prop where
  tensors : model.tensors = all_tensors
  n_embd : model.hp.n_embd ≤ 8192
  total : ctx.cbuf.total < 2 ^ 62
  room : 4 * token_floats model.hp ctx.n_ctx.toNat ≤ ctx.cbuf.total

theorem Roomy.decode_token {ctx : Ctx} (hr : Roomy model ctx) {tok : Int}
    (htok : 0 ≤ tok ∧ tok < model.hp.n_vocab.toNat) (hpos : ctx.n_past < ctx.n_ctx) :
    ∃ cbuf, decode_token model.hp model.tensors tok ctx = (.ok (), { ctx with cbuf, n_past := ctx.n_past + 1 }) ∧
      cbuf.total = ctx.cbuf.total := by
  have hlen := token_floats_mono model.hp (seq_len_le hpos)
  have hroom := hr.room
  have hfits : (cbuf_reset ctx.cbuf).used + 4 * token_floats model.hp (ctx.n_past + 1).toNat ≤ ctx.cbuf.total := by
    change 0 + _ ≤ _
    omega
  have hpass := (token_pass_takes hr.n_embd ctx.n_past).met { ctx with cbuf := cbuf_reset ctx.cbuf } hr.total hfits
  refine ⟨{ cbuf_reset ctx.cbuf with
    used := (cbuf_reset ctx.cbuf).used + 4 * token_floats model.hp (ctx.n_past + 1).toNat }, ?_, rfl⟩
  unfold llm.decode_token
  rw [require_bind, if_pos (decide_eq_true htok), bind_ok (get_apply ctx), require_bind, if_pos (decide_eq_true hpos),
    bind_ok (modify_apply _ ctx), hr.tensors, bind_ok hpass, modify_apply]

theorem decode_all_succeeds {model : Model} {tokens : List Int} {s : Conversation} (hr : Roomy model s.ctx)
    (htok : ∀ tok ∈ tokens, 0 ≤ tok ∧ tok < model.hp.n_vocab.toNat)
    (hlen : s.ctx.n_past.toNat + tokens.length ≤ s.ctx.n_ctx.toNat) :
    ∃ s', decode_all model tokens s = (true, s') ∧ Roomy model s'.ctx ∧ s'.now = s.now ∧
      s'.ctx.n_ctx = s.ctx.n_ctx := by
  induction tokens generalizing s with
  | nil => exact ⟨s, rfl, hr, rfl, rfl⟩
  | cons tok tokens ih =>
    rw [length_cons] at hlen
    have hpos : s.ctx.n_past < s.ctx.n_ctx := UInt32.lt_iff_toNat_lt.mpr (by omega)
    obtain ⟨cbuf, hdecode, htotal⟩ := hr.decode_token (htok tok (mem_cons_self ..)) hpos
    have hsucc : (s.ctx.n_past + 1).toNat ≤ s.ctx.n_past.toNat + 1 := by
      rw [UInt32.toNat_add]
      exact Nat.mod_le _ _
    obtain ⟨s', hall, hr', hchat, hn_ctx⟩ :=
      @ih ⟨{ s.ctx with cbuf, n_past := s.ctx.n_past + 1 },
        Function.update s.cells s.ctx.n_past.toNat tok, s.chat, s.mem⟩
        ⟨hr.tensors, hr.n_embd, by rw [htotal]; exact hr.total, by rw [htotal]; exact hr.room⟩
        (fun tok' h => htok tok' (mem_cons_of_mem _ h)) (by dsimp only; omega)
    refine ⟨s', ?_, hr', hchat, hn_ctx⟩
    rw [decode_all, hdecode]
    exact hall

/-- A model without a vocabulary, and a raw chat of one message. -/
def bytes_model : Model :=
  { hp := llm_hparams_derive one_layer, tensors := all_tensors, vocab := [], bos_id := 1, eos_id := 2 }

def raw_chat : Chat := { tmpl := 6, messages := [⟨ROLE_USER, [97]⟩] }

/-- An empty context of a raw template, and a caller whose texts are all the same. -/
def raw_conversation : Conversation :=
  { ctx := { n_ctx := 512, cbuf := { total := 17952 } }, cells := fun _ => 0, chat := { tmpl := 6 },
    mem := fun _ => [97] }

theorem raw_prompt : prompt_tokens bytes_model raw_chat = [1, 100] := by decide +kernel

example : (prompt_tokens bytes_model raw_chat).length ≤ LLM_BATCH_MAX := by decide +kernel

theorem raw_conversation_roomy : Roomy bytes_model raw_conversation.ctx where
  tensors := rfl
  n_embd := by decide +kernel
  total := by decide +kernel
  room := by decide +kernel

theorem raw_decode (hr : Roomy bytes_model s.ctx) (hchat : s.now = raw_chat)
    (hlen : s.ctx.n_past.toNat + 2 ≤ s.ctx.n_ctx.toNat) :
    ∃ s', decode_prompt bytes_model s = (true, s') ∧ Roomy bytes_model s'.ctx ∧ s'.now = raw_chat ∧
      s'.ctx.n_ctx = s.ctx.n_ctx := by
  have hprompt : llm_chat_format raw_chat CHAT_PROMPT_MAX = some [97] := by decide +kernel
  have htokens : llm_tokenize bytes_model [97] CHAT_TOKEN_MAX = [1, 100] := by decide +kernel
  obtain ⟨s', hall, hr', hchat', hn_ctx⟩ := @decode_all_succeeds bytes_model [1, 100] s hr (by decide +kernel) hlen
  refine ⟨s', ?_, hr', hchat'.trans hchat, hn_ctx⟩
  rw [decode_prompt, hchat, hprompt]
  dsimp only
  rw [htokens]
  exact hall

/-- The context with a message of the user. -/
def first_turn : Conversation := { raw_conversation with chat := { tmpl := 6, messages := [(ROLE_USER, 4096)] } }

theorem append_raw : chat_run bytes_model raw_conversation [.append ROLE_USER 4096] = first_turn := rfl

theorem first_turn_now : first_turn.now = raw_chat := rfl

theorem first_turn_fresh : Fresh bytes_model first_turn := by
  rw [fresh_iff_empty]
  · rfl
  · rw [first_turn_now, raw_prompt]
    decide

/-- The sampler picks the end at once. -/
def ends_at_once : Nat → Int := fun _ => 2

theorem generate_ended (h : decode_prompt bytes_model s = (true, s')) :
    sys_llm_chat_generate bytes_model s 8192 1 64 ends_at_once = ⟨some s', 0, [], s'⟩ := by
  have hlimit : (if (1 : Int) ≤ 0 ∨ (1 : Int) > CHAT_TOKEN_MAX then (CHAT_TOKEN_MAX : Int) else 1) = 1 :=
      if_neg (by decide)
  have hend : generate_loop bytes_model 64 ends_at_once (1 : Int).toNat 0 [] s' = ([], s') := by
    rw [show (1 : Int).toNat = 0 + 1 from rfl, generate_loop, if_neg (by decide), if_pos (by decide +kernel)]
  rw [sys_llm_chat_generate, if_neg (by decide), h]
  dsimp only
  rw [hlimit, hend]
  rfl

end graceos.llm
