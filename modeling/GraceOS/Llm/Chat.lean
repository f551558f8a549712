import GraceOS.Llm.Decode
import Mathlib.Logic.Function.Basic

/-!
# Chats

The templates of `llama-chat.c`, the tokenizer of `llama-context.c` and the chat calls of `runtime.c` on one
context. A text is the list of its bytes before the NUL. The calls keep the addresses of the caller's texts, and
read them when the chat is formatted. What the sampler picks is given from outside.
-/

namespace graceos.llm

open exec

def LLM_CHAT_MAX_MESSAGES : Nat := 64
def LLM_BATCH_MAX : Nat := 512
def CHAT_PROMPT_MAX : Nat := 4096
def CHAT_TOKEN_MAX : Nat := 2048

abbrev Text := List UInt8

def text (s : String) : Text := s.toUTF8.toList

/-- `llm_chat_message_t`. -/
structure Message where
  role : Int
  content : Text

/-- The contents of a `llm_chat_ctx_t`, with the texts that its pointers lead to. -/
structure Chat where
  tmpl : Int
  messages : List Message := []
  system_prompt : Option Text := none

def ROLE_USER : Int := 1
def ROLE_ASSISTANT : Int := 2

/-- The name of a role; the code reads behind its table for other numbers. -/
def role_name (role : Int) : Text :=
  if role = 0 then text "system" else if role = ROLE_USER then text "user"
  else if role = ROLE_ASSISTANT then text "assistant" else []

/-! ## Templates -/

def fmt_chatml (chat : Chat) : Text :=
  (match chat.system_prompt with
    | some prompt => text "<|im_start|>system\n" ++ prompt ++ text "<|im_end|>\n"
    | none => []) ++
  (chat.messages.flatMap fun m =>
    text "<|im_start|>" ++ role_name m.role ++ text "\n" ++ m.content ++ text "<|im_end|>\n") ++
  text "<|im_start|>assistant\n"

/-- The messages of `fmt_llama2`, where `first_turn` says whether no user has spoken yet. -/
def llama2_messages (system_prompt : Option Text) (first_turn : Bool) : List Message → Text
  | [] => text " "
  | m :: messages =>
    if m.role = ROLE_USER then
      (if first_turn then
        text "<s>[INST] " ++
        (match system_prompt with
          | some prompt => text "<<SYS>>\n" ++ prompt ++ text "\n<</SYS>>\n\n"
          | none => []) ++ m.content ++ text " [/INST]"
      else text " <s>[INST] " ++ m.content ++ text " [/INST]") ++ llama2_messages system_prompt false messages
    else if m.role = ROLE_ASSISTANT then
      text " " ++ m.content ++ text " </s>" ++ llama2_messages system_prompt first_turn messages
    else llama2_messages system_prompt first_turn messages

def fmt_llama2 (chat : Chat) : Text := llama2_messages chat.system_prompt true chat.messages

def fmt_llama3 (chat : Chat) : Text :=
  text "<|begin_of_text|>" ++
  (match chat.system_prompt with
    | some prompt => text "<|start_header_id|>system<|end_header_id|>\n\n" ++ prompt ++ text "<|eot_id|>"
    | none => []) ++
  (chat.messages.flatMap fun m =>
    text "<|start_header_id|>" ++ role_name m.role ++ text "<|end_header_id|>\n\n" ++ m.content ++ text "<|eot_id|>") ++
  text "<|start_header_id|>assistant<|end_header_id|>\n\n"

def fmt_vicuna (chat : Chat) : Text :=
  (match chat.system_prompt with
    | some prompt => prompt ++ text "\n\n"
    | none => []) ++
  (chat.messages.flatMap fun m =>
    if m.role = ROLE_USER then text "USER: " ++ m.content ++ text "\n"
    else if m.role = ROLE_ASSISTANT then text "ASSISTANT: " ++ m.content ++ text "\n"
    else []) ++
  text "ASSISTANT:"

def fmt_alpaca (chat : Chat) : Text :=
  (match chat.system_prompt with
    | some prompt => prompt ++ text "\n"
    | none => text
      "Below is an instruction that describes a task. Write a response that appropriately completes the request.\n") ++
  (chat.messages.flatMap fun m =>
    if m.role = ROLE_USER then text "\n### Instruction:\n" ++ m.content
    else if m.role = ROLE_ASSISTANT then text "\n### Response:\n" ++ m.content
    else []) ++
  text "\n### Response:\n"

def fmt_raw (chat : Chat) : Text := chat.system_prompt.getD [] ++ chat.messages.flatMap (·.content)

/-- What `llm_chat_format` writes to a buffer that is large enough. -/
def chat_text (chat : Chat) : Text :=
  if chat.tmpl = 0 then fmt_chatml chat
  else if chat.tmpl = 1 ∨ chat.tmpl = 3 then fmt_llama2 chat
  else if chat.tmpl = 2 then fmt_llama3 chat
  else if chat.tmpl = 4 then fmt_vicuna chat
  else if chat.tmpl = 5 then fmt_alpaca chat
  else fmt_raw chat

/-- Nothing where the text and its NUL overflow the buffer. -/
def llm_chat_format (chat : Chat) (buf_sz : Nat) : Option Text :=
  if (chat_text chat).length ≤ buf_sz - 1 then some (chat_text chat) else none

/-! ## Tokens -/

/-- The parts of a loaded model that the calls read. -/
structure Model where
  hp : Hparams
  tensors : Tensors
  vocab : List Text
  bos_id : Int
  eos_id : Int

def find_merge (m : Model) (s : Text) : Option Nat := m.vocab.findIdx? (· == s)

/-- The longest token of at most 32 bytes at the front of a text, with its length. -/
def longest_match (m : Model) (s : Text) : Option (Nat × Nat) :=
  (List.range (min 32 s.length)).foldl (fun best l =>
    match find_merge m (s.take (l + 1)) with
    | some id => some (id, l + 1)
    | none => best) none

/-- The next token and the number of its bytes; a byte that no token matches is a token of its own. -/
def next_token (m : Model) (c : UInt8) (s : Text) : Int × Nat :=
  match longest_match m (c :: s) with
  | some (id, len) => (id, len)
  | none => (3 + (c.toNat : Int), 1)

/-- The loop of `llm_tokenize` for `room` more tokens. -/
def tokenize_loop (m : Model) : (fuel : Nat) → Text → (room : Nat) → List Int
  | 0, _, _ => []
  | _ + 1, [], _ => []
  | _ + 1, _, 0 => []
  | fuel + 1, c :: s, room + 1 =>
    (next_token m c s).1 :: tokenize_loop m fuel ((c :: s).drop (next_token m c s).2) room

def llm_tokenize (m : Model) (s : Text) (max_tokens : Nat) : List Int :=
  if 0 < max_tokens then m.bos_id :: tokenize_loop m s.length s (max_tokens - 1) else []

/-- All tokens of a text. -/
def tokens_of (m : Model) (s : Text) : List Int := llm_tokenize m s (s.length + 1)

/-- What is written to the buffer, where the token is one of the vocabulary. -/
def llm_detokenize (m : Model) (tok : Int) (buf_max : UInt64) : Option Text :=
  if tok < 0 ∨ m.vocab.length ≤ tok then none
  else some ((m.vocab.getD tok.toNat []).take (buf_max - 1).toNat)

/-! ## The calls -/

/-- `llm_chat_ctx_t`. The texts are with the caller, at the addresses that are kept. -/
structure ChatCtx where
  tmpl : Int
  messages : List (Int × Nat) := []
  system_prompt : Nat := 0

/-- The chat that the pointers lead to; `mem` is the text that begins at an address. -/
def ChatCtx.read (chat : ChatCtx) (mem : Nat → Text) : Chat where
  tmpl := chat.tmpl
  messages := chat.messages.map fun m => ⟨m.1, mem m.2⟩
  system_prompt := if chat.system_prompt = 0 then none else some (mem chat.system_prompt)

def llm_chat_ctx_init (tmpl : Int) (system_prompt : Nat) : ChatCtx := { tmpl, system_prompt }

def llm_chat_ctx_append (chat : ChatCtx) (role : Int) (content : Nat) : Int × ChatCtx :=
  if chat.messages.length ≥ LLM_CHAT_MAX_MESSAGES then (-1, chat)
  else (0, { chat with messages := chat.messages ++ [(role, content)] })

def llm_chat_ctx_reset (chat : ChatCtx) : ChatCtx := { chat with messages := [] }

/-- A context with its chat, and the memory of the caller; `cells` says which token the cache holds at a position. -/
structure Conversation where
  ctx : Ctx
  cells : Nat → Int
  chat : ChatCtx
  mem : Nat → Text

/-- The chat as it would be formatted now. -/
def Conversation.now (s : Conversation) : Chat := s.chat.read s.mem

/-- The tokens that the model sees. -/
def context_tokens (s : Conversation) : List Int := (List.range s.ctx.n_past.toNat).map s.cells

/-- `llm_ctx_decode` with its effect on the cache, and whether it returns 0. -/
def decode_all (m : Model) : List Int → Conversation → Bool × Conversation
  | [], s => (true, s)
  | tok :: tokens, s =>
    match decode_token m.hp m.tensors tok s.ctx with
    | (.ok (), ctx) => decode_all m tokens { s with ctx, cells := Function.update s.cells s.ctx.n_past.toNat tok }
    | (_, ctx) => (false, { s with ctx })

/-- The part of `sys_llm_chat_generate` that decodes the prompt, and whether that succeeds. -/
def decode_prompt (m : Model) (s : Conversation) : Bool × Conversation :=
  match llm_chat_format s.now CHAT_PROMPT_MAX with
  | none => (false, s)
  | some prompt =>
    let tokens_in := llm_tokenize m prompt CHAT_TOKEN_MAX
    if tokens_in.isEmpty then (false, s) else decode_all m (tokens_in.take LLM_BATCH_MAX) s

/-- The size of the buffer for a piece. -/
def PIECE_MAX : UInt64 := 128

/-- The generation loop for at most `n` more tokens behind the first `n_gen`; the sampler picks `sample`. -/
def generate_loop (m : Model) (buf_sz : Int) (sample : Nat → Int) :
    (n n_gen : Nat) → Text → Conversation → Text × Conversation
  | 0, _, out, s => (out, s)
  | n + 1, n_gen, out, s =>
    if (out.length : Int) ≥ buf_sz - 1 then (out, s)
    else if sample n_gen = m.eos_id then (out, s)
    else
      let piece := (llm_detokenize m (sample n_gen) PIECE_MAX).getD []
      let out := out ++ piece.take (buf_sz - 1 - out.length).toNat
      match decode_all m [sample n_gen] s with
      | (true, s) => generate_loop m buf_sz sample n (n_gen + 1) out s
      | (false, s) => (out, s)

/-- A call of `sys_llm_chat_generate`: the context when the sampler is first asked, if it comes to that, what is
returned and written, and the context at the end. -/
structure Generated where
  sampling : Option Conversation
  ret : Int
  out : Text
  after : Conversation

/-- A call that returns -1. -/
def Generated.failed (s : Conversation) : Generated := ⟨none, -1, [], s⟩

def sys_llm_chat_generate (m : Model) (s : Conversation) (out_buf : Nat) (max_tokens buf_sz : Int)
    (sample : Nat → Int) : Generated :=
  if out_buf = 0 ∨ buf_sz ≤ 0 then .failed s
  else
    let max_tokens := if max_tokens ≤ 0 ∨ max_tokens > CHAT_TOKEN_MAX then (CHAT_TOKEN_MAX : Int) else max_tokens
    match decode_prompt m s with
    | (false, s) => .failed s
    | (true, s) =>
      let (out, after) := generate_loop m buf_sz sample max_tokens.toNat 0 [] s
      -- nothing is sampled where the buffer has room for the NUL alone
      ⟨if 0 < buf_sz - 1 then some s else none, out.length, out, after⟩

/-- The calls on one context. Between them the caller may write its memory, as a call does that stores its text. -/
inductive ChatCall where
  | begin (tmpl : Int) (system_prompt : Nat)
  | append (role : Int) (content : Nat)
  | generate (out_buf : Nat) (max_tokens buf_sz : Int) (sample : Nat → Int)
  | reset
  | write (mem : Nat → Text)

/-- What a call returns, and the context behind it. -/
def call (m : Model) (s : Conversation) : ChatCall → Int × Conversation
  | .begin tmpl system_prompt => (0, { s with chat := llm_chat_ctx_init tmpl system_prompt })
  | .append role content =>
    if content = 0 then (-1, s)
    else
      let (ret, chat) := llm_chat_ctx_append s.chat role content
      (ret, { s with chat })
  | .generate out_buf max_tokens buf_sz sample =>
    let g := sys_llm_chat_generate m s out_buf max_tokens buf_sz sample
    (g.ret, g.after)
  | .reset => (0, { s with ctx := { s.ctx with n_past := 0 }, chat := llm_chat_ctx_reset s.chat })
  | .write mem => (0, { s with mem })

end graceos.llm
