import GraceOS.Llm.Chat

/-!
# The buffer of a formatted chat

The writers of `llama-chat.c` put one piece after the other into a `wbuf_t`, which takes nothing more once it is full.
-/

namespace graceos.llm.wbuf

open List

/-- `wbuf_t`. -/
structure Wbuf where
  buf : Nat → UInt8
  cap : Int
  pos : Nat
  overflow : Bool

/-! ## Write helpers -/

def wb_init (buf : Nat → UInt8) (cap : Int) : Wbuf := ⟨buf, cap, 0, false⟩

/-- A character, if there is room for it and the NUL. -/
def wb_put (w : Wbuf) (c : UInt8) : Wbuf :=
  if (w.pos : Int) ≥ w.cap - 1 then { w with overflow := true }
  else { w with buf := Function.update w.buf w.pos c, pos := w.pos + 1 }

/-- The loop of `wb_str`, which ends when the buffer is full. -/
def str_loop (w : Wbuf) : Text → Wbuf
  | [] => w
  | c :: s => if (wb_put w c).overflow then wb_put w c else str_loop (wb_put w c) s

def wb_str (w : Wbuf) (s : Text) : Wbuf := if w.overflow then w else str_loop w s

def wb_char (w : Wbuf) (c : UInt8) : Wbuf := if w.overflow then w else wb_put w c

def wb_finish (w : Wbuf) : Wbuf :=
  if (w.pos : Int) < w.cap then { w with buf := Function.update w.buf w.pos 0 }
  else if w.cap > 0 then { w with buf := Function.update w.buf (w.cap - 1).toNat 0 }
  else w

/-- `w->overflow ? -1 : w->pos`. -/
def result (w : Wbuf) : Int := if w.overflow then -1 else w.pos

/-! ## Templates -/

def fmt_chatml (chat : Chat) (w : Wbuf) : Wbuf :=
  let w := match chat.system_prompt with
    | some prompt => wb_str (wb_str (wb_str w (text "<|im_start|>system\n")) prompt) (text "<|im_end|>\n")
    | none => w
  let w := chat.messages.foldl (fun w m =>
    let w := wb_str w (text "<|im_start|>")
    let w := wb_str w (role_name m.role)
    let w := wb_char w 10
    let w := wb_str w m.content
    wb_str w (text "<|im_end|>\n")) w
  wb_str w (text "<|im_start|>assistant\n")

/-- The loop of `fmt_llama2`. -/
def llama2_loop (system_prompt : Option Text) : (first_turn : Bool) → List Message → Wbuf → Wbuf
  | _, [], w => w
  | first_turn, m :: messages, w =>
    if m.role = ROLE_USER then
      let w :=
        if first_turn then
          let w := wb_str w (text "<s>[INST] ")
          let w := match system_prompt with
            | some prompt => wb_str (wb_str (wb_str w (text "<<SYS>>\n")) prompt) (text "\n<</SYS>>\n\n")
            | none => w
          wb_str (wb_str w m.content) (text " [/INST]")
        else wb_str (wb_str (wb_str w (text " <s>[INST] ")) m.content) (text " [/INST]")
      llama2_loop system_prompt false messages w
    else if m.role = ROLE_ASSISTANT then
      llama2_loop system_prompt first_turn messages (wb_str (wb_str (wb_char w 32) m.content) (text " </s>"))
    else llama2_loop system_prompt first_turn messages w

def fmt_llama2 (chat : Chat) (w : Wbuf) : Wbuf := wb_char (llama2_loop chat.system_prompt true chat.messages w) 32

def fmt_llama3 (chat : Chat) (w : Wbuf) : Wbuf :=
  let w := wb_str w (text "<|begin_of_text|>")
  let w := match chat.system_prompt with
    | some prompt =>
      wb_str (wb_str (wb_str w (text "<|start_header_id|>system<|end_header_id|>\n\n")) prompt) (text "<|eot_id|>")
    | none => w
  let w := chat.messages.foldl (fun w m =>
    let w := wb_str w (text "<|start_header_id|>")
    let w := wb_str w (role_name m.role)
    let w := wb_str w (text "<|end_header_id|>\n\n")
    let w := wb_str w m.content
    wb_str w (text "<|eot_id|>")) w
  wb_str w (text "<|start_header_id|>assistant<|end_header_id|>\n\n")

def fmt_vicuna (chat : Chat) (w : Wbuf) : Wbuf :=
  let w := match chat.system_prompt with
    | some prompt => wb_str (wb_str w prompt) (text "\n\n")
    | none => w
  let w := chat.messages.foldl (fun w m =>
    if m.role = ROLE_USER then wb_char (wb_str (wb_str w (text "USER: ")) m.content) 10
    else if m.role = ROLE_ASSISTANT then wb_char (wb_str (wb_str w (text "ASSISTANT: ")) m.content) 10
    else w) w
  wb_str w (text "ASSISTANT:")

def fmt_alpaca (chat : Chat) (w : Wbuf) : Wbuf :=
  let w := match chat.system_prompt with
    | some prompt => wb_char (wb_str w prompt) 10
    | none => wb_str w (text
        "Below is an instruction that describes a task. Write a response that appropriately completes the request.\n")
  let w := chat.messages.foldl (fun w m =>
    if m.role = ROLE_USER then wb_str (wb_str w (text "\n### Instruction:\n")) m.content
    else if m.role = ROLE_ASSISTANT then wb_str (wb_str w (text "\n### Response:\n")) m.content
    else w) w
  wb_str w (text "\n### Response:\n")

def fmt_raw (chat : Chat) (w : Wbuf) : Wbuf :=
  let w := match chat.system_prompt with
    | some prompt => wb_str w prompt
    | none => w
  chat.messages.foldl (fun w m => wb_str w m.content) w

/-- What is returned, and the memory from the buffer on. -/
def llm_chat_format (chat : Chat) (buf : Nat → UInt8) (buf_sz : Int) : Int × (Nat → UInt8) :=
  let w := wb_init buf buf_sz
  let w :=
    if chat.tmpl = 0 then fmt_chatml chat w
    else if chat.tmpl = 1 then fmt_llama2 chat w
    else if chat.tmpl = 3 then fmt_llama2 chat w
    else if chat.tmpl = 2 then fmt_llama3 chat w
    else if chat.tmpl = 4 then fmt_vicuna chat w
    else if chat.tmpl = 5 then fmt_alpaca chat w
    else fmt_raw chat w
  (result w, (wb_finish w).buf)

/-! ## What was written -/

/-- The buffer after a text, as far as there is room for it. -/
def filled (buf : Nat → UInt8) (size : Nat) (s : Text) : Wbuf where
  buf i := if i < min s.length (size - 1) then s.getD i 0 else buf i
  cap := size
  pos := min s.length (size - 1)
  overflow := decide (size - 1 < s.length)

section
variable {buf : Nat → UInt8} {size : Nat} (hsize : 1 ≤ size)

theorem wb_init_filled (buf : Nat → UInt8) (size : Nat) : wb_init buf size = filled buf size [] := by
  have hpos : min ([] : Text).length (size - 1) = 0 := by simp
  rw [wb_init, filled, hpos]
  congr 1

@[simp] theorem overflow_filled {s : Text} : (filled buf size s).overflow = true ↔ size - 1 < s.length :=
    decide_eq_true_iff

theorem filled_of_overflow {s : Text} (h : size - 1 < s.length) (t : Text) : filled buf size
    (s ++ t) = filled buf size s := by
  have hpos : min (s ++ t).length (size - 1) = min s.length (size - 1) := by
    rw [length_append]
    omega
  have hover : size - 1 < (s ++ t).length := by
    rw [length_append]
    omega
  rw [filled, filled, hpos, decide_eq_true h, decide_eq_true hover]
  congr 1
  funext i
  by_cases hi : i < min s.length (size - 1)
  · rw [if_pos hi, if_pos hi, getD_eq_getElem?_getD, getD_eq_getElem?_getD, List.getElem?_append_left (by omega)]
  · rw [if_neg hi, if_neg hi]

theorem foldl_filled {body : Wbuf → Message → Wbuf} {piece : Message → Text}
    (h : ∀ s m, body (filled buf size s) m = filled buf size (s ++ piece m)) (s : Text) (messages : List Message) :
    messages.foldl body (filled buf size s) = filled buf size (s ++ messages.flatMap piece) := by
  induction messages generalizing s with
  | nil => rw [foldl_nil, flatMap_nil, append_nil]
  | cons m messages ih => rw [foldl_cons, h, ih, flatMap_cons, append_assoc]

include hsize

theorem wb_put_filled {s : Text} (h : ¬ size - 1 < s.length) (c : UInt8) :
    wb_put (filled buf size s) c = filled buf size (s ++ [c]) := by
  have hpos : min s.length (size - 1) = s.length := by omega
  have hlength : (s ++ [c]).length = s.length + 1 := by simp
  rw [wb_put]
  by_cases hfull : s.length = size - 1
  · have hpos' : min (s ++ [c]).length (size - 1) = s.length := by omega
    rw [if_pos (by rw [filled]; dsimp only; omega), filled, filled, hpos, hpos', hlength]
    congr 1
    · funext i
      dsimp only
      by_cases hi : i < s.length
      · rw [if_pos hi, if_pos hi, getD_eq_getElem?_getD, getD_eq_getElem?_getD, List.getElem?_append_left hi]
      · rw [if_neg hi, if_neg hi]
    · exact (decide_eq_true (by omega)).symm
  · have hpos' : min (s ++ [c]).length (size - 1) = s.length + 1 := by omega
    rw [if_neg (by rw [filled]; dsimp only; omega), filled, filled, hpos, hpos', hlength]
    congr 1
    · funext i
      by_cases hlast : i = s.length
      · rw [hlast, Function.update_self, if_pos (by omega), getD_eq_getElem?_getD,
          List.getElem?_append_right (le_refl _),
          Nat.sub_self]
        rfl
      · rw [Function.update_of_ne hlast]
        dsimp only
        by_cases hi : i < s.length
        · rw [if_pos hi, if_pos (by omega), getD_eq_getElem?_getD, getD_eq_getElem?_getD,
            List.getElem?_append_left hi]
        · rw [if_neg hi, if_neg (by omega)]
    · rw [decide_eq_false h, decide_eq_false (by omega)]

@[simp] theorem wb_char_filled (s : Text) (c : UInt8) : wb_char (filled buf size s) c = filled buf size (s ++ [c]) := by
  rw [wb_char]
  by_cases h : size - 1 < s.length
  · rw [if_pos (overflow_filled.mpr h), filled_of_overflow h]
  · rw [if_neg (mt overflow_filled.mp h), wb_put_filled hsize h]

@[simp] theorem wb_str_filled (s t : Text) : wb_str (filled buf size s) t = filled buf size (s ++ t) := by
  rw [wb_str]
  by_cases h : size - 1 < s.length
  · rw [if_pos (overflow_filled.mpr h), filled_of_overflow h]
  · rw [if_neg (mt overflow_filled.mp h)]
    induction t generalizing s with
    | nil => rw [str_loop, append_nil]
    | cons c t ih =>
      have hsplit : s ++ c :: t = (s ++ [c]) ++ t := by simp
      rw [str_loop, wb_put_filled hsize h, hsplit]
      by_cases hfull : size - 1 < (s ++ [c]).length
      · rw [if_pos (overflow_filled.mpr hfull), filled_of_overflow hfull]
      · rw [if_neg (mt overflow_filled.mp hfull), ih (s ++ [c]) hfull]

end

/-! ## Texts of the templates -/

theorem text_newline : text "\n" = [10] := by decide +kernel

theorem text_space : text " " = [32] := by decide +kernel

section
variable {buf : Nat → UInt8} {size : Nat} (hsize : 1 ≤ size) (chat : Chat) (s : Text)
include hsize

theorem fmt_chatml_filled : fmt_chatml chat (filled buf size s) = filled buf size (s ++ llm.fmt_chatml chat) := by
  have hmessages : ∀ s (messages : List Message), messages.foldl (fun w m =>
      wb_str (wb_str (wb_char (wb_str (wb_str w (text "<|im_start|>")) (role_name m.role)) 10) m.content)
        (text "<|im_end|>\n"))
      (filled buf size s) = filled buf size (s ++ messages.flatMap fun m =>
        text "<|im_start|>" ++ role_name m.role ++ text "\n" ++ m.content ++ text "<|im_end|>\n") :=
    foldl_filled fun s m => by
      simp only [wb_str_filled hsize, wb_char_filled hsize, text_newline, append_assoc]
  rw [fmt_chatml, llm.fmt_chatml]
  cases chat.system_prompt with
  | none =>
    dsimp only
    rw [hmessages, wb_str_filled hsize, nil_append, append_assoc]
  | some prompt =>
    dsimp only
    rw [wb_str_filled hsize, wb_str_filled hsize, wb_str_filled hsize, hmessages, wb_str_filled hsize]
    simp only [append_assoc]

theorem llama2_loop_filled (system_prompt : Option Text) (first_turn : Bool) (messages : List Message) :
    wb_char (llama2_loop system_prompt first_turn messages (filled buf size s)) 32 =
      filled buf size (s ++ llama2_messages system_prompt first_turn messages) := by
  induction messages generalizing first_turn s with
  | nil => rw [llama2_loop, wb_char_filled hsize, llama2_messages, text_space]
  | cons m messages ih =>
    rw [llama2_loop, llama2_messages.eq_def]
    dsimp only
    by_cases huser : m.role = ROLE_USER
    · rw [if_pos huser, if_pos huser]
      cases first_turn with
      | false =>
        simp only [Bool.false_eq_true, if_false, wb_str_filled hsize, ih, append_assoc]
      | true =>
        cases system_prompt with
        | none => simp only [if_true, wb_str_filled hsize, ih, append_assoc, nil_append]
        | some prompt => simp only [if_true, wb_str_filled hsize, ih, append_assoc]
    · rw [if_neg huser, if_neg huser]
      by_cases hassistant : m.role = ROLE_ASSISTANT
      · rw [if_pos hassistant, if_pos hassistant]
        simp only [wb_str_filled hsize, wb_char_filled hsize, ih, text_space, append_assoc]
      · rw [if_neg hassistant, if_neg hassistant, ih]

theorem fmt_llama3_filled : fmt_llama3 chat (filled buf size s) = filled buf size (s ++ llm.fmt_llama3 chat) := by
  have hmessages : ∀ s (messages : List Message), messages.foldl (fun w m =>
      wb_str (wb_str (wb_str (wb_str (wb_str w (text "<|start_header_id|>")) (role_name m.role))
        (text "<|end_header_id|>\n\n"))
        m.content) (text "<|eot_id|>"))
      (filled buf size s) = filled buf size (s ++ messages.flatMap fun m =>
        text "<|start_header_id|>" ++ role_name m.role ++ text "<|end_header_id|>\n\n" ++ m.content ++
            text "<|eot_id|>") :=
    foldl_filled fun s m => by simp only [wb_str_filled hsize, append_assoc]
  rw [fmt_llama3, llm.fmt_llama3]
  cases chat.system_prompt with
  | none =>
    dsimp only
    rw [wb_str_filled hsize, hmessages, wb_str_filled hsize]
    simp only [append_assoc, nil_append]
  | some prompt =>
    dsimp only
    rw [wb_str_filled hsize, wb_str_filled hsize, wb_str_filled hsize, wb_str_filled hsize, hmessages,
      wb_str_filled hsize]
    simp only [append_assoc]

theorem fmt_vicuna_filled : fmt_vicuna chat (filled buf size s) = filled buf size (s ++ llm.fmt_vicuna chat) := by
  have hmessages : ∀ s (messages : List Message), messages.foldl (fun w m =>
      if m.role = ROLE_USER then wb_char (wb_str (wb_str w (text "USER: ")) m.content) 10
      else if m.role = ROLE_ASSISTANT then wb_char (wb_str (wb_str w (text "ASSISTANT: ")) m.content) 10
      else w) (filled buf size s) = filled buf size (s ++ messages.flatMap fun m =>
        if m.role = ROLE_USER then text "USER: " ++ m.content ++ text "\n"
        else if m.role = ROLE_ASSISTANT then text "ASSISTANT: " ++ m.content ++ text "\n"
        else []) :=
    foldl_filled fun s m => by
      split_ifs <;>
        simp only [wb_str_filled hsize, wb_char_filled hsize, text_newline, append_assoc, append_nil]
  rw [fmt_vicuna, llm.fmt_vicuna]
  cases chat.system_prompt with
  | none =>
    dsimp only
    rw [hmessages, wb_str_filled hsize, nil_append, append_assoc]
  | some prompt =>
    dsimp only
    rw [wb_str_filled hsize, wb_str_filled hsize, hmessages, wb_str_filled hsize]
    simp only [append_assoc]

theorem fmt_alpaca_filled : fmt_alpaca chat (filled buf size s) = filled buf size (s ++ llm.fmt_alpaca chat) := by
  have hmessages : ∀ s (messages : List Message), messages.foldl (fun w m =>
      if m.role = ROLE_USER then wb_str (wb_str w (text "\n### Instruction:\n")) m.content
      else if m.role = ROLE_ASSISTANT then wb_str (wb_str w (text "\n### Response:\n")) m.content
      else w) (filled buf size s) = filled buf size (s ++ messages.flatMap fun m =>
        if m.role = ROLE_USER then text "\n### Instruction:\n" ++ m.content
        else if m.role = ROLE_ASSISTANT then text "\n### Response:\n" ++ m.content
        else []) :=
    foldl_filled fun s m => by
      split_ifs <;> simp only [wb_str_filled hsize, append_assoc, append_nil]
  rw [fmt_alpaca, llm.fmt_alpaca]
  cases chat.system_prompt with
  | none =>
    dsimp only
    rw [wb_str_filled hsize, hmessages, wb_str_filled hsize]
    simp only [append_assoc]
  | some prompt =>
    dsimp only
    rw [wb_str_filled hsize, wb_char_filled hsize, hmessages, wb_str_filled hsize, text_newline]
    simp only [append_assoc]

theorem fmt_raw_filled : fmt_raw chat (filled buf size s) = filled buf size (s ++ llm.fmt_raw chat) := by
  have hmessages : ∀ s (messages : List Message), messages.foldl (fun w m => wb_str w m.content) (filled buf size s) =
      filled buf size (s ++ messages.flatMap (·.content)) :=
    foldl_filled fun s m => wb_str_filled hsize s m.content
  rw [fmt_raw, llm.fmt_raw]
  cases chat.system_prompt with
  | none =>
    dsimp only
    rw [hmessages]
    rfl
  | some prompt =>
    dsimp only
    rw [wb_str_filled hsize, hmessages, append_assoc]
    rfl

theorem llm_chat_format_eq (buf : Nat → UInt8) :
    llm_chat_format chat buf size =
      (result (filled buf size (chat_text chat)), (wb_finish (filled buf size (chat_text chat))).buf) := by
  rw [llm_chat_format, chat_text, wb_init_filled]
  by_cases h0 : chat.tmpl = 0
  · rw [if_pos h0, if_pos h0, fmt_chatml_filled hsize, nil_append]
  rw [if_neg h0, if_neg h0]
  by_cases h1 : chat.tmpl = 1
  · rw [if_pos h1, if_pos (Or.inl h1), fmt_llama2, llama2_loop_filled hsize, nil_append]
    rfl
  rw [if_neg h1]
  by_cases h3 : chat.tmpl = 3
  · rw [if_pos h3, if_pos (Or.inr h3), fmt_llama2, llama2_loop_filled hsize, nil_append]
    rfl
  rw [if_neg h3, if_neg (not_or.mpr ⟨h1, h3⟩)]
  by_cases h2 : chat.tmpl = 2
  · rw [if_pos h2, if_pos h2, fmt_llama3_filled hsize, nil_append]
  rw [if_neg h2, if_neg h2]
  by_cases h4 : chat.tmpl = 4
  · rw [if_pos h4, if_pos h4, fmt_vicuna_filled hsize, nil_append]
  rw [if_neg h4, if_neg h4]
  by_cases h5 : chat.tmpl = 5
  · rw [if_pos h5, if_pos h5, fmt_alpaca_filled hsize, nil_append]
  · rw [if_neg h5, if_neg h5, fmt_raw_filled hsize, nil_append]

end

theorem wb_finish_filled (buf : Nat → UInt8) {size : Nat} (hsize : 1 ≤ size) (s : Text) (i : Nat) :
    (wb_finish (filled buf size s)).buf i =
      if i = min s.length (size - 1) then 0 else if i < min s.length (size - 1) then s.getD i 0 else buf i := by
  have hroom : ((filled buf size s).pos : Int) < (filled buf size s).cap := by
    rw [filled]
    dsimp only
    omega
  rw [wb_finish, if_pos hroom]
  by_cases hi : i = min s.length (size - 1)
  · rw [if_pos hi, hi]
    exact Function.update_self _ _ _
  · rw [if_neg hi]
    exact Function.update_of_ne hi _ _

/-- The call stays in the buffer and ends it with a NUL; it fails if and only if the text does not fit, and otherwise
the buffer holds the text. -/
theorem llm_chat_format_exact (chat : Chat) (buf : Nat → UInt8) (buf_sz : Nat) (hsize : 1 ≤ buf_sz) :
    (∀ i, buf_sz ≤ i → (llm_chat_format chat buf buf_sz).2 i = buf i) ∧
      (∃ i < buf_sz, (llm_chat_format chat buf buf_sz).2 i = 0) ∧
      ((llm_chat_format chat buf buf_sz).1 = -1 ↔ buf_sz - 1 < (chat_text chat).length) ∧
      ((chat_text chat).length ≤ buf_sz - 1 →
        (llm_chat_format chat buf buf_sz).1 = (chat_text chat).length ∧
          (∀ i < (chat_text chat).length, (llm_chat_format chat buf buf_sz).2 i = (chat_text chat).getD i 0) ∧
          (llm_chat_format chat buf buf_sz).2 (chat_text chat).length = 0) := by
  rw [llm_chat_format_eq hsize]
  dsimp only
  generalize chat_text chat = s
  have hbuf := wb_finish_filled buf hsize s
  have hresult : result (filled buf buf_sz s) = if buf_sz - 1 < s.length then -1
      else ((min s.length (buf_sz - 1) : Nat) : Int) := by
    rw [result, filled]
    simp only [decide_eq_true_eq]
  refine ⟨fun i hi => ?_, ⟨min s.length (buf_sz - 1), by omega, ?_⟩, ?_, fun hfits => ⟨?_, fun i hi => ?_, ?_⟩⟩
  · rw [hbuf, if_neg (by omega), if_neg (by omega)]
  · rw [hbuf, if_pos rfl]
  · rw [hresult]
    by_cases hover : buf_sz - 1 < s.length
    · rw [if_pos hover]
      exact iff_of_true rfl hover
    · rw [if_neg hover]
      exact iff_of_false (by omega) hover
  · rw [hresult, if_neg (by omega), Nat.min_eq_left hfits]
  · rw [hbuf, if_neg (by omega), if_pos (by omega)]
  · rw [hbuf, if_pos (by omega)]

theorem llm_chat_format_refines (chat : Chat) (buf : Nat → UInt8) {buf_sz : Nat} (hsize : 1 ≤ buf_sz) :
    llm.llm_chat_format chat buf_sz =
      if (llm_chat_format chat buf buf_sz).1 = -1 then none
      else some ((List.range (llm_chat_format chat buf buf_sz).1.toNat).map (llm_chat_format chat buf buf_sz).2) := by
  rw [llm.llm_chat_format, llm_chat_format_eq hsize]
  dsimp only
  generalize chat_text chat = s
  by_cases hfits : s.length ≤ buf_sz - 1
  · have hresult : result (filled buf buf_sz s) = (s.length : Int) := by
      rw [result, if_neg (mt overflow_filled.mp (by omega)), filled]
      dsimp only
      omega
    rw [if_pos hfits, hresult, if_neg (by omega), Int.toNat_natCast]
    congr 1
    refine ext_getElem (by simp) fun i hi hi' => ?_
    rw [getElem_map, getElem_range, wb_finish_filled buf hsize, if_neg (by omega), if_pos (by omega),
      getD_eq_getElem?_getD, List.getElem?_eq_getElem hi]
    rfl
  · rw [if_neg hfits, result, if_pos (overflow_filled.mpr (by omega)), if_pos rfl]

end graceos.llm.wbuf
