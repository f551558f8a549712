import GraceOS.Llm.ChatBuffer
import Mathlib.Algebra.Order.BigOperators.Group.List

/-!
# Messages without a place

`llm_chat_format` is to format all messages of a chat. Some templates have markers for the user and the assistant only,
and one puts the prompt into the first turn of a user: what they have no place for is dropped.
-/

namespace graceos.llm.wbuf

open List

/-- A message that is neither the user's nor the assistant's. -/
def unplaced (m : Message) : Bool := m.role ≠ ROLE_USER && m.role ≠ ROLE_ASSISTANT

/-- The texts of a chat that its template has no place for, in order. -/
def dropped (chat : Chat) : List Text :=
  let system := (chat.messages.filter unplaced).map (·.content)
  if chat.tmpl = 1 ∨ chat.tmpl = 3 then
    (if chat.messages.any (·.role = ROLE_USER) then [] else chat.system_prompt.toList) ++ system
  else if chat.tmpl = 4 ∨ chat.tmpl = 5 then system
  else []

/-! ## The full text -/

section Full

-- how a text is written that the template has no markers for
variable (place : Text → Text)

def llama2_full (system_prompt : Option Text) (first_turn : Bool) : List Message → Text
  | [] => text " "
  | m :: messages =>
    if m.role = ROLE_USER then
      (if first_turn then
        text "<s>[INST] " ++
        (match system_prompt with
          | some prompt => text "<<SYS>>\n" ++ prompt ++ text "\n<</SYS>>\n\n"
          | none => []) ++ m.content ++ text " [/INST]"
      else text " <s>[INST] " ++ m.content ++ text " [/INST]") ++ llama2_full system_prompt false messages
    else if m.role = ROLE_ASSISTANT then
      text " " ++ m.content ++ text " </s>" ++ llama2_full system_prompt first_turn messages
    else place m.content ++ llama2_full system_prompt first_turn messages

def vicuna_full (chat : Chat) : Text :=
  (match chat.system_prompt with
    | some prompt => prompt ++ text "\n\n"
    | none => []) ++
  (chat.messages.flatMap fun m =>
    if m.role = ROLE_USER then text "USER: " ++ m.content ++ text "\n"
    else if m.role = ROLE_ASSISTANT then text "ASSISTANT: " ++ m.content ++ text "\n"
    else place m.content) ++
  text "ASSISTANT:"

def alpaca_full (chat : Chat) : Text :=
  (match chat.system_prompt with
    | some prompt => prompt ++ text "\n"
    | none => text
      "Below is an instruction that describes a task. Write a response that appropriately completes the request.\n") ++
  (chat.messages.flatMap fun m =>
    if m.role = ROLE_USER then text "\n### Instruction:\n" ++ m.content
    else if m.role = ROLE_ASSISTANT then text "\n### Response:\n" ++ m.content
    else place m.content) ++
  text "\n### Response:\n"

/-- The text of a chat with its prompt and all its messages, in order. -/
def full_text (chat : Chat) : Text :=
  if chat.tmpl = 0 then llm.fmt_chatml chat
  else if chat.tmpl = 1 ∨ chat.tmpl = 3 then
    ((if chat.messages.any (·.role = ROLE_USER) then [] else chat.system_prompt.toList).flatMap place) ++
      llama2_full place chat.system_prompt true chat.messages
  else if chat.tmpl = 2 then llm.fmt_llama3 chat
  else if chat.tmpl = 4 then vicuna_full place chat
  else if chat.tmpl = 5 then alpaca_full place chat
  else llm.fmt_raw chat

end Full

/-! ## What is missing -/

variable {place : Text → Text}

/-- `s` has the length of the full text of a template without the texts `cs`, and is that text where nothing is
missing. -/
structure Lacks (place : Text → Text) (full s : Text) (cs : List Text) : Prop where
  length : full.length = s.length + (cs.map fun c => (place c).length).sum
  same : (∀ c ∈ cs, place c = []) → full = s

theorem Lacks.refl (s : Text) : Lacks place s s [] := ⟨by simp, fun _ => rfl⟩

theorem Lacks.append {full full' s s' : Text} {cs cs' : List Text} (h : Lacks place full s cs)
    (h' : Lacks place full' s' cs') : Lacks place (full ++ full') (s ++ s') (cs ++ cs') := by
  constructor
  · rw [length_append, length_append, h.length, h'.length, map_append, sum_append]
    omega
  · intro hnone
    rw [h.same fun c hc => hnone c (mem_append_left _ hc), h'.same fun c hc => hnone c (mem_append_right _ hc)]

theorem Lacks.around {full s : Text} {cs : List Text} (h : Lacks place full s cs) (front back : Text) :
    Lacks place (front ++ full ++ back) (front ++ s ++ back) cs := by
  have hboth := ((Lacks.refl front).append h).append (Lacks.refl back)
  rwa [nil_append, append_nil] at hboth

theorem Lacks.placed (cs : List Text) : Lacks place (cs.flatMap place) [] cs := by
  constructor
  · rw [length_flatMap, length_nil, Nat.zero_add]
  · intro hnone
    rw [flatMap_eq_nil_iff]
    exact hnone

theorem Lacks.messages {piece full : Message → Text}
    (hplaced : ∀ m, unplaced m = false → full m = piece m)
    (hunplaced : ∀ m, unplaced m = true → full m = place m.content ∧ piece m = []) (messages : List Message) :
    Lacks place (messages.flatMap full) (messages.flatMap piece) ((messages.filter unplaced).map (·.content)) := by
  induction messages with
  | nil => exact .refl []
  | cons m messages ih =>
    rw [flatMap_cons, flatMap_cons]
    cases hm : unplaced m with
    | false =>
      rw [filter_cons_of_neg (by simp [hm]), hplaced m hm]
      exact (Lacks.refl (piece m)).append ih
    | true =>
      obtain ⟨hfull, hpiece⟩ := hunplaced m hm
      rw [filter_cons_of_pos hm, map_cons, hfull, hpiece]
      have hone := @Lacks.placed place [m.content]
      rw [flatMap_singleton] at hone
      exact hone.append ih

theorem unplaced_iff {m : Message} : unplaced m = true ↔ m.role ≠ ROLE_USER ∧ m.role ≠ ROLE_ASSISTANT := by
  simp [unplaced]

theorem not_unplaced_iff {m : Message} : unplaced m = false ↔ m.role = ROLE_USER ∨ m.role = ROLE_ASSISTANT := by
  rw [← Bool.not_eq_true, unplaced_iff]
  tauto

/-- A template that writes nothing for a message that is neither the user's nor the assistant's. -/
theorem Lacks.turns (user assistant : Message → Text) (messages : List Message) :
    Lacks place
      (messages.flatMap fun m =>
        if m.role = ROLE_USER then user m else if m.role = ROLE_ASSISTANT then assistant m else place m.content)
      (messages.flatMap fun m =>
        if m.role = ROLE_USER then user m else if m.role = ROLE_ASSISTANT then assistant m else [])
      ((messages.filter unplaced).map (·.content)) := by
  refine Lacks.messages (fun m hm => ?_) (fun m hm => ?_) messages
  · rcases not_unplaced_iff.mp hm with huser | hassistant
    · rw [if_pos huser, if_pos huser]
    · rw [if_pos hassistant, if_pos hassistant]
  · obtain ⟨huser, hassistant⟩ := unplaced_iff.mp hm
    rw [if_neg huser, if_neg huser, if_neg hassistant, if_neg hassistant]
    exact ⟨rfl, rfl⟩

theorem llama2_full_lacks (system_prompt : Option Text) (first_turn : Bool) (messages : List Message) :
    Lacks place (llama2_full place system_prompt first_turn messages)
      (llama2_messages system_prompt first_turn messages)
      ((messages.filter unplaced).map (·.content)) := by
  induction messages generalizing first_turn with
  | nil => exact .refl _
  | cons m messages ih =>
    rw [llama2_full.eq_def, llama2_messages.eq_def]
    dsimp only
    by_cases huser : m.role = ROLE_USER
    · rw [if_pos huser, if_pos huser, filter_cons_of_neg (by simp [unplaced, huser])]
      exact (Lacks.refl _).append (ih false)
    rw [if_neg huser, if_neg huser]
    by_cases hassistant : m.role = ROLE_ASSISTANT
    · rw [if_pos hassistant, if_pos hassistant, filter_cons_of_neg (by simp [unplaced, hassistant])]
      exact (Lacks.refl _).append (ih first_turn)
    · rw [if_neg hassistant, if_neg hassistant, filter_cons_of_pos (unplaced_iff.mpr ⟨huser, hassistant⟩), map_cons]
      have hone := (@Lacks.placed place [m.content]).append (ih first_turn)
      rwa [flatMap_singleton, nil_append] at hone

/-- What the full text has and the text of the code lacks is what the template drops. -/
theorem full_text_lacks (chat : Chat) : Lacks place (full_text place chat) (chat_text chat) (dropped chat) := by
  rw [full_text, chat_text, dropped]
  by_cases hllama : chat.tmpl = 1 ∨ chat.tmpl = 3
  · have h0 : chat.tmpl ≠ 0 := by omega
    rw [if_neg h0, if_neg h0, if_pos hllama, if_pos hllama, if_pos hllama, llm.fmt_llama2]
    exact (Lacks.placed _).append (llama2_full_lacks _ _ _)
  rw [if_neg hllama, if_neg hllama, if_neg hllama]
  by_cases hvicuna : chat.tmpl = 4
  · have h0 : chat.tmpl ≠ 0 := by omega
    have h2 : chat.tmpl ≠ 2 := by omega
    rw [if_neg h0, if_neg h0, if_neg h2, if_neg h2, if_pos hvicuna, if_pos hvicuna, if_pos (.inl hvicuna), vicuna_full,
      llm.fmt_vicuna]
    exact (Lacks.turns _ _ chat.messages).around _ _
  by_cases halpaca : chat.tmpl = 5
  · have h0 : chat.tmpl ≠ 0 := by omega
    have h2 : chat.tmpl ≠ 2 := by omega
    rw [if_neg h0, if_neg h0, if_neg h2, if_neg h2, if_neg hvicuna, if_neg hvicuna, if_pos halpaca, if_pos halpaca,
      if_pos (.inr halpaca), alpaca_full, llm.fmt_alpaca]
    exact (Lacks.turns _ _ chat.messages).around _ _
  · rw [if_neg (by omega : ¬ (chat.tmpl = 4 ∨ chat.tmpl = 5)), if_neg hvicuna, if_neg hvicuna, if_neg halpaca,
      if_neg halpaca]
    exact .refl _

/-! ## Exact or refused -/

/-- The call writes the text to the buffer, and only there, or refuses it because it does not fit. -/
structure Exact (full : Text) (chat : Chat) (buf : Nat → UInt8) (buf_sz : Nat) : Prop where
  inside : ∀ i, buf_sz ≤ i → (llm_chat_format chat buf buf_sz).2 i = buf i
  ended : ∃ i < buf_sz, (llm_chat_format chat buf buf_sz).2 i = 0
  refused : (llm_chat_format chat buf buf_sz).1 = -1 ↔ buf_sz - 1 < full.length
  held : full.length ≤ buf_sz - 1 → (llm_chat_format chat buf buf_sz).1 = full.length ∧
    (∀ i < full.length, (llm_chat_format chat buf buf_sz).2 i = full.getD i 0) ∧
    (llm_chat_format chat buf buf_sz).2 full.length = 0

theorem exact_chat_text (chat : Chat) (buf : Nat → UInt8) {buf_sz : Nat} (hsize : 1 ≤ buf_sz) :
    Exact (chat_text chat) chat buf buf_sz := by
  obtain ⟨hinside, hended, hrefused, hheld⟩ := llm_chat_format_exact chat buf buf_sz hsize
  exact ⟨hinside, hended, hrefused, hheld⟩

/-- However the texts are written that a template has no markers for: the call is exact about the full text if and only
if the texts it drops are empty, or what it does not drop is too long already. -/
theorem llm_chat_format_full_iff (chat : Chat) (buf : Nat → UInt8) (buf_sz : Nat) (hsize : 1 ≤ buf_sz) :
    (∃ place : Text → Text, (∀ c, c <:+: place c) ∧ Exact (full_text place chat) chat buf buf_sz) ↔
      (∀ c ∈ dropped chat, c = []) ∨ buf_sz - 1 < (chat_text chat).length := by
  have hcode := exact_chat_text chat buf hsize
  constructor
  · rintro ⟨place, hplace, hexact⟩
    rw [or_iff_not_imp_right, not_lt]
    intro hfits c hc
    have hret := (hcode.held hfits).1
    have hfull : (full_text place chat).length ≤ buf_sz - 1 := by
      by_contra hover
      rw [hexact.refused.mpr (by omega)] at hret
      omega
    have hsame := hret.symm.trans (hexact.held hfull).1
    -- the full text is no longer, so that nothing is missing
    have hlength := (@full_text_lacks place chat).length
    have hle : (place c).length ≤ ((dropped chat).map fun c => (place c).length).sum :=
      single_le_sum (by simp) _ (mem_map_of_mem hc)
    have hshort := (hplace c).length_le
    exact List.length_eq_zero_iff.mp (by omega)
  · intro hcond
    refine ⟨id, fun c => infix_rfl, ?_⟩
    have hlacks := @full_text_lacks id chat
    rcases hcond with hempty | hover
    · rw [hlacks.same hempty]
      exact hcode
    · have hfull : buf_sz - 1 < (full_text id chat).length := by
        rw [hlacks.length]
        omega
      exact ⟨hcode.inside, hcode.ended, iff_of_true (hcode.refused.mpr hover) hfull, fun h => absurd h (by omega)⟩

/-- A chat with a message of the system, and the prompt in front of it. -/
def pirate_chat (tmpl : Int) : Chat :=
  { tmpl, messages := [⟨0, text "You are a pirate."⟩, ⟨ROLE_USER, text "Hi"⟩], system_prompt := some (text "Be kind.") }

/-- The Llama-3 template has a place for all of them. -/
theorem llm_chat_format_full_llama3 : ∃ place : Text → Text, (∀ c, c <:+: place c) ∧
    Exact (full_text place (pirate_chat 2)) (pirate_chat 2) (fun _ => 7) 512 :=
  (llm_chat_format_full_iff (pirate_chat 2) (fun _ => 7) 512 (by decide)).mpr (.inl (by decide +kernel))

/-- The Vicuna template has none for the message of the system. -/
theorem llm_chat_format_drops : ¬ ∀ (chat : Chat) (buf : Nat → UInt8) (buf_sz : Nat), 1 ≤ buf_sz →
    ∃ place : Text → Text, (∀ c, c <:+: place c) ∧ Exact (full_text place chat) chat buf buf_sz := by
  intro hclaim
  rcases (llm_chat_format_full_iff (pirate_chat 4) (fun _ => 7) 512 (by decide)).mp
    (hclaim (pirate_chat 4) (fun _ => 7) 512 (by decide)) with hempty | hover
  · exact absurd (hempty (text "You are a pirate.") (by decide +kernel)) (by decide +kernel)
  · exact absurd hover (by decide +kernel)

end graceos.llm.wbuf
