import GraceOS.Llm.Chat
import GraceOS.Llm.Gguf
import Mathlib.Data.List.Basic
import Mathlib.Data.List.GetD

/-!
# Tokens and their texts

`llm_tokenize` without the first token, with the ids as the `int32_t` that they are stored in, and `llm_detokenize`.
Each token is the longest entry at its place, and the texts of the tokens are the text, while ids are not negative.
-/

namespace graceos.llm

open List

def LLM_MATCH_MAX : Nat := 32

/-- `(llama_token)id`. -/
def llama_token (id : Int) : Int := id.bmod (2 ^ 32)

/-- `llm_tokenize` with `add_bos` 0. -/
def llm_tokenize_text (m : Model) (s : Text) (max_tokens : Nat) : List Int :=
  (tokenize_loop m s.length s max_tokens).map llama_token

/-- The entry is the longest one at the front of the text that the search looks for. -/
structure Longest (m : Model) (e s : Text) : Prop where
  mem : e ∈ m.vocab
  nonempty : e ≠ []
  short : e.length ≤ LLM_MATCH_MAX
  front : e <+: s
  longest : ∀ e' ∈ m.vocab, e'.length ≤ LLM_MATCH_MAX → e' <+: s → e'.length ≤ e.length

/-- Each token is the index of the longest entry at its place, and the tokens reach the end of the text. -/
inductive Greedy (m : Model) : List Int → Text → Prop
  | nil : Greedy m [] []
  | cons {id : Nat} {e s : Text} {toks : List Int} (hid : m.vocab[id]? = some e) (hlongest : Longest m e s)
      (hrest : Greedy m toks (s.drop e.length)) : Greedy m (id :: toks) s

/-! ## The search -/

section Search

variable {m : Model} {s : Text}

theorem find_merge_some {id : Nat} (h : find_merge m s = some id) : m.vocab[id]? = some s := by
  obtain ⟨hlt, heq, -⟩ := List.findIdx?_eq_some_iff_getElem.mp h
  rw [List.getElem?_eq_getElem hlt, beq_iff_eq.mp heq]

theorem find_merge_none (h : find_merge m s = none) : s ∉ m.vocab := by
  intro hmem
  have hall := List.findIdx?_eq_none_iff.mp h s hmem
  rw [beq_self_eq_true] at hall
  cases hall

/-- The loop over the lengths keeps the last one that some entry has. -/
theorem longest_fold (m : Model) (s : Text) (n : Nat) :
    (∀ l < n, find_merge m (s.take (l + 1)) = none) ∧
      (List.range n).foldl (fun best l =>
        match find_merge m (s.take (l + 1)) with
        | some id => some (id, l + 1)
        | none => best) none = none ∨
    ∃ l < n, ∃ id, find_merge m (s.take (l + 1)) = some id ∧
      (∀ l', l < l' → l' < n → find_merge m (s.take (l' + 1)) = none) ∧
      (List.range n).foldl (fun best l =>
        match find_merge m (s.take (l + 1)) with
        | some id => some (id, l + 1)
        | none => best) none = some (id, l + 1) := by
  induction n with
  | zero => exact .inl ⟨fun l hl => absurd hl (Nat.not_lt_zero l), rfl⟩
  | succ n ih =>
    rw [range_succ, foldl_append, foldl_cons, foldl_nil]
    cases hfind : find_merge m (s.take (n + 1)) with
    | some id =>
      exact .inr ⟨n, Nat.lt_succ_self n, id, hfind, fun l' hl hl' => absurd hl' (by omega), rfl⟩
    | none =>
      obtain ⟨hnone, hfold⟩ | ⟨l, hl, id, hid, hlater, hfold⟩ := ih
      · refine .inl ⟨fun l hl => ?_, hfold⟩
        obtain hlt | rfl := Nat.lt_succ_iff_lt_or_eq.mp hl
        · exact hnone l hlt
        · exact hfind
      · refine .inr ⟨l, Nat.lt_succ_of_lt hl, id, hid, fun l' hgt hlt => ?_, hfold⟩
        obtain hlt' | rfl := Nat.lt_succ_iff_lt_or_eq.mp hlt
        · exact hlater l' hgt hlt'
        · exact hfind

theorem next_token_longest {c : UInt8} (hbyte : [c] ∈ m.vocab) : ∃ (id : Nat) (e : Text), m.vocab[id]? = some e ∧
    Longest m e (c :: s) ∧ next_token m c s = ((id : Int), e.length) := by
  obtain ⟨hnone, -⟩ | ⟨l, hl, id, hid, hlater, hfold⟩ := longest_fold m (c :: s) (min 32 (c :: s).length)
  · have hfirst := hnone 0 (by rw [length_cons]; omega)
    exact absurd hbyte (find_merge_none hfirst)
  · have hlen : ((c :: s).take (l + 1)).length = l + 1 := by
      rw [length_take]
      omega
    have hentry := find_merge_some hid
    have hmatch : longest_match m (c :: s) = some (id, l + 1) := hfold
    refine ⟨id, (c :: s).take (l + 1), hentry, ⟨mem_of_getElem? hentry, ?_, ?_, take_prefix _ _, ?_⟩, ?_⟩
    · exact ne_nil_of_length_pos (by omega)
    · rw [hlen, LLM_MATCH_MAX]
      omega
    · intro e' he' hshort hfront
      rw [hlen]
      by_contra hgt
      have hle := hfront.length_le
      have hnone := hlater (e'.length - 1) (by omega) (by rw [LLM_MATCH_MAX] at hshort; omega)
      rw [Nat.sub_add_cancel (by omega), ← List.prefix_iff_eq_take.mp hfront] at hnone
      exact find_merge_none hnone he'
    · rw [next_token, hmatch, hlen]

theorem tokenize_loop_greedy {fuel room : Nat} (hbytes : ∀ c ∈ s, [c] ∈ m.vocab) (hfuel : s.length ≤ fuel)
    (hroom : s.length ≤ room) : Greedy m (tokenize_loop m fuel s room) s := by
  induction fuel generalizing s room with
  | zero =>
    obtain rfl : s = [] := List.length_eq_zero_iff.mp (by omega)
    exact .nil
  | succ fuel ih =>
    cases s with
    | nil =>
      rw [tokenize_loop]
      exact .nil
    | cons c s =>
      cases room with
      | zero => exact absurd hroom (by simp)
      | succ room =>
        obtain ⟨id, e, hid, hlongest, hnext⟩ := @next_token_longest m s c (hbytes c mem_cons_self)
        have hpos := List.length_pos_iff.mpr hlongest.nonempty
        rw [length_cons] at hfuel hroom
        rw [tokenize_loop, hnext]
        refine .cons hid hlongest (ih ?_ ?_ ?_)
        · exact fun c' hc' => hbytes c' (mem_of_mem_drop hc')
        · rw [length_drop, length_cons]
          omega
        · rw [length_drop, length_cons]
          omega

/-! ## The texts of the tokens -/

theorem llama_token_eq {id : Nat} (hid : id < 2 ^ 31) : llama_token id = id := by
  unfold llama_token
  rw [Int.bmod_def]
  omega

theorem Greedy.valid {toks : List Int} (h : Greedy m toks s) : ∀ tok ∈ toks, 0 ≤ tok ∧ tok < m.vocab.length := by
  induction h with
  | nil => exact fun tok htok => absurd htok (by simp)
  | cons hid _ _ ih =>
    have hlt := (List.getElem?_eq_some_iff.mp hid).1
    exact List.forall_mem_cons.mpr ⟨⟨by omega, by omega⟩, ih⟩

theorem Greedy.stored {toks : List Int} (h : Greedy m toks s) (hvocab : m.vocab.length ≤ 2 ^ 31) :
    toks.map llama_token = toks := by
  refine (map_congr_left fun tok htok => ?_).trans (map_id toks)
  obtain ⟨hge, hlt⟩ := h.valid tok htok
  obtain ⟨id, rfl⟩ := Int.eq_ofNat_of_zero_le hge
  exact llama_token_eq (by omega)

theorem llm_detokenize_eq {id : Nat} {e : Text} (hid : m.vocab[id]? = some e) (hshort : e.length < LLM_TOKEN_STR_MAX) :
    llm_detokenize m id 64 = some e := by
  have hlt := (List.getElem?_eq_some_iff.mp hid).1
  have hentry : m.vocab.getD id [] = e := by rw [getD_eq_getElem?_getD, hid, Option.getD_some]
  have hall : e.take ((64 : UInt64) - 1).toNat = e := take_of_length_le (by
    rw [LLM_TOKEN_STR_MAX] at hshort
    exact Nat.le_of_lt_succ hshort)
  rw [llm_detokenize, if_neg (by omega), Int.toNat_natCast, hentry, hall]

theorem Greedy.lossless {toks : List Int} (h : Greedy m toks s)
    (hentries : ∀ e ∈ m.vocab, e.length < LLM_TOKEN_STR_MAX) :
    toks.flatMap (fun tok => (llm_detokenize m tok 64).getD []) = s := by
  induction h with
  | nil => rfl
  | cons hid hlongest _ ih =>
    obtain ⟨rest, hrest⟩ := hlongest.front
    rw [flatMap_cons, llm_detokenize_eq hid (hentries _ hlongest.mem), Option.getD_some, ih, ← hrest,
      drop_left]

end Search

/-- Tokens of a vocabulary of at most `2 ^ 31` entries are the longest ones, and their texts are the text. -/
theorem tokenize_greedy_lossless (m : Model) (s : Text) (max_tokens : Nat) (hvocab : m.vocab.length ≤ 2 ^ 31)
    (hentries : ∀ e ∈ m.vocab, e.length < LLM_TOKEN_STR_MAX)
    (hbytes : ∀ c ∈ s, [c] ∈ m.vocab) (hroom : s.length ≤ max_tokens) :
    (∀ tok ∈ llm_tokenize_text m s max_tokens, 0 ≤ tok ∧ tok < m.vocab.length) ∧
    (llm_tokenize_text m s max_tokens).flatMap (fun tok => (llm_detokenize m tok 64).getD []) = s ∧
    Greedy m (llm_tokenize_text m s max_tokens) s := by
  have hgreedy := tokenize_loop_greedy hbytes le_rfl hroom
  have hstored := hgreedy.stored hvocab
  rw [llm_tokenize_text, hstored]
  exact ⟨hgreedy.valid, hgreedy.lossless hentries, hgreedy⟩

/-- A model with default parameters and a vocabulary. -/
def vocab_model (vocab : List Text) : Model :=
  { hp := llm_model_hparams fun _ value => value, tensors := fun _ _ => true, vocab, bos_id := 1, eos_id := 2 }

/-- Two entries of which one is the front of the other, an empty entry and a duplicate. -/
theorem tokenize_greedy_lossless_three :
    (llm_tokenize_text (vocab_model [[], [97], [97, 98], [98], [97]]) [97, 98, 97] 3).flatMap
      (fun tok => (llm_detokenize (vocab_model [[], [97], [97, 98], [98], [97]]) tok 64).getD []) = [97, 98, 97] :=
  (tokenize_greedy_lossless (vocab_model [[], [97], [97, 98], [98], [97]]) [97, 98, 97] 3 (by decide +kernel)
    (by decide +kernel) (by decide +kernel) (by decide +kernel)).2.1

theorem longest_match_byte (m : Model) (c : UInt8) :
    longest_match m [c] = (find_merge m [c]).map fun id => (id, 1) := by
  change (match find_merge m [c] with
    | some id => some (id, 0 + 1)
    | none => none) = _
  cases find_merge m [c] <;> rfl

/-- Behind `2 ^ 31` entries the id of a token is negative. -/
def large_vocab : List Text := List.replicate (2 ^ 31) [] ++ [[97]]

theorem find_merge_large : find_merge (vocab_model large_vocab) [97] = some (2 ^ 31) := by
  change (List.replicate (2 ^ 31) ([] : Text) ++ [[97]]).findIdx? (· == [97]) = some (2 ^ 31)
  rw [List.findIdx?_append, List.findIdx?_replicate, if_neg (by decide), length_replicate]
  rfl

/-- The only byte of a text is a token, and what is stored for it is not one. -/
theorem large_vocab_negative : [97] ∈ large_vocab ∧ (∀ e ∈ large_vocab, e.length < LLM_TOKEN_STR_MAX) ∧
    llm_tokenize_text (vocab_model large_vocab) [97] 1 = [-2147483648] := by
  refine ⟨mem_append_right _ (mem_singleton_self _), fun e he => ?_, ?_⟩
  · obtain he | he := List.mem_append.mp he
    · rw [eq_of_mem_replicate he]
      decide
    · rw [List.mem_singleton.mp he]
      decide
  · have hmatch : longest_match (vocab_model large_vocab) [97] = some (2 ^ 31, 1) := by
      rw [longest_match_byte, find_merge_large]
      rfl
    have hnext : next_token (vocab_model large_vocab) 97 [] = (((2 ^ 31 : Nat) : Int), 1) := by
      rw [next_token, hmatch]
    rw [llm_tokenize_text, length_singleton, tokenize_loop, hnext, tokenize_loop]
    decide

end graceos.llm
