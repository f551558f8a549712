import GraceOS.Chivm.Interp
import Mathlib.Data.List.TakeWhile
import Mathlib.Data.List.Infix

/-!
# What a scanner goes over

The two scanners of `chivm.c`, which look for a closing bracket, as single steps over a text. Whatever a parser takes
from the front of a text, a scanner goes over at any depth.
-/

namespace graceos.chivm

open exec word List

/-- The brackets that a scanner counts, and whether it knows comments. -/
structure Scanner where
  opening : UInt8
  closing : UInt8
  comments : Bool

/-- The scanner of `skip_to_close_paren`. -/
def parens : Scanner := ⟨'('.toUInt8, ')'.toUInt8, false⟩

/-- The scanner of `skip_block_body`. -/
def braces : Scanner := ⟨'{'.toUInt8, '}'.toUInt8, true⟩

namespace Scanner

/-- One turn of the loop; it ends at the terminator and at the bracket that closes. -/
def next (sc : Scanner) (depth : Nat) (p : Text) : Option (Nat × Text) :=
  if peek p 0 = 0 then none
  else if peek p 0 = '"'.toUInt8 then some (depth, skip_string (p.drop 1))
  else if peek p 0 = '\''.toUInt8 then some (depth, skip_char (p.drop 1))
  else if sc.comments ∧ peek p 0 = '/'.toUInt8 ∧ peek p 1 = '/'.toUInt8 then
    some (depth, p.dropWhile fun c => c != 0 && c != '\n'.toUInt8)
  else if peek p 0 = sc.opening then some (depth + 1, p.drop 1)
  else if peek p 0 = sc.closing then
    match depth with
    | 0 => none
    | depth + 1 => some (depth, p.drop 1)
  else some (depth, p.drop 1)

/-- A character that is nothing but itself to the scanner. -/
def plain (sc : Scanner) (c : UInt8) : Bool :=
  c ≠ 0 ∧ c ≠ '"'.toUInt8 ∧ c ≠ '\''.toUInt8 ∧ c ≠ '/'.toUInt8 ∧ c ≠ sc.opening ∧ c ≠ sc.closing

end Scanner

/-- The scanner comes from one place to another. -/
inductive Passes (sc : Scanner) : Nat → Text → Nat → Text → Prop
  | refl {depth : Nat} {p : Text} : Passes sc depth p depth p
  | step {depth depth' e : Nat} {p p' q : Text} (hnext : sc.next depth p = some (depth', p'))
      (hrest : Passes sc depth' p' e q) : Passes sc depth p e q

/-- From wherever the scanner is at `p`, it comes to `q` without another bracket open or closed. -/
def Over (sc : Scanner) (p q : Text) : Prop := ∀ depth, Passes sc depth p depth q

variable {sc : Scanner} {depth depth' e e' fuel : Nat} {p p' q r : Text}

/-! ## Steps -/

@[simp] theorem peek_nil (k : Nat) : peek [] k = 0 := rfl

@[simp] theorem peek_cons_zero (c : UInt8) (p : Text) : peek (c :: p) 0 = c := rfl

@[simp] theorem peek_cons_succ (c : UInt8) (p : Text) (k : Nat) : peek (c :: p) (k + 1) = peek p k := rfl

theorem peek_drop (p : Text) (j k : Nat) : peek (p.drop j) k = peek p (j + k) := by
  rw [peek, peek, getD_eq_getElem?_getD, getD_eq_getElem?_getD, List.getElem?_drop]

theorem exists_cons_of_peek {c : UInt8} (h : peek p 0 = c) (hc : c ≠ 0) : ∃ l, p = c :: l := by
  cases p with
  | nil => exact absurd h.symm hc
  | cons d l => exact ⟨l, by rw [← h, peek_cons_zero]⟩

theorem skip_string_suffix (p : Text) : skip_string p <:+ p := by
  fun_induction skip_string p with
  | case1 => exact suffix_rfl
  | case2 => exact suffix_rfl
  | case3 => exact suffix_cons _ _
  | case4 => exact nil_suffix
  | case5 _ _ _ _ _ ih => exact ih.trans ((suffix_cons _ _).trans (suffix_cons _ _))
  | case6 => exact suffix_cons _ _
  | case7 _ _ _ _ _ ih => exact ih.trans (suffix_cons _ _)

example : skip_string (ascii "a\" b") = ascii " b" := by decide +kernel

theorem skip_char_suffix (p : Text) : skip_char p <:+ p := by
  have hdrop {b : Prop} [Decidable b] {l : Text} : (if b then l.drop 1 else l) <:+ l := by
    split
    · exact drop_suffix 1 l
    · exact suffix_rfl
  unfold skip_char
  exact hdrop.trans (hdrop.trans hdrop)

/-- A step goes forward in the text. -/
theorem next_suffix (h : sc.next depth p = some (depth', p')) : ∃ c l, p = c :: l ∧ p' <:+ l := by
  unfold Scanner.next at h
  split at h
  · cases h
  next hzero =>
  obtain ⟨l, hl⟩ := exists_cons_of_peek rfl hzero
  refine ⟨_, l, hl, ?_⟩
  have hdrop : p.drop 1 = l := by rw [hl]; rfl
  split at h
  · cases h
    rw [hdrop]
    exact skip_string_suffix l
  split at h
  · cases h
    rw [hdrop]
    exact skip_char_suffix l
  split at h
  · next hcomment =>
    cases h
    rw [hl, dropWhile_cons, hcomment.2.1]
    exact dropWhile_suffix _
  split at h
  · cases h
    rw [hdrop]
  split at h
  · split at h
    · cases h
    · cases h
      rw [hdrop]
  · cases h
    rw [hdrop]

theorem next_shift (h : sc.next depth p = some (depth', p')) (k : Nat) :
    sc.next (depth + k) p = some (depth' + k, p') := by
  unfold Scanner.next at h ⊢
  split at h
  · cases h
  next hzero =>
  rw [if_neg hzero]
  split at h
  · next hc =>
    cases h
    rw [if_pos hc]
  next hstring =>
  rw [if_neg hstring]
  split at h
  · next hc =>
    cases h
    rw [if_pos hc]
  next hchar =>
  rw [if_neg hchar]
  split at h
  · next hc =>
    cases h
    rw [if_pos hc]
  next hcomment =>
  rw [if_neg hcomment]
  split at h
  · next hc =>
    cases h
    rw [if_pos hc, Nat.add_right_comm]
  next hopening =>
  rw [if_neg hopening]
  split at h
  · next hc =>
    split at h
    · cases h
    · next depth =>
      cases h
      rw [if_pos hc]
      show (match depth' + 1 + k with
        | 0 => none
        | depth + 1 => some (depth, p.drop 1)) = _
      rw [Nat.add_right_comm]
  next hclosing =>
  cases h
  rw [if_neg hclosing]

theorem Passes.shift (h : Passes sc depth p e q) (k : Nat) : Passes sc (depth + k) p (e + k) q := by
  induction h with
  | refl => exact .refl
  | step hnext _ ih => exact .step (next_shift hnext k) ih

theorem Passes.trans (h : Passes sc depth p e q) (h' : Passes sc e q e' r) : Passes sc depth p e' r := by
  induction h with
  | refl => exact h'
  | step hnext _ ih => exact .step hnext (ih h')

theorem Passes.suffix (h : Passes sc depth p e q) : q <:+ p := by
  induction h with
  | refl => exact suffix_rfl
  | step hnext _ ih =>
    obtain ⟨c, l, rfl, hsuffix⟩ := next_suffix hnext
    exact (ih.trans hsuffix).trans (suffix_cons c l)

theorem Passes.over (h : Passes sc 0 p 0 q) : Over sc p q := by
  intro depth
  have := h.shift depth
  rwa [Nat.zero_add] at this

theorem Over.refl : Over sc p p := fun _ => .refl

theorem Over.trans (h : Over sc p q) (h' : Over sc q r) : Over sc p r := fun depth => (h depth).trans (h' depth)

theorem Over.suffix (h : Over sc p q) : q <:+ p := (h 0).suffix

/-! ## The loop -/

theorem skip_to_succ : skip_to sc.opening sc.closing sc.comments (fuel + 1) depth p =
    match sc.next depth p with
    | some (depth', p') => skip_to sc.opening sc.closing sc.comments fuel depth' p'
    | none => if peek p 0 = 0 then .error else .ok p := by
  conv_lhs => unfold skip_to
  unfold Scanner.next
  split
  · next hzero => rfl
  split
  · rfl
  split
  · rfl
  split
  · rfl
  split
  · rfl
  split
  · cases depth with
    | zero => rfl
    | succ depth => rfl
  · rfl

theorem skip_to_passes (h : skip_to sc.opening sc.closing sc.comments fuel depth p = .ok q) :
    ∃ e, Passes sc depth p e q ∧ sc.next e q = none ∧ peek q 0 ≠ 0 := by
  induction fuel generalizing depth p with
  | zero => cases h
  | succ fuel ih =>
    rw [skip_to_succ] at h
    split at h
    · next depth' p' hnext =>
      obtain ⟨e, hpasses, hend⟩ := ih h
      exact ⟨e, .step hnext hpasses, hend⟩
    · next hnext =>
      split at h
      · cases h
      · next hzero =>
        cases h
        exact ⟨depth, .refl, hnext, hzero⟩

theorem Passes.skip_to (h : Passes sc depth p e q) (hend : sc.next e q = none) (hfuel : p.length < fuel) :
    skip_to sc.opening sc.closing sc.comments fuel depth p = if peek q 0 = 0 then .error else .ok q := by
  induction h generalizing fuel with
  | refl =>
    obtain ⟨fuel, rfl⟩ := Nat.exists_eq_add_one_of_ne_zero (Nat.ne_of_gt (Nat.lt_of_le_of_lt (Nat.zero_le _) hfuel))
    rw [skip_to_succ, hend]
  | step hnext _ ih =>
    obtain ⟨fuel, rfl⟩ := Nat.exists_eq_add_one_of_ne_zero (Nat.ne_of_gt (Nat.lt_of_le_of_lt (Nat.zero_le _) hfuel))
    obtain ⟨c, l, rfl, hsuffix⟩ := next_suffix hnext
    rw [skip_to_succ, hnext]
    refine ih hend ?_
    have hlength := hsuffix.length_le
    rw [length_cons] at hfuel
    omega

theorem next_none (h : sc.next depth p = none) (hzero : peek p 0 ≠ 0) : depth = 0 ∧ peek p 0 = sc.closing := by
  unfold Scanner.next at h
  rw [if_neg hzero] at h
  split at h
  · cases h
  split at h
  · cases h
  split at h
  · cases h
  split at h
  · cases h
  split at h
  · next hc =>
    split at h
    · exact ⟨rfl, hc⟩
    · cases h
  · cases h

theorem skip_to_over (h : skip_to sc.opening sc.closing sc.comments fuel 0 p = .ok q) :
    Over sc p q ∧ peek q 0 = sc.closing := by
  obtain ⟨e, hpasses, hend, hzero⟩ := skip_to_passes h
  obtain ⟨rfl, hclosing⟩ := next_none hend hzero
  exact ⟨hpasses.over, hclosing⟩

/-! ## Words and blanks -/

theorem Over.plain {c : UInt8} (hc : sc.plain c = true) (p : Text) : Over sc (c :: p) p := by
  intro depth
  obtain ⟨hzero, hquote, hchar, hslash, hopening, hclosing⟩ := of_decide_eq_true hc
  have hnext : sc.next depth (c :: p) = some (depth, p) := by
    unfold Scanner.next
    rw [peek_cons_zero, if_neg hzero, if_neg hquote, if_neg hchar, if_neg (fun h => hslash h.2.1), if_neg hopening,
      if_neg hclosing]
    rfl
  exact .step hnext .refl

theorem Over.plain_append {l : Text} (hl : ∀ c ∈ l, sc.plain c = true) (p : Text) : Over sc (l ++ p) p := by
  induction l with
  | nil => exact .refl
  | cons c l ih =>
    exact (Over.plain (hl c (mem_cons_self ..)) (l ++ p)).trans (ih fun d hd => hl d (mem_cons_of_mem c hd))

theorem Over.dropWhile {f : UInt8 → Bool} (hf : ∀ c, f c = true → sc.plain c = true) (p : Text) :
    Over sc p (p.dropWhile f) := by
  have h := @Over.plain_append sc (p.takeWhile f) (fun c hc => hf c (mem_takeWhile_imp hc)) (p.dropWhile f)
  rwa [takeWhile_append_dropWhile] at h

/-- What words, numbers, blanks and operators are made of. -/
def is_token (c : UInt8) : Bool := is_space c || is_ident_char c || (ascii "-[],=!<>;").contains c

/-- No such character means anything to the scanner. -/
def Scanner.Skims (sc : Scanner) : Prop := ∀ c, is_token c = true → sc.plain c = true

theorem Scanner.skims_of {sc : Scanner}
    (h : ∀ c ∈ [0, '"'.toUInt8, '\''.toUInt8, '/'.toUInt8, sc.opening, sc.closing], is_token c = false) : sc.Skims := by
  intro c hc
  have hne {d : UInt8} (hd : d ∈ [0, '"'.toUInt8, '\''.toUInt8, '/'.toUInt8, sc.opening, sc.closing]) : c ≠ d := by
    rintro rfl
    rw [h c hd] at hc
    cases hc
  exact decide_eq_true ⟨hne (by simp), hne (by simp), hne (by simp), hne (by simp), hne (by simp), hne (by simp)⟩

theorem parens_skims : parens.Skims := Scanner.skims_of (by decide +kernel)

theorem braces_skims : braces.Skims := Scanner.skims_of (by decide +kernel)

section Words

variable (hsc : sc.Skims)

include hsc

theorem Over.token {c : UInt8} (hpeek : peek p 0 = c) (hc : is_token c = true) : Over sc p (p.drop 1) := by
  have hzero : c ≠ 0 := by
    rintro rfl
    exact absurd hc (by decide)
  obtain ⟨l, rfl⟩ := exists_cons_of_peek hpeek hzero
  exact .plain (hsc c hc) l

theorem Over.skip_ws : Over sc p (skip_ws p) :=
  .dropWhile (fun c hc => hsc c (by rw [is_token, hc]; rfl)) p

theorem Over.ident : Over sc p (p.dropWhile is_ident_char) :=
  .dropWhile (fun c hc => hsc c (by rw [is_token, hc, Bool.or_true]; rfl)) p

theorem Over.keyword {word : String} (h : keyword p word = true) (hword : ∀ c ∈ ascii word, is_token c = true) :
    Over sc p (p.drop (ascii word).length) := by
  rw [chivm.keyword, Bool.and_eq_true] at h
  obtain ⟨l, rfl⟩ := List.isPrefixOf_iff_prefix.mp h.1
  rw [drop_left]
  exact .plain_append (fun c hc => hsc c (hword c hc)) l

end Words

theorem drop_takeWhile (f : UInt8 → Bool) (p : Text) : p.drop (p.takeWhile f).length = p.dropWhile f := by
  conv_lhs => rw [← takeWhile_append_dropWhile (p := f) (l := p)]
  exact drop_left' (by rw [takeWhile_append_dropWhile])

end graceos.chivm
