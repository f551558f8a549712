import GraceOS.Chivm.Scan

/-!
# What the parsers take

Every parser takes from the front of the text what both scanners go over. A simple statement may also hold parentheses,
which the scanner of blocks does not count.
-/

namespace graceos.chivm

open exec word

variable {sc : Scanner} {p q : Text} {fuel : Nat}

/-! ## Literals -/

/-- No quote stands in front of a terminator with another quote behind it: no character literal goes over the end. -/
def Clean (p : Text) : Prop := ¬ ['\''.toUInt8, 0, '\''.toUInt8] <:+: p

instance (p : Text) : Decidable (Clean p) := inferInstanceAs (Decidable (¬ _ <:+: p))

theorem Clean.suffix (h : Clean p) (hq : q <:+ p) : Clean q := fun hquotes => h (hquotes.trans hq.isInfix)

theorem Clean.over (h : Clean p) (hq : Over sc p q) : Clean q := h.suffix hq.suffix

theorem skip_string_quote (p : Text) : skip_string ('"'.toUInt8 :: p) = p := by
  rw [skip_string.eq_def]
  rfl

theorem skip_string_escape {e : UInt8} (he : e ≠ 0) (p : Text) :
    skip_string ('\\'.toUInt8 :: e :: p) = skip_string p := by
  conv_lhs => rw [skip_string.eq_def]
  exact if_pos he

theorem skip_string_other {c : UInt8} (hzero : c ≠ 0) (hquote : c ≠ '"'.toUInt8) (hslash : c ≠ '\\'.toUInt8)
    (p : Text) : skip_string (c :: p) = skip_string p := by
  conv_lhs => rw [skip_string.eq_def]
  dsimp only
  rw [if_neg hzero, if_neg hquote, if_neg hslash]

theorem string_escape_ne_zero {e c : UInt8} (h : string_escape e = some c) : e ≠ 0 := by
  rintro rfl
  cases h

theorem string_escape_none {e : UInt8} (h : string_escape e = none) : e ≠ '"'.toUInt8 ∧ e ≠ '\\'.toUInt8 := by
  constructor
  · rintro rfl
    cases h
  · rintro rfl
    cases h

/-- A string is skipped as it is read: an escape that is not known leaves a character that neither ends the string nor
starts another escape. -/
theorem skip_string_quoted {out_len : Nat} {out s : List UInt8} (h : quoted_chars out_len out p = some (s, q)) :
    skip_string p = q := by
  fun_induction quoted_chars out_len out p with
  | case1 => cases h
  | case2 => cases h
  | case3 out p =>
    rw [skip_string_quote]
    exact (Prod.mk.inj (Option.some.inj h)).2
  | case4 => cases h
  | case5 => cases h
  | case6 out e p' c hescape _ _ _ ih =>
    rw [skip_string_escape (string_escape_ne_zero hescape)]
    exact ih h
  | case7 => cases h
  | case8 out e p' hescape _ _ _ ih =>
    obtain ⟨hquote, hslash⟩ := string_escape_none hescape
    have hzero : e ≠ 0 := by
      rintro rfl
      rw [quoted_chars.eq_def] at h
      cases h
    rw [skip_string_escape hzero, ← skip_string_other hzero hquote hslash]
    exact ih h
  | case9 => cases h
  | case10 out c p hzero hquote hslash _ ih =>
    rw [skip_string_other hzero hquote hslash]
    exact ih h

theorem Over.string (hquote : peek p 0 = '"'.toUInt8) : Over sc p (skip_string (p.drop 1)) := by
  intro depth
  refine .step ?_ .refl
  unfold Scanner.next
  rw [hquote, if_neg (by decide), if_pos rfl]

theorem Over.char (hquote : peek p 0 = '\''.toUInt8) : Over sc p (skip_char (p.drop 1)) := by
  intro depth
  refine .step ?_ .refl
  unfold Scanner.next
  rw [hquote, if_neg (by decide), if_neg (by decide), if_pos rfl]

theorem parse_quoted_string_over (hsc : sc.Skims) {out_len : Nat} {s : List UInt8}
    (h : parse_quoted_string p out_len = some (s, q)) : Over sc p q := by
  unfold parse_quoted_string at h
  dsimp only at h
  split at h
  · cases h
  next hquote =>
  rw [← skip_string_quoted h]
  exact (Over.skip_ws hsc).trans (.string (not_not.mp hquote))

theorem char_escape_ne_zero {e c : UInt8} (h : char_escape e = some c) : e ≠ 0 := by
  rintro rfl
  cases h

/-- A character is skipped as it is read. -/
theorem skip_char_read {r : Text} (hclean : Clean ('\''.toUInt8 :: r)) {p : Text} {escape : Option UInt8}
    (hescape : escape = if peek r 0 = '\\'.toUInt8 then char_escape (peek (r.drop 1) 0) else none)
    (hp : p = if escape.isSome then (r.drop 1).drop 1 else r.drop 1) (hclose : peek p 0 = '\''.toUInt8) :
    skip_char r = p.drop 1 := by
  unfold skip_char
  dsimp only
  by_cases hslash : peek r 0 = '\\'.toUInt8
  · rw [if_pos hslash] at hescape
    cases hc : char_escape (peek (r.drop 1) 0) with
    | none =>
      -- Without an escape the quote would follow the backslash, and this is one.
      rw [hescape, hc, if_neg (by decide)] at hp
      rw [← hp, hclose] at hc
      cases hc
    | some c =>
      have hzero := char_escape_ne_zero hc
      rw [hescape, hc, if_pos (show (some c).isSome = true from rfl)] at hp
      have hknown : peek r 0 = '\\'.toUInt8 ∧ peek r 1 ≠ 0 := ⟨hslash, by rwa [peek_drop] at hzero⟩
      rw [if_pos hknown, if_pos hzero, ← hp, if_pos hclose]
  · rw [if_neg hslash] at hescape
    rw [hescape, if_neg (by decide)] at hp
    obtain ⟨l, hl⟩ := exists_cons_of_peek hclose (by decide)
    have hzero : peek r 0 ≠ 0 := by
      intro hzero
      refine hclean ⟨[], l, ?_⟩
      cases r with
      | nil =>
        rw [hp] at hl
        cases hl
      | cons c r =>
        have hr : r = '\''.toUInt8 :: l := hp.symm.trans hl
        have hc : c = 0 := hzero
        rw [hr, hc]
        rfl
    have hplain : ¬ (peek r 0 = '\\'.toUInt8 ∧ peek r 1 ≠ 0) := fun h => hslash h.1
    rw [if_neg hplain, if_pos hzero, ← hp, if_pos hclose]

theorem parse_char_lit_over (hsc : sc.Skims) (hclean : Clean p) {c : UInt8} (h : parse_char_lit p = some (c, q)) :
    Over sc p q := by
  unfold parse_char_lit at h
  dsimp only at h
  split at h
  · cases h
  next hquote =>
  generalize hescape : (if peek ((skip_ws p).drop 1) 0 = '\\'.toUInt8 then
    char_escape (peek (((skip_ws p).drop 1).drop 1) 0) else none) = escape at h
  generalize hbehind : (if escape.isSome then (((skip_ws p).drop 1).drop 1).drop 1 else
    ((skip_ws p).drop 1).drop 1) = behind at h
  split at h
  · cases h
  next hclose =>
  obtain ⟨-, rfl⟩ := Prod.mk.inj (Option.some.inj h)
  have hws : Over sc p (skip_ws p) := .skip_ws hsc
  have hquote := not_not.mp hquote
  obtain ⟨l, hl⟩ := exists_cons_of_peek hquote (by decide)
  have hclean' := hclean.over hws
  have hrest : (skip_ws p).drop 1 = l := by rw [hl]; rfl
  rw [hl] at hclean'
  rw [← hrest] at hclean'
  rw [← skip_char_read hclean' hescape.symm hbehind.symm (not_not.mp hclose)]
  exact hws.trans (.char hquote)

/-! ## Words -/

theorem parse_int_lit_over (hsc : sc.Skims) {i : Int32} (h : parse_int_lit p = some (i, q)) : Over sc p q := by
  unfold parse_int_lit at h
  dsimp only at h
  generalize (if peek (skip_ws p) 0 = '-'.toUInt8 then (-1 : Int32) else 1) = sign at h
  generalize hbehind : (if peek (skip_ws p) 0 = '-'.toUInt8 then (skip_ws p).drop 1 else skip_ws p) = behind at h
  split at h
  · cases h
  obtain ⟨-, rfl⟩ := Prod.mk.inj (Option.some.inj h)
  rw [drop_takeWhile]
  refine (Over.skip_ws hsc).trans (.trans (q := behind) ?_ (.dropWhile (fun c hc => hsc c ?_) _))
  · rw [← hbehind]
    split
    · next hminus => exact .token hsc hminus (by decide)
    · exact .refl
  · have hdec : is_ident_char c = true := by
      rw [is_ident_char, Bool.or_eq_true]
      exact .inr hc
    rw [is_token, hdec, Bool.or_true]
    rfl

theorem parse_ident_over (hsc : sc.Skims) {out_len : Nat} {name : List UInt8}
    (h : parse_ident p out_len = some (name, q)) : Over sc p q := by
  unfold parse_ident at h
  dsimp only at h
  split at h
  · cases h
  split at h
  · cases h
  obtain ⟨-, rfl⟩ := Prod.mk.inj (Option.some.inj h)
  rw [drop_takeWhile]
  exact (Over.skip_ws hsc).trans (.ident hsc)

/-! ## Values -/

variable {α : Type}

theorem vm_error_yields {P : α → Prop} (msg : String) : Yields (vm_error msg : VmExec α) P :=
  .bind (.any _) fun _ _ => .bind (.any _) fun _ _ => .bind (.any _) fun _ _ => .error

theorem parsed_yields {o : Option α} {P : α → Prop} (h : ∀ a, o = some a → P a) : Yields (parsed o) P := by
  cases o with
  | none => exact .error
  | some a => exact .pure (h a rfl)

/-- What a parser with a value leaves of a text. -/
def Leaves (sc : Scanner) (p : Text) (r : α × Text) : Prop := Over sc p r.2

theorem parse_index_over (hsc : sc.Skims) (p : Text) (intmsg : String) :
    Yields (parse_index p intmsg) (Leaves sc p) := by
  unfold parse_index
  split
  · next idx q h => exact .pure (parse_int_lit_over hsc h)
  split
  · exact vm_error_yields _
  next iname q h =>
  refine .bind (.any _) fun vm _ => ?_
  split
  · exact .pure (parse_ident_over hsc h)
  · exact vm_error_yields _

theorem parse_elems_over (hsc : sc.Skims) {parse : Text → VmExec (chivm_val_t × Text)}
    (hparse : ∀ p, Clean p → Yields (parse p) (Leaves sc p)) (elem_type : chivm_vkind_t) (room : Nat)
    (elems : List chivm_val_t) {p : Text} (hclean : Clean p) :
    Yields (parse_elems parse elem_type room elems p) (Leaves sc p) := by
  induction room generalizing elems p with
  | zero =>
    rw [parse_elems]
    split
    · exact .pure Over.refl
    · exact vm_error_yields _
  | succ room ih =>
    rw [parse_elems]
    split
    · exact .pure Over.refl
    refine .bind (.orElse (hparse p hclean) (vm_error_yields _)) ?_
    rintro ⟨elem, q⟩ hq
    dsimp only
    split
    · exact vm_error_yields _
    have hcomma : Over sc q (skip_ws (if peek (skip_ws q) 0 = ','.toUInt8 then (skip_ws q).drop 1 else skip_ws q)) := by
      refine (Over.skip_ws hsc).trans (.trans ?_ (.skip_ws hsc))
      split
      · next h => exact .token hsc h (by decide)
      · exact .refl
    have hnext := hq.trans hcomma
    exact (ih _ (hclean.over hnext)).mono fun r hr => hnext.trans hr

theorem array_literal_over (hsc : sc.Skims) {parse : Text → VmExec (chivm_val_t × Text)}
    (hparse : ∀ p, Clean p → Yields (parse p) (Leaves sc p)) (elem_type : chivm_vkind_t) (hclean : Clean p) :
    Yields (array_literal parse p elem_type) (Leaves sc p) := by
  unfold array_literal
  dsimp only
  split
  · exact .error
  next hopen =>
  have hstart : Over sc p (skip_ws ((skip_ws p).drop 1)) :=
    (Over.skip_ws hsc).trans (.trans (.token hsc (not_not.mp hopen) (by decide)) (.skip_ws hsc))
  refine .bind (parse_elems_over hsc hparse _ _ _ (hclean.over hstart)) ?_
  rintro ⟨elems, q⟩ hq
  dsimp only
  split
  · exact vm_error_yields _
  next hclose =>
  refine .bind (.any _) fun vm _ => ?_
  split
  · exact vm_error_yields _
  · refine .bind (.any _) fun _ _ => .pure ?_
    exact hstart.trans (.trans hq (.token hsc (not_not.mp hclose) (by decide)))

theorem parse_name_over (hsc : sc.Skims) : Yields (parse_name p) (Leaves sc p) := by
  unfold parse_name
  dsimp only
  split
  · exact .error
  rw [drop_takeWhile]
  have hname : Over sc p (p.dropWhile is_ident_char) := .ident hsc
  split
  · exact .pure hname
  split
  · exact .pure hname
  refine .bind (.any _) fun vm _ => ?_
  split
  · exact .error
  split
  · split
    · next hopen =>
      have hstart := hname.trans (.trans (.skip_ws hsc) (.token hsc hopen (by decide)))
      refine .bind (parse_index_over hsc _ _) ?_
      rintro ⟨idx, q⟩ hq
      dsimp only
      split
      · exact vm_error_yields _
      next hclose =>
      split
      · exact vm_error_yields _
      · exact .pure (hstart.trans (.trans hq (.trans (.skip_ws hsc) (.token hsc (not_not.mp hclose) (by decide)))))
    · exact .pure hname
  · exact .pure hname

theorem parse_val_expr_over (hsc : sc.Skims) (fuel : Nat) {p : Text} (hclean : Clean p) :
    Yields (parse_val_expr fuel p) (Leaves sc p) := by
  induction fuel generalizing p with
  | zero => exact .hang
  | succ fuel ih =>
    have hws : Over sc p (skip_ws p) := .skip_ws hsc
    have hclean' := hclean.over hws
    rw [parse_val_expr]
    split
    · refine .bind (parsed_yields (P := Leaves sc (skip_ws p)) fun r hr => parse_quoted_string_over hsc hr) ?_
      rintro ⟨s, q⟩ hq
      exact .pure (hws.trans hq)
    split
    · refine .bind (parsed_yields (P := Leaves sc (skip_ws p)) fun r hr => parse_char_lit_over hsc hclean' hr) ?_
      rintro ⟨c, q⟩ hq
      exact .pure (hws.trans hq)
    split
    · exact (array_literal_over hsc (fun p hp => ih hp) _ hclean').mono fun r hr => hws.trans hr
    split
    · refine .bind (parsed_yields (P := Leaves sc (skip_ws p)) fun r hr => parse_int_lit_over hsc hr) ?_
      rintro ⟨i, q⟩ hq
      exact .pure (hws.trans hq)
    split
    · exact .error
    · exact (parse_name_over hsc).mono fun r hr => hws.trans hr

theorem parse_op_over (hsc : sc.Skims) {op : Op} (h : parse_op p = some (op, q)) : Over sc p q := by
  have hone {c : UInt8} (hpeek : peek p 0 = c) (hc : is_token c = true) : Over sc p (p.drop 1) :=
    .token hsc hpeek hc
  have htwo {c : UInt8} (hpeek : peek p 0 = c ∧ peek p 1 = '='.toUInt8) (hc : is_token c = true) :
      Over sc p (p.drop 2) := by
    have hnext : Over sc (p.drop 1) ((p.drop 1).drop 1) :=
      .token hsc (c := '='.toUInt8) (by rw [peek_drop]; exact hpeek.2) (by decide)
    rw [List.drop_drop] at hnext
    exact (hone hpeek.1 hc).trans hnext
  unfold parse_op at h
  split at h
  · next hpeek =>
    cases h
    exact htwo hpeek (by decide)
  split at h
  · next hpeek =>
    cases h
    exact htwo hpeek (by decide)
  split at h
  · next hpeek =>
    cases h
    exact htwo hpeek (by decide)
  split at h
  · next hpeek =>
    cases h
    exact htwo hpeek (by decide)
  split at h
  · next hpeek =>
    cases h
    exact hone hpeek (by decide)
  split at h
  · next hpeek =>
    cases h
    exact hone hpeek (by decide)
  · cases h

theorem eval_condition_over (hsc : sc.Skims) (fuel : Nat) (hclean : Clean p) :
    Yields (eval_condition fuel p) (Leaves sc p) := by
  unfold eval_condition
  dsimp only
  have hnegate : Over sc p (if peek (skip_ws p) 0 = '!'.toUInt8 then (skip_ws p).drop 1 else p) := by
    split
    · next h => exact (Over.skip_ws hsc).trans (.token hsc h (by decide))
    · exact .refl
  refine .bind (.orElse (parse_val_expr_over hsc fuel (hclean.over hnegate)) (vm_error_yields _)) ?_
  rintro ⟨lhs, q⟩ hq
  have hlhs : Over sc p q := hnegate.trans hq
  dsimp only
  split
  · next op r hop =>
    have hright : Over sc p r := hlhs.trans (.trans (.skip_ws hsc) (parse_op_over hsc hop))
    refine .bind (.orElse (parse_val_expr_over hsc fuel (hclean.over hright)) (vm_error_yields _)) ?_
    rintro ⟨rhs, q'⟩ hq'
    exact .bind (.any _) fun result _ => .pure (hright.trans hq')
  · exact .pure hlhs

/-! ## Simple statements -/

theorem end_stmt_over (hsc : sc.Skims) (p : Text) : Over sc p (end_stmt p) := by
  unfold end_stmt
  dsimp only
  split
  · next h => exact (Over.skip_ws hsc).trans (.token hsc h (by decide))
  · exact .skip_ws hsc

theorem decl_type_over (hsc : sc.Skims) {kind elem : chivm_vkind_t} (h : decl_type p = some (kind, elem, q)) :
    Over sc p q := by
  unfold decl_type at h
  obtain ⟨⟨word, kind', elem'⟩, hfind, hq⟩ := Option.map_eq_some_iff.mp h
  cases hq
  have hwords : (decl_types.all fun type => (ascii type.1).all is_token &&
      decide ((ascii type.1).length = type.1.length)) = true := by
    decide +kernel
  have hboth := List.all_eq_true.mp hwords _ (List.mem_of_find?_eq_some hfind)
  rw [Bool.and_eq_true, List.all_eq_true, decide_eq_true_eq] at hboth
  obtain ⟨htokens, hlength⟩ := hboth
  have hkeyword : keyword p word = true := by simpa using List.find?_some hfind
  have hover := Over.keyword hsc hkeyword htokens
  rwa [hlength] at hover

theorem parse_init_over (hsc : sc.Skims) (fuel : Nat) (decl_kind elem_type : chivm_vkind_t) (hclean : Clean p) :
    Yields (parse_init fuel decl_kind elem_type p) (Leaves sc p) := by
  unfold parse_init
  split
  · refine .orElse ?_ (vm_error_yields _)
    exact array_literal_over hsc (fun p hp => parse_val_expr_over hsc fuel hp) _ hclean
  · refine .bind (.orElse (parse_val_expr_over hsc fuel hclean) (vm_error_yields _)) ?_
    rintro ⟨init, q⟩ hq
    dsimp only
    split
    · exact vm_error_yields _
    · exact .pure hq

theorem exec_decl_over (hsc : sc.Skims) (fuel : Nat) (hclean : Clean p) :
    Yields (exec_decl fuel p) (Over sc p) := by
  unfold exec_decl
  split
  · exact vm_error_yields _
  next decl_kind arr_elem_kind q htype =>
  split
  · exact vm_error_yields _
  next name r hname =>
  have hstart : Over sc p r :=
    (Over.skip_ws hsc).trans (.trans (decl_type_over hsc htype) (parse_ident_over hsc hname))
  refine .bind (.any _) fun _ _ => ?_
  dsimp only
  split
  · next hsign =>
    have hvalue := hstart.trans (.trans (.skip_ws hsc) (.token hsc hsign (by decide)))
    refine .bind (parse_init_over hsc fuel _ _ (hclean.over hvalue)) ?_
    rintro ⟨init, q'⟩ hq'
    exact .bind (.any _) fun _ _ => .pure (hvalue.trans (.trans hq' (end_stmt_over hsc q')))
  · exact .bind (.any _) fun _ _ => .pure (hstart.trans (.trans (.skip_ws hsc) (end_stmt_over hsc _)))

theorem assign_elem_over (hsc : sc.Skims) (fuel : Nat) (name : List UInt8) (hclean : Clean p) :
    Yields (assign_elem fuel name p) (Over sc p) := by
  unfold assign_elem
  refine .bind (parse_index_over hsc _ _) ?_
  rintro ⟨idx, q⟩ hq
  dsimp only
  split
  · exact vm_error_yields _
  next hclose =>
  split
  · exact vm_error_yields _
  next hsign =>
  have hvalue : Over sc p ((skip_ws ((skip_ws q).drop 1)).drop 1) :=
    hq.trans (.trans (.skip_ws hsc) (.trans (.token hsc (not_not.mp hclose) (by decide))
      (.trans (.skip_ws hsc) (.token hsc (not_not.mp hsign) (by decide)))))
  refine .bind (.any _) fun vm _ => ?_
  split
  · split
    · exact vm_error_yields _
    refine .bind (.orElse (parse_val_expr_over hsc fuel (hclean.over hvalue)) (vm_error_yields _)) ?_
    rintro ⟨new_val, q'⟩ hq'
    dsimp only
    split
    · exact vm_error_yields _
    · exact .bind (.any _) fun _ _ => .pure (hvalue.trans (.trans hq' (end_stmt_over hsc q')))
  · exact vm_error_yields _

theorem assign_scalar_over (hsc : sc.Skims) (fuel : Nat) (name : List UInt8) (hclean : Clean p) :
    Yields (assign_scalar fuel name p) (Over sc p) := by
  unfold assign_scalar
  refine .bind (.any _) fun vm _ => ?_
  split
  · exact vm_error_yields _
  refine .bind (.orElse (parse_val_expr_over hsc fuel hclean) (vm_error_yields _)) ?_
  rintro ⟨new_val, q⟩ hq
  dsimp only
  split
  · exact vm_error_yields _
  · exact .bind (.any _) fun _ _ => .pure (Over.trans hq (end_stmt_over hsc q))

theorem exec_assignment_over (hsc : sc.Skims) (fuel : Nat) (hclean : Clean p) :
    Yields (exec_assignment fuel p) (Over sc p) := by
  unfold exec_assignment
  split
  · exact vm_error_yields _
  next name q hname =>
  have hstart : Over sc p (skip_ws q) := (parse_ident_over hsc hname).trans (.skip_ws hsc)
  dsimp only
  split
  · next hopen =>
    have helem := hstart.trans (.token hsc hopen (by decide))
    exact (assign_elem_over hsc fuel name (hclean.over helem)).mono fun r hr => helem.trans hr
  split
  · exact vm_error_yields _
  next hsign =>
  have hvalue := hstart.trans (.token hsc (not_not.mp hsign) (by decide))
  exact (assign_scalar_over hsc fuel name (hclean.over hvalue)).mono fun r hr => hvalue.trans hr

theorem braces_open_paren {p : Text} (h : peek p 0 = '('.toUInt8) : Over braces p (p.drop 1) := by
  obtain ⟨l, rfl⟩ := exists_cons_of_peek h (by decide)
  exact .plain (by decide) l

theorem braces_close_paren {p : Text} (h : peek p 0 = ')'.toUInt8) : Over braces p (p.drop 1) := by
  obtain ⟨l, rfl⟩ := exists_cons_of_peek h (by decide)
  exact .plain (by decide) l

theorem exec_cprintf_over (fuel : Nat) (hkeyword : keyword p "cprintf" = true) :
    Yields (exec_cprintf fuel p) (Over braces p) := by
  unfold exec_cprintf
  have hword : Over braces p (p.drop 7) := .keyword braces_skims hkeyword (List.all_eq_true.mp (by decide +kernel))
  dsimp only
  split
  · exact vm_error_yields _
  next hopen =>
  split
  · exact vm_error_yields _
  next text q htext =>
  split
  · exact vm_error_yields _
  next hclose =>
  refine .bind (.any _) fun _ _ => .pure ?_
  exact hword.trans (.trans (.skip_ws braces_skims) (.trans (braces_open_paren (not_not.mp hopen))
    (.trans (parse_quoted_string_over braces_skims htext) (.trans (.skip_ws braces_skims)
      (.trans (braces_close_paren (not_not.mp hclose)) (end_stmt_over braces_skims _))))))

theorem exec_dinput_over (hkeyword : keyword p "dinput" = true) : Yields (exec_dinput p) (Over braces p) := by
  unfold exec_dinput
  have hword : Over braces p (p.drop 6) := .keyword braces_skims hkeyword (List.all_eq_true.mp (by decide +kernel))
  dsimp only
  split
  · exact vm_error_yields _
  next hopen =>
  split
  · exact vm_error_yields _
  next prompt q hprompt =>
  split
  · exact vm_error_yields _
  next hcomma =>
  split
  · exact vm_error_yields _
  next ident r hident =>
  split
  · exact vm_error_yields _
  next hclose =>
  refine .bind (.any _) fun _ _ => .pure ?_
  exact hword.trans (.trans (.skip_ws braces_skims) (.trans (braces_open_paren (not_not.mp hopen))
    (.trans (parse_quoted_string_over braces_skims hprompt) (.trans (.skip_ws braces_skims)
      (.trans (.token braces_skims (not_not.mp hcomma) (by decide)) (.trans (parse_ident_over braces_skims hident)
        (.trans (.skip_ws braces_skims) (.trans (braces_close_paren (not_not.mp hclose))
          (end_stmt_over braces_skims _)))))))))

end graceos.chivm
