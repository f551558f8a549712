import GraceOS.Chivm.Taken
import Mathlib.Data.List.DropRight

/-!
# Branches that are run and branches that are skipped

A block that runs ends where it would have been skipped to, unless a condition behind a branch that was taken hides a
brace: such a condition is only skipped, up to its closing parenthesis.
-/

namespace graceos.chivm

open exec word

variable {sc : Scanner} {source p q c : Text} {fuel depth e : Nat}

/-! ## Conditions that are only skipped -/

/-- The text behind the parenthesis of an `else if`. -/
def else_if_condition (p : Text) : Option Text :=
  if keyword p "else" then
    let p := skip_ws (p.drop 4)
    if keyword p "if" then
      let p := skip_ws (p.drop 2)
      if peek p 0 = '('.toUInt8 then some (p.drop 1) else none
    else none
  else none

/-- The scanner comes to `q` with all that it opened closed. -/
def passes_to (sc : Scanner) (q : Text) : (fuel depth : Nat) → Text → Bool
  | 0, _, _ => false
  | fuel + 1, depth, p =>
    (depth == 0 && p == q) ||
      match sc.next depth p with
      | none => false
      | some (depth, p) => passes_to sc q fuel depth p

/-- The scanner of blocks goes over the condition of an `else if`, if there is one at the start of the text. -/
def condition_passes (p : Text) : Bool :=
  match else_if_condition p with
  | none => true
  | some c =>
    match skip_to_close_paren (c.length + 1) c with
    | .ok q => passes_to braces q (c.length + 1) 0 c
    | _ => true

/-- The same wherever the scanner comes by. -/
def conditions_pass : (fuel depth : Nat) → Text → Bool
  | 0, _, _ => true
  | fuel + 1, depth, p =>
    condition_passes p &&
      match braces.next depth p with
      | none => true
      | some (depth, p) => conditions_pass fuel depth p

/-- No condition of an `else if` holds a brace or a comment that the scanner of blocks would take for one of its own. -/
def Regular (source : Text) : Prop := conditions_pass (source.length + 1) 0 source = true

instance (source : Text) : Decidable (Regular source) := inferInstanceAs (Decidable (_ = true))

/-- The scanner of blocks comes by. -/
def Reaches (source p : Text) : Prop := ∃ depth, Passes braces 0 source depth p

theorem Reaches.start : Reaches source source := ⟨0, .refl⟩

theorem Reaches.over (h : Reaches source p) (hover : Over braces p q) : Reaches source q := by
  obtain ⟨depth, hpasses⟩ := h
  exact ⟨depth, hpasses.trans (hover depth)⟩

theorem Reaches.suffix (h : Reaches source p) : p <:+ source := by
  obtain ⟨depth, hpasses⟩ := h
  exact hpasses.suffix

theorem next_open (h : peek p 0 = '{'.toUInt8) : braces.next depth p = some (depth + 1, p.drop 1) := by
  unfold Scanner.next
  rw [h, if_neg (by decide), if_neg (by decide), if_neg (by decide), if_neg fun h => absurd h.2.1 (by decide)]
  exact if_pos rfl

theorem next_close (h : peek p 0 = '}'.toUInt8) : braces.next (depth + 1) p = some (depth, p.drop 1) := by
  unfold Scanner.next
  rw [h, if_neg (by decide), if_neg (by decide), if_neg (by decide), if_neg fun h => absurd h.2.1 (by decide),
    if_neg (by decide)]
  exact if_pos rfl

theorem next_close_zero (h : peek p 0 = '}'.toUInt8) : braces.next 0 p = none := by
  unfold Scanner.next
  rw [h, if_neg (by decide), if_neg (by decide), if_neg (by decide), if_neg fun h => absurd h.2.1 (by decide),
    if_neg (by decide)]
  exact if_pos rfl

theorem next_paren_zero (h : peek p 0 = ')'.toUInt8) : parens.next 0 p = none := by
  unfold Scanner.next
  rw [h, if_neg (by decide), if_neg (by decide), if_neg (by decide), if_neg fun h => absurd h.1 (by decide),
    if_neg (by decide)]
  exact if_pos rfl

theorem next_end (h : peek p 0 = 0) : sc.next depth p = none := if_pos h

theorem Reaches.opened (h : Reaches source p) (hopen : peek p 0 = '{'.toUInt8) : Reaches source (p.drop 1) := by
  obtain ⟨depth, hpasses⟩ := h
  exact ⟨depth + 1, hpasses.trans (.step (next_open hopen) .refl)⟩

theorem Over.block (hopen : peek p 0 = '{'.toUInt8) (h : Over braces (p.drop 1) q) (hclose : peek q 0 = '}'.toUInt8) :
    Over braces p (q.drop 1) :=
  fun depth => .step (next_open hopen) ((h (depth + 1)).trans (.step (next_close hclose) .refl))

theorem passes_to_over (h : passes_to sc q fuel depth p = true) : Passes sc depth p 0 q := by
  induction fuel generalizing depth p with
  | zero => cases h
  | succ fuel ih =>
    rw [passes_to, Bool.or_eq_true] at h
    rcases h with h | h
    · rw [Bool.and_eq_true, beq_iff_eq, beq_iff_eq] at h
      rw [h.1, h.2]
      exact .refl
    · split at h
      · cases h
      · next depth' p' hnext => exact .step hnext (ih h)

example : passes_to braces (ascii "\x7d") 8 0 (ascii "a\x7bb\x7d\x7d") = true := by decide +kernel

theorem conditions_pass_at (h : conditions_pass fuel depth p = true) (hfuel : p.length < fuel)
    (hpasses : Passes braces depth p e q) : condition_passes q = true := by
  induction hpasses generalizing fuel with
  | refl =>
    obtain ⟨fuel, rfl⟩ := Nat.exists_eq_add_one_of_ne_zero (Nat.ne_of_gt (Nat.lt_of_le_of_lt (Nat.zero_le _) hfuel))
    rw [conditions_pass, Bool.and_eq_true] at h
    exact h.1
  | step hnext _ ih =>
    obtain ⟨fuel, rfl⟩ := Nat.exists_eq_add_one_of_ne_zero (Nat.ne_of_gt (Nat.lt_of_le_of_lt (Nat.zero_le _) hfuel))
    obtain ⟨c, l, rfl, hsuffix⟩ := next_suffix hnext
    rw [conditions_pass, hnext, Bool.and_eq_true] at h
    refine ih h.2 ?_
    have hlength := hsuffix.length_le
    rw [List.length_cons] at hfuel
    omega

theorem skipped_condition_over (hregular : Regular source) (hp : Reaches source p) (hc : else_if_condition p = some c)
    (hskip : skip_to_close_paren fuel c = .ok q) : Over braces c q ∧ Over parens c q := by
  obtain ⟨depth, hpasses⟩ := hp
  have hskip : skip_to parens.opening parens.closing parens.comments fuel 0 c = .ok q := hskip
  obtain ⟨e, hparens, hend, hzero⟩ := skip_to_passes hskip
  obtain ⟨rfl, hclosing⟩ := next_none hend hzero
  have hfull : skip_to_close_paren (c.length + 1) c = .ok q := by
    have := hparens.skip_to hend (Nat.lt_succ_self c.length)
    rwa [if_neg hzero] at this
  have hcondition := conditions_pass_at hregular (Nat.lt_succ_self _) hpasses
  unfold condition_passes at hcondition
  rw [hc] at hcondition
  dsimp only at hcondition
  rw [hfull] at hcondition
  exact ⟨(passes_to_over hcondition).over, hparens.over⟩

/-! ## A chain of branches -/

theorem skip_block_body_close (h : Over braces p q) (hclose : peek q 0 = '}'.toUInt8) {n : Nat} (hn : p.length < n) :
    skip_block_body n p = .ok q := by
  have hskip := (h 0).skip_to (next_close_zero hclose) hn
  rwa [if_neg (by rw [hclose]; decide)] at hskip

theorem skip_to_close_paren_close (h : Over parens p q) (hclose : peek q 0 = ')'.toUInt8) {n : Nat}
    (hn : p.length < n) : skip_to_close_paren n p = .ok q := by
  have hskip := (h 0).skip_to (next_paren_zero hclose) hn
  rwa [if_neg (by rw [hclose]; decide)] at hskip

/-- Behind a condition in parentheses that is not looked at. -/
def skip_condition (p : Text) : Option Text :=
  if peek p 0 ≠ '('.toUInt8 then none
  else
    match skip_to_close_paren (p.length + 1) (p.drop 1) with
    | .ok q => some (skip_ws (q.drop 1))
    | _ => none

/-- Behind a branch that is not taken. -/
def skip_branch (p : Text) : Option Text :=
  if peek p 0 ≠ '{'.toUInt8 then none
  else
    match skip_block_body (p.length + 1) (p.drop 1) with
    | .ok q => some (q.drop 1)
    | _ => none

/-- Behind the branches that follow the first one. -/
def skip_else : (chain : Nat) → Text → Option Text
  | 0, _ => none
  | chain + 1, p0 =>
    let p := skip_ws p0
    if !keyword p "else" then some p0
    else
      let p := skip_ws (p.drop 4)
      if keyword p "if" then do
        let p ← skip_condition (skip_ws (p.drop 2))
        let p ← skip_branch p
        skip_else chain p
      else skip_branch p

/-- Behind a chain, from the text of its `if` on. -/
def skip_if (chain : Nat) (p : Text) : Option Text := do
  let p ← skip_condition (skip_ws ((skip_ws p).drop 2))
  let p ← skip_branch p
  skip_else chain p

theorem skip_condition_eq (hopen : peek p 0 = '('.toUInt8) (h : Over parens (p.drop 1) q)
    (hclose : peek (skip_ws q) 0 = ')'.toUInt8) : skip_condition p = some (skip_ws ((skip_ws q).drop 1)) := by
  have hlength : (p.drop 1).length < p.length + 1 := by
    rw [List.length_drop]
    omega
  unfold skip_condition
  rw [if_neg (not_not.mpr hopen),
    skip_to_close_paren_close (h.trans (.skip_ws parens_skims)) hclose hlength]

theorem skip_branch_eq (hopen : peek p 0 = '{'.toUInt8) (h : Over braces (p.drop 1) q)
    (hclose : peek q 0 = '}'.toUInt8) : skip_branch p = some (q.drop 1) := by
  have hlength : (p.drop 1).length < p.length + 1 := by
    rw [List.length_drop]
    omega
  unfold skip_branch
  rw [if_neg (not_not.mpr hopen), skip_block_body_close h hclose hlength]

theorem skip_else_mono {chain chain' : Nat} (hle : chain ≤ chain') {r : Text} (h : skip_else chain p = some r) :
    skip_else chain' p = some r := by
  induction chain generalizing chain' p with
  | zero => cases h
  | succ chain ih =>
    obtain ⟨chain', rfl⟩ := Nat.exists_eq_add_one_of_ne_zero (Nat.ne_of_gt (Nat.lt_of_lt_of_le (Nat.succ_pos _) hle))
    rw [skip_else] at h ⊢
    dsimp only at h ⊢
    split at h
    · next hword =>
      rw [if_pos hword]
      exact h
    next hword =>
    rw [if_neg hword]
    split at h
    · next hif =>
      rw [if_pos hif]
      obtain ⟨p₁, hcond, h⟩ := Option.bind_eq_some_iff.mp h
      obtain ⟨p₂, hbranch, h⟩ := Option.bind_eq_some_iff.mp h
      rw [hcond, Option.bind_eq_bind, Option.bind_some, hbranch, Option.bind_some]
      exact ih (Nat.le_of_succ_le_succ hle) h
    · next hif =>
      rw [if_neg hif]
      exact h

theorem skip_if_unique {chain chain' : Nat} {r r' : Text} (h : skip_if chain p = some r)
    (h' : skip_if chain' p = some r') : r = r' := by
  have hmono {n m : Nat} (hle : n ≤ m) {r : Text} (h : skip_if n p = some r) : skip_if m p = some r := by
    obtain ⟨p₁, hcond, h⟩ := Option.bind_eq_some_iff.mp h
    obtain ⟨p₂, hbranch, h⟩ := Option.bind_eq_some_iff.mp h
    unfold skip_if
    rw [hcond, Option.bind_eq_bind, Option.bind_some, hbranch, Option.bind_some]
    exact skip_else_mono hle h
  have hr := hmono (Nat.le_max_left chain chain') h
  rw [hmono (Nat.le_max_right chain chain') h'] at hr
  exact (Option.some.inj hr).symm

example : skip_if 2 (ascii "if (a) \x7b b \x7d else \x7b c \x7d d") = some (ascii " d") := by decide +kernel

/-! ## A run goes where the scanner goes -/

theorem call_yields {α : Type} {P : α → Prop} {m : VmExec α} (hm : Yields m P) (c : Call) : Yields (call c m) P := by
  intro s a s' hrun
  obtain ⟨hvalue, -⟩ := Prod.mk.inj hrun
  exact hm s.vm a (m s.vm).2 (Prod.ext hvalue rfl)

theorem message_yields {α : Type} {P : α → Prop} (msg : String) : Yields (message msg : Program α) P :=
  call_yields (vm_error_yields msg) _

theorem skipped_yields {P : Text → Prop} {o : Outcome Text} (h : ∀ q, o = .ok q → P q) (msg : String) :
    Yields (skipped msg o) P := by
  cases o with
  | ok q => exact .pure (h q rfl)
  | error => exact message_yields msg
  | hang => exact .hang

variable {block : Text → Program Text}

theorem exec_branch_over (hblock : ∀ p, Reaches source p → Yields (block p) (Over braces p)) (taken : Bool)
    (which : String) (hp : Reaches source p) :
    Yields (exec_branch block fuel taken which p) fun r =>
      ∃ q, Over braces p q ∧ peek q 0 = '}'.toUInt8 ∧ r = q.drop 1 := by
  unfold exec_branch
  refine .bind (P := Over braces p) ?_ fun q hq => ?_
  · unfold run_or_skip
    split
    · exact hblock p hp
    · exact skipped_yields (fun q hq => (@skip_to_over braces fuel p q hq).1) _
  · dsimp only
    split
    · exact message_yields _
    · next hclose => exact .pure ⟨skip_ws q, hq.trans (.skip_ws braces_skims), not_not.mp hclose, rfl⟩

theorem condition_over (hclean : Clean c) : Yields (call (.condition c) (eval_condition fuel c)) fun r =>
    Over braces c r.2 ∧ Over parens c r.2 :=
  call_yields (fun s r s' hrun => ⟨eval_condition_over braces_skims fuel hclean s r s' hrun,
    eval_condition_over parens_skims fuel hclean s r s' hrun⟩) _

theorem else_condition_over (hclean : Clean source) (hregular : Regular source) (taken : Bool) (hp : Reaches source p)
    (hc : else_if_condition p = some c) (hsuffix : c <:+ source) :
    Yields (else_condition fuel taken c) fun r => Over braces c r.2 ∧ Over parens c r.2 := by
  unfold else_condition
  split
  · exact condition_over (hclean.suffix hsuffix)
  · exact .bind (skipped_yields (fun q hq => skipped_condition_over hregular hp hc hq) _) fun q hq => .pure hq

/-- From the parenthesis in front of a condition to what is done behind the block that it guards. -/
theorem guarded_over {cond : Program (Bool × Text)} {no_paren no_brace which : String} {t : Bool → Bool}
    {k : Bool → Text → Program Text} {post : Text → Prop} {p0 : Text}
    (hblock : ∀ p, Reaches source p → Yields (block p) (Over braces p)) (hp0 : Reaches source p0)
    (hstart : Over braces p0 p) (hparen : peek p 0 = '('.toUInt8)
    (hcond : Yields cond fun r => Over braces (p.drop 1) r.2 ∧ Over parens (p.drop 1) r.2)
    (hnext : ∀ this_cond b r, skip_condition p = some b → skip_branch b = some r → Over braces p0 r →
      Yields (k this_cond r) post) :
    Yields (do
      let r ← cond
      if peek (skip_ws r.2) 0 ≠ ')'.toUInt8 then message no_paren
      else if peek (skip_ws ((skip_ws r.2).drop 1)) 0 ≠ '{'.toUInt8 then message no_brace
      else
        let q ← exec_branch block fuel (t r.1) which ((skip_ws ((skip_ws r.2).drop 1)).drop 1)
        k r.1 q) post := by
  have hws {p : Text} : Over braces p (skip_ws p) := .skip_ws braces_skims
  refine .bind hcond ?_
  rintro ⟨this_cond, q⟩ ⟨hbraces, hparens⟩
  dsimp only at hbraces hparens ⊢
  split
  · exact message_yields _
  next hclose =>
  have hclose := not_not.mp hclose
  have hbehind : Over braces p0 (skip_ws ((skip_ws q).drop 1)) :=
    hstart.trans (.trans (braces_open_paren hparen) (.trans hbraces (.trans hws
      (.trans (braces_close_paren hclose) hws))))
  split
  · exact message_yields _
  next hbrace =>
  have hbrace := not_not.mp hbrace
  refine .bind (exec_branch_over hblock _ _ ((hp0.over hbehind).opened hbrace)) ?_
  rintro _ ⟨b, hover, hend, rfl⟩
  exact hnext this_cond _ _ (skip_condition_eq hparen hparens hclose) (skip_branch_eq hbrace hover hend)
    (hbehind.trans (.block hbrace hover hend))

/-- The branches behind the first one end where they are skipped to. -/
theorem exec_else_over (hclean : Clean source) (hregular : Regular source)
    (hblock : ∀ p, Reaches source p → Yields (block p) (Over braces p)) (chain : Nat) (taken : Bool) {p0 : Text}
    (hp0 : Reaches source p0) :
    Yields (exec_else block fuel chain taken p0) fun r => Over braces p0 r ∧ skip_else chain p0 = some r := by
  induction chain generalizing taken p0 with
  | zero => exact .hang
  | succ chain ih =>
    have hws {p : Text} : Over braces p (skip_ws p) := .skip_ws braces_skims
    unfold exec_else skip_else
    dsimp only
    split
    · exact .pure ⟨.refl, rfl⟩
    next hword =>
    rw [Bool.not_eq_true, Bool.not_eq_false'] at hword
    have helse : Over braces p0 (skip_ws ((skip_ws p0).drop 4)) :=
      hws.trans (.trans (.keyword braces_skims hword (by decide +kernel)) hws)
    split
    · next hif =>
      split
      · exact message_yields _
      next hparen =>
      have hparen := not_not.mp hparen
      have hopen : Over braces p0 (skip_ws ((skip_ws ((skip_ws p0).drop 4)).drop 2)) :=
        helse.trans (.trans (.keyword braces_skims hif (by decide +kernel)) hws)
      have hc : else_if_condition (skip_ws p0) =
          some ((skip_ws ((skip_ws ((skip_ws p0).drop 4)).drop 2)).drop 1) := by
        unfold else_if_condition
        rw [if_pos hword]
        dsimp only
        rw [if_pos hif, if_pos hparen]
      have hcond := @else_condition_over source _ _ fuel hclean hregular taken (hp0.over hws) hc
        (hp0.over (hopen.trans (braces_open_paren hparen))).suffix
      refine guarded_over (t := fun c => !taken && c)
        (k := fun c => exec_else block fuel chain (taken || c)) hblock hp0 hopen
        hparen hcond fun this_cond b r hskip hbranch hover => ?_
      refine (ih (taken || this_cond) (hp0.over hover)).mono fun r' hr' => ⟨hover.trans hr'.1, ?_⟩
      rw [hskip, Option.bind_eq_bind, Option.bind_some, hbranch, Option.bind_some]
      exact hr'.2
    · split
      · exact message_yields _
      next hbrace =>
      have hbrace := not_not.mp hbrace
      refine (exec_branch_over hblock _ _ ((hp0.over helse).opened hbrace)).mono ?_
      rintro _ ⟨b, hover, hend, rfl⟩
      exact ⟨helse.trans (.block hbrace hover hend), skip_branch_eq hbrace hover hend⟩

theorem exec_if_over (hclean : Clean source) (hregular : Regular source)
    (hblock : ∀ p, Reaches source p → Yields (block p) (Over braces p)) (hp : Reaches source p)
    (hword : keyword (skip_ws p) "if" = true) :
    Yields (exec_if block fuel p) fun r => Over braces p r ∧ skip_if fuel p = some r := by
  have hws {p : Text} : Over braces p (skip_ws p) := .skip_ws braces_skims
  unfold exec_if skip_if
  dsimp only
  split
  · exact message_yields _
  next hparen =>
  have hparen := not_not.mp hparen
  have hopen : Over braces p (skip_ws ((skip_ws p).drop 2)) :=
    hws.trans (.trans (.keyword braces_skims hword (by decide +kernel)) hws)
  have hclean' := hclean.suffix (hp.over (hopen.trans (braces_open_paren hparen))).suffix
  refine guarded_over (t := fun c => c) (k := fun c => exec_else block fuel fuel c) hblock hp hopen hparen
    (condition_over hclean') fun cond b r hskip hbranch hover => ?_
  refine (exec_else_over hclean hregular hblock _ cond (hp.over hover)).mono fun r' hr' => ⟨hover.trans hr'.1, ?_⟩
  rw [hskip, Option.bind_eq_bind, Option.bind_some, hbranch, Option.bind_some]
  exact hr'.2

theorem skip_ws_idem (p : Text) : skip_ws (skip_ws p) = skip_ws p := List.dropWhile_idempotent _ p

theorem exec_stmt_over (hclean : Clean source) (hregular : Regular source)
    (hblock : ∀ p, Reaches source p → Yields (block p) (Over braces p)) {p0 : Text} (hp0 : Reaches source p0) :
    Yields (exec_stmt block fuel p0) (Over braces p0) := by
  have hws : Over braces p0 (skip_ws p0) := .skip_ws braces_skims
  have hclean' := hclean.suffix (hp0.over hws).suffix
  unfold exec_stmt
  dsimp only
  split
  · exact .pure .refl
  split
  · next hsemicolon =>
    -- The character that is taken is a blank or the semicolon.
    refine .pure ?_
    cases p0 with
    | nil => exact .refl
    | cons a l =>
      cases hspace : is_space a with
      | true => exact .token braces_skims (peek_cons_zero a l) (by rw [is_token, hspace]; rfl)
      | false =>
        have hfirst : skip_ws (a :: l) = a :: l := by
          rw [skip_ws, List.dropWhile_cons, if_neg (by rw [hspace]; exact Bool.false_ne_true)]
        rw [hfirst] at hsemicolon
        exact .token braces_skims hsemicolon (by decide)
  split
  · next hcomment =>
    refine .pure (hws.trans fun depth => .step ?_ .refl)
    unfold Scanner.next
    rw [hcomment.1, if_neg (by decide), if_neg (by decide), if_neg (by decide), if_pos ⟨rfl, rfl, hcomment.2⟩]
  split
  · next hword =>
    refine (exec_if_over hclean hregular hblock (hp0.over hws) ?_).mono fun r hr => hws.trans hr.1
    rw [skip_ws_idem]
    exact hword
  split
  · exact (call_yields (exec_decl_over braces_skims fuel hclean') _).mono fun r hr => hws.trans hr
  split
  · next hword => exact (call_yields (exec_cprintf_over fuel hword) _).mono fun r hr => hws.trans hr
  split
  · next hword => exact (call_yields (exec_dinput_over hword) _).mono fun r hr => hws.trans hr
  split
  · exact (call_yields (exec_assignment_over braces_skims fuel hclean') _).mono fun r hr => hws.trans hr
  · exact message_yields _

theorem exec_block_body_over (hclean : Clean source) (hregular : Regular source) (fuel depth : Nat)
    (hp : Reaches source p) :
    Yields (exec_block_body fuel depth p) fun q => Over braces p q ∧ (peek q 0 = 0 ∨ peek q 0 = '}'.toUInt8) := by
  induction depth generalizing p with
  | zero => exact .hang
  | succ depth ih =>
    unfold exec_block_body
    split
    · next hend => exact .pure ⟨.skip_ws braces_skims, hend⟩
    · have hblock (p : Text) (hp : Reaches source p) : Yields (exec_block_body fuel depth p) (Over braces p) :=
        (ih hp).mono fun q hq => hq.1
      refine .bind (exec_stmt_over hclean hregular hblock hp) fun q hq => ?_
      exact (ih (hp.over hq)).mono fun r hr => ⟨hq.trans hr.1, hr.2⟩

example : (exec_block_body 9 9 (ascii "if (true) \x7b \x7d \x7d") ⟨vm_reset fun _ => [], []⟩).1 = .ok
    (ascii "\x7d") := by
  decide +kernel

/-! ## Agreement -/

theorem skipped_unchanged {msg : String} {o : Outcome Text} {s s' : Session} (h : skipped msg o s = (.ok q, s')) :
    s' = s := by
  cases o with
  | ok p => exact (Prod.mk.inj h).2.symm
  | error => exact absurd trivial (message_yields (P := fun _ => ¬ True) msg s q s' h)
  | hang => cases h

theorem else_condition_unchanged {r : Bool × Text} {s s' : Session}
    (h : else_condition fuel true p s = (.ok r, s')) : s' = s := by
  unfold else_condition at h
  rw [if_neg (by decide)] at h
  rcases hskip : skipped "unterminated else-if condition" (skip_to_close_paren fuel p) s with ⟨_ | q, s₁⟩
  case ok q =>
    rw [bind_ok hskip] at h
    rw [← skipped_unchanged hskip]
    exact (Prod.mk.inj h).2.symm
  case error =>
    rw [bind_error hskip] at h
    cases h
  case hang =>
    rw [bind_hang hskip] at h
    cases h

theorem skip_agrees {fuel depth : Nat} {p : Text} (hclean : Clean p) :
    (Regular p → ∀ s q s', exec_block_body fuel depth p s = (.ok q, s') → peek q 0 = '}'.toUInt8 →
      ∀ n, p.length < n → skip_block_body n p = .ok q) ∧
    (∀ vm result q vm', eval_condition fuel p vm = (.ok (result, q), vm') → peek (skip_ws q) 0 = ')'.toUInt8 →
      ∀ n, p.length < n → skip_to_close_paren n p = .ok (skip_ws q)) ∧
    (Regular p → keyword (skip_ws p) "if" = true → ∀ fuel' depth' s₁ s₂ r₁ r₂ s₁' s₂',
      exec_if (exec_block_body fuel depth) fuel p s₁ = (.ok r₁, s₁') →
      exec_if (exec_block_body fuel' depth') fuel' p s₂ = (.ok r₂, s₂') → r₁ = r₂) ∧
    (∀ which s q s', run_or_skip (exec_block_body fuel depth) fuel false which p s = (.ok q, s') → s' = s) ∧
    ∀ s r s', else_condition fuel true p s = (.ok r, s') → s' = s := by
  refine ⟨?_, ?_, ?_, fun which s q s' h => skipped_unchanged h, fun s r s' h => else_condition_unchanged h⟩
  · intro hregular s q s' hrun hclose n hn
    exact skip_block_body_close (exec_block_body_over hclean hregular fuel depth .start s q s' hrun).1 hclose hn
  · intro vm result q vm' hrun hclose n hn
    have hover : Over parens p q := eval_condition_over parens_skims fuel hclean vm (result, q) vm' hrun
    exact skip_to_close_paren_close (hover.trans (.skip_ws parens_skims)) hclose hn
  · intro hregular hword fuel' depth' s₁ s₂ r₁ r₂ s₁' s₂' h₁ h₂
    have hblock (fuel depth : Nat) (b : Text) (hb : Reaches p b) :
        Yields (exec_block_body fuel depth b) (Over braces b) :=
      (exec_block_body_over hclean hregular fuel depth hb).mono fun q hq => hq.1
    exact skip_if_unique (exec_if_over hclean hregular (hblock fuel depth) .start hword s₁ r₁ s₁' h₁).2
      (exec_if_over hclean hregular (hblock fuel' depth') .start hword s₂ r₂ s₂' h₂).2

/-- A session that has not begun. -/
def fresh : Session := ⟨vm_reset fun _ => [], []⟩

/-- A block with a chain of its own: `if (true) { } else if (x == '}') { } } y`. -/
def chain_text : Text := ascii "if (true) \x7b \x7d else if (x == '\x7d') \x7b \x7d \x7d y"

theorem skip_agrees_chain : skip_block_body 50 chain_text = .ok (ascii "\x7d y") := by
  have hrun : (exec_block_body 9 9 chain_text fresh).1 = .ok (ascii "\x7d y") := by decide +kernel
  exact (@skip_agrees 9 9 chain_text (by decide +kernel)).1 (by decide +kernel) fresh _ _ (run_of_value hrun) rfl 50
    (by decide +kernel)

/-- A block whose second condition is only skipped, and holds a brace: `if (true) { } else if ( } ) { } }`. -/
def hidden_text : Text := ascii "if (true) \x7b \x7d else if ( \x7d ) \x7b \x7d \x7d"

theorem skip_misses_hidden : (exec_block_body 9 9 hidden_text fresh).1 = .ok (ascii "\x7d") ∧
    skip_block_body 50 hidden_text = .ok (ascii "\x7d ) \x7b \x7d \x7d") := by
  decide +kernel

/-! ## The end of a program -/

/-- No brace of the text closes a block that was not opened. -/
def no_stray_brace (source : Text) : Bool := skip_block_body (source.length + 1) source = .error

/-- A program that ends without an error has come to the end of its text exactly where the text has no stray brace. -/
theorem exec_source_complete_iff {fuel : Nat} {source q : Text} {s s' : Session} (hclean : Clean source)
    (hregular : Regular source) (hrun : exec_source fuel source s = (.ok q, s')) :
    peek q 0 = 0 ↔ no_stray_brace source = true := by
  obtain ⟨hover, hend⟩ := exec_block_body_over hclean hregular fuel fuel .start s q s' hrun
  rw [no_stray_brace, decide_eq_true_eq]
  constructor
  · intro hzero
    have hskip := (hover 0).skip_to (next_end hzero) (Nat.lt_succ_self source.length)
    rwa [if_pos hzero] at hskip
  · intro herror
    rcases hend with hzero | hclose
    · exact hzero
    · rw [skip_block_body_close hover hclose (Nat.lt_succ_self _)] at herror
      cases herror

/-- A program of one statement. -/
def greeting : Text := ascii "cprintf(\"hi\");"

theorem exec_source_complete_greeting : peek [] 0 = 0 ↔ no_stray_brace greeting = true := by
  have hrun : (exec_source 9 greeting fresh).1 = .ok [] := by decide +kernel
  exact exec_source_complete_iff (by decide +kernel) (by decide +kernel) (run_of_value hrun)

/-- What follows a stray brace, as in `} cprintf("hi");`, is dropped: nothing is printed, and nothing is reported. -/
theorem exec_source_drops : (exec_source 9 (ascii "\x7d cprintf(\"hi\");") fresh).1 =
      .ok (ascii "\x7d cprintf(\"hi\");") ∧
    (exec_source 9 (ascii "\x7d cprintf(\"hi\");") fresh).2.vm.out = [] ∧
    peek (ascii "\x7d cprintf(\"hi\");") 0 ≠ 0 := by
  decide +kernel

end graceos.chivm
