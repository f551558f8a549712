import GraceOS.Chivm.Runs

/-!
# Types at run time

The array pool is divided among the array literals. A value of array type keeps the element kind of its literal, and
every cell belongs to one literal: this is what the checks of the interpreter rely on.
-/

namespace graceos.chivm

open exec

variable {α β : Type} {vm vm' vm'' : Vm} {owner owner' owner'' : Nat → chivm_vkind_t} {fuel : Nat}

/-- An array value stays inside of the pool in use, on cells of literals of its element kind. -/
def Fits (owner : Nat → chivm_vkind_t) (next : Nat) : chivm_val_t → Prop
  | .array pool_start count elem_type => pool_start + count ≤ next ∧ ∀ j < count, owner (pool_start + j) = elem_type
  | _ => True

/-- `owner k` is the element kind of the literal that cell `k` belongs to. -/
structure Typed (owner : Nat → chivm_vkind_t) (vm : Vm) : Prop where
  cap : vm.pool_next ≤ CHIVM_ARRAY_POOL_CAP
  cells : ∀ k < vm.pool_next, Fits owner vm.pool_next (vm.pool k)
  kinds : ∀ k < vm.pool_next, owner k ≠ .VAL_NONE → (vm.pool k).kind = owner k
  vars : ∀ v ∈ vm.vars, Fits owner vm.pool_next v.val

/-- A value is of a declared type: of its kind, and an array built with its elements, if it is not empty. -/
def Suits (decl_kind decl_elem : chivm_vkind_t) (val : chivm_val_t) : Prop :=
  val.kind = decl_kind ∧
    match val with
    | .none => False
    | .array _ count elem_type => count = 0 ∨ decl_elem = .VAL_NONE ∨ elem_type = decl_elem
    | _ => True

/-- An array value lies below cell `k`. -/
def Below (k : Nat) : chivm_val_t → Prop
  | .array pool_start count _ => pool_start + count ≤ k
  | _ => True

/-- New array literals in the pool, and everything else of the memory as it was. -/
structure Grown (owner : Nat → chivm_vkind_t) (vm : Vm) (owner' : Nat → chivm_vkind_t) (vm' : Vm) : Prop where
  vars : vm'.vars = vm.vars
  next : vm.pool_next ≤ vm'.pool_next
  pool : ∀ k < vm.pool_next, vm'.pool k = vm.pool k
  owner : ∀ k < vm.pool_next, owner' k = owner k
  below : ∀ k, vm.pool_next ≤ k → k < vm'.pool_next → Below k (vm'.pool k)

theorem Grown.refl (owner : Nat → chivm_vkind_t) (vm : Vm) : Grown owner vm owner vm :=
  ⟨rfl, Nat.le_refl _, fun _ _ => rfl, fun _ _ => rfl, fun _ hle hlt => absurd hlt (Nat.not_lt.2 hle)⟩

theorem Grown.trans (h : Grown owner vm owner' vm') (h' : Grown owner' vm' owner'' vm'') :
    Grown owner vm owner'' vm'' where
  vars := h'.vars.trans h.vars
  next := Nat.le_trans h.next h'.next
  pool := fun k hk => (h'.pool k (Nat.lt_of_lt_of_le hk h.next)).trans (h.pool k hk)
  owner := fun k hk => (h'.owner k (Nat.lt_of_lt_of_le hk h.next)).trans (h.owner k hk)
  below := by
    intro k hle hlt
    by_cases hold : k < vm'.pool_next
    · rw [h'.pool k hold]
      exact h.below k hle hold
    · exact h'.below k (Nat.not_lt.1 hold) hlt

theorem Fits.grow {v : chivm_val_t} (hgrown : Grown owner vm owner' vm') (hv : Fits owner vm.pool_next v) :
    Fits owner' vm'.pool_next v := by
  cases v with
  | array pool_start count elem_type =>
    refine ⟨Nat.le_trans hv.1 hgrown.next, fun j hj => ?_⟩
    have hle := hv.1
    rw [hgrown.owner _ (by omega), hv.2 j hj]
  | _ => trivial

/-! ## Parsers -/

/-- What `m` leaves are new literals, in a pool that stays typed, and `post` holds of its value. -/
def Allocates (owner : Nat → chivm_vkind_t) (m : VmExec α) (vm : Vm)
    (post : α → (Nat → chivm_vkind_t) → Vm → Prop) : Prop :=
  ∃ owner', Grown owner vm owner' (m vm).2 ∧ Typed owner' (m vm).2 ∧ ∀ a, (m vm).1 = .ok a → post a owner' (m vm).2

section Rules

variable {m handler : VmExec α} {f : α → VmExec β} {post : α → (Nat → chivm_vkind_t) → Vm → Prop}
  {done : β → (Nat → chivm_vkind_t) → Vm → Prop} {a : α}

theorem Allocates.pure (hvm : Typed owner vm) (ha : post a owner vm) : Allocates owner (Pure.pure a) vm post :=
  ⟨owner, .refl owner vm, hvm, fun b hb => by cases hb; exact ha⟩

theorem Allocates.error (hvm : Typed owner vm) : Allocates owner Exec.error vm post :=
  ⟨owner, .refl owner vm, hvm, fun b hb => by cases hb⟩

theorem Allocates.hang (hvm : Typed owner vm) : Allocates owner Exec.hang vm post :=
  ⟨owner, .refl owner vm, hvm, fun b hb => by cases hb⟩

theorem Allocates.bind (hm : Allocates owner m vm post)
    (hf : ∀ a owner' vm', Grown owner vm owner' vm' → Typed owner' vm' → post a owner' vm' →
      Allocates owner' (f a) vm' done) : Allocates owner (m >>= f) vm done := by
  obtain ⟨owner', hgrown, htyped, hpost⟩ := hm
  rcases hms : m vm with ⟨_ | a, vm'⟩
  all_goals rw [hms] at hgrown htyped hpost
  case ok a =>
    obtain ⟨owner'', hgrown', htyped', hdone⟩ := hf a owner' vm' hgrown htyped (hpost a rfl)
    rw [Allocates, bind_ok hms]
    exact ⟨owner'', hgrown.trans hgrown', htyped', hdone⟩
  case error =>
    rw [Allocates, bind_error hms]
    exact ⟨owner', hgrown, htyped, fun b hb => by cases hb⟩
  case hang =>
    rw [Allocates, bind_hang hms]
    exact ⟨owner', hgrown, htyped, fun b hb => by cases hb⟩

theorem Allocates.get {f : Vm → VmExec β} (hf : Allocates owner (f vm) vm done) :
    Allocates owner (Exec.get >>= f) vm done := hf

theorem Allocates.orElse (hm : Allocates owner m vm post)
    (hhandler : ∀ owner' vm', Typed owner' vm' → Allocates owner' handler vm' post) :
    Allocates owner (m.orElse handler) vm post := by
  obtain ⟨owner', hgrown, htyped, hpost⟩ := hm
  unfold Allocates Exec.orElse
  rcases hms : m vm with ⟨_ | a, vm'⟩
  all_goals rw [hms] at hgrown htyped hpost
  case error =>
    obtain ⟨owner'', hgrown', htyped', hdone⟩ := hhandler owner' vm' htyped
    exact ⟨owner'', hgrown.trans hgrown', htyped', hdone⟩
  case ok a => exact ⟨owner', hgrown, htyped, hpost⟩
  case hang => exact ⟨owner', hgrown, htyped, hpost⟩

theorem Typed.print (hvm : Typed owner vm) (out : List UInt8) : Typed owner { vm with out } :=
  ⟨hvm.cap, hvm.cells, hvm.kinds, hvm.vars⟩

theorem Grown.print (owner : Nat → chivm_vkind_t) (vm : Vm) (out : List UInt8) :
    Grown owner vm owner { vm with out } :=
  ⟨rfl, Nat.le_refl _, fun _ _ => rfl, fun _ _ => rfl, fun _ hle hlt => absurd hlt (Nat.not_lt.2 hle)⟩

theorem vm_error_apply (msg : String) (vm : Vm) : ∃ out, (vm_error msg : VmExec α) vm = (.error, { vm with out }) :=
  ⟨_, rfl⟩

theorem Allocates.vm_error (hvm : Typed owner vm) (msg : String) : Allocates owner (vm_error msg) vm post := by
  obtain ⟨out, herr⟩ := @vm_error_apply α msg vm
  rw [Allocates, herr]
  exact ⟨owner, .print owner vm out, hvm.print out, fun b hb => by cases hb⟩

theorem Allocates.parsed (hvm : Typed owner vm) (o : Option α) :
    Allocates owner (parsed o) vm fun _ _ _ => True := by
  cases o with
  | none => exact .error hvm
  | some a => exact .pure hvm trivial

theorem Allocates.tty_print (hvm : Typed owner vm) (s : List UInt8) :
    Allocates owner (tty_print s) vm fun _ _ _ => True :=
  ⟨owner, .print owner vm _, hvm.print _, fun _ _ => trivial⟩

end Rules

/-- The value in front of a result is one that fits. -/
def FitsFirst (r : chivm_val_t × Text) (owner : Nat → chivm_vkind_t) (vm : Vm) : Prop := Fits owner vm.pool_next r.1

theorem Typed.alloc (hvm : Typed owner vm) {elems : List chivm_val_t} {elem_type : chivm_vkind_t}
    (helems : ∀ e ∈ elems, Fits owner vm.pool_next e ∧ (elem_type ≠ .VAL_NONE → e.kind = elem_type)) {start : Nat}
    (halloc : alloc_array_pool elems vm = some (start, vm')) :
    ∃ owner', Grown owner vm owner' vm' ∧ Typed owner' vm' ∧
      Fits owner' vm'.pool_next (.array start elems.length elem_type) := by
  unfold alloc_array_pool at halloc
  split at halloc
  · cases halloc
  rename_i hcap
  dsimp only at halloc
  cases halloc
  have hget : ∀ k, vm.pool_next ≤ k → k < vm.pool_next + elems.length →
      elems.getD (k - vm.pool_next) .none ∈ elems := by
    intro k hle hlt
    have hidx : k - vm.pool_next < elems.length := by omega
    rw [List.getD_eq_getElem?_getD, List.getElem?_eq_getElem hidx, Option.getD_some]
    exact List.getElem_mem hidx
  have hgrown : Grown owner vm (fun k => if vm.pool_next ≤ k then elem_type else owner k)
      { vm with
        pool := fun k => if vm.pool_next ≤ k ∧ k < vm.pool_next + elems.length then
          elems.getD (k - vm.pool_next) .none else vm.pool k
        pool_next := vm.pool_next + elems.length } := by
    refine ⟨rfl, Nat.le_add_right _ _, fun k hk => ?_, fun k hk => ?_, fun k hle hlt => ?_⟩
    · exact if_neg fun h => absurd hk (Nat.not_lt.2 h.1)
    · exact if_neg (Nat.not_le.2 hk)
    · dsimp only at hlt ⊢
      rw [if_pos ⟨hle, hlt⟩]
      have hfits := (helems _ (hget k hle hlt)).1
      generalize elems.getD (k - vm.pool_next) .none = e at hfits
      cases e with
      | array pool_start count _ => exact Nat.le_trans hfits.1 hle
      | _ => trivial
  refine ⟨_, hgrown, ⟨by dsimp only; omega, fun k hk => ?_, fun k hk hne => ?_, fun v hv => ?_⟩, ?_⟩
  · by_cases hold : k < vm.pool_next
    · rw [hgrown.pool k hold]
      exact (hvm.cells k hold).grow hgrown
    · dsimp only at hk ⊢
      rw [if_pos ⟨Nat.not_lt.1 hold, hk⟩]
      exact (helems _ (hget k (Nat.not_lt.1 hold) hk)).1.grow hgrown
  · by_cases hold : k < vm.pool_next
    · rw [hgrown.pool k hold]
      rw [hgrown.owner k hold] at hne ⊢
      exact hvm.kinds k hold hne
    · dsimp only at hk hne ⊢
      rw [if_pos (Nat.not_lt.1 hold)] at hne ⊢
      rw [if_pos ⟨Nat.not_lt.1 hold, hk⟩]
      exact (helems _ (hget k (Nat.not_lt.1 hold) hk)).2 hne
  · exact (hvm.vars v hv).grow hgrown
  · exact ⟨Nat.le_refl _, fun j _ => if_pos (Nat.le_add_right _ _)⟩

theorem fits_of_mem_vars (hvm : Typed owner vm) {name : List UInt8} {v : chivm_var_t}
    (hv : find_var vm.vars name = some v) : Fits owner vm.pool_next v.val :=
  hvm.vars v (List.mem_of_find?_eq_some hv)

theorem Allocates.parse_index (hvm : Typed owner vm) (p : Text) (msg : String) :
    Allocates owner (parse_index p msg) vm fun _ _ _ => True := by
  unfold chivm.parse_index
  split
  · exact .pure hvm trivial
  · split
    · exact .vm_error hvm _
    · refine .get ?_
      split
      · exact .pure hvm trivial
      · exact .vm_error hvm _

theorem Allocates.parse_elems {parse : Text → VmExec (chivm_val_t × Text)} {elem_type : chivm_vkind_t}
    (hparse : ∀ {owner vm}, Typed owner vm → ∀ p, Allocates owner (parse p) vm FitsFirst) (room : Nat)
    {elems : List chivm_val_t} (hvm : Typed owner vm)
    (helems : ∀ e ∈ elems, Fits owner vm.pool_next e ∧ (elem_type ≠ .VAL_NONE → e.kind = elem_type)) (p : Text) :
    Allocates owner (parse_elems parse elem_type room elems p) vm fun r owner' vm' =>
      ∀ e ∈ r.1, Fits owner' vm'.pool_next e ∧ (elem_type ≠ .VAL_NONE → e.kind = elem_type) := by
  induction room generalizing owner vm elems p with
  | zero =>
    unfold chivm.parse_elems
    split
    · exact .pure hvm helems
    · exact .vm_error hvm _
  | succ room ih =>
    unfold chivm.parse_elems
    split
    · exact .pure hvm helems
    · refine .bind (.orElse (hparse hvm p) fun _ _ h => .vm_error h _) fun r owner' vm' hgrown hvm' hfits => ?_
      obtain ⟨elem, rest⟩ := r
      dsimp only
      split
      · exact .vm_error hvm' _
      · rename_i hkind
        refine ih hvm' (fun e he => ?_) _
        rcases List.mem_append.1 he with hold | hnew
        · exact ⟨(helems e hold).1.grow hgrown, (helems e hold).2⟩
        · cases List.mem_singleton.1 hnew
          refine ⟨hfits, fun hne => ?_⟩
          by_contra hdiff
          exact hkind ⟨hne, hdiff⟩

/-- A literal of typed elements is an array of their kind. -/
def IsLiteral (elem_type : chivm_vkind_t) (r : chivm_val_t × Text) (owner : Nat → chivm_vkind_t) (vm : Vm) : Prop :=
  Fits owner vm.pool_next r.1 ∧ ∃ pool_start count, r.1 = .array pool_start count elem_type

theorem Allocates.array_literal {parse : Text → VmExec (chivm_val_t × Text)}
    (hparse : ∀ {owner vm}, Typed owner vm → ∀ p, Allocates owner (parse p) vm FitsFirst) (hvm : Typed owner vm)
    (p : Text) (elem_type : chivm_vkind_t) :
    Allocates owner (array_literal parse p elem_type) vm (IsLiteral elem_type) := by
  unfold chivm.array_literal
  dsimp only
  split
  · exact .error hvm
  refine .bind (.parse_elems hparse 64 hvm (fun e he => absurd he List.not_mem_nil) _)
    fun r owner' vm' _ hvm' helems => ?_
  obtain ⟨elems, rest⟩ := r
  dsimp only at helems ⊢
  split
  · exact .vm_error hvm' _
  refine .get ?_
  split
  · exact .vm_error hvm' _
  · rename_i start vm'' halloc
    obtain ⟨owner'', hgrown, hvm'', hfits⟩ := hvm'.alloc helems halloc
    exact ⟨owner'', hgrown, hvm'', fun r hr => by cases hr; exact ⟨hfits, start, elems.length, rfl⟩⟩

theorem Allocates.parse_name (hvm : Typed owner vm) (p : Text) : Allocates owner (parse_name p) vm FitsFirst := by
  unfold chivm.parse_name
  dsimp only
  split
  · exact .error hvm
  split
  · exact .pure hvm trivial
  split
  · exact .pure hvm trivial
  refine .get ?_
  split
  · exact .error hvm
  rename_i v hv
  have hfits := fits_of_mem_vars hvm hv
  split
  · rename_i pool_start count elem_type hval
    rw [hval] at hfits
    split
    · refine .bind (.parse_index hvm _ _) fun r owner' vm' hgrown hvm' _ => ?_
      obtain ⟨idx, rest⟩ := r
      dsimp only
      split
      · exact .vm_error hvm' _
      split
      · exact .vm_error hvm' _
      · rename_i hidx
        refine .pure hvm' ?_
        have hcell : pool_start + idx.toNat < vm.pool_next := by
          have hle := hfits.1
          omega
        have hread := hvm.cells _ hcell
        exact hread.grow hgrown
    · refine .pure hvm ?_
      rw [FitsFirst, hval]
      exact hfits
  · exact .pure hvm hfits

theorem Allocates.parse_val_expr (fuel : Nat) {owner : Nat → chivm_vkind_t} {vm : Vm} (hvm : Typed owner vm)
    (p : Text) : Allocates owner (parse_val_expr fuel p) vm FitsFirst := by
  induction fuel generalizing owner vm p with
  | zero => exact .hang hvm
  | succ fuel ih =>
    unfold chivm.parse_val_expr
    dsimp only
    split
    · refine .bind (.parsed hvm _) fun r owner' vm' _ hvm' _ => ?_
      exact .pure hvm' trivial
    split
    · refine .bind (.parsed hvm _) fun r owner' vm' _ hvm' _ => ?_
      exact .pure hvm' trivial
    split
    · obtain ⟨owner', hgrown, hvm', hlit⟩ := Allocates.array_literal (fun h p => ih h p) hvm (skip_ws p) .VAL_NONE
      exact ⟨owner', hgrown, hvm', fun r hr => (hlit r hr).1⟩
    split
    · refine .bind (.parsed hvm _) fun r owner' vm' _ hvm' _ => ?_
      exact .pure hvm' trivial
    split
    · exact .error hvm
    · exact .parse_name hvm _

theorem Allocates.val_compare (hvm : Typed owner vm) (a b : chivm_val_t) (op : Op) :
    Allocates owner (val_compare a b op) vm fun _ _ _ => True := by
  unfold chivm.val_compare
  split
  · split
    · exact .pure hvm trivial
    · exact .pure hvm trivial
    · exact .bind (.tty_print hvm _) fun _ _ _ _ hvm' _ => .pure hvm' trivial
  · exact .pure hvm trivial

theorem Allocates.eval_condition (hvm : Typed owner vm) (p : Text) :
    Allocates owner (eval_condition fuel p) vm fun _ _ _ => True := by
  unfold chivm.eval_condition
  refine .bind (.orElse (.parse_val_expr fuel hvm _) fun _ _ h => .vm_error h _) fun r owner' vm' _ hvm' _ => ?_
  obtain ⟨lhs, rest⟩ := r
  dsimp only
  split
  · refine .bind (.orElse (.parse_val_expr fuel hvm' _) fun _ _ h => .vm_error h _) fun r owner' vm' _ hvm' _ => ?_
    exact .bind (.val_compare hvm' _ _ _) fun _ _ _ _ hvm' _ => .pure hvm' trivial
  · exact .pure hvm' trivial

/-- What an initialiser gives suits the declaration. -/
def SuitsInit (decl_kind elem_type : chivm_vkind_t) (r : chivm_val_t × Text) (owner : Nat → chivm_vkind_t) (vm : Vm) :
    Prop :=
  Fits owner vm.pool_next r.1 ∧ Suits decl_kind elem_type r.1

theorem Allocates.parse_init (hvm : Typed owner vm) (decl_kind elem_type : chivm_vkind_t)
    (hkind : decl_kind ≠ .VAL_NONE) (helem : decl_kind ≠ .VAL_ARRAY → elem_type = .VAL_NONE) (p : Text) :
    Allocates owner (parse_init fuel decl_kind elem_type p) vm (SuitsInit decl_kind elem_type) := by
  unfold chivm.parse_init
  split
  · rename_i harray
    refine .orElse ?_ fun _ _ h => .vm_error h _
    obtain ⟨owner', hgrown, hvm', hlit⟩ := Allocates.array_literal (fun h p => .parse_val_expr fuel h p) hvm p elem_type
    refine ⟨owner', hgrown, hvm', fun r hr => ?_⟩
    obtain ⟨hfits, pool_start, count, hval⟩ := hlit r hr
    refine ⟨hfits, ?_⟩
    rw [hval]
    exact ⟨harray.symm, Or.inr (Or.inr rfl)⟩
  · rename_i hscalar
    refine .bind (.orElse (.parse_val_expr fuel hvm _) fun _ _ h => .vm_error h _) fun r owner' vm' _ hvm' hfits => ?_
    obtain ⟨init, rest⟩ := r
    dsimp only
    split
    · exact .vm_error hvm' _
    · rename_i hsame
      have hinit := not_not.1 hsame
      refine .pure hvm' ⟨hfits, hinit, ?_⟩
      rw [helem hscalar]
      cases init with
      | none => exact hkind hinit.symm
      | array pool_start count elem => exact Or.inr (Or.inl rfl)
      | _ => trivial

/-! ## The variable table -/

section Table

variable {vars vars' : List chivm_var_t} {name : List UInt8} {f : chivm_var_t → chivm_var_t} {v w : chivm_var_t}

theorem mem_update_var (h : w ∈ update_var name f vars) :
    w ∈ vars ∨ ∃ v, find_var vars name = some v ∧ w = f v := by
  induction vars with
  | nil => exact absurd h List.not_mem_nil
  | cons u vars ih =>
    rw [update_var] at h
    rw [find_var, List.find?_cons]
    split at h
    · rename_i hname
      rw [hname]
      rcases List.mem_cons.1 h with rfl | hrest
      · exact Or.inr ⟨u, rfl, rfl⟩
      · exact Or.inl (List.mem_cons_of_mem u hrest)
    · rename_i hname
      rw [Bool.eq_false_iff.2 hname]
      rcases List.mem_cons.1 h with rfl | hrest
      · exact Or.inl List.mem_cons_self
      · rcases ih hrest with hold | hnew
        · exact Or.inl (List.mem_cons_of_mem u hold)
        · exact Or.inr hnew

theorem update_update {g : chivm_var_t → chivm_var_t} (hf : ∀ v, (f v).name = v.name) :
    update_var name g (update_var name f vars) = update_var name (fun v => g (f v)) vars := by
  induction vars with
  | nil => rfl
  | cons u vars ih =>
    rw [update_var, update_var]
    split
    · rename_i hname
      rw [update_var, hf, if_pos hname]
    · rename_i hname
      rw [update_var, if_neg hname, ih]

theorem alloc_var_find {decl_kind decl_elem : chivm_vkind_t} (hkind : decl_kind ≠ .VAL_NONE)
    (hname : name.length ≤ CHIVM_MAX_NAME_LEN - 1) (h : alloc_var vars name decl_kind decl_elem = some vars') :
    (∃ v, find_var vars name = some v ∧ vars' = vars) ∨
      (find_var vars name = none ∧ vars' = vars ++ [⟨name, decl_kind, decl_elem, .zero decl_kind .VAL_NONE⟩]) := by
  unfold alloc_var at h
  split at h
  · rename_i v hv
    cases h
    exact Or.inl ⟨v, hv, rfl⟩
  · rename_i hnone
    split at h
    · cases h
    · dsimp only at h
      cases h
      rw [List.take_of_length_le hname]
      exact Or.inr ⟨hnone, rfl⟩

theorem find_append_new (hnone : find_var vars name = none) (hname : w.name = name) :
    find_var (vars ++ [w]) name = some w := by
  rw [find_var] at hnone ⊢
  rw [List.find?_append, hnone, List.find?_singleton, hname]
  simp

end Table

theorem parse_ident_length {p rest : Text} {out_len : Nat} {name : List UInt8}
    (h : parse_ident p out_len = some (name, rest)) : name.length ≤ out_len - 1 := by
  unfold parse_ident at h
  dsimp only at h
  split at h
  · cases h
  split at h
  · cases h
  · rename_i hlen
    cases h
    omega

theorem decl_type_kinds {p rest : Text} {decl_kind elem_type : chivm_vkind_t}
    (h : decl_type p = some (decl_kind, elem_type, rest)) :
    decl_kind ≠ .VAL_NONE ∧ (decl_kind ≠ .VAL_ARRAY → elem_type = .VAL_NONE) := by
  unfold decl_type at h
  obtain ⟨⟨word, kind, elem⟩, hfind, heq⟩ := Option.map_eq_some_iff.1 h
  dsimp only at heq
  cases heq
  have hall : ∀ type ∈ decl_types, type.2.1 ≠ .VAL_NONE ∧ (type.2.1 ≠ .VAL_ARRAY → type.2.2 = .VAL_NONE) := by
    decide
  exact hall _ (List.mem_of_find?_eq_some hfind)

/-! ## Statements -/

/-- Every variable holds a value of its declared type. -/
structure Sound (owner : Nat → chivm_vkind_t) (vm : Vm) : Prop where
  typed : Typed owner vm
  suits : ∀ v ∈ vm.vars, Suits v.decl_kind v.decl_elem v.val

theorem Sound.of_grown (hs : Sound owner vm) (hgrown : Grown owner vm owner' vm') (htyped : Typed owner' vm') :
    Sound owner' vm' := by
  refine ⟨htyped, fun v hv => ?_⟩
  rw [hgrown.vars] at hv
  exact hs.suits v hv

theorem Allocates.sound {m : VmExec α} {post : α → (Nat → chivm_vkind_t) → Vm → Prop} (hs : Sound owner vm)
    (h : Allocates owner m vm post) : ∃ owner', Sound owner' (m vm).2 := by
  obtain ⟨owner', hgrown, htyped, _⟩ := h
  exact ⟨owner', hs.of_grown hgrown htyped⟩

theorem Sound.print (hs : Sound owner vm) (out : List UInt8) : Sound owner { vm with out } :=
  ⟨hs.typed.print out, hs.suits⟩

theorem Sound.store (hs : Sound owner vm) {name : List UInt8} {val : chivm_val_t}
    (hfits : Fits owner vm.pool_next val)
    (hsuits : ∀ v, find_var vm.vars name = some v → Suits v.decl_kind v.decl_elem val) :
    Sound owner (store name val vm).2 := by
  have hmem : ∀ w ∈ (chivm.store name val vm).2.vars, w ∈ vm.vars ∨
      ∃ v, find_var vm.vars name = some v ∧ w = { v with val } := fun w hw => mem_update_var hw
  refine ⟨⟨hs.typed.cap, hs.typed.cells, hs.typed.kinds, fun w hw => ?_⟩, fun w hw => ?_⟩
  · rcases hmem w hw with hold | ⟨v, _, rfl⟩
    · exact hs.typed.vars w hold
    · exact hfits
  · rcases hmem w hw with hold | ⟨v, hv, rfl⟩
    · exact hs.suits w hold
    · exact hsuits v hv

/-- The state in which the initialiser of a declaration is read: the variable is there, with its new type and the
value that it had. -/
def declared (name : List UInt8) (decl_kind decl_elem : chivm_vkind_t) (vm : Vm) : Vm :=
  (declare name decl_kind decl_elem vm).2

/-- A declaration whose initialiser fails leaves no value of another type behind. -/
def DeclMeets (fuel : Nat) (vm : Vm) (p : Text) : Prop :=
  ∀ decl_kind elem_type p₁ name p₂, decl_type (skip_ws p) = some (decl_kind, elem_type, p₁) →
    parse_ident p₁ CHIVM_MAX_NAME_LEN = some (name, p₂) → peek (skip_ws p₂) 0 = '='.toUInt8 →
    ∀ v, find_var vm.vars name = some v → ¬Suits decl_kind elem_type v.val →
      ∃ r, (parse_init fuel decl_kind elem_type ((skip_ws p₂).drop 1)
        (declared name decl_kind elem_type vm)).1 = .ok r

theorem suits_zero {decl_kind : chivm_vkind_t} (hkind : decl_kind ≠ .VAL_NONE) (decl_elem elem_type : chivm_vkind_t) :
    Suits decl_kind decl_elem (.zero decl_kind elem_type) := by
  cases decl_kind with
  | VAL_NONE => exact absurd rfl hkind
  | VAL_ARRAY => exact ⟨rfl, Or.inl rfl⟩
  | _ => exact ⟨rfl, trivial⟩

theorem Sound.alloc_var (hs : Sound owner vm) {decl_kind decl_elem : chivm_vkind_t} (hkind : decl_kind ≠ .VAL_NONE)
    {name : List UInt8} (hname : name.length ≤ CHIVM_MAX_NAME_LEN - 1) {vars : List chivm_var_t}
    (halloc : alloc_var vm.vars name decl_kind decl_elem = some vars) :
    Sound owner { vm with vars } ∧ ∀ v, find_var vars name = some v →
      find_var vm.vars name = some v ∨ v.decl_kind = decl_kind ∧ Suits decl_kind decl_elem v.val := by
  rcases alloc_var_find hkind hname halloc with ⟨v, hv, rfl⟩ | ⟨hnone, rfl⟩
  · exact ⟨hs, fun w hw => Or.inl hw⟩
  · refine ⟨⟨⟨hs.typed.cap, hs.typed.cells, hs.typed.kinds, fun w hw => ?_⟩, fun w hw => ?_⟩, fun w hw => ?_⟩
    · rcases List.mem_append.1 hw with hold | hnew
      · exact hs.typed.vars w hold
      · cases List.mem_singleton.1 hnew
        cases decl_kind with
        | VAL_ARRAY => exact ⟨Nat.zero_le _, fun j hj => absurd hj (Nat.not_lt_zero j)⟩
        | _ => trivial
    · rcases List.mem_append.1 hw with hold | hnew
      · exact hs.suits w hold
      · cases List.mem_singleton.1 hnew
        exact suits_zero hkind _ _
    · rw [find_append_new hnone rfl] at hw
      cases hw
      exact Or.inr ⟨rfl, suits_zero hkind _ _⟩

theorem declare_cases {name : List UInt8} {decl_kind decl_elem : chivm_vkind_t} :
    (∃ out, declare name decl_kind decl_elem vm = (.error, { vm with out })) ∨
    ∃ vars, alloc_var vm.vars name decl_kind decl_elem = some vars ∧ declare name decl_kind decl_elem vm =
      (.ok (), { vm with vars := update_var name (fun v => { v with decl_kind, decl_elem }) vars }) := by
  cases halloc : alloc_var vm.vars name decl_kind decl_elem with
  | none =>
    left
    obtain ⟨out, herr⟩ := @vm_error_apply Unit "variable table full" vm
    refine ⟨out, ?_⟩
    rw [← herr, declare, bind_ok (get_apply vm), halloc]
  | some vars =>
    right
    refine ⟨vars, rfl, ?_⟩
    rw [declare, bind_ok (get_apply vm), halloc]
    rfl

theorem Typed.retype {vars : List chivm_var_t} (hvm : Typed owner { vm with vars }) (name : List UInt8)
    (decl_kind decl_elem : chivm_vkind_t) :
    Typed owner { vm with vars := update_var name (fun v => { v with decl_kind, decl_elem }) vars } := by
  refine ⟨hvm.cap, hvm.cells, hvm.kinds, fun w hw => ?_⟩
  rcases mem_update_var hw with hold | ⟨v, hv, rfl⟩
  · exact hvm.vars w hold
  · exact hvm.vars v (List.mem_of_find?_eq_some hv)

theorem Sound.retype {vars : List chivm_var_t} (hs : Sound owner { vm with vars }) {name : List UInt8}
    {decl_kind decl_elem : chivm_vkind_t}
    (hsuits : ∀ v, find_var vars name = some v → Suits decl_kind decl_elem v.val) :
    Sound owner { vm with vars := update_var name (fun v => { v with decl_kind, decl_elem }) vars } := by
  refine ⟨hs.typed.retype name decl_kind decl_elem, fun w hw => ?_⟩
  rcases mem_update_var hw with hold | ⟨v, hv, rfl⟩
  · exact hs.suits w hold
  · exact hsuits v hv

theorem Sound.define {vars : List chivm_var_t} (hs : Sound owner { vm with vars }) {name : List UInt8}
    {decl_kind decl_elem : chivm_vkind_t}
    (hgrown : Grown owner
      { vm with vars := update_var name (fun v => { v with decl_kind, decl_elem }) vars } owner' vm')
    (htyped : Typed owner' vm') {val : chivm_val_t} (hfits : Fits owner' vm'.pool_next val)
    (hsuits : Suits decl_kind decl_elem val) : Sound owner' (chivm.store name val vm').2 := by
  have hvars : (chivm.store name val vm').2.vars =
      update_var name (fun v => { v with decl_kind, decl_elem, val }) vars := by
    change update_var name (fun v => { v with val }) vm'.vars = _
    rw [hgrown.vars, update_update (by exact fun v => rfl)]
  refine ⟨⟨htyped.cap, htyped.cells, htyped.kinds, fun w hw => ?_⟩, fun w hw => ?_⟩
  · rw [hvars] at hw
    rcases mem_update_var hw with hold | ⟨v, hv, rfl⟩
    · have hkept : Fits owner' vm'.pool_next w.val := Fits.grow hgrown (hs.typed.vars w hold)
      exact hkept
    · exact hfits
  · rw [hvars] at hw
    rcases mem_update_var hw with hold | ⟨v, hv, rfl⟩
    · exact hs.suits w hold
    · exact hsuits

theorem bind_state (m : VmExec α) (f : α → VmExec β) (vm : Vm) :
    (∃ a vm', m vm = (.ok a, vm') ∧ ((m >>= f) vm).2 = (f a vm').2) ∨
    ((∀ a, (m vm).1 ≠ .ok a) ∧ ((m >>= f) vm).2 = (m vm).2) := by
  rcases hms : m vm with ⟨_ | a, vm'⟩
  case ok a => exact Or.inl ⟨a, vm', rfl, by rw [bind_ok hms]⟩
  case error => exact Or.inr ⟨fun a h => (by cases h), by rw [bind_error hms]⟩
  case hang => exact Or.inr ⟨fun a h => (by cases h), by rw [bind_hang hms]⟩

theorem init_sound {vars : List chivm_var_t} (hs : Sound owner { vm with vars }) {name : List UInt8}
    {decl_kind elem_type : chivm_vkind_t} (hkind : decl_kind ≠ .VAL_NONE)
    (helem : decl_kind ≠ .VAL_ARRAY → elem_type = .VAL_NONE) {p : Text}
    (hmeets : ∀ v, find_var vars name = some v → ¬Suits decl_kind elem_type v.val →
      ∃ r, (parse_init fuel decl_kind elem_type p
        { vm with vars := update_var name (fun v => { v with decl_kind, decl_elem := elem_type }) vars }).1 = .ok r) :
    ∃ owner', Sound owner' ((parse_init fuel decl_kind elem_type p >>= fun r => do
      store name r.1
      pure (end_stmt r.2) : VmExec Text)
        { vm with vars := update_var name (fun v => { v with decl_kind, decl_elem := elem_type }) vars }).2 := by
  have hparse : Allocates owner (parse_init fuel decl_kind elem_type p) _ (SuitsInit decl_kind elem_type) :=
    .parse_init (hs.typed.retype name decl_kind elem_type) decl_kind elem_type hkind helem p
  obtain ⟨owner', hgrown, htyped, hinit⟩ := hparse
  rcases bind_state (parse_init fuel decl_kind elem_type p) _ _ with ⟨r, vm', hr, hstate⟩ | ⟨hfails, hstate⟩
  · rw [hr] at hgrown htyped hinit
    rw [hstate]
    obtain ⟨hfits, hsuits⟩ := hinit r rfl
    exact ⟨owner', hs.define hgrown htyped hfits hsuits⟩
  · rw [hstate]
    refine ⟨owner', Sound.of_grown (hs.retype fun v hv => ?_) hgrown htyped⟩
    by_contra hbad
    obtain ⟨r, hr⟩ := hmeets v hv hbad
    exact hfails r hr

theorem exec_decl_sound (hs : Sound owner vm) {p : Text} (hmeets : DeclMeets fuel vm p) :
    ∃ owner', Sound owner' (exec_decl fuel p vm).2 := by
  unfold exec_decl
  cases htype : decl_type (skip_ws p) with
  | none => exact (Allocates.vm_error hs.typed _ : Allocates owner _ vm fun _ _ _ => True).sound hs
  | some type =>
    obtain ⟨decl_kind, elem_type, p₁⟩ := type
    dsimp only
    cases hident : parse_ident p₁ CHIVM_MAX_NAME_LEN with
    | none => exact (Allocates.vm_error hs.typed _ : Allocates owner _ vm fun _ _ _ => True).sound hs
    | some ident =>
      obtain ⟨name, p₂⟩ := ident
      dsimp only
      obtain ⟨hkind, helem⟩ := decl_type_kinds htype
      rcases declare_cases with ⟨out, herr⟩ | ⟨vars, halloc, hok⟩
      · rw [bind_error herr]
        exact ⟨owner, hs.print out⟩
      obtain ⟨hs', hfound⟩ := hs.alloc_var hkind (parse_ident_length hident) halloc
      rw [bind_ok hok]
      by_cases hassign : peek (skip_ws p₂) 0 = '='.toUInt8
      · rw [if_pos hassign]
        refine init_sound hs' hkind helem fun v hv hbad => ?_
        rcases hfound v hv with hold | ⟨_, hsuits⟩
        · have hinit := hmeets decl_kind elem_type p₁ name p₂ htype hident hassign v hold hbad
          rw [declared, hok] at hinit
          exact hinit
        · exact absurd hsuits hbad
      · rw [if_neg hassign]
        exact ⟨owner, hs'.define (.refl _ _) (hs'.typed.retype name decl_kind elem_type)
          (by cases decl_kind with
            | VAL_ARRAY => exact ⟨Nat.zero_le _, fun j hj => absurd hj (Nat.not_lt_zero j)⟩
            | _ => trivial) (suits_zero hkind _ _)⟩

end graceos.chivm
