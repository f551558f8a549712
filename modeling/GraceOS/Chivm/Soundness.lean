import GraceOS.Chivm.Types

/-!
# Type soundness of a session

A declaration whose initialiser fails, and an assignment of an array with other elements, are the two calls that can
leave a variable with a value that is not of its type. Every other call keeps all values of their types.
-/

namespace graceos.chivm

open exec

variable {α β : Type} {vm vm' : Vm} {owner owner' : Nat → chivm_vkind_t} {fuel : Nat}

/-- `m` leaves every variable with a value of its type. -/
def Keeps (m : VmExec α) (vm : Vm) : Prop := ∃ owner, Sound owner (m vm).2

theorem Keeps.error (hs : Sound owner vm) (msg : String) : Keeps (vm_error msg : VmExec α) vm :=
  (Allocates.vm_error hs.typed msg : Allocates owner (vm_error msg : VmExec α) vm fun _ _ _ => True).sound hs

theorem Keeps.bind {m : VmExec α} {f : α → VmExec β} {post : α → (Nat → chivm_vkind_t) → Vm → Prop}
    (hs : Sound owner vm) (hm : Allocates owner m vm post)
    (hf : ∀ a owner' vm', Sound owner' vm' → Grown owner vm owner' vm' → post a owner' vm' → Keeps (f a) vm') :
    Keeps (m >>= f) vm := by
  obtain ⟨owner', hgrown, htyped, hpost⟩ := hm
  have hs' := hs.of_grown hgrown htyped
  unfold Keeps
  rcases bind_state m f vm with ⟨a, vm', hok, hstate⟩ | ⟨_, hstate⟩
  · rw [hok] at hs' hgrown hpost
    rw [hstate]
    exact hf a owner' vm' hs' hgrown (hpost a rfl)
  · rw [hstate]
    exact ⟨owner', hs'⟩

theorem Keeps.get {f : Vm → VmExec β} (hf : Keeps (f vm) vm) : Keeps (Exec.get >>= f) vm := hf

theorem Sound.of_memory (hs : Sound owner vm) (hvars : vm'.vars = vm.vars) (hpool : vm'.pool = vm.pool)
    (hnext : vm'.pool_next = vm.pool_next) : Sound owner vm' := by
  refine ⟨⟨?_, ?_, ?_, ?_⟩, ?_⟩
  · rw [hnext]
    exact hs.typed.cap
  · rw [hnext, hpool]
    exact hs.typed.cells
  · rw [hnext, hpool]
    exact hs.typed.kinds
  · rw [hnext, hvars]
    exact hs.typed.vars
  · rw [hvars]
    exact hs.suits

/-! ## Output and input -/

theorem Allocates.interpolate (hvm : Typed owner vm) (vname : Option (List UInt8)) (text : List UInt8) :
    Allocates owner (interpolate fuel vname text) vm fun _ _ _ => True := by
  induction vname, text using chivm.interpolate.induct generalizing owner vm with
  | case1 => exact .pure hvm trivial
  | case2 name => exact .vm_error hvm _
  | case3 c => exact .tty_print hvm _
  | case4 c d text' hopen ih =>
    rw [chivm.interpolate, if_pos hopen]
    exact ih hvm
  | case5 c d text' hplain ih =>
    rw [chivm.interpolate, if_neg hplain]
    exact .bind (.tty_print hvm _) fun _ _ _ _ hvm' _ => ih hvm'
  | case6 text name ih =>
    rw [chivm.interpolate, if_pos rfl]
    refine .get ?_
    split
    · exact .vm_error hvm _
    · split
      · exact .hang hvm
      · exact .bind (.tty_print hvm _) fun _ _ _ _ hvm' _ => ih hvm'
  | case7 c text name hclose hlong =>
    rw [chivm.interpolate, if_neg hclose, if_pos hlong]
    exact .vm_error hvm _
  | case8 c text name hclose hlong ih =>
    rw [chivm.interpolate, if_neg hclose, if_neg hlong]
    exact ih hvm

theorem exec_cprintf_sound (hs : Sound owner vm) (p : Text) : Keeps (exec_cprintf fuel p) vm := by
  suffices h : Allocates owner (exec_cprintf fuel p) vm fun _ _ _ => True from h.sound hs
  have hvm := hs.typed
  unfold exec_cprintf
  dsimp only
  split
  · exact .vm_error hvm _
  split
  · exact .vm_error hvm _
  · split
    · exact .vm_error hvm _
    · exact .bind (.interpolate hvm _ _) fun _ _ _ _ hvm' _ => .pure hvm' trivial

/-- A value that is there, and no array. -/
def Plain : chivm_val_t → Prop
  | .none => False
  | .array _ _ _ => False
  | _ => True

theorem Allocates.input_val (hvm : Typed owner vm) (target : chivm_vkind_t) (input : List UInt8) :
    Allocates owner (input_val target input) vm fun val _ _ => val.kind = target ∧ Plain val := by
  unfold chivm.input_val
  split
  · split
    · exact .vm_error hvm _
    · exact .pure hvm ⟨rfl, trivial⟩
  · split
    · exact .pure hvm ⟨rfl, trivial⟩
    · split
      · exact .pure hvm ⟨rfl, trivial⟩
      · exact .vm_error hvm _
  · exact .pure hvm ⟨rfl, trivial⟩
  · split
    · exact .vm_error hvm _
    · exact .pure hvm ⟨rfl, trivial⟩
  · exact .vm_error hvm _

theorem Plain.fits {next : Nat} {val : chivm_val_t} (h : Plain val) : Fits owner next val := by
  cases val with
  | array pool_start count elem_type => exact absurd h id
  | _ => trivial

theorem Plain.suits {decl_kind decl_elem : chivm_vkind_t} {val : chivm_val_t} (h : Plain val)
    (hkind : val.kind = decl_kind) : Suits decl_kind decl_elem val := by
  cases val with
  | none => exact absurd h id
  | array pool_start count elem_type => exact absurd h id
  | _ => exact ⟨hkind, trivial⟩

theorem input_store_sound (hs : Sound owner vm) {name : List UInt8} {target : chivm_vkind_t} (input : List UInt8)
    (htarget : ∀ v, find_var vm.vars name = some v → v.decl_kind = target) :
    Keeps (input_val target input >>= fun val => store name val) vm := by
  refine .bind hs (.input_val hs.typed target input) fun val owner' vm' hs' hgrown hpost => ?_
  obtain ⟨hkind, hplain⟩ := hpost
  refine ⟨owner', hs'.store hplain.fits fun v hfind => ?_⟩
  rw [hgrown.vars] at hfind
  exact hplain.suits (hkind.trans (htarget v hfind).symm)

theorem read_into_sound (hs : Sound owner vm) {prompt ident : List UInt8}
    (hname : ident.length ≤ CHIVM_MAX_NAME_LEN - 1) : Keeps (read_into prompt ident) vm := by
  have hs' : Sound owner { vm with out := vm.out ++ prompt, read := vm.read + 1 } := hs.of_memory rfl rfl rfl
  unfold read_into Keeps
  rw [bind_ok (show tty_print prompt vm = (.ok (), _) from rfl), bind_ok (show tty_readline _ _ = (.ok _, _) from rfl),
    bind_ok (get_apply _)]
  dsimp only
  cases hfind : find_var vm.vars ident with
  | some v =>
    dsimp only
    refine input_store_sound hs' _ fun w hw => ?_
    rw [hfind] at hw
    cases hw
    exact (hs.suits v (List.mem_of_find?_eq_some hfind)).1.symm
  | none =>
    dsimp only
    cases halloc : alloc_var vm.vars ident .VAL_INT .VAL_NONE with
    | none => exact Keeps.error hs' _
    | some vars =>
      have hmade : alloc_var vm.vars ident .VAL_INT .VAL_NONE = some vars := halloc
      obtain ⟨hs'', hfound⟩ := hs'.alloc_var (fun h => by cases h) hname hmade
      refine input_store_sound hs'' _ fun w hw => ?_
      rcases hfound w hw with hold | ⟨hkind, _⟩
      · rw [hfind] at hold
        cases hold
      · exact hkind

theorem exec_dinput_sound (hs : Sound owner vm) (p : Text) : Keeps (exec_dinput p) vm := by
  unfold exec_dinput
  dsimp only
  split
  · exact .error hs _
  split
  · exact .error hs _
  split
  · exact .error hs _
  split
  · exact .error hs _
  rename_i ident p₂ hident
  split
  · exact .error hs _
  · unfold Keeps
    rcases bind_state (read_into _ ident) _ vm with ⟨_, vm', hok, hstate⟩ | ⟨_, hstate⟩
    · obtain ⟨owner', hs'⟩ := read_into_sound hs (parse_ident_length hident)
      rw [hok] at hs'
      rw [hstate]
      exact ⟨owner', hs'⟩
    · rw [hstate]
      exact read_into_sound hs (parse_ident_length hident)

/-! ## Assignments -/

/-- An array that is assigned to a variable with a declared element kind has elements of that kind. -/
def AssignMeets (fuel : Nat) (vm : Vm) (p : Text) : Prop :=
  ∀ name p₁ v, parse_ident p CHIVM_MAX_NAME_LEN = some (name, p₁) → peek (skip_ws p₁) 0 = '='.toUInt8 →
    find_var vm.vars name = some v → v.decl_elem ≠ .VAL_NONE →
      ∀ pool_start count elem_type p₂,
        (parse_val_expr fuel ((skip_ws p₁).drop 1) vm).1 = .ok (.array pool_start count elem_type, p₂) →
          count = 0 ∨ elem_type = v.decl_elem

theorem Allocates.parse_or (hvm : Typed owner vm) (p : Text) (msg : String) :
    Allocates owner ((chivm.parse_val_expr fuel p).orElse (chivm.vm_error msg)) vm fun r owner' vm' =>
      Fits owner' vm'.pool_next r.1 ∧ (chivm.parse_val_expr fuel p vm).1 = .ok r := by
  have hparse : Allocates owner (chivm.parse_val_expr fuel p) vm FitsFirst := .parse_val_expr fuel hvm p
  obtain ⟨owner', hgrown, htyped, hpost⟩ := hparse
  refine .orElse ⟨owner', hgrown, htyped, fun r hr => ⟨hpost r hr, hr⟩⟩ fun _ _ h => .vm_error h _

theorem Suits.assign {decl_kind decl_elem : chivm_vkind_t} {val new_val : chivm_val_t}
    (h : Suits decl_kind decl_elem val) (hkind : ¬(decl_kind ≠ .VAL_NONE ∧ new_val.kind ≠ decl_kind))
    (helems : decl_elem ≠ .VAL_NONE → ∀ pool_start count elem_type, new_val = .array pool_start count elem_type →
      count = 0 ∨ elem_type = decl_elem) : Suits decl_kind decl_elem new_val := by
  have hne : decl_kind ≠ .VAL_NONE := by
    rintro rfl
    cases val with
    | none => exact h.2
    | _ => cases h.1
  have hsame : new_val.kind = decl_kind := not_not.1 fun hdiff => hkind ⟨hne, hdiff⟩
  refine ⟨hsame, ?_⟩
  cases new_val with
  | none => exact hne hsame.symm
  | array pool_start count elem_type =>
    by_cases hany : decl_elem = .VAL_NONE
    · exact Or.inr (Or.inl hany)
    · exact (helems hany _ _ _ rfl).imp_right Or.inr
  | _ => trivial

theorem assign_scalar_sound (hs : Sound owner vm) {name : List UInt8} {p : Text}
    (hmeets : ∀ v, find_var vm.vars name = some v → v.decl_elem ≠ .VAL_NONE →
      ∀ pool_start count elem_type p₂,
        (parse_val_expr fuel p vm).1 = .ok (.array pool_start count elem_type, p₂) →
          count = 0 ∨ elem_type = v.decl_elem) :
    Keeps (assign_scalar fuel name p) vm := by
  unfold assign_scalar
  refine .get ?_
  split
  · exact .error hs _
  rename_i v hfind
  refine .bind hs (.parse_or hs.typed p _) fun r owner' vm' hs' hgrown hpost => ?_
  obtain ⟨new_val, p₂⟩ := r
  dsimp only
  split
  · exact .error hs' _
  · rename_i hkind
    refine ⟨owner', hs'.store hpost.1 fun w hw => ?_⟩
    rw [hgrown.vars, hfind] at hw
    cases hw
    refine (hs.suits v (List.mem_of_find?_eq_some hfind)).assign hkind fun hne _ _ _ hnew => ?_
    exact hmeets v hfind hne _ _ _ p₂ (by rw [hpost.2, hnew])

theorem Sound.write_cell (hs : Sound owner vm) {pool_start count : Nat} {elem_type : chivm_vkind_t} {idx : Nat}
    (harray : ∀ j < count, owner (pool_start + j) = elem_type) (hidx : idx < count) {val : chivm_val_t}
    (hfits : Fits owner vm.pool_next val) (hkind : ¬(elem_type ≠ .VAL_NONE ∧ val.kind ≠ elem_type)) :
    Sound owner { vm with pool := fun k => if k = pool_start + idx then val else vm.pool k } := by
  refine ⟨⟨hs.typed.cap, fun k hk => ?_, fun k hk hne => ?_, hs.typed.vars⟩, hs.suits⟩
  · dsimp only
    split
    · exact hfits
    · exact hs.typed.cells k hk
  · dsimp only
    split
    · rename_i hcell
      rw [hcell, harray idx hidx] at hne ⊢
      exact not_not.1 fun hdiff => hkind ⟨hne, hdiff⟩
    · exact hs.typed.kinds k hk hne

theorem assign_elem_sound (hs : Sound owner vm) (name : List UInt8) (p : Text) :
    Keeps (assign_elem fuel name p) vm := by
  unfold assign_elem
  refine .bind hs (.parse_index hs.typed p _) fun r owner₁ vm₁ hs₁ _ _ => ?_
  obtain ⟨idx, p₁⟩ := r
  dsimp only
  split
  · exact .error hs₁ _
  split
  · exact .error hs₁ _
  refine .get ?_
  split
  · rename_i pool_start count elem_type hval
    split
    · exact .error hs₁ _
    rename_i hidx
    obtain ⟨v, hv, hval⟩ := Option.map_eq_some_iff.1 hval
    have harray := fits_of_mem_vars hs₁.typed hv
    rw [hval] at harray
    refine .bind hs₁ (.parse_or hs₁.typed _ _) fun r owner₂ vm₂ hs₂ hgrown hpost => ?_
    obtain ⟨new_val, p₂⟩ := r
    have harray₂ := harray.grow hgrown
    dsimp only
    split
    · exact .error hs₂ _
    · rename_i hkind
      exact ⟨owner₂, hs₂.write_cell harray₂.2 (by omega) hpost.1 hkind⟩
  · exact .error hs₁ _

theorem exec_assignment_sound (hs : Sound owner vm) {p : Text} (hmeets : AssignMeets fuel vm p) :
    Keeps (exec_assignment fuel p) vm := by
  unfold exec_assignment
  split
  · exact .error hs _
  rename_i name p₁ hident
  dsimp only
  split
  · exact assign_elem_sound hs name _
  split
  · exact .error hs _
  · rename_i hassign
    exact assign_scalar_sound hs fun v hv => hmeets name p₁ v hident (not_not.1 hassign) hv

/-! ## Sessions -/

/-- The condition on a call: no declaration fails on a value of another type, no array of other elements is
assigned. -/
def Meets (fuel : Nat) (vm : Vm) : Call → Prop
  | .decl p => DeclMeets fuel vm p
  | .assignment p => AssignMeets fuel vm p
  | _ => True

theorem step_sound {c : Call} (hs : Sound owner vm) (hmeets : Meets fuel vm c) :
    ∃ owner', Sound owner' (step fuel vm c) := by
  cases c with
  | decl p => exact exec_decl_sound hs hmeets
  | assignment p => exact exec_assignment_sound hs hmeets
  | cprintf p => exact exec_cprintf_sound hs p
  | dinput p => exact exec_dinput_sound hs p
  | condition p => exact (Allocates.eval_condition hs.typed p).sound hs
  | message msg => exact Keeps.error hs msg

/-- Every variable holds a value of its declared type, the arrays of the variables and of the pool are inside of the
part of the pool that is in use, and that is inside of the pool. -/
structure TypesHold (vm : Vm) : Prop where
  kind : ∀ v ∈ vm.vars, v.val.kind = v.decl_kind
  elems : ∀ v ∈ vm.vars, v.decl_elem ≠ .VAL_NONE → ∀ pool_start count elem_type,
    v.val = .array pool_start count elem_type → ∀ j < count, (vm.pool (pool_start + j)).kind = v.decl_elem
  vars : ∀ v ∈ vm.vars, ∀ pool_start count elem_type, v.val = .array pool_start count elem_type →
    pool_start + count ≤ vm.pool_next
  cells : ∀ k < vm.pool_next, ∀ pool_start count elem_type, vm.pool k = .array pool_start count elem_type →
    pool_start + count ≤ vm.pool_next
  cap : vm.pool_next ≤ CHIVM_ARRAY_POOL_CAP

theorem Sound.types_hold (hs : Sound owner vm) : TypesHold vm := by
  refine ⟨fun v hv => (hs.suits v hv).1, fun v hv hne pool_start count elem_type hval j hj => ?_,
    fun v hv pool_start count elem_type hval => ?_, fun k hk pool_start count elem_type hval => ?_, hs.typed.cap⟩
  · have hfits := hs.typed.vars v hv
    have hsuits := (hs.suits v hv).2
    rw [hval] at hfits hsuits
    have helem : elem_type = v.decl_elem := by
      rcases hsuits with hempty | hany | hsame
      · omega
      · exact absurd hany hne
      · exact hsame
    have howner : owner (pool_start + j) = v.decl_elem := (hfits.2 j hj).trans helem
    have hcell : pool_start + j < vm.pool_next := by
      have hle := hfits.1
      omega
    rw [← howner] at hne ⊢
    exact hs.typed.kinds _ hcell hne
  · have hfits := hs.typed.vars v hv
    rw [hval] at hfits
    exact hfits.1
  · have hfits := hs.typed.cells k hk
    rw [hval] at hfits
    exact hfits.1

theorem reset_sound (lines : Nat → List UInt8) : Sound (fun _ => .VAL_NONE) (vm_reset lines) :=
  ⟨⟨Nat.zero_le _, fun k hk => absurd hk (Nat.not_lt_zero k), fun k hk => absurd hk (Nat.not_lt_zero k),
    fun v hv => absurd hv List.not_mem_nil⟩, fun v hv => absurd hv List.not_mem_nil⟩

/-- The state that the first calls of a session lead to. -/
def reached (fuel : Nat) (lines : Nat → List UInt8) (calls : List Call) : Vm :=
  machine.run (step fuel) (vm_reset lines) calls

/-- A session goes through the states that its calls reach, and as long as every call meets the condition, every
state reached has all values of their types. -/
theorem types_hold_while_met (fuel : Nat) (lines : Nat → List UInt8) (sources : List Text) :
    (session fuel lines sources).vm = reached fuel lines (session fuel lines sources).calls ∧
      ∀ pre post, (session fuel lines sources).calls = pre ++ post →
        machine.Along (step fuel) (Meets fuel) (vm_reset lines) pre → TypesHold (reached fuel lines pre) := by
  refine ⟨session_run fuel lines sources, fun pre post _ halong => ?_⟩
  have hkept : ∃ owner, Sound owner (machine.run (step fuel) (vm_reset lines) pre) := by
    refine @machine.Along.invariant _ _ (step fuel) (Meets fuel) _ (fun vm => ∃ owner, Sound owner vm) ?_ pre halong
      ⟨_, reset_sound lines⟩
    intro vm c hs hmeets
    obtain ⟨owner, hs⟩ := hs
    exact step_sound hs hmeets
  obtain ⟨owner, hs⟩ := hkept
  exact hs.types_hold

/-- A program that declares an array and assigns an element of its kind. -/
def typed_source : Text := word.ascii "int[] a = [1, 2]; a[0] = 3;"

theorem types_hold_typed_source :
    (session 40 (fun _ => []) [typed_source]).calls = [.decl typed_source, .assignment (word.ascii "a[0] = 3;")] ∧
      TypesHold (reached 40 (fun _ => []) (session 40 (fun _ => []) [typed_source]).calls) := by
  have hcalls : (session 40 (fun _ => []) [typed_source]).calls =
      [.decl typed_source, .assignment (word.ascii "a[0] = 3;")] := by decide +kernel
  refine ⟨hcalls, (types_hold_while_met 40 (fun _ => []) [typed_source]).2 _ [] (List.append_nil _).symm ?_⟩
  rw [hcalls]
  refine ⟨fun decl_kind elem_type p₁ name p₂ _ _ _ v hv => ?_, fun name p₁ v hident hassign => ?_, trivial⟩
  · cases hv
  · have hfalse : ∀ r, parse_ident (word.ascii "a[0] = 3;") CHIVM_MAX_NAME_LEN = some r →
        peek (skip_ws r.2) 0 ≠ '='.toUInt8 := by decide +kernel
    exact absurd hassign (hfalse _ hident)

/-- A declaration whose initialiser is of another type than the variable was before. -/
def retyped_source : Text := word.ascii "string s = \"a\"; int s = \"b\";"

theorem failed_initializer_retypes :
    ¬∀ fuel lines sources pre post, (session fuel lines sources).calls = pre ++ post →
      TypesHold (reached fuel lines pre) := by
  intro h
  have hcalls : (session 40 (fun _ => []) [retyped_source]).calls =
      [.decl retyped_source, .decl (word.ascii "int s = \"b\";")] := by decide +kernel
  have hvars : (reached 40 (fun _ => []) [.decl retyped_source, .decl (word.ascii "int s = \"b\";")]).vars =
      [⟨word.ascii "s", .VAL_INT, .VAL_NONE, .string (word.ascii "a")⟩] := by decide +kernel
  have hkind := (h 40 (fun _ => []) [retyped_source] _ [] (by rw [hcalls, List.append_nil])).kind
    ⟨word.ascii "s", .VAL_INT, .VAL_NONE, .string (word.ascii "a")⟩ (by rw [hvars]; exact List.mem_singleton.2 rfl)
  cases hkind

end graceos.chivm
