import StackCode.Code.Selection
import StackCode.Proofs.Image.Codec
import StackCode.Proofs.Sequencing

/-!
# What selection promises

Every selected operation has an operand of the shape its opcode asks for.  Only branches are
selected for branches, one for each and at the end, and only terminators end in a terminator.  An
operation names a function only if the instruction does.

## Main definitions

* `Operation.Straight`: a well-shaped operation that is no branch and names no function.
* `Selected`: what is known of the operations of an instruction.

## Main results

* `SelectionContext.selected_of_select`: selection keeps its promise.
-/

namespace StackCode

/-- The function an operand names. -/
def Operand.func? {φ τ : Type} : Operand φ τ → Option φ
  | .func f | .funcSlots f _ => some f
  | _ => Option.none

/-- A well-shaped operation that is no branch and names no function. -/
structure Operation.Straight {φ τ : Type} (op : Operation φ τ) : Prop where
  wellShaped : op.WellShaped
  isBranch : op.opcode.isBranch = false
  func? : op.operand.func? = none

/-- Only branches take a target. -/
theorem Operation.WellShaped.isBranch {φ τ : Type} {op : Operation φ τ} {t : τ}
    (h : op.WellShaped) (htarget : op.operand = .target t) : op.opcode.isBranch = true := by
  obtain ⟨opcode, operand⟩ := op
  cases htarget
  simp only [Operation.WellShaped, Opcode.shape] at h
  split at h <;> cases h <;> rfl

/-- The opcode of an instruction that names a function. -/
def FuncOp.opcode : FuncOp → Opcode
  | .call => .call
  | .newObject => .newobj
  | .loadFunction => .ldftn

namespace TypeTable

variable {t : TypeTable}

/-- A return goes on to nothing. -/
theorem returnOp?_straight {ε : Type} {result : TypeId} {op : SelectedOp}
    (h : (t.returnOp? result : Checked ε _) = .ok (some op)) :
    op.Straight ∧ op.opcode.isTerminator = true := by
  unfold returnOp? at h
  split at h
  · cases pure_eq_ok.mp h
    exact ⟨⟨rfl, rfl, rfl⟩, rfl⟩
  · obtain ⟨onStack, -, h⟩ := bind_eq_ok.mp h
    obtain ⟨slots, -, h⟩ := bind_eq_ok.mp h
    split at h
    · cases pure_eq_ok.mp h
      exact ⟨⟨rfl, rfl, rfl⟩, rfl⟩
    · cases pure_eq_ok.mp h
      exact ⟨⟨rfl, rfl, rfl⟩, rfl⟩
    · have hop := pure_eq_ok.mp h
      split at hop
      · cases hop
        exact ⟨⟨rfl, rfl, rfl⟩, rfl⟩
      · cases hop

/-- A variable is stored as a block only if it is moved as one. -/
theorem slotCell_block {type : TypeId} {width : MoveWidth × UInt8}
    (h : t.slotCell type = .ok (.block, width)) : width.1 = .block := by
  obtain ⟨kind, -, h⟩ := bind_eq_ok.mp h
  obtain ⟨width', -, h⟩ := bind_eq_ok.mp h
  split at h <;> cases pure_eq_ok.mp h
  assumption

/-- An element is no field. -/
theorem containerPart_ne_field {container element : TypeId} {part : Part}
    (h : t.containerPart container = .ok (element, part)) : part ≠ .field := by
  obtain ⟨kind, -, h⟩ := bind_eq_ok.mp h
  cases kind with
  | span element =>
    cases pure_eq_ok.mp h
    exact Part.noConfusion
  | reference target =>
    obtain ⟨kind, -, h⟩ := bind_eq_ok.mp h
    cases kind with
    | array element length =>
      cases pure_eq_ok.mp h
      exact Part.noConfusion
    | _ => cases h
  | _ => cases h

end TypeTable

theorem moveOp_straight {opcode : MoveWidth → Opcode} (w : MoveWidth × UInt8)
    (h : opcode = .dup ∨ opcode = .pop) : (moveOp opcode w).Straight := by
  obtain ⟨w, count⟩ := w
  rcases h with rfl | rfl <;> cases w <;> exact ⟨rfl, rfl, rfl⟩

namespace SelectionContext

variable {c : SelectionContext} {op : SelectedOp}

theorem returnOp?_of_plain_ret {operand : TypeId} (h : c.plain operand .ret = .ok op) :
    (c.types.returnOp? c.decl.result : Checked SelectionError _) = .ok (some op) := by
  obtain ⟨op?, hret, h⟩ := bind_eq_ok.mp h
  cases op? with
  | none =>
    obtain ⟨_, -, h⟩ := bind_eq_ok.mp h
    cases h
  | some op =>
    cases pure_eq_ok.mp h
    exact hret

theorem plain_straight {operand : TypeId} {plainOp : PlainOp}
    (h : c.plain operand plainOp = .ok op) : op.Straight := by
  cases plainOp with
  | nop | null =>
    cases pure_eq_ok.mp h
    exact ⟨rfl, rfl, rfl⟩
  | arith _ | integer _ | neg | not | compare _ | compareUn _ =>
    obtain ⟨_, -, h⟩ := bind_eq_ok.mp h
    cases pure_eq_ok.mp h
    exact ⟨rfl, rfl, rfl⟩
  | dup | pop =>
    obtain ⟨w, -, h⟩ := bind_eq_ok.mp h
    cases pure_eq_ok.mp h
    exact moveOp_straight w (by simp)
  | ret => exact (TypeTable.returnOp?_straight (returnOp?_of_plain_ret h)).1

theorem constant_straight (value : Constant) : (constant value).Straight := by
  cases value <;> exact ⟨rfl, rfl, rfl⟩

theorem slotAccess_straight {slot : UInt8} {type : TypeId} {a : Access}
    (h : c.slotAccess slot type a = .ok op) : op.Straight := by
  cases a with
  | address =>
    cases pure_eq_ok.mp h
    exact ⟨rfl, rfl, rfl⟩
  | load =>
    obtain ⟨⟨w, count⟩, -, h⟩ := bind_eq_ok.mp h
    cases pure_eq_ok.mp h
    cases w <;> exact ⟨rfl, rfl, rfl⟩
  | store =>
    obtain ⟨⟨cell, w, count⟩, hcell, h⟩ := bind_eq_ok.mp h
    cases pure_eq_ok.mp h
    cases cell with
    | block =>
      obtain rfl : w = .block := TypeTable.slotCell_block hcell
      exact ⟨rfl, rfl, rfl⟩
    | _ => exact ⟨rfl, rfl, rfl⟩

theorem fieldAccess_straight {ref : FieldRef} {a : Access} (h : c.fieldAccess ref a = .ok op) :
    op.Straight := by
  unfold fieldAccess at h
  split at h
  · cases h
  · obtain ⟨offset, -, h⟩ := bind_eq_ok.mp h
    cases a with
    | address =>
      cases pure_eq_ok.mp h
      exact ⟨rfl, rfl, rfl⟩
    | load =>
      obtain ⟨⟨cell, size⟩, -, h⟩ := bind_eq_ok.mp h
      cases cell <;> cases pure_eq_ok.mp h <;> exact ⟨rfl, rfl, rfl⟩
    | store =>
      obtain ⟨⟨width, size⟩, -, h⟩ := bind_eq_ok.mp h
      cases width <;> cases pure_eq_ok.mp h <;> exact ⟨rfl, rfl, rfl⟩

/-- An operation that names this function. -/
def NamesFunction (func : FuncRef) (op : SelectedOp) : Prop :=
  op.operand = .func func ∨ ∃ slots, op.operand = .funcSlots func slots

theorem NamesFunction.func?_eq {func : FuncRef} (h : NamesFunction func op) :
    op.operand.func? = some func := by
  rcases h with h | ⟨slots, h⟩ <;> rw [h] <;> rfl

theorem namesFunction_of_func? {func : FuncRef} (h : op.operand.func? = some func) :
    NamesFunction func op := by
  obtain ⟨opcode, operand⟩ := op
  cases operand with
  | func f =>
    cases h
    exact .inl rfl
  | funcSlots f slots =>
    cases h
    exact .inr ⟨slots, rfl⟩
  | _ => cases h

/-- What is selected for a call names the function and is no branch. -/
theorem funcOp_names {func : FuncRef} {funcOp : FuncOp} (h : c.funcOp func funcOp = .ok op) :
    op.WellShaped ∧ op.opcode.isBranch = false ∧ NamesFunction func op := by
  cases funcOp with
  | call | loadFunction =>
    cases pure_eq_ok.mp h
    exact ⟨rfl, rfl, .inl rfl⟩
  | newObject =>
    obtain ⟨object?, -, h⟩ := bind_eq_ok.mp h
    cases object? with
    | none => cases h
    | some object =>
      obtain ⟨_, -, h⟩ := bind_eq_ok.mp h
      obtain ⟨slots, -, h⟩ := bind_eq_ok.mp h
      cases pure_eq_ok.mp h
      exact ⟨rfl, rfl, .inr ⟨slots, rfl⟩⟩

theorem variableAccess_straight {vars : List Variable} {slot? : Option UInt8} {index : Nat}
    {a : Access} (h : c.variableAccess vars slot? index a = .ok op) : op.Straight := by
  unfold variableAccess at h
  split at h
  · exact slotAccess_straight h
  · cases h

theorem elementAccess_straight {container type : TypeId} {a : Access}
    (h : c.elementAccess container type a = .ok op) : op.Straight := by
  obtain ⟨⟨element, part⟩, hpart, h⟩ := bind_eq_ok.mp h
  obtain ⟨layout, -, h⟩ := bind_eq_ok.mp h
  obtain ⟨stride, -, h⟩ := bind_eq_ok.mp h
  cases part with
  | field => exact absurd rfl (TypeTable.containerPart_ne_field hpart)
  | element | spanElement =>
    cases a with
    | address =>
      cases pure_eq_ok.mp h
      exact ⟨rfl, rfl, rfl⟩
    | load | store =>
      obtain ⟨_, -, h⟩ := bind_eq_ok.mp h
      cases pure_eq_ok.mp h
      exact ⟨rfl, rfl, rfl⟩

theorem typeOp_straight {operand type : TypeId} {typeOp : TypeOp} {ops : List SelectedOp}
    (h : c.typeOp operand type typeOp = .ok ops) : ∀ op ∈ ops, op.Straight := by
  cases typeOp with
  | convert =>
    simp only [SelectionContext.typeOp] at h
    split at h
    · cases pure_eq_ok.mp h
      intro op hop
      obtain ⟨conversion, -, rfl⟩ := List.mem_map.mp hop
      exact ⟨rfl, rfl, rfl⟩
    · cases h
  | loadIndirect =>
    obtain ⟨⟨cell, size⟩, -, h⟩ := bind_eq_ok.mp h
    cases cell <;> cases pure_eq_ok.mp h <;> exact List.forall_mem_singleton.mpr ⟨rfl, rfl, rfl⟩
  | storeIndirect =>
    obtain ⟨⟨width, size⟩, -, h⟩ := bind_eq_ok.mp h
    cases width <;> cases pure_eq_ok.mp h <;> exact List.forall_mem_singleton.mpr ⟨rfl, rfl, rfl⟩
  | loadElement | storeElement | elementAddress =>
    obtain ⟨op, hop, h⟩ := bind_eq_ok.mp h
    cases pure_eq_ok.mp h
    exact List.forall_mem_singleton.mpr (elementAccess_straight hop)
  | callIndirect =>
    cases pure_eq_ok.mp h
    exact List.forall_mem_singleton.mpr ⟨rfl, rfl, rfl⟩

/-- A branch is selected as straight operations and then one branch, in its short form. -/
theorem branch_ends {operand : TypeId} {condition : Condition} {target : Label}
    {ops : List SelectedOp} (h : c.branch operand condition target = .ok ops) :
    ∃ front condition' w, ops = front ++ [⟨.branch condition' w .short, .target target⟩] ∧
      ∀ op ∈ front, op.Straight := by
  obtain ⟨operandClass, -, h⟩ := bind_eq_ok.mp h
  split at h
  · rename_i w _
    cases pure_eq_ok.mp h
    exact ⟨[], condition, w, rfl, List.forall_mem_nil _⟩
  · split at h
    · rename_i comparison outcome _
      cases pure_eq_ok.mp h
      exact ⟨[.bare (.compare comparison operandClass)], outcome, .w32, rfl,
        List.forall_mem_singleton.mpr ⟨rfl, rfl, rfl⟩⟩
    · cases h

end SelectionContext

/-- What is known of the operations selected for an instruction. -/
structure Selected (instr : Instr) (ops : List SelectedOp) : Prop where
  wellShaped : ∀ op ∈ ops, op.WellShaped
  /-- Only branches are selected as branches. -/
  straight : instr.target? = none → ∀ op ∈ ops, op.opcode.isBranch = false
  /-- The operations of a branch end in the one branch among them. -/
  branch : ∀ {l}, instr.target? = some l → ∃ front op, ops = front ++ [op] ∧
    op.opcode.isBranch = true ∧ op.operand = .target l ∧ ∀ o ∈ front, o.opcode.isBranch = false
  /-- The operations of a terminator end in a terminator. -/
  terminator : instr.isTerminator = true → ∃ front op, ops = front ++ [op] ∧
    op.opcode.isTerminator = true
  /-- An instruction that names a function has one operation, which names it. -/
  function : ∀ {op func}, instr = .function op func → ∃ op, ops = [op] ∧
    SelectionContext.NamesFunction func op
  /-- Only an instruction that names a function has an operation that does. -/
  named : ∀ {op func}, op ∈ ops → SelectionContext.NamesFunction func op →
    ∃ funcOp, instr = .function funcOp func

namespace Selected

variable {instr : Instr} {ops : List SelectedOp}

theorem named_of_none (h : ∀ op ∈ ops, op.operand.func? = none) {op : SelectedOp} {func : FuncRef}
    (hop : op ∈ ops) (hnames : SelectionContext.NamesFunction func op) :
    ∃ funcOp, instr = .function funcOp func := by
  cases hnames.func?_eq.symm.trans (h op hop)

/-- The operations of an instruction that passes control on and names no function. -/
theorem of_straight (hinstr : instr.target? = none) (hnext : instr.isTerminator = false)
    (hfunction : ∀ op func, instr ≠ .function op func) (h : ∀ op ∈ ops, op.Straight) :
    Selected instr ops where
  wellShaped op hop := (h op hop).wellShaped
  straight _ op hop := (h op hop).isBranch
  branch hl := by rw [hinstr] at hl; cases hl
  terminator hret := by rw [hnext] at hret; cases hret
  function hfunc := absurd hfunc (hfunction _ _)
  named := named_of_none fun op hop => (h op hop).func?

/-- An operation that goes to a label is selected for a branch to it. -/
theorem target?_eq {op : SelectedOp} {l : Label} (h : Selected instr ops) (hop : op ∈ ops)
    (hl : op.operand = .target l) : instr.target? = some l := by
  have hbranch := (h.wellShaped op hop).isBranch hl
  cases htarget : instr.target? with
  | none =>
    rw [h.straight htarget op hop] at hbranch
    cases hbranch
  | some l' =>
    obtain ⟨front, last, rfl, -, hlast, hfront⟩ := h.branch htarget
    rcases List.mem_append.mp hop with hop | hop
    · rw [hfront op hop] at hbranch
      cases hbranch
    · cases List.mem_singleton.mp hop
      cases hlast.symm.trans hl
      rfl

end Selected

/-- **Selection keeps its promise.** -/
theorem SelectionContext.selected_of_select {c : SelectionContext} {i : TypedInstr}
    {ops : List SelectedOp} (h : c.select i = .ok ops) : Selected i.instr ops := by
  obtain ⟨instr, operands, results⟩ := i
  cases instr with
  | plain op =>
    obtain ⟨selected, hop, h⟩ := bind_eq_ok.mp h
    cases pure_eq_ok.mp h
    have hstraight := plain_straight hop
    refine ⟨List.forall_mem_singleton.mpr hstraight.wellShaped,
      fun _ => List.forall_mem_singleton.mpr hstraight.isBranch, fun hl => (nomatch hl),
      fun hret => ?_, fun hfunc => (nomatch hfunc),
      Selected.named_of_none (List.forall_mem_singleton.mpr hstraight.func?)⟩
    cases op with
    | ret =>
      exact ⟨[], selected, rfl, (TypeTable.returnOp?_straight (returnOp?_of_plain_ret hop)).2⟩
    | _ => cases hret
  | constant value =>
    cases pure_eq_ok.mp h
    exact .of_straight rfl rfl (fun _ _ => Instr.noConfusion)
      (List.forall_mem_singleton.mpr (constant_straight value))
  | argument a index | localVar a index =>
    obtain ⟨selected, hop, h⟩ := bind_eq_ok.mp h
    cases pure_eq_ok.mp h
    exact .of_straight rfl rfl (fun _ _ => Instr.noConfusion)
      (List.forall_mem_singleton.mpr (variableAccess_straight hop))
  | field a ref =>
    obtain ⟨selected, hop, h⟩ := bind_eq_ok.mp h
    cases pure_eq_ok.mp h
    exact .of_straight rfl rfl (fun _ _ => Instr.noConfusion)
      (List.forall_mem_singleton.mpr (fieldAccess_straight hop))
  | typed op type =>
    exact .of_straight rfl rfl (fun _ _ => Instr.noConfusion) (typeOp_straight h)
  | function op func =>
    obtain ⟨selected, hop, h⟩ := bind_eq_ok.mp h
    cases pure_eq_ok.mp h
    obtain ⟨hshape, hbranch, hnames⟩ := funcOp_names hop
    refine ⟨List.forall_mem_singleton.mpr hshape, fun _ => List.forall_mem_singleton.mpr hbranch,
      fun hl => (nomatch hl), fun hret => (nomatch hret), fun hfunc => ?_,
      fun {op' func'} hop' hnames' => ?_⟩
    · cases hfunc
      exact ⟨selected, rfl, hnames⟩
    · cases List.mem_singleton.mp hop'
      cases hnames.func?_eq.symm.trans hnames'.func?_eq
      exact ⟨op, rfl⟩
  | jump target =>
    cases pure_eq_ok.mp h
    refine ⟨List.forall_mem_singleton.mpr rfl, fun hnone => (nomatch hnone), fun hl => ?_,
      fun _ => ⟨[], _, rfl, rfl⟩, fun hfunc => (nomatch hfunc),
      Selected.named_of_none (List.forall_mem_singleton.mpr rfl)⟩
    cases hl
    exact ⟨[], _, rfl, rfl, rfl, List.forall_mem_nil _⟩
  | branch condition target =>
    obtain ⟨front, condition', w, rfl, hfront⟩ := branch_ends h
    refine ⟨List.forall_mem_append.mpr ⟨fun op hop => (hfront op hop).wellShaped,
      List.forall_mem_singleton.mpr rfl⟩, fun hnone => (nomatch hnone), fun hl => ?_,
      fun hret => (nomatch hret), fun hfunc => (nomatch hfunc),
      Selected.named_of_none (List.forall_mem_append.mpr ⟨fun op hop => (hfront op hop).func?,
        List.forall_mem_singleton.mpr rfl⟩)⟩
    cases hl
    exact ⟨front, _, rfl, rfl, rfl, fun op hop => (hfront op hop).isBranch⟩

/-- An instruction that names a function is selected by its opcode. -/
theorem SelectionContext.opcode_of_select {c : SelectionContext} {funcOp : FuncOp} {func : FuncRef}
    {operands results : List TypeId} {ops : List SelectedOp} {op : SelectedOp}
    (h : c.select ⟨.function funcOp func, operands, results⟩ = .ok ops) (hop : op ∈ ops) :
    op.opcode = funcOp.opcode := by
  obtain ⟨selected, hselected, h⟩ := bind_eq_ok.mp h
  cases pure_eq_ok.mp h
  cases List.mem_singleton.mp hop
  cases funcOp with
  | call | loadFunction =>
    cases pure_eq_ok.mp hselected
    rfl
  | newObject =>
    obtain ⟨object?, -, hselected⟩ := bind_eq_ok.mp hselected
    cases object? with
    | none => cases hselected
    | some object =>
      obtain ⟨_, -, hselected⟩ := bind_eq_ok.mp hselected
      obtain ⟨slots, -, hselected⟩ := bind_eq_ok.mp hselected
      cases pure_eq_ok.mp hselected
      rfl

/-- A branch is selected in a form that has a long one. -/
theorem SelectionContext.exists_longForm {c : SelectionContext} {i : TypedInstr}
    {ops : List SelectedOp} {op : SelectedOp} {l : Label} (h : c.select i = .ok ops)
    (hop : op ∈ ops) (hl : op.operand = .target l) : ∃ long, op.opcode.longForm? = some long := by
  have htarget := (selected_of_select h).target?_eq hop hl
  obtain ⟨instr, operands, results⟩ := i
  cases instr with
  | jump target =>
    cases pure_eq_ok.mp h
    cases List.mem_singleton.mp hop
    exact ⟨_, rfl⟩
  | branch condition target =>
    obtain ⟨front, condition', w, rfl, hfront⟩ := branch_ends h
    rcases List.mem_append.mp hop with hop | hop
    · have hbranch := (hfront op hop).wellShaped.isBranch hl
      rw [(hfront op hop).isBranch] at hbranch
      cases hbranch
    · cases List.mem_singleton.mp hop
      exact ⟨_, rfl⟩
  | _ => cases htarget

end StackCode
