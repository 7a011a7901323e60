import StackCode.Proofs.Code.Selected
import StackCode.Proofs.Types.Classes

/-!
# Returns

A function has one return operation, which depends on its result only.  It hands over as many slots
as a value of the result type takes, and selection uses it for `ret` and for nothing else.

## Main definitions

* `Opcode.isReturn`, `Operation.returnWidth?`: returns and the slots they hand over.

## Main results

* `TypeTable.Coherent.returnWidth?_eq`: a return hands over the slots of the result.
* `SelectionContext.returnOp?_of_select`: every return that is selected is the return of the
  function.
-/

namespace StackCode

/-- Whether an opcode returns from a function. -/
def Opcode.isReturn : Opcode → Bool
  | ret | retValue _ => true
  | _ => false

/-- The slots that a return hands over. -/
def Operation.returnWidth? {φ τ : Type} (op : Operation φ τ) : Option Nat :=
  match op.opcode, op.operand with
  | .ret, _ => some 0
  | .retValue .w32, _ => some 1
  | .retValue .w64, _ => some 2
  | .retValue .block, .u8 count => some count.toNat
  | _, _ => none

namespace TypeTable

variable {ε : Type} {t : TypeTable} {result : TypeId} {op : SelectedOp}

/-- The return of a value that takes this many slots. -/
def valueReturn : Nat → SelectedOp
  | 1 => .bare (.retValue .w32)
  | 2 => .bare (.retValue .w64)
  | n => ⟨.retValue .block, .u8 (UInt8.ofNat n)⟩

theorem returnWidth?_valueReturn {slots : Nat} (h : slots < 256) :
    (valueReturn slots).returnWidth? = some slots := by
  unfold valueReturn
  split
  · rfl
  · rfl
  · show some (UInt8.ofNat slots).toNat = some slots
    rw [UInt8.toNat_ofNat', Nat.mod_eq_of_lt h]

theorem returnOp?_eq_ok :
    (t.returnOp? result : Checked ε _) = .ok (some op) ↔
      (result = .void ∧ op = .bare .ret) ∨
        (result ≠ .void ∧ ∃ stack slots, t.HasStack result stack ∧ t.HasSlots stack slots ∧
          slots < 256 ∧ op = valueReturn slots) := by
  unfold returnOp?
  by_cases hvoid : result = .void
  · simp only [hvoid, if_true, pure_eq_ok, Option.some.injEq, true_and, ne_eq, not_true, false_and,
      or_false]
    exact eq_comm
  · simp only [hvoid, if_false, bind_eq_ok, stackType_eq_ok, slots_eq_ok, false_and, ne_eq,
      not_false_eq_true, true_and, false_or]
    refine exists_congr fun stack => ?_
    rw [← exists_and_left]
    refine exists_congr fun slots => and_congr_right fun _ => and_congr_right fun _ => ?_
    split
    · rw [pure_eq_ok, Option.some.injEq, eq_comm]
      exact (and_iff_right (by decide)).symm
    · rw [pure_eq_ok, Option.some.injEq, eq_comm]
      exact (and_iff_right (by decide)).symm
    · rw [pure_eq_ok]
      by_cases hlt : slots < 256
      · have hblock : valueReturn slots = ⟨.retValue .block, .u8 (UInt8.ofNat slots)⟩ := by
          unfold valueReturn
          split <;> first | contradiction | rfl
        rw [if_pos hlt, Option.some.injEq, eq_comm, hblock]
        exact (and_iff_right hlt).symm
      · simp [hlt]

/-- A return hands over the slots of the result. -/
theorem Coherent.returnWidth?_eq (h : t.Coherent)
    (hret : (t.returnOp? result : Checked ε _) = .ok (some op)) {slots : Nat}
    (hslots : t.HasSlots result slots) : op.returnWidth? = some slots := by
  rcases returnOp?_eq_ok.mp hret with ⟨rfl, rfl⟩ | ⟨-, stack, slots', hstack, hslots', hlt, rfl⟩
  · have hzero : t.HasSlots .void 0 := ⟨_, h.hasLayout_primitive .void, rfl⟩
    rw [hslots.unique hzero]
    rfl
  · rw [returnWidth?_valueReturn hlt, hslots'.unique (h.hasSlots_stack hstack hslots)]

/-- A result of few enough slots can be returned. -/
theorem Coherent.exists_returnOp (h : t.Coherent) {slots : Nat} (hslots : t.HasSlots result slots)
    (hlt : slots < 256) : ∃ op, (t.returnOp? result : Checked ε _) = .ok (some op) := by
  by_cases hvoid : result = .void
  · exact ⟨.bare .ret, returnOp?_eq_ok.mpr (.inl ⟨hvoid, rfl⟩)⟩
  · obtain ⟨stack, hstack⟩ := exists_hasStack hslots.lt_size
    exact ⟨valueReturn slots, returnOp?_eq_ok.mpr (.inr ⟨hvoid, stack, slots, hstack,
      h.hasSlots_stack hstack hslots, hlt, rfl⟩)⟩

end TypeTable

/-! ## Selected returns -/

namespace SelectionContext

variable {c : SelectionContext} {op : SelectedOp}

theorem slotAccess_isReturn {slot : UInt8} {type : TypeId} {a : Access}
    (h : c.slotAccess slot type a = .ok op) : op.opcode.isReturn = false := by
  cases a with
  | address =>
    cases pure_eq_ok.mp h
    rfl
  | load | store =>
    obtain ⟨_, -, h⟩ := bind_eq_ok.mp h
    cases pure_eq_ok.mp h
    rfl

theorem variableAccess_isReturn {vars : List Variable} {slot? : Option UInt8} {index : Nat}
    {a : Access} (h : c.variableAccess vars slot? index a = .ok op) :
    op.opcode.isReturn = false := by
  unfold variableAccess at h
  split at h
  · exact slotAccess_isReturn h
  · cases h

theorem fieldAccess_isReturn {ref : FieldRef} {a : Access} (h : c.fieldAccess ref a = .ok op) :
    op.opcode.isReturn = false := by
  unfold fieldAccess at h
  split at h
  · cases h
  · obtain ⟨offset, -, h⟩ := bind_eq_ok.mp h
    cases a with
    | address =>
      cases pure_eq_ok.mp h
      rfl
    | load | store =>
      obtain ⟨_, -, h⟩ := bind_eq_ok.mp h
      split at h <;> cases pure_eq_ok.mp h <;> rfl

theorem funcOp_isReturn {func : FuncRef} {funcOp : FuncOp} (h : c.funcOp func funcOp = .ok op) :
    op.opcode.isReturn = false := by
  cases funcOp with
  | call | loadFunction =>
    cases pure_eq_ok.mp h
    rfl
  | newObject =>
    obtain ⟨object?, -, h⟩ := bind_eq_ok.mp h
    cases object? with
    | none => cases h
    | some object =>
      obtain ⟨_, -, h⟩ := bind_eq_ok.mp h
      obtain ⟨_, -, h⟩ := bind_eq_ok.mp h
      cases pure_eq_ok.mp h
      rfl

theorem elementAccess_isReturn {container type : TypeId} {a : Access}
    (h : c.elementAccess container type a = .ok op) : op.opcode.isReturn = false := by
  obtain ⟨part, -, h⟩ := bind_eq_ok.mp h
  obtain ⟨_, -, h⟩ := bind_eq_ok.mp h
  obtain ⟨stride, -, h⟩ := bind_eq_ok.mp h
  cases a with
  | address =>
    cases pure_eq_ok.mp h
    rfl
  | load | store =>
    obtain ⟨_, -, h⟩ := bind_eq_ok.mp h
    cases pure_eq_ok.mp h
    rfl

theorem typeOp_isReturn {operand type : TypeId} {typeOp : TypeOp} {ops : List SelectedOp}
    (h : c.typeOp operand type typeOp = .ok ops) (hop : op ∈ ops) :
    op.opcode.isReturn = false := by
  cases typeOp with
  | convert =>
    simp only [SelectionContext.typeOp] at h
    split at h
    · cases pure_eq_ok.mp h
      obtain ⟨conversion, -, rfl⟩ := List.mem_map.mp hop
      rfl
    · cases h
  | loadIndirect | storeIndirect =>
    obtain ⟨_, -, h⟩ := bind_eq_ok.mp h
    split at h <;> cases pure_eq_ok.mp h <;> cases List.mem_singleton.mp hop <;> rfl
  | loadElement | storeElement | elementAddress =>
    obtain ⟨selected, hselected, h⟩ := bind_eq_ok.mp h
    cases pure_eq_ok.mp h
    cases List.mem_singleton.mp hop
    exact elementAccess_isReturn hselected
  | callIndirect =>
    cases pure_eq_ok.mp h
    cases List.mem_singleton.mp hop
    rfl

theorem branch_isReturn {operand : TypeId} {condition : Condition} {target : Label}
    {ops : List SelectedOp} (h : c.branch operand condition target = .ok ops) (hop : op ∈ ops) :
    op.opcode.isReturn = false := by
  obtain ⟨operandClass, -, h⟩ := bind_eq_ok.mp h
  split at h
  · cases pure_eq_ok.mp h
    cases List.mem_singleton.mp hop
    rfl
  · split at h
    · cases pure_eq_ok.mp h
      rcases List.mem_pair.mp hop with rfl | rfl <;> rfl
    · cases h

/-- **Every return that is selected is the return of the function.** -/
theorem returnOp?_of_select {i : TypedInstr} {ops : List SelectedOp} (h : c.select i = .ok ops)
    (hop : op ∈ ops) (hreturn : op.opcode.isReturn = true) :
    (c.types.returnOp? c.decl.result : Checked SelectionError _) = .ok (some op) := by
  have habsurd : op.opcode.isReturn ≠ false := by simp [hreturn]
  obtain ⟨instr, operands, results⟩ := i
  cases instr with
  | plain plainOp =>
    obtain ⟨selected, hselected, h⟩ := bind_eq_ok.mp h
    cases pure_eq_ok.mp h
    cases List.mem_singleton.mp hop
    cases plainOp with
    | ret => exact returnOp?_of_plain_ret hselected
    | nop | null =>
      cases pure_eq_ok.mp hselected
      cases hreturn
    | arith _ | integer _ | neg | not | compare _ | compareUn _ =>
      obtain ⟨_, -, hselected⟩ := bind_eq_ok.mp hselected
      cases pure_eq_ok.mp hselected
      cases hreturn
    | dup | pop =>
      obtain ⟨⟨width, count⟩, -, hselected⟩ := bind_eq_ok.mp hselected
      cases pure_eq_ok.mp hselected
      cases width <;> cases hreturn
  | constant value =>
    cases pure_eq_ok.mp h
    cases List.mem_singleton.mp hop
    cases value <;> cases hreturn
  | argument a index | localVar a index =>
    obtain ⟨selected, hselected, h⟩ := bind_eq_ok.mp h
    cases pure_eq_ok.mp h
    cases List.mem_singleton.mp hop
    exact absurd (variableAccess_isReturn hselected) habsurd
  | field a ref =>
    obtain ⟨selected, hselected, h⟩ := bind_eq_ok.mp h
    cases pure_eq_ok.mp h
    cases List.mem_singleton.mp hop
    exact absurd (fieldAccess_isReturn hselected) habsurd
  | function funcOp func =>
    obtain ⟨selected, hselected, h⟩ := bind_eq_ok.mp h
    cases pure_eq_ok.mp h
    cases List.mem_singleton.mp hop
    exact absurd (funcOp_isReturn hselected) habsurd
  | typed typeOp type => exact absurd (typeOp_isReturn h hop) habsurd
  | jump target =>
    cases pure_eq_ok.mp h
    cases List.mem_singleton.mp hop
    cases hreturn
  | branch condition target => exact absurd (branch_isReturn h hop) habsurd

end SelectionContext

end StackCode
