import StackCode.Proofs.Code.Compiled
import StackCode.Proofs.Code.Frames
import StackCode.Proofs.Typing.Calls
import StackCode.Proofs.Typing.Outcome

/-!
# Selection for known types

The frame of a bound function and the operations of its instructions are found by lookups of known
types only.  Selection refuses what does not fit an operand field or has no opcode, and finds
everything that an instruction names.

## Main definitions

* `SelectionError.isInternal`, `EncodeError.isInternal`: the errors that binding rules out.
* `SelectionContext.Bound`: what selection needs to know of a function.

## Main results

* `SelectionContext.Bound.select_ends`: how selection for an instruction ends.
* `Program.functionCode_ends`: how selection for a function ends.
-/

namespace StackCode

open TypeTable

/-- Whether binding rules the error out. -/
def SelectionError.isInternal : SelectionError → Bool
  | unbound => true
  | _ => false

/-- Whether binding and verification rule the error out. -/
def EncodeError.isInternal : EncodeError → Bool
  | unverified _ | unbound .. | notImported .. | unknownModule _ => true
  | _ => false

/-- An error is internal wherever it is. -/
theorem SelectionError.isInternal_located {func : FuncRef} {index : Nat} {e : SelectionError} :
    (e.located func index).isInternal = e.isInternal := by
  cases e <;> rfl

/-- A frame that is too large is the program's fault. -/
theorem FrameError.located_ends {α : Type} {P : α → Prop} {x : Checked FrameError α}
    (func : FuncRef) (h : Ends P (Fault.Refuses fun _ => True) x) :
    Ends P (Fault.Refuses (·.isInternal = false)) (x.widen (FrameError.located func)) :=
  h.widen fun _ _ => rfl

/-! ## Frames -/

namespace Frame

variable {t : TypeTable} {part : FramePart} {decl : FunctionDecl}

theorem add_ends {a b : Nat} :
    Ends (fun _ => True) (Fault.Refuses fun _ => True) (add part a b) := by
  unfold add
  split
  · exact .ok trivial
  · exact .refuse trivial

theorem fit_ends {slots : Nat} :
    Ends (fun _ => True) (Fault.Refuses fun _ => True) (fit part slots) := by
  unfold fit
  split
  · exact .ok trivial
  · exact .refuse trivial

/-- Every variable gets a slot. -/
theorem assign_ends {vars : List Variable} {next : Nat}
    (hvars : ∀ v ∈ vars, v.type.index < t.size) :
    Ends (fun assigned => assigned.1.length = vars.length) (Fault.Refuses fun _ => True)
      (assign t part vars next) := by
  induction vars generalizing next with
  | nil => exact .ok rfl
  | cons v vars ih =>
    obtain ⟨hv, hrest⟩ := List.forall_mem_cons.mp hvars
    refine fit_ends.bind fun first _ => (slots_ends hv).bind fun slots _ => add_ends.bind ?_
    intro next _
    exact (ih hrest).bind fun assigned hassigned => .pure (congrArg Nat.succ hassigned)

theorem depth_ends {s : OperandStack TypeId} (hs : t.Knows s.topDown) :
    Ends (fun _ => True) (Fault.Refuses fun _ => True) (depth t s) := by
  refine .foldlM trivial fun type htype sum _ => ?_
  exact (slots_ends (knows_reverse.mpr hs type htype)).bind fun _ _ => add_ends

theorem peak_ends {states : List (Option (OperandStack TypeId))}
    (hstates : ∀ s, some s ∈ states → t.Knows s.topDown) :
    Ends (fun _ => True) (Fault.Refuses fun _ => True) (peak t states) := by
  refine .foldlM trivial fun s hs peak _ => ?_
  obtain ⟨_, hmem, rfl⟩ := List.mem_filterMap.mp hs
  exact (depth_ends (hstates s hmem)).bind fun _ _ => .pure trivial

/-- How the frame of a body is found. -/
theorem ofTyping_ends {states : List (Option (OperandStack TypeId))}
    (hvars : ∀ v ∈ decl.params ++ decl.locals, v.type.index < t.size)
    (hstates : ∀ s, some s ∈ states → t.Knows s.topDown) :
    Ends (fun frame => frame.paramOffsets.length = decl.params.length ∧
        frame.localOffsets.length = decl.locals.length) (Fault.Refuses fun _ => True)
      (ofTyping t decl states) := by
  obtain ⟨hparams, hlocals⟩ := List.forall_mem_append.mp hvars
  refine (assign_ends hparams).bind fun params hparamSlots => ?_
  refine (assign_ends hlocals).bind fun locals hlocalSlots => ?_
  refine Ends.bind (.mapM (R := fun _ _ => True) fun _ _ => add_ends.bind fun _ _ => fit_ends) ?_
  intro localOffsets hoffsets
  refine (peak_ends hstates).bind fun _ _ => fit_ends.bind fun _ _ => fit_ends.bind fun _ _ => ?_
  refine fit_ends.bind fun _ _ => add_ends.bind fun _ _ => add_ends.bind fun _ _ => ?_
  exact fit_ends.bind fun _ _ => .pure ⟨hparamSlots, hoffsets.length_eq.symm.trans hlocalSlots⟩

theorem ofStub_ends (hparams : ∀ v ∈ decl.params, v.type.index < t.size)
    (hresult : decl.result.index < t.size) :
    Ends (fun _ => True) (Fault.Refuses fun _ => True) (ofStub t decl) := by
  refine (assign_ends hparams).bind fun _ _ => (slots_ends hresult).bind fun _ _ => ?_
  refine add_ends.bind fun _ _ => fit_ends.bind fun _ _ => fit_ends.bind fun _ _ => ?_
  exact fit_ends.bind fun _ _ => .pure trivial

end Frame

/-! ## Operations -/

theorem byteOperand_ends {value : Nat} :
    Ends (fun _ => True) (Fault.Refuses (·.isInternal = false)) (byteOperand value) := by
  unfold byteOperand
  split
  · exact .ok trivial
  · exact .refuse rfl

theorem wordOperand_ends {value : Nat} :
    Ends (fun _ => True) (Fault.Refuses (·.isInternal = false)) (wordOperand value) := by
  unfold wordOperand
  split
  · exact .ok trivial
  · exact .refuse rfl

/-- Slots are moved, unless there are too many. -/
theorem moveWidth_ends {slots : Nat} :
    Ends (fun _ => True) (Fault.Refuses (·.isInternal = false)) (moveWidth slots) := by
  unfold moveWidth
  split
  · exact .ok trivial
  · exact .ok trivial
  · exact byteOperand_ends.bind fun _ _ => .pure trivial

namespace TypeTable

variable {t : TypeTable} {type : TypeId}

section

variable (htype : type.index < t.size)

include htype

/-- The class of known operands is found, or refused. -/
theorem operandClass_ends :
    Ends (fun _ => True) (Fault.Refuses (·.isInternal = false)) (t.operandClass type) := by
  unfold operandClass
  split
  · exact .pure trivial
  · split
    · exact .pure trivial
    · refine (isReference_ends htype).bind fun _ _ => ?_
      split
      · exact .pure trivial
      · exact .refuse rfl

theorem operandWidth_ends :
    Ends (fun _ => True) (Fault.Refuses (·.isInternal = false)) (t.operandWidth type) := by
  refine (operandClass_ends htype).bind fun _ _ => ?_
  split
  · exact .pure trivial
  · exact .refuse rfl

theorem typeWidth_ends :
    Ends (fun _ => True) (Fault.Refuses (·.isInternal = false)) (t.typeWidth type) :=
  (slots_ends htype).bind fun _ _ => moveWidth_ends

/-- How values of a known type are loaded is found, unless they are too large. -/
theorem loadCell_ends :
    Ends (fun _ => True) (Fault.Refuses (·.isInternal = false)) (t.loadCell type) := by
  refine (layout_ends htype).bind fun _ _ => (kind_ends htype).bind fun _ _ => ?_
  split <;> first | exact .pure trivial | exact wordOperand_ends.bind fun _ _ => .pure trivial

theorem storeWidth_ends :
    Ends (fun _ => True) (Fault.Refuses (·.isInternal = false)) (t.storeWidth type) := by
  refine (layout_ends htype).bind fun _ _ => ?_
  split <;> first | exact .pure trivial | exact wordOperand_ends.bind fun _ _ => .pure trivial

theorem slotCell_ends :
    Ends (fun _ => True) (Fault.Refuses (·.isInternal = false)) (t.slotCell type) := by
  refine (kind_ends htype).bind fun _ _ => (typeWidth_ends htype).bind fun _ _ => ?_
  split <;> exact .pure trivial

/-- How a value of a known type is returned is always found. -/
theorem Coherent.returnOp?_ends {ε : Type} {Q : Fault ε → Prop} (h : t.Coherent) :
    Ends (fun _ => True) Q (t.returnOp? type : Checked ε _) := by
  unfold returnOp?
  split
  · exact .pure trivial
  · refine (stackType_ends htype).bind fun stack hstack => ?_
    refine (slots_ends (h.lt_size_of_hasStack hstack)).bind fun slots _ => ?_
    split <;> exact .pure trivial

/-- How elements of a known container are found; an array is found behind a reference. -/
theorem Coherent.containerPart_ends (h : t.Coherent) :
    Ends (fun found => found.1.index < t.size) (Fault.Refuses (·.isInternal = false))
      (t.containerPart type) := by
  refine (kind_ends htype).bind fun kind hkind => ?_
  cases kind with
  | span element => exact .pure (madeBelow_span.mp (h.madeBelow hkind))
  | reference target =>
    refine (kind_ends (madeBelow_reference.mp (h.madeBelow hkind))).bind fun kind' hkind' => ?_
    cases kind' with
    | array element length => exact .pure (madeBelow_array.mp (h.madeBelow hkind'))
    | _ => exact .refuse rfl
  | _ => exact .refuse rfl

end

end TypeTable

namespace SelectionContext

variable {c : SelectionContext}

/-- What selection needs to know of a function: the types of the table are finished, the function is
bound, and its frame has a slot for each of its variables. -/
structure Bound (c : SelectionContext) : Prop where
  types : c.types.Coherent
  function : c.program.BoundSignature c.decl
  paramSlots : c.frame.paramOffsets.length = c.decl.params.length
  localSlots : c.frame.localOffsets.length = c.decl.locals.length

namespace Bound

variable (h : c.Bound) {type operand : TypeId}

include h

theorem plain_ends (hoperand : operand.index < c.types.size) (op : PlainOp) :
    Ends (fun _ => True) (Fault.Refuses (·.isInternal = false)) (c.plain operand op) := by
  have hresult := contains_iff.mp h.function.result
  cases op with
  | nop | null => exact .pure trivial
  | arith _ | neg | compare _ => exact (operandClass_ends hoperand).bind fun _ _ => .pure trivial
  | integer _ | not | compareUn _ =>
    exact (operandWidth_ends hoperand).bind fun _ _ => .pure trivial
  | dup | pop => exact (typeWidth_ends hoperand).bind fun _ _ => .pure trivial
  | ret =>
    refine (h.types.returnOp?_ends hresult).bind fun ret? _ => ?_
    cases ret? with
    | none => exact (slots_ends hresult).bind fun _ _ => .refuse rfl
    | some ret => exact .pure trivial

omit h in
theorem slotAccess_ends {slot : UInt8} (htype : type.index < c.types.size) (a : Access) :
    Ends (fun _ => True) (Fault.Refuses (·.isInternal = false)) (c.slotAccess slot type a) := by
  cases a with
  | address => exact .pure trivial
  | load => exact (typeWidth_ends htype).bind fun _ _ => .pure trivial
  | store => exact (slotCell_ends htype).bind fun _ _ => .pure trivial

omit h in
theorem variableAccess_ends {vars : List Variable} {slots : List UInt8} {index : Nat} (a : Access)
    (hvars : ∀ v ∈ vars, v.type.index < c.types.size) (hslots : slots.length = vars.length)
    (hindex : index < vars.length) :
    Ends (fun _ => True) (Fault.Refuses (·.isInternal = false))
      (c.variableAccess vars slots[index]? index a) := by
  have hslot : slots[index]? = some slots[index] := List.getElem?_eq_getElem (hslots ▸ hindex)
  have hv : vars[index]? = some vars[index] := List.getElem?_eq_getElem hindex
  simp only [variableAccess, hslot, hv]
  exact slotAccess_ends (hvars _ (List.getElem_mem hindex)) a

theorem fieldAccess_ends {ref : FieldRef} (hfield : (c.types.field? ref.owner ref.index).isSome)
    (a : Access) :
    Ends (fun _ => True) (Fault.Refuses (·.isInternal = false)) (c.fieldAccess ref a) := by
  obtain ⟨field, hfield⟩ := Option.isSome_iff_exists.mp hfield
  have htype := h.types.lt_size_of_field? hfield
  simp only [fieldAccess, hfield]
  refine wordOperand_ends.bind fun _ _ => ?_
  cases a with
  | address => exact .pure trivial
  | load =>
    refine (loadCell_ends htype).bind fun _ _ => ?_
    split <;> exact .pure trivial
  | store =>
    refine (storeWidth_ends htype).bind fun _ _ => ?_
    split <;> exact .pure trivial

theorem elementAccess_ends (hcontainer : operand.index < c.types.size)
    (htype : type.index < c.types.size) (a : Access) :
    Ends (fun _ => True) (Fault.Refuses (·.isInternal = false))
      (c.elementAccess operand type a) := by
  refine (h.types.containerPart_ends hcontainer).bind fun found hfound => ?_
  refine (layout_ends hfound).bind fun _ _ => wordOperand_ends.bind fun _ _ => ?_
  cases a with
  | address => exact .pure trivial
  | load => exact (loadCell_ends htype).bind fun _ _ => .pure trivial
  | store => exact (storeWidth_ends htype).bind fun _ _ => .pure trivial

theorem typeOp_ends (hoperand : operand.index < c.types.size) (htype : type.index < c.types.size)
    (op : TypeOp) :
    Ends (fun _ => True) (Fault.Refuses (·.isInternal = false)) (c.typeOp operand type op) := by
  cases op with
  | convert =>
    simp only [typeOp]
    split
    · exact .pure trivial
    · exact .refuse rfl
  | loadIndirect =>
    refine (loadCell_ends htype).bind fun _ _ => ?_
    split <;> exact .pure trivial
  | storeIndirect =>
    refine (storeWidth_ends htype).bind fun _ _ => ?_
    split <;> exact .pure trivial
  | loadElement | storeElement | elementAddress =>
    exact (h.elementAccess_ends hoperand htype _).bind fun _ _ => .pure trivial
  | callIndirect => exact .pure trivial

omit h in
theorem branch_ends (hoperand : operand.index < c.types.size) (condition : Condition)
    (target : Label) :
    Ends (fun _ => True) (Fault.Refuses (·.isInternal = false))
      (c.branch operand condition target) := by
  refine (operandClass_ends hoperand).bind fun _ _ => ?_
  split
  · exact .pure trivial
  · split
    · exact .pure trivial
    · exact .refuse rfl

/-- **How selection for a bound instruction ends.** -/
theorem select_ends {m : ModuleDecl} {func : FuncRef} {index : Nat} {i : TypedInstr}
    (hbound : c.program.bindInstr m func c.decl index i.instr = .ok ())
    (hoperands : c.types.Knows i.operands)
    (hobject : ∀ g, i.instr = .function .newObject g →
      ∃ object, c.objectType? g = .ok (some object) ∧ object.index < c.types.size) :
    Ends (fun _ => True) (Fault.Refuses (·.isInternal = false)) (c.select i) := by
  -- selection asks about the first operand, and about `void` if there is none
  have hoperand : (i.operands.headD .void).index < c.types.size := by
    cases hcases : i.operands with
    | nil => exact h.types.lt_size_primitive .void
    | cons operand others => exact hoperands operand (hcases ▸ List.mem_cons_self)
  have hvars : ∀ v ∈ c.decl.params ++ c.decl.locals, v.type.index < c.types.size :=
    fun v hv => contains_iff.mp (h.function.vars v hv).1
  obtain ⟨hparams, hlocals⟩ := List.forall_mem_append.mp hvars
  obtain ⟨instr, operands, results⟩ := i
  cases instr with
  | plain op => exact (h.plain_ends hoperand op).bind fun _ _ => .pure trivial
  | constant value => exact .pure trivial
  | argument a index =>
    have hindex := of_decide_eq_true (Program.demand_eq_ok.mp hbound)
    exact (variableAccess_ends a hparams h.paramSlots hindex).bind fun _ _ => .pure trivial
  | localVar a index =>
    have hindex := of_decide_eq_true (Program.demand_eq_ok.mp hbound)
    exact (variableAccess_ends a hlocals h.localSlots hindex).bind fun _ _ => .pure trivial
  | field a ref =>
    exact (h.fieldAccess_ends (Program.demand_eq_ok.mp hbound) a).bind fun _ _ => .pure trivial
  | function op g =>
    cases op with
    | call | loadFunction => exact .pure trivial
    | newObject =>
      obtain ⟨object, hfound, hlt⟩ := hobject g rfl
      refine Ends.bind (P := fun _ => True) ?_ fun _ _ => .pure trivial
      simp only [funcOp, hfound]
      exact (slots_ends hlt).bind fun _ _ => byteOperand_ends.bind fun _ _ => .pure trivial
  | typed op type =>
    exact h.typeOp_ends hoperand (contains_iff.mp (Program.demand_eq_ok.mp hbound)) op
  | jump target => exact .pure trivial
  | branch condition target => exact branch_ends hoperand condition target

end Bound

end SelectionContext

/-! ## Functions -/

namespace Program

variable {p : Program} {m : ModuleDecl} {typing : TypedProgram} {config : VerifyConfig}
  {func : FuncRef} {decl : FunctionDecl} {typed : TypedFunction}

/-- The object that a typed construction makes is of a known type.  Typing has found it behind the
first parameter, where selection looks for it. -/
theorem exists_objectType {g : FuncRef} {frame : Frame} {s out : OperandStack TypeId}
    {effect : Effect TypeId} (htypes : p.types.Coherent) {ctor : FunctionDecl}
    (hg : p.function? g = some ctor)
    (hstep : (TypingContext.mk p decl).step (.function .newObject g) s = .ok (effect, out)) :
    ∃ object, (SelectionContext.mk p decl frame).objectType? g = .ok (some object) ∧
      object.index < p.types.size := by
  obtain ⟨this, others, object, hparams, -, hthis, -, -⟩ := TypingContext.step_newObject hg hstep
  refine ⟨object, ?_, madeBelow_reference.mp (htypes.madeBelow hthis)⟩
  simp only [SelectionContext.objectType?, hg, hparams]
  exact referent?_eq_ok.mpr ⟨_, hthis, rfl⟩

section

variable (htypes : p.types.Coherent) (hbind : p.bind = .ok ())

include htypes hbind

/-- How selection for an instruction of a typed body ends. -/
theorem selectIfReached_ends {frame : Frame} {index : Nat} {instr? : Option TypedInstr}
    (hverify : p.verify config = .ok typing) (hf : p.function? func = some decl)
    (hbound : p.BoundCode m func decl) (htyped : typing.function? func = some typed)
    (hcovers : typed.Covers ⟨p, decl⟩) (hcontext : (SelectionContext.mk p decl frame).Bound)
    (hinstr? : typed.instrs[index]? = some instr?) :
    Ends (fun _ => True) (Fault.Refuses (·.isInternal = false))
      (selectIfReached ⟨p, decl, frame⟩ func index instr?) := by
  cases instr? with
  | none => exact .pure trivial
  | some typedInstr =>
    have hlt := (Array.getElem?_eq_some_iff.mp hinstr?).1
    rw [hcovers.size_instrs] at hlt
    have hinstr : decl.body[index]? = some decl.body[index] := Array.getElem?_eq_getElem hlt
    obtain ⟨s, hs⟩ := hcovers.exists_state hinstr?
    obtain ⟨effect, out, hstep, hrecorded, -⟩ := hcovers.reached hinstr hs
    cases hinstr?.symm.trans hrecorded
    have hknown := knows_states htypes hbind hverify hf htyped hs
    have hends := (TypingContext.bound_of_bind htypes hbind hf).step_ends
      (hbound.lt_size hinstr) hknown
    refine (hcontext.select_ends (hbound.instr hinstr) ?_ ?_).widen fun cause hcause => ?_
    · exact knows_reverse.mpr (hends.result hstep).1
    · intro g hg
      dsimp only at hg
      rw [hg] at hstep hinstr
      obtain ⟨ctor, hctor⟩ := hbound.exists_callee hinstr
      exact exists_objectType htypes hctor hstep
    · exact SelectionError.isInternal_located.trans hcause

/-- **How selection for a function of a bound and verified program ends.** -/
theorem functionCode_ends (hverify : p.verify config = .ok typing)
    (hf : p.function? func = some decl) :
    Ends (fun _ => True) (Fault.Refuses (·.isInternal = false))
      (p.functionCode typing func decl) := by
  have hsignature := boundSignature_of_bind hbind hf
  have hresult := contains_iff.mp hsignature.result
  have hvars : ∀ v ∈ decl.params ++ decl.locals, v.type.index < p.types.size :=
    fun v hv => contains_iff.mp (hsignature.vars v hv).1
  unfold functionCode
  cases himpl : decl.implementation with
  | syscall id =>
    have hframe := Frame.ofStub_ends (List.forall_mem_append.mp hvars).1 hresult
    refine (FrameError.located_ends func hframe).bind fun frame _ => ?_
    refine (htypes.returnOp?_ends hresult).bind fun ret? _ => ?_
    cases ret? with
    | none => exact (slots_ends hresult).bind fun _ _ => .refuse rfl
    | some ret => exact .pure trivial
  | code =>
    obtain ⟨m, hm, hdecl⟩ := function?_eq_some.mp hf
    have hbound := boundCode_of_bind hbind hm hdecl himpl
    obtain ⟨typed, htyped, hfunction⟩ := function?_of_verify hverify hf
    have hcovers := verifyFunction_covers hf himpl hfunction
    simp only [htyped, hcovers.size_instrs, if_true]
    have hstates : ∀ s, some s ∈ typed.states.toList → p.types.Knows s.topDown := by
      intro s hs
      obtain ⟨i, hi⟩ := List.mem_iff_getElem?.mp hs
      rw [Array.getElem?_toList] at hi
      exact knows_states htypes hbind hverify hf htyped hi
    refine (FrameError.located_ends func (Frame.ofTyping_ends hvars hstates)).bind ?_
    intro frame hframe
    refine Ends.bind (.mapM (R := fun _ _ => True) fun indexed hindexed => ?_) fun _ _ =>
      .pure trivial
    obtain ⟨instr?, index⟩ := indexed
    refine selectIfReached_ends htypes hbind hverify hf hbound htyped hcovers
      ⟨htypes, hsignature, hframe.1, hframe.2⟩ ?_
    simpa using List.mem_zipIdx_iff_getElem?.mp hindexed

end

end Program

end StackCode
