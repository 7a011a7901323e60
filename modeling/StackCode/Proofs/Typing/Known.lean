import StackCode.Proofs.Program.Binding
import StackCode.Proofs.Types.Containment
import StackCode.Proofs.Types.Known
import StackCode.Proofs.Typing.Simulation

/-!
# Rules on stacks of known types

On a stack of known types the typing rule of a bound instruction looks up known types only, and what
it leaves is a stack of known types.  A merge of two such stacks is one again.  If everything the
instruction names is there, the rule does not refuse it as unbound.

## Main definitions

* `Violation.isInternal`: the violation that binding rules out.
* `Violation.isExpected`: the violations of typing rules.
* `Operands.Within`: computations that stay within a table.
* `TypingContext.Resolves`: what an instruction names is there.

## Main results

* `TypingContext.Bound.step_expected`, `TypingContext.Bound.step_ends`: a step stays within the
  table.
* `TypeTable.mergeStacks_ends`: a merge stays within the table.
-/

namespace StackCode

/-- Whether binding rules the violation out. -/
def Violation.isInternal : Violation → Bool
  | badBranchTarget _ => true
  | _ => false

/-- Whether a typing rule may give the violation.  Labels are no matter of the rules, and nothing is
unbound if all other names are `resolved`. -/
def Violation.isExpected (resolved : Bool) : Violation → Bool
  | badBranchTarget _ => false
  | unbound => !resolved
  | _ => true

/-- What a rule is expected to refuse is no internal error. -/
theorem Violation.isInternal_of_isExpected {resolved : Bool} {v : Violation}
    (h : v.isExpected resolved = true) : v.isInternal = false := by
  cases v with
  | badBranchTarget label => cases h
  | _ => rfl

namespace Operands

variable {α β : Type} {t : TypeTable} {resolved : Bool} {P : α → Prop} {R : β → Prop}

/-- On a stack of known types the computation stays within the table: it ends with an answer that
has the property `P` and leaves a stack of known types, or it refuses the instruction; not as
unbound, if the names of the instruction are `resolved`. -/
def Within (t : TypeTable) (resolved : Bool) (P : α → Prop) (m : Operands α) : Prop :=
  ∀ s : OperandStack TypeId, t.Knows s.topDown →
    Ends (fun answer => P answer.1 ∧ t.Knows answer.2.topDown)
      (Fault.Refuses (·.isExpected resolved = true)) (m s)

namespace Within

/-- Sequences stay within the table if their parts do. -/
theorem bind {m : Operands α} {f : α → Operands β} (h : Within t resolved P m)
    (hf : ∀ a, P a → Within t resolved R (f a)) : Within t resolved R (m >>= f) :=
  fun s hs => (h s hs).bind fun answer hanswer => hf answer.1 hanswer.1 answer.2 hanswer.2

theorem pure {a : α} (h : P a) : Within t resolved P (pure a) := fun _ hs => ⟨h, hs⟩

theorem refuse {v : Violation} (h : v.isExpected resolved = true) :
    Within t resolved P (refuse v : Operands α) := fun _ _ => h

/-- Nothing is unbound if the names are resolved. -/
theorem unbound (h : resolved = true → False) :
    Within t resolved P (Operands.refuse .unbound : Operands α) := by
  cases resolved with
  | true => exact (h rfl).elim
  | false => exact .refuse rfl

theorem require {condition : Bool} {v : Violation} (h : v.isExpected resolved = true) :
    Within t resolved (fun _ => True) (require condition v) := by
  cases condition with
  | true => exact .pure trivial
  | false => exact .refuse h

theorem ask {query : Checked Violation α}
    (h : Ends P (Fault.Refuses (·.isExpected resolved = true)) query) :
    Within t resolved P (ask query) :=
  fun _ hs => h.bind fun _ ha => .pure ⟨ha, hs⟩

theorem pop : Within t resolved (fun type => type.index < t.size) pop := by
  rintro ⟨_ | ⟨type, below⟩⟩ hs
  · exact Ends.refuse rfl
  · exact Ends.ok (TypeTable.knows_cons.mp hs)

theorem get : Within t resolved (fun _ => True) get := fun _ hs => ⟨trivial, hs⟩

end Within

theorem popPair_within {expected : Expectation} {inClass : TypeId → Bool} :
    Within t resolved (fun type => type.index < t.size) (popPair expected inClass) := by
  refine .bind .pop fun right _ => .bind .pop fun left hleft => ?_
  exact .bind (.require rfl) fun _ _ => .bind (.require rfl) fun _ _ => .pure hleft

theorem popIndex_within : Within t resolved (fun _ => True) popIndex :=
  .bind .pop fun _ _ => .require rfl

end Operands

namespace TypeTable

open Operands

variable {t : TypeTable} {resolved : Bool} {type : TypeId}

theorem isNullable_within (htype : type.index < t.size) :
    Within t resolved (fun _ => True) (t.isNullable type) := by
  unfold isNullable
  split
  · exact .pure trivial
  · exact .ask (isReference_ends htype)

theorem popEqualityPair_within : Within t resolved (fun _ => True) t.popEqualityPair := by
  refine .bind .pop fun right hright => .bind .pop fun left hleft => ?_
  refine .bind (isNullable_within hleft) fun _ _ => .bind (.require rfl) fun _ _ => ?_
  exact .bind (isNullable_within hright) fun _ _ => .require rfl

theorem refuseAddress_within {use : AddressUse} (htype : type.index < t.size) :
    Within t resolved (fun _ => True) (t.refuseAddress use type) := by
  refine .bind (.ask (carriesAddress_ends htype)) fun carries _ => ?_
  cases carries with
  | true => exact .refuse rfl
  | false => exact .pure trivial

namespace Coherent

variable (h : t.Coherent)

include h

theorem expectAssignable_within {value : TypeId} (htype : type.index < t.size) :
    Within t resolved (fun _ => True) (t.expectAssignable value type) :=
  .bind (.ask (h.assignable_ends htype)) fun _ _ => .require rfl

theorem expectLocation_within {location : TypeId} (hlocation : location.index < t.size)
    (htype : type.index < t.size) :
    Within t resolved (fun _ => True) (t.expectLocation location type) :=
  .bind (.ask (verificationType_ends hlocation)) fun _ _ => h.expectAssignable_within htype

theorem popEach_within {params : List TypeId} (hparams : t.Knows params) :
    Within t resolved (fun _ => True)
      (params.forM fun param => do t.expectAssignable (← pop) param) := by
  induction params with
  | nil => exact .pure trivial
  | cons param params ih =>
    obtain ⟨hparam, hrest⟩ := knows_cons.mp hparams
    exact .bind (.bind .pop fun _ _ => h.expectAssignable_within hparam) fun _ _ => ih hrest

theorem popArguments_within {params : List TypeId} (hparams : t.Knows params) :
    Within t resolved (fun _ => True) (t.popArguments params) :=
  .bind .get fun _ _ => .bind (.require rfl) fun _ _ =>
    h.popEach_within (knows_reverse.mpr hparams)

/-- What is behind a reference is of the table. -/
theorem popReference_within :
    Within t resolved (fun target => target.index < t.size) t.popReference := by
  refine .bind .pop fun address haddress => .bind (.ask (referent?_ends haddress)) ?_
  intro target? htarget
  cases target? with
  | none => exact .refuse rfl
  | some target => exact .pure (madeBelow_reference.mp (h.madeBelow (htarget target rfl)))

/-- The elements of a container are values of the table. -/
theorem popContainer_within : Within t resolved
    (fun element => element.index < t.size ∧ element ≠ .void ∧ element ≠ .null) t.popContainer := by
  refine .bind .pop fun container hcontainer => .bind (.ask (h.elementType?_ends hcontainer)) ?_
  intro element? helement
  cases element? with
  | none => exact .refuse rfl
  | some element => exact .pure (helement element rfl)

/-- A value of a type of the table is of the table. -/
theorem valueOf_within (htype : type.index < t.size) :
    Within t resolved t.Knows (t.valueOf type) := by
  unfold valueOf
  split
  · exact .pure knows_nil
  · exact .bind (.ask (stackType_ends htype)) fun stack hstack =>
      .pure (knows_singleton.mpr (h.lt_size_of_hasStack hstack))

/-- A type that values can be behind has a type of references to it, unless it holds addresses. -/
theorem exists_referenceTo?_of_value {kind : TypeKind} (hkind : t.HasKind type kind)
    (hcarries : kind.carriesAddress = false) (hvalue : type ≠ .void ∧ type ≠ .null) :
    ∃ ref, t.referenceTo? type = some ref := by
  refine h.exists_referenceTo? hkind ((h.isAddressable_iff hkind).mpr ⟨hvalue.1, hvalue.2, ?_⟩)
  rintro ⟨target, hreference⟩
  rw [hkind.unique hreference] at hcarries
  cases hcarries

/-- The address of a value of the table is of the table. -/
theorem addressOf_within (htype : type.index < t.size)
    (hvalue : resolved = true → type ≠ .void ∧ type ≠ .null) :
    Within t resolved t.Knows (t.addressOf type) := by
  refine .bind (.ask (carriesAddress_ends htype)) fun carries hcarries => ?_
  obtain ⟨kind, hkind, rfl⟩ := hcarries
  cases hcarries : kind.carriesAddress with
  | true => exact .refuse rfl
  | false =>
    dsimp only
    cases href : t.referenceTo? type with
    | none =>
      refine .unbound fun hresolved => ?_
      obtain ⟨ref, href'⟩ := h.exists_referenceTo?_of_value hkind hcarries (hvalue hresolved)
      cases href.symm.trans href'
    | some ref =>
      exact .bind (.ask (stackType_ends (h.lt_size_of_referenceTo? href))) fun stack hstack =>
        .pure (knows_singleton.mpr (h.lt_size_of_hasStack hstack))

end Coherent

/-! ## Merges -/

/-- The join of two types of the table is one of them, so it is of the table. -/
theorem joinPosition_ends {a b : TypeId} (ha : a.index < t.size) (hb : b.index < t.size) :
    Ends (fun joined => joined.index < t.size) (Fault.Refuses (·.isExpected true = true))
      (t.joinPosition a b) := by
  have hends : Ends (fun _ => True) (Fault.Refuses (·.isExpected true = true))
      (t.joinPosition a b) := by
    refine (join?_ends ha hb).bind fun joined? _ => ?_
    cases joined? with
    | none => exact .refuse rfl
    | some joined => exact .pure trivial
  refine hends.weaken fun joined hjoined _ => ?_
  rcases joinPosition_cases hjoined with ⟨-, rfl⟩ | ⟨-, -, rfl⟩ | ⟨-, -, rfl⟩
  · exact ha
  · exact hb
  · exact ha

/-- A merge stays within the table.  Stacks of one depth are joined position by position. -/
theorem mergeStacks_ends {recorded incoming : OperandStack TypeId}
    (hrecorded : t.Knows recorded.topDown) (hincoming : t.Knows incoming.topDown) :
    Ends (fun merged => t.Knows merged.topDown) (Fault.Refuses (·.isExpected true = true))
      (t.mergeStacks recorded incoming) := by
  unfold mergeStacks
  split
  · refine Ends.bind (P := t.Knows) ?_ fun joined hjoined => .pure (knows_reverse.mpr hjoined)
    refine (Ends.mapM (R := fun _ joined => joined.index < t.size) fun ab hab => ?_).weaken
      fun joined _ hjoined type htype => ?_
    · obtain ⟨ha, hb⟩ := List.of_mem_zip (show (ab.1, ab.2) ∈ _ from hab)
      exact joinPosition_ends (knows_reverse.mpr hrecorded _ ha) (knows_reverse.mpr hincoming _ hb)
    · obtain ⟨_, -, hlt⟩ := mem_of_forall₂ hjoined htype
      exact hlt
  · exact .refuse rfl

end TypeTable

/-- The parameters of a bound function are of known types. -/
theorem Program.BoundSignature.knows_paramTypes {p : Program} {decl : FunctionDecl}
    (h : p.BoundSignature decl) : p.types.Knows decl.paramTypes := by
  intro type htype
  obtain ⟨v, hv, rfl⟩ := List.mem_map.mp htype
  exact TypeTable.contains_iff.mp (h.vars v (List.mem_append_left _ hv)).1

namespace TypingContext

open Operands TypeTable

variable {c : TypingContext} {resolved : Bool}

theorem test_within (condition : Condition) :
    Within c.types resolved (fun _ => True) (c.test condition) := by
  cases condition with
  | isTrue | isFalse =>
    exact .bind .pop fun _ htype => .bind (isNullable_within htype) fun _ _ => .require rfl
  | equal | notEqual => exact popEqualityPair_within
  | ordered _ | orderedUn _ => exact .bind popPair_within fun _ _ => .pure trivial

/-- The variable is there; if its address is taken, values of its type can be stored. -/
def HasPlace (a : Access) (vars : List Variable) (index : Nat) : Prop :=
  ∃ v, vars[index]? = some v ∧ (a = .address → v.type ≠ .void ∧ v.type ≠ .null)

/-- The field is there; if its address is taken, values of its type can be stored. -/
def HasField (c : TypingContext) (a : Access) (ref : FieldRef) : Prop :=
  ∃ field, c.types.field? ref.owner ref.index = some field ∧
    (a = .address → field.type ≠ .void ∧ field.type ≠ .null)

/-- What the instruction names is there. -/
def Resolves (c : TypingContext) : Instr → Prop
  | .argument a index => HasPlace a c.decl.params index
  | .localVar a index => HasPlace a c.decl.locals index
  | .field a ref => c.HasField a ref
  | .function _ func => ∃ callee, c.program.function? func = some callee
  | _ => True

section Rules

variable (h : c.types.Coherent)

include h

/-- Instructions without operands stay within the table.  The result is looked up before it is
taken, and nothing may be left below it. -/
theorem plain_within (hresult : c.decl.result.index < c.types.size) (op : PlainOp) :
    Within c.types resolved c.types.Knows (c.plain op) := by
  have hint32 : c.types.Knows [.int32] := knows_singleton.mpr (h.lt_size_primitive .int32)
  have hleave : Within c.types resolved c.types.Knows leaveNothing :=
    .bind .get fun _ _ => .bind (.require rfl) fun _ _ => .pure knows_nil
  cases op with
  | nop => exact .pure knows_nil
  | null => exact .pure (knows_singleton.mpr (h.lt_size_primitive .null))
  | dup => exact .bind .pop fun _ htype => .pure (knows_cons.mpr ⟨htype, knows_singleton.mpr htype⟩)
  | pop => exact .bind .pop fun _ _ => .pure knows_nil
  | arith op => exact .bind popPair_within fun _ htype => .pure (knows_singleton.mpr htype)
  | integer op => exact .bind popPair_within fun _ htype => .pure (knows_singleton.mpr htype)
  | neg | not =>
    exact .bind .pop fun _ htype => .bind (.require rfl) fun _ _ =>
      .pure (knows_singleton.mpr htype)
  | compareUn op => exact .bind popPair_within fun _ _ => .pure hint32
  | compare op =>
    cases op with
    | equal => exact .bind popEqualityPair_within fun _ _ => .pure hint32
    | _ => exact .bind popPair_within fun _ _ => .pure hint32
  | ret =>
    rw [plain_ret]
    split
    · exact .bind (refuseAddress_within hresult) fun _ _ => .bind .pop fun _ _ =>
        .bind (h.expectAssignable_within hresult) fun _ _ => hleave
    · exact hleave

theorem access_within {vars : List Variable} (hvars : ∀ v ∈ vars, v.type.index < c.types.size)
    {a : Access} {index : Nat} (hplace : resolved = true → HasPlace a vars index) :
    Within c.types resolved c.types.Knows (c.access a vars index) := by
  unfold access
  cases hv : vars[index]? with
  | none =>
    refine .unbound fun hresolved => ?_
    obtain ⟨v, hv', -⟩ := hplace hresolved
    cases hv.symm.trans hv'
  | some v =>
    have hknown := hvars v (List.mem_of_getElem? hv)
    cases a with
    | load => exact h.valueOf_within hknown
    | address =>
      refine h.addressOf_within hknown fun hresolved => ?_
      obtain ⟨v', hv', hvalue⟩ := hplace hresolved
      cases hv.symm.trans hv'
      exact hvalue rfl
    | store =>
      exact .bind .pop fun _ _ => .bind (h.expectAssignable_within hknown) fun _ _ =>
        .pure knows_nil

/-- Field accesses stay within the table.  What has fields is a structure, and there are references
to those. -/
theorem fieldAccess_within {a : Access} {ref : FieldRef}
    (hplace : resolved = true → c.HasField a ref) :
    Within c.types resolved c.types.Knows (c.fieldAccess a ref) := by
  unfold fieldAccess
  cases hfield : c.types.field? ref.owner ref.index with
  | none =>
    refine .unbound fun hresolved => ?_
    obtain ⟨field, hfield', -⟩ := hplace hresolved
    cases hfield.symm.trans hfield'
  | some field =>
    have hknown := h.lt_size_of_field? hfield
    cases howner : c.types.referenceTo? ref.owner with
    | none =>
      obtain ⟨decl, -, hkind, -⟩ := field?_eq_some hfield
      obtain ⟨owner, howner'⟩ := h.exists_referenceTo? hkind rfl
      cases howner.symm.trans howner'
    | some owner =>
      have hreference {value : TypeId} : Within c.types resolved (fun _ => True)
          (c.types.expectAssignable value owner) :=
        h.expectAssignable_within (h.lt_size_of_referenceTo? howner)
      cases a with
      | load =>
        exact .bind .pop fun _ _ => .bind hreference fun _ _ => h.valueOf_within hknown
      | address =>
        refine .bind .pop fun _ _ => .bind hreference fun _ _ => h.addressOf_within hknown
          fun hresolved => ?_
        obtain ⟨field', hfield', hvalue⟩ := hplace hresolved
        cases hfield.symm.trans hfield'
        exact hvalue rfl
      | store =>
        exact .bind (refuseAddress_within hknown) fun _ _ => .bind .pop fun _ _ => .bind .pop
          fun _ _ => .bind hreference fun _ _ => .bind (h.expectAssignable_within hknown)
          fun _ _ => .pure knows_nil

/-- Instructions with a type stay within the table.  The parts of a function type are types of the
table. -/
theorem typeOp_within {type : TypeId} (htype : type.index < c.types.size) (op : TypeOp) :
    Within c.types resolved c.types.Knows (c.typeOp op type) := by
  have hlocation {location : TypeId} (hlt : location.index < c.types.size) :
      Within c.types resolved (fun _ => True) (c.types.expectLocation location type) :=
    h.expectLocation_within hlt htype
  have hvalue (value : TypeId) : Within c.types resolved (fun _ => True)
      (c.types.expectAssignable value type) := h.expectAssignable_within htype
  cases op with
  | convert =>
    exact .bind .pop fun _ _ => .bind (.require rfl) fun _ _ => .bind (.require rfl) fun _ _ =>
      h.valueOf_within htype
  | loadIndirect =>
    exact .bind h.popReference_within fun _ hlt => .bind (hlocation hlt) fun _ _ =>
      h.valueOf_within htype
  | storeIndirect =>
    exact .bind (refuseAddress_within htype) fun _ _ => .bind .pop fun _ _ =>
      .bind h.popReference_within fun _ hlt => .bind (hlocation hlt) fun _ _ =>
      .bind (hvalue _) fun _ _ => .pure knows_nil
  | loadElement =>
    exact .bind popIndex_within fun _ _ => .bind h.popContainer_within fun _ helement =>
      .bind (hlocation helement.1) fun _ _ => h.valueOf_within htype
  | storeElement =>
    exact .bind (refuseAddress_within htype) fun _ _ => .bind .pop fun _ _ =>
      .bind popIndex_within fun _ _ => .bind h.popContainer_within fun _ helement =>
      .bind (hlocation helement.1) fun _ _ => .bind (hvalue _) fun _ _ => .pure knows_nil
  | elementAddress =>
    exact .bind popIndex_within fun _ _ => .bind h.popContainer_within fun _ helement =>
      .bind (hlocation helement.1) fun _ _ => h.addressOf_within helement.1 fun _ => helement.2
  | callIndirect =>
    refine .bind (.ask (kind_ends htype)) fun kind hkind => ?_
    cases kind with
    | function params result =>
      obtain ⟨hresult, hparams⟩ := madeBelow_function.mp (h.madeBelow hkind)
      exact .bind .pop fun _ _ => .bind (hvalue _) fun _ _ => .bind (h.popArguments_within hparams)
        fun _ _ => h.valueOf_within hresult
    | _ => exact .refuse rfl

/-- The object that a constructor makes is what its first parameter refers to, a type of the table.
-/
theorem constructed?_ends {ε : Type} {Q : Fault ε → Prop} {callee : FunctionDecl}
    (hparams : c.types.Knows callee.paramTypes) :
    Ends (fun object? => ∀ object, object? = some object → object.index < c.types.size) Q
      (c.constructed? callee : Checked ε _) := by
  unfold constructed?
  cases hcallee : callee.params with
  | nil => exact .pure fun _ hobject => by cases hobject
  | cons this others =>
    rw [FunctionDecl.paramTypes, hcallee, List.map_cons, knows_cons] at hparams
    refine (referent?_ends hparams.1).bind fun target? htarget => .pure fun object hobject => ?_
    split at hobject
    · exact madeBelow_reference.mp (h.madeBelow (htarget object hobject))
    · cases hobject

end Rules

/-- What typing needs to know of a function: the types of the table are finished, and the function
and all those it may name are bound. -/
structure Bound (c : TypingContext) : Prop where
  types : c.types.Coherent
  function : c.program.BoundSignature c.decl
  callees : ∀ {func callee}, c.program.function? func = some callee →
    c.program.BoundSignature callee

/-- Binding has found the types of every function. -/
theorem bound_of_bind {p : Program} {func : FuncRef} {decl : FunctionDecl}
    (htypes : p.types.Coherent) (hbind : p.bind = .ok ()) (hf : p.function? func = some decl) :
    (TypingContext.mk p decl).Bound where
  types := htypes
  function := Program.boundSignature_of_bind hbind hf
  callees := Program.boundSignature_of_bind hbind

namespace Bound

variable (h : c.Bound)

include h

theorem funcOp_within {op : FuncOp} {func : FuncRef}
    (hfunc : resolved = true → ∃ callee, c.program.function? func = some callee) :
    Within c.types resolved c.types.Knows (c.funcOp op func) := by
  unfold funcOp
  cases hf : c.program.function? func with
  | none =>
    refine .unbound fun hresolved => ?_
    obtain ⟨callee, hcallee⟩ := hfunc hresolved
    cases hf.symm.trans hcallee
  | some callee =>
    have hcallee := h.callees hf
    have hparams := hcallee.knows_paramTypes
    cases op with
    | call =>
      exact .bind (h.types.popArguments_within hparams) fun _ _ =>
        h.types.valueOf_within (contains_iff.mp hcallee.result)
    | loadFunction =>
      exact .bind (.ask (stackType_ends (HasKind.lt_size hcallee.signature))) fun stack hstack =>
        .pure (knows_singleton.mpr (h.types.lt_size_of_hasStack hstack))
    | newObject =>
      refine .bind (.ask (constructed?_ends h.types hparams)) fun object? hobject => ?_
      cases object? with
      | none => exact .refuse rfl
      | some object =>
        have htail : c.types.Knows callee.paramTypes.tail :=
          fun type htype => hparams type (List.mem_of_mem_tail htype)
        exact .bind (h.types.popArguments_within htail) fun _ _ =>
          h.types.valueOf_within (hobject object rfl)

/-- The rule of an instruction stays within the table. -/
theorem results_within {instr : Instr}
    (htype : ∀ op type, instr = .typed op type → type.index < c.types.size)
    (hresolves : resolved = true → c.Resolves instr) :
    Within c.types resolved c.types.Knows (c.results instr) := by
  have hvars : ∀ v ∈ c.decl.params ++ c.decl.locals, v.type.index < c.types.size :=
    fun v hv => contains_iff.mp (h.function.vars v hv).1
  obtain ⟨hparams, hlocals⟩ := List.forall_mem_append.mp hvars
  cases instr with
  | plain op => exact plain_within h.types (contains_iff.mp h.function.result) op
  | constant value =>
    refine .pure (knows_singleton.mpr ?_)
    cases value with
    | int32 _ => exact h.types.lt_size_primitive .int32
    | int64 _ => exact h.types.lt_size_primitive .int64
    | float32 _ => exact h.types.lt_size_primitive .float32
    | float64 _ => exact h.types.lt_size_primitive .float64
  | argument a index => exact access_within h.types hparams hresolves
  | localVar a index => exact access_within h.types hlocals hresolves
  | field a ref => exact fieldAccess_within h.types hresolves
  | function op func => exact h.funcOp_within hresolves
  | typed op type => exact typeOp_within h.types (htype op type rfl) op
  | jump target => exact .pure knows_nil
  | branch condition target => exact .bind (test_within condition) fun _ _ => .pure knows_nil

end Bound

/-- **A step stays within the table**, and does not refuse an instruction as unbound whose names are
there.  What is popped stood on the stack, and what is pushed comes on top of what is left of it. -/
theorem Bound.step_expected (h : c.Bound) (resolved : Bool) {instr : Instr}
    {s : OperandStack TypeId}
    (htype : ∀ op type, instr = .typed op type → type.index < c.types.size)
    (hresolves : resolved = true → c.Resolves instr) (hs : c.types.Knows s.topDown) :
    Ends (fun left => c.types.Knows left.1.popped ∧ c.types.Knows left.1.pushed ∧
        c.types.Knows left.2.topDown) (Fault.Refuses (·.isExpected resolved = true))
      (c.step instr s) := by
  refine (h.results_within htype hresolves s hs).bind fun answer hanswer =>
    .pure ⟨?_, hanswer.1, ?_⟩
  · exact fun type hmem => hs type (List.mem_of_mem_take hmem)
  · have hbottomUp : c.types.Knows (answer.2.pushAll answer.1).bottomUp := by
      rw [OperandStack.bottomUp_pushAll, knows_append]
      exact ⟨knows_reverse.mpr hanswer.2, hanswer.1⟩
    exact knows_reverse.mp hbottomUp

/-- A step stays within the table, whether or not names are there. -/
theorem Bound.step_ends (h : c.Bound) {instr : Instr} {s : OperandStack TypeId}
    (htype : ∀ op type, instr = .typed op type → type.index < c.types.size)
    (hs : c.types.Knows s.topDown) :
    Ends (fun left => c.types.Knows left.1.popped ∧ c.types.Knows left.1.pushed ∧
        c.types.Knows left.2.topDown) (Fault.Refuses (·.isInternal = false)) (c.step instr s) := by
  refine (h.step_expected false htype nofun hs).mono (fun _ hleft => hleft) fun fault hfault => ?_
  cases fault with
  | refused v => exact Violation.isInternal_of_isExpected hfault
  | dangling type => exact hfault

end TypingContext

end StackCode
