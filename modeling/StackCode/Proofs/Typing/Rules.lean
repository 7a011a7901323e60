import StackCode.Proofs.Typing.Calls
import StackCode.Proofs.Typing.Certificate

/-!
# Typing rules as relations

The typing rule of an instruction is a computation that takes operands off a stack.  Read as a
relation, it says which operands the instruction takes and which results it leaves, without the
stack they lie on.  Whatever has to be known of the operands of accepted instructions follows by
cases on the relation.

## Main definitions

* `Operands.Takes`: what a computation takes off the stack and answers.
* `TypeTable.AddressFree`: types whose values are no addresses.
* `TypeTable.HasElement`, `TypeTable.AccessibleAs`: containers, and accesses at another type.
* `TypingContext.Rule`: the typing rules.

## Main results

* `TypingContext.rule_of_step`: a step takes and leaves what a rule allows.
* `TypedFunction.Covers.exists_rule`: so does every instruction that control reaches in a verified
  body.
-/

namespace StackCode

namespace Operands

variable {α β : Type}

/-- Where the computation succeeds, it takes operands off the top of the stack, and the property
holds of its answer and of these operands, bottom first. -/
def Takes (m : Operands α) (P : α → List TypeId → Prop) : Prop :=
  ∀ ⦃s a r⦄, m s = .ok (a, r) → ∃ operands, s.bottomUp = r.bottomUp ++ operands ∧ P a operands

namespace Takes

variable {m : Operands α} {f : α → Operands β} {P : α → List TypeId → Prop}
  {Q : β → List TypeId → Prop}

/-- What is taken later lies below. -/
theorem bind (h : Takes m P)
    (hf : ∀ a operands, P a operands → Takes (f a) fun b below => Q b (below ++ operands)) :
    Takes (m >>= f) Q := by
  intro s b r hrun
  obtain ⟨a, mid, hm, hrest⟩ := bind_run_eq_ok.mp hrun
  obtain ⟨operands, hs, ha⟩ := h hm
  obtain ⟨below, hmid, hb⟩ := hf a operands ha hrest
  exact ⟨below ++ operands, by rw [hs, hmid, List.append_assoc], hb⟩

/-- A part that takes nothing, before any other. -/
theorem query {R : α → Prop} (h : Takes m fun a operands => R a ∧ operands = [])
    (hf : ∀ a, R a → Takes (f a) Q) : Takes (m >>= f) Q := by
  refine h.bind ?_
  rintro a _ ⟨ha, rfl⟩
  simpa only [List.append_nil] using hf a ha

theorem weaken {P' : α → List TypeId → Prop} (h : Takes m P)
    (hP : ∀ a operands, P a operands → P' a operands) : Takes m P' := by
  intro s a r hrun
  obtain ⟨operands, hs, ha⟩ := h hrun
  exact ⟨operands, hs, hP a operands ha⟩

theorem pure {a : α} (h : P a []) : Takes (pure a) P := by
  intro s b r hrun
  obtain ⟨rfl, rfl⟩ := pure_run_eq_ok.mp hrun
  exact ⟨[], (List.append_nil _).symm, h⟩

theorem refuse {v : Violation} : Takes (refuse v) P := fun _ _ _ hrun => (nomatch hrun)

theorem require {condition : Bool} {v : Violation} :
    Takes (require condition v) fun _ operands => condition = true ∧ operands = [] := by
  intro s a r hrun
  obtain ⟨hcondition, rfl⟩ := require_eq_ok.mp hrun
  exact ⟨[], (List.append_nil _).symm, hcondition, rfl⟩

theorem ask {query : Checked Violation α} :
    Takes (ask query) fun a operands => query = .ok a ∧ operands = [] := by
  intro s a r hrun
  obtain ⟨hquery, rfl⟩ := ask_eq_ok.mp hrun
  exact ⟨[], (List.append_nil _).symm, hquery, rfl⟩

theorem get : Takes get fun _ operands => True ∧ operands = [] := by
  intro s a r hrun
  cases hrun
  exact ⟨[], (List.append_nil _).symm, trivial, rfl⟩

theorem pop : Takes pop fun a operands => operands = [a] := by
  intro s a r hrun
  obtain rfl := pop_eq_ok.mp hrun
  exact ⟨[a], OperandStack.bottomUp_push r a, rfl⟩

/-- Taking one operand, before any other part. -/
theorem popThen {f : TypeId → Operands β}
    (hf : ∀ a, Takes (f a) fun b below => Q b (below ++ [a])) : Takes (Operands.pop >>= f) Q := by
  refine pop.bind ?_
  rintro a _ rfl
  exact hf a

end Takes

/-- A pair is two operands of one type of the class. -/
theorem popPair_takes {expected : Expectation} {inClass : TypeId → Bool} :
    Takes (popPair expected inClass) fun a operands => inClass a = true ∧ operands = [a, a] := by
  refine Takes.popThen fun right => Takes.popThen fun left => ?_
  refine Takes.require.query fun _ hclass => Takes.require.query fun _ hsame => .pure ?_
  obtain rfl := of_decide_eq_true hsame
  exact ⟨hclass, rfl⟩

/-- Taking two operands of one type, before any other part. -/
theorem Takes.popPairThen {expected : Expectation} {inClass : TypeId → Bool}
    {f : TypeId → Operands β} {Q : β → List TypeId → Prop}
    (hf : ∀ a, inClass a = true → Takes (f a) fun b below => Q b (below ++ [a, a])) :
    Takes (popPair expected inClass >>= f) Q := by
  refine popPair_takes.bind ?_
  rintro a _ ⟨ha, rfl⟩
  exact hf a ha

theorem popIndex_takes : Takes popIndex fun _ operands => operands = [.int32] := by
  refine Takes.popThen fun index => Takes.require.weaken ?_
  rintro _ _ ⟨hindex, rfl⟩
  rw [of_decide_eq_true hindex]
  rfl

end Operands

open Operands

namespace TypeTable

variable {t : TypeTable} {type : TypeId}

/-! ### What the rules ask of types -/

/-- The table has the type, and its values are no addresses: it is no reference and no span. -/
def AddressFree (t : TypeTable) (type : TypeId) : Prop :=
  ∃ kind, t.HasKind type kind ∧ kind.carriesAddress = false

/-- A location of one type can be accessed as a value of another. -/
def AccessibleAs (t : TypeTable) (location type : TypeId) : Prop :=
  ∃ standIn, t.HasClass location standIn ∧ t.Assignable standIn type

/-- Containers of elements: spans, and references to arrays. -/
inductive HasElement (t : TypeTable) (container element : TypeId) : Prop
  | span (h : t.HasKind container (.span element))
  | array {target : TypeId} {length : Nat} (h : t.HasKind container (.reference target))
      (harray : t.HasKind target (.array element length))

/-- The address of a location of a type, as it stands on the stack. -/
structure AddressOf (t : TypeTable) (type address : TypeId) : Prop where
  addressFree : t.AddressFree type
  onStack : ∃ reference, t.referenceTo? type = some reference ∧ t.HasStack reference address

/-- Operands that can be tested for equality. -/
inductive Comparable (t : TypeTable) : TypeId → TypeId → Prop
  | number {a : TypeId} (h : a.isNumeric = true) : Comparable t a a
  | nullable {a : TypeId} (h : t.Nullable a) : Comparable t a a
  | nullLeft {b : TypeId} (h : t.Nullable b) : Comparable t .null b
  | nullRight {a : TypeId} (h : t.Nullable a) : Comparable t a .null

/-- What is not refused carries no address. -/
theorem refuseAddress_takes {use : AddressUse} :
    Takes (t.refuseAddress use type) fun _ operands => t.AddressFree type ∧ operands = [] := by
  refine Takes.ask.query fun carries hcarries => ?_
  obtain ⟨kind, hkind, hcarries⟩ := bind_eq_ok.mp hcarries
  cases carries with
  | true => exact .refuse
  | false => exact .pure ⟨⟨kind, kind_eq_ok.mp hkind, pure_eq_ok.mp hcarries⟩, rfl⟩

theorem expectAssignable_takes {value : TypeId} :
    Takes (t.expectAssignable value type)
      fun _ operands => t.Assignable value type ∧ operands = [] := by
  intro s u r hrun
  obtain ⟨hassign, rfl⟩ := expectAssignable_eq_ok.mp hrun
  exact ⟨[], (List.append_nil _).symm, hassign, rfl⟩

/-- What is accepted can be accessed as the type. -/
theorem expectLocation_takes {location : TypeId} :
    Takes (t.expectLocation location type)
      fun _ operands => t.AccessibleAs location type ∧ operands = [] := by
  refine Takes.ask.query fun standIn hclass => expectAssignable_takes.weaken ?_
  rintro _ _ ⟨hassign, rfl⟩
  exact ⟨⟨standIn, verificationType_eq_ok.mp hclass, hassign⟩, rfl⟩

theorem isNullable_takes {a : TypeId} :
    Takes (t.isNullable a) fun b operands => (b = true ↔ t.Nullable a) ∧ operands = [] := by
  intro s b r hrun
  obtain ⟨hb, rfl⟩ := isNullable_answer hrun
  exact ⟨[], (List.append_nil _).symm, hb, rfl⟩

theorem valueOf_takes :
    Takes (t.valueOf type) fun results operands => t.Leaves type results ∧ operands = [] := by
  intro s results r hrun
  obtain ⟨hleaves, rfl⟩ := valueOf_leaves hrun
  exact ⟨[], (List.append_nil _).symm, hleaves, rfl⟩

theorem addressOf_takes :
    Takes (t.addressOf type) fun results operands =>
      (∃ address, t.AddressOf type address ∧ results = [address]) ∧ operands = [] := by
  refine Takes.ask.query fun carries hcarries => ?_
  obtain ⟨kind, hkind, hcarries⟩ := bind_eq_ok.mp hcarries
  cases carries with
  | true => exact .refuse
  | false =>
    dsimp only
    cases href : t.referenceTo? type with
    | none => exact .refuse
    | some reference =>
      refine Takes.ask.query fun address haddress => .pure ⟨⟨address, ?_, rfl⟩, rfl⟩
      exact ⟨⟨kind, kind_eq_ok.mp hkind, pure_eq_ok.mp hcarries⟩, reference, href,
        stackType_eq_ok.mp haddress⟩

/-- The address of a location is a reference to its class.  Only small numbers are widened on the
stack, and a reference is none. -/
theorem Coherent.hasKind_addressOf (h : t.Coherent) {address : TypeId}
    (haddress : t.AddressOf type address) : t.HasKind address (.reference (t.standIn type)) := by
  obtain ⟨-, reference, href, hstack⟩ := haddress
  obtain ⟨e, he, href⟩ := Option.bind_eq_some_iff.mp href
  have hreference := (h.sound he).reference reference href
  have hnormal := h.hasKind_standIn hreference
  rw [(h.hasStack_iff (hasClass_standIn hreference.lt_size)).mp hstack,
    h.primitives.widened_eq hnormal (isCompound_normalForm t _)]
  exact hnormal

/-- A reference is taken, and answered is what it refers to. -/
theorem popReference_takes :
    Takes t.popReference fun location operands =>
      ∃ address, t.HasKind address (.reference location) ∧ operands = [address] := by
  refine Takes.popThen fun address => Takes.ask.query fun location? hask => ?_
  obtain ⟨kind, hkind, rfl⟩ := referent?_eq_ok.mp hask
  cases kind with
  | reference location => exact .pure ⟨address, hkind, rfl⟩
  | _ => exact .refuse

/-- Taking a reference to a location that can be accessed at a type, before any other part. -/
theorem popLocationThen {β : Type} {f : Operands β} {Q : β → List TypeId → Prop}
    (hf : ∀ address location, t.HasKind address (.reference location) →
      t.AccessibleAs location type → Takes f fun b below => Q b (below ++ [address])) :
    Takes (do t.expectLocation (← t.popReference) type; f) Q := by
  refine popReference_takes.bind ?_
  rintro location _ ⟨address, haddress, rfl⟩
  exact expectLocation_takes.query fun _ hlocation => hf address location haddress hlocation

/-- What a container is asked for is the type of its elements. -/
theorem hasElement_of_elementType? {ε : Type} {container element : TypeId}
    (h : (t.elementType? container : Checked ε _) = .ok (some element)) :
    t.HasElement container element := by
  obtain ⟨kind, hkind, h⟩ := bind_eq_ok.mp h
  rw [kind_eq_ok] at hkind
  cases kind with
  | span found =>
    cases pure_eq_ok.mp h
    exact .span hkind
  | reference target =>
    obtain ⟨targetKind, htarget, h⟩ := bind_eq_ok.mp h
    rw [kind_eq_ok] at htarget
    cases targetKind with
    | array found length =>
      cases pure_eq_ok.mp h
      exact .array hkind htarget
    | _ => cases pure_eq_ok.mp h
  | _ => cases pure_eq_ok.mp h

/-- A container is taken, and answered is what it holds. -/
theorem popContainer_takes :
    Takes t.popContainer fun element operands =>
      ∃ container, t.HasElement container element ∧ operands = [container] := by
  refine Takes.popThen fun container => Takes.ask.query fun element? hask => ?_
  cases element? with
  | none => exact .refuse
  | some element => exact .pure ⟨container, hasElement_of_elementType? hask, rfl⟩

/-- Taking a container and an index of an element that can be accessed at a type, before any other
part. -/
theorem popElementThen {β : Type} {f : TypeId → Operands β} {Q : β → List TypeId → Prop}
    (hf : ∀ container element, t.HasElement container element → t.AccessibleAs element type →
      Takes (f element) fun b below => Q b (below ++ [container, .int32])) :
    Takes (do
      popIndex
      let element ← t.popContainer
      t.expectLocation element type
      f element) Q := by
  refine popIndex_takes.bind ?_
  rintro _ _ rfl
  refine popContainer_takes.bind ?_
  rintro element _ ⟨container, hcontainer, rfl⟩
  refine expectLocation_takes.query fun _ helement => ?_
  simpa only [List.append_assoc, List.cons_append, List.nil_append] using
    hf container element hcontainer helement

/-- Two comparable operands are taken: of one type, or a null and what can be null. -/
theorem popEqualityPair_takes :
    Takes t.popEqualityPair fun _ operands =>
      ∃ left right, t.Comparable left right ∧ operands = [left, right] := by
  refine Takes.popThen fun right => Takes.popThen fun left => ?_
  refine isNullable_takes.query fun leftNullable hleft => Takes.require.query fun _ hclass => ?_
  refine isNullable_takes.query fun rightNullable hright => Takes.require.weaken ?_
  rintro _ _ ⟨hpair, rfl⟩
  refine ⟨left, right, ?_, rfl⟩
  simp only [Bool.or_eq_true, Bool.and_eq_true, decide_eq_true_eq, hleft, hright] at hclass hpair
  rcases hpair with (rfl | ⟨rfl, hnullable⟩) | ⟨rfl, hnullable⟩
  · exact hclass.elim .number .nullable
  · exact .nullLeft hnullable
  · exact .nullRight hnullable

/-! ### The rules -/

/-- Operators, in a function with this result. -/
inductive PlainRule (t : TypeTable) (result : TypeId) :
    PlainOp → (operands results : List TypeId) → Prop
  | nop : PlainRule t result .nop [] []
  | arith {op : ArithOp} {a : TypeId} (h : a.isNumeric = true) :
      PlainRule t result (.arith op) [a, a] [a]
  | integer {op : IntegerOp} {a : TypeId} (h : a.isInteger = true) :
      PlainRule t result (.integer op) [a, a] [a]
  | neg {a : TypeId} (h : a.isNumeric = true) : PlainRule t result .neg [a] [a]
  | not {a : TypeId} (h : a.isInteger = true) : PlainRule t result .not [a] [a]
  | equal {a b : TypeId} (h : t.Comparable a b) :
      PlainRule t result (.compare .equal) [a, b] [.int32]
  | compare {op : Comparison} {a : TypeId} (h : a.isNumeric = true) :
      PlainRule t result (.compare op) [a, a] [.int32]
  | compareUn {op : UnsignedComparison} {a : TypeId} (h : a.isInteger = true) :
      PlainRule t result (.compareUn op) [a, a] [.int32]
  | dup {a : TypeId} : PlainRule t result .dup [a] [a, a]
  | pop {a : TypeId} : PlainRule t result .pop [a] []
  | null : PlainRule t result .null [] [.null]
  | ret (h : result = .void) : PlainRule t result .ret [] []
  | retValue {a : TypeId} (hresult : result ≠ .void) (haddress : t.AddressFree result)
      (h : t.Assignable a result) : PlainRule t result .ret [a] []

/-- Accesses to a variable of this type. -/
inductive VariableRule (t : TypeTable) (type : TypeId) :
    Access → (operands results : List TypeId) → Prop
  | load {results : List TypeId} (h : t.Leaves type results) : VariableRule t type .load [] results
  | store {value : TypeId} (h : t.Assignable value type) : VariableRule t type .store [value] []
  | address {address : TypeId} (h : t.AddressOf type address) :
      VariableRule t type .address [] [address]

/-- Accesses to a field of this type, in an object behind a reference of type `owner`. -/
inductive FieldRule (t : TypeTable) (owner type : TypeId) :
    Access → (operands results : List TypeId) → Prop
  | load {object : TypeId} {results : List TypeId} (hobject : t.Assignable object owner)
      (h : t.Leaves type results) : FieldRule t owner type .load [object] results
  | store {object value : TypeId} (hobject : t.Assignable object owner)
      (haddress : t.AddressFree type) (h : t.Assignable value type) :
      FieldRule t owner type .store [object, value] []
  | address {object address : TypeId} (hobject : t.Assignable object owner)
      (h : t.AddressOf type address) : FieldRule t owner type .address [object] [address]

/-- Calls, constructions and function values. -/
inductive FuncRule (t : TypeTable) (callee : FunctionDecl) :
    FuncOp → (operands results : List TypeId) → Prop
  | call {operands results : List TypeId}
      (hoperands : List.Forall₂ t.Assignable operands callee.paramTypes)
      (h : t.Leaves callee.result results) : FuncRule t callee .call operands results
  | newObject {this : Variable} {others : List Variable} {object : TypeId}
      {operands results : List TypeId} (hparams : callee.params = this :: others)
      (hthis : t.HasKind this.type (.reference object))
      (hoperands : List.Forall₂ t.Assignable operands (others.map Variable.type))
      (h : t.Leaves object results) : FuncRule t callee .newObject operands results
  | loadFunction {function : TypeId} (h : t.HasStack callee.signature function) :
      FuncRule t callee .loadFunction [] [function]

/-- Instructions at a type. -/
inductive TypeRule (t : TypeTable) (type : TypeId) :
    TypeOp → (operands results : List TypeId) → Prop
  | convert {a : TypeId} {results : List TypeId} (ha : a.isNumeric = true)
      (htype : type.isConversionTarget = true) (h : t.Leaves type results) :
      TypeRule t type .convert [a] results
  | loadIndirect {address location : TypeId} {results : List TypeId}
      (haddress : t.HasKind address (.reference location))
      (hlocation : t.AccessibleAs location type) (h : t.Leaves type results) :
      TypeRule t type .loadIndirect [address] results
  | storeIndirect {address location value : TypeId} (hfree : t.AddressFree type)
      (haddress : t.HasKind address (.reference location))
      (hlocation : t.AccessibleAs location type) (h : t.Assignable value type) :
      TypeRule t type .storeIndirect [address, value] []
  | loadElement {container element : TypeId} {results : List TypeId}
      (hcontainer : t.HasElement container element) (helement : t.AccessibleAs element type)
      (h : t.Leaves type results) : TypeRule t type .loadElement [container, .int32] results
  | storeElement {container element value : TypeId} (hfree : t.AddressFree type)
      (hcontainer : t.HasElement container element) (helement : t.AccessibleAs element type)
      (h : t.Assignable value type) :
      TypeRule t type .storeElement [container, .int32, value] []
  | elementAddress {container element address : TypeId}
      (hcontainer : t.HasElement container element) (helement : t.AccessibleAs element type)
      (h : t.AddressOf element address) :
      TypeRule t type .elementAddress [container, .int32] [address]
  | callIndirect {params values results : List TypeId} {result function : TypeId}
      (htype : t.HasKind type (.function params result)) (hfunction : t.Assignable function type)
      (hvalues : List.Forall₂ t.Assignable values params) (h : t.Leaves result results) :
      TypeRule t type .callIndirect (values ++ [function]) results

/-- Tests of conditional branches. -/
inductive TestRule (t : TypeTable) : Condition → (operands : List TypeId) → Prop
  | isTrue {a : TypeId} (h : a.isInteger = true ∨ t.Nullable a) : TestRule t .isTrue [a]
  | isFalse {a : TypeId} (h : a.isInteger = true ∨ t.Nullable a) : TestRule t .isFalse [a]
  | equal {a b : TypeId} (h : t.Comparable a b) : TestRule t .equal [a, b]
  | notEqual {a b : TypeId} (h : t.Comparable a b) : TestRule t .notEqual [a, b]
  | ordered {order : Order} {a : TypeId} (h : a.isNumeric = true) :
      TestRule t (.ordered order) [a, a]
  | orderedUn {order : Order} {a : TypeId} (h : a.isInteger = true) :
      TestRule t (.orderedUn order) [a, a]

end TypeTable

namespace TypingContext

open TypeTable

variable {c : TypingContext}

/-- **The typing rules.**  An instruction takes these operands and leaves these results, both bottom
first. -/
inductive Rule (c : TypingContext) : Instr → (operands results : List TypeId) → Prop
  | plain {op : PlainOp} {operands results : List TypeId}
      (h : c.types.PlainRule c.decl.result op operands results) :
      Rule c (.plain op) operands results
  | constant {value : Constant} : Rule c (.constant value) [] [value.type]
  | argument {a : Access} {index : Nat} {v : Variable} {operands results : List TypeId}
      (hv : c.decl.params[index]? = some v) (h : c.types.VariableRule v.type a operands results) :
      Rule c (.argument a index) operands results
  | localVar {a : Access} {index : Nat} {v : Variable} {operands results : List TypeId}
      (hv : c.decl.locals[index]? = some v) (h : c.types.VariableRule v.type a operands results) :
      Rule c (.localVar a index) operands results
  | field {a : Access} {ref : FieldRef} {field : Field} {owner : TypeId}
      {operands results : List TypeId} (hfield : c.types.field? ref.owner ref.index = some field)
      (howner : c.types.referenceTo? ref.owner = some owner)
      (h : c.types.FieldRule owner field.type a operands results) :
      Rule c (.field a ref) operands results
  | function {op : FuncOp} {func : FuncRef} {callee : FunctionDecl}
      {operands results : List TypeId} (hf : c.program.function? func = some callee)
      (h : c.types.FuncRule callee op operands results) :
      Rule c (.function op func) operands results
  | typed {op : TypeOp} {type : TypeId} {operands results : List TypeId}
      (h : c.types.TypeRule type op operands results) : Rule c (.typed op type) operands results
  | jump {target : Label} : Rule c (.jump target) [] []
  | branch {condition : Condition} {target : Label} {operands : List TypeId}
      (h : c.types.TestRule condition operands) : Rule c (.branch condition target) operands []

theorem leaveNothing_takes :
    Takes leaveNothing fun results operands => results = [] ∧ operands = [] :=
  Takes.get.query fun _ _ => Takes.require.query fun _ _ => .pure ⟨rfl, rfl⟩

theorem plain_takes (op : PlainOp) :
    Takes (c.plain op) fun results operands =>
      c.types.PlainRule c.decl.result op operands results := by
  cases op with
  | nop => exact .pure .nop
  | arith op => exact Takes.popPairThen fun a ha => .pure (.arith ha)
  | integer op => exact Takes.popPairThen fun a ha => .pure (.integer ha)
  | neg => exact Takes.popThen fun a => Takes.require.query fun _ ha => .pure (.neg ha)
  | not => exact Takes.popThen fun a => Takes.require.query fun _ ha => .pure (.not ha)
  | compare op =>
    cases op with
    | equal =>
      refine popEqualityPair_takes.bind ?_
      rintro _ _ ⟨left, right, h, rfl⟩
      exact .pure (.equal h)
    | _ => exact Takes.popPairThen fun a ha => .pure (.compare ha)
  | compareUn op => exact Takes.popPairThen fun a ha => .pure (.compareUn ha)
  | dup => exact Takes.popThen fun a => .pure .dup
  | pop => exact Takes.popThen fun a => .pure .pop
  | null => exact .pure .null
  | ret =>
    rw [plain_ret]
    split
    · rename_i hresult
      refine refuseAddress_takes.query fun _ hfree => Takes.popThen fun a => ?_
      refine expectAssignable_takes.query fun _ ha => leaveNothing_takes.weaken ?_
      rintro _ _ ⟨rfl, rfl⟩
      exact .retValue hresult hfree ha
    · rename_i hresult
      refine leaveNothing_takes.weaken ?_
      rintro _ _ ⟨rfl, rfl⟩
      exact .ret (not_not.mp hresult)

theorem access_takes (a : Access) (vars : List Variable) (index : Nat) :
    Takes (c.access a vars index) fun results operands =>
      ∃ v, vars[index]? = some v ∧ c.types.VariableRule v.type a operands results := by
  unfold access
  cases hv : vars[index]? with
  | none => exact .refuse
  | some v =>
    cases a with
    | load =>
      refine valueOf_takes.weaken ?_
      rintro results _ ⟨h, rfl⟩
      exact ⟨v, rfl, .load h⟩
    | store =>
      refine Takes.popThen fun a => expectAssignable_takes.query fun _ ha => ?_
      exact .pure ⟨v, rfl, .store ha⟩
    | address =>
      refine addressOf_takes.weaken ?_
      rintro _ _ ⟨⟨address, h, rfl⟩, rfl⟩
      exact ⟨v, rfl, .address h⟩

theorem fieldAccess_takes (a : Access) (ref : FieldRef) :
    Takes (c.fieldAccess a ref) fun results operands =>
      ∃ field owner, c.types.field? ref.owner ref.index = some field ∧
        c.types.referenceTo? ref.owner = some owner ∧
        c.types.FieldRule owner field.type a operands results := by
  unfold fieldAccess
  split
  · rename_i field owner hfield howner
    cases a with
    | load =>
      refine Takes.popThen fun object => expectAssignable_takes.query fun _ hobject => ?_
      refine valueOf_takes.weaken ?_
      rintro results _ ⟨h, rfl⟩
      exact ⟨field, owner, hfield, howner, .load hobject h⟩
    | store =>
      refine refuseAddress_takes.query fun _ hfree => Takes.popThen fun value => ?_
      refine Takes.popThen fun object => expectAssignable_takes.query fun _ hobject => ?_
      refine expectAssignable_takes.query fun _ hvalue => .pure ?_
      exact ⟨field, owner, hfield, howner, .store hobject hfree hvalue⟩
    | address =>
      refine Takes.popThen fun object => expectAssignable_takes.query fun _ hobject => ?_
      refine addressOf_takes.weaken ?_
      rintro _ _ ⟨⟨address, h, rfl⟩, rfl⟩
      exact ⟨field, owner, hfield, howner, .address hobject h⟩
  · exact .refuse

theorem test_takes (condition : Condition) :
    Takes (c.test condition) fun _ operands => c.types.TestRule condition operands := by
  have htruth : Takes (c.test .isTrue) fun _ operands =>
      ∃ a, (a.isInteger = true ∨ c.types.Nullable a) ∧ operands = [a] := by
    refine Takes.popThen fun a => isNullable_takes.query fun nullable hnullable => ?_
    refine Takes.require.weaken ?_
    rintro _ _ ⟨ha, rfl⟩
    rw [Bool.or_eq_true, hnullable] at ha
    exact ⟨a, ha, rfl⟩
  cases condition with
  | isTrue =>
    refine htruth.weaken ?_
    rintro _ _ ⟨a, ha, rfl⟩
    exact .isTrue ha
  | isFalse =>
    refine htruth.weaken ?_
    rintro _ _ ⟨a, ha, rfl⟩
    exact .isFalse ha
  | equal =>
    refine popEqualityPair_takes.weaken ?_
    rintro _ _ ⟨left, right, h, rfl⟩
    exact .equal h
  | notEqual =>
    refine popEqualityPair_takes.weaken ?_
    rintro _ _ ⟨left, right, h, rfl⟩
    exact .notEqual h
  | ordered order => exact Takes.popPairThen fun a ha => .pure (.ordered ha)
  | orderedUn order => exact Takes.popPairThen fun a ha => .pure (.orderedUn ha)

section Steps

variable {instr : Instr} {s out : OperandStack TypeId} {effect : Effect TypeId}

/-- What a step takes and leaves has the properties its rule promises. -/
theorem takes_of_step {P : List TypeId → List TypeId → Prop}
    (hstep : c.step instr s = .ok (effect, out)) (h : Takes (c.results instr) P) :
    P effect.pushed effect.popped.reverse := by
  obtain ⟨rest, hresults, hpopped⟩ := step_eq_ok hstep
  obtain ⟨operands, hs, hP⟩ := h hresults
  rwa [hpopped operands hs]

theorem funcRule_of_step {op : FuncOp} {func : FuncRef}
    (h : c.step (.function op func) s = .ok (effect, out)) :
    ∃ callee, c.program.function? func = some callee ∧
      c.types.FuncRule callee op effect.popped.reverse effect.pushed := by
  cases hf : c.program.function? func with
  | none =>
    obtain ⟨rest, hresults, -⟩ := step_eq_ok h
    simp only [results, funcOp, hf] at hresults
    cases hresults
  | some callee =>
    refine ⟨callee, rfl, ?_⟩
    cases op with
    | call =>
      obtain ⟨hoperands, hleaves⟩ := step_call hf h
      exact .call hoperands hleaves
    | newObject =>
      obtain ⟨this, others, object, hparams, -, hthis, hoperands, hleaves⟩ := step_newObject hf h
      exact .newObject hparams hthis hoperands hleaves
    | loadFunction =>
      refine takes_of_step (P := fun results operands => c.types.FuncRule callee .loadFunction
        operands results) h ?_
      simp only [results, funcOp, hf]
      exact Takes.ask.query fun function h => .pure (.loadFunction (stackType_eq_ok.mp h))

/-- What instructions with a type take and leave.  How many operands an indirect call takes is not
known before its type is looked up. -/
theorem typeRule_of_step {op : TypeOp} {type : TypeId}
    (h : c.step (.typed op type) s = .ok (effect, out)) :
    c.types.TypeRule type op effect.popped.reverse effect.pushed := by
  by_cases hcall : op = .callIndirect
  · subst hcall
    obtain ⟨params, result, values, function, htype, hpopped, hfunction, hvalues, hleaves⟩ :=
      step_callIndirect h
    rw [hpopped]
    exact .callIndirect htype hfunction hvalues hleaves
  refine takes_of_step (P := fun results operands => c.types.TypeRule type op operands results) h ?_
  cases op with
  | convert =>
    refine Takes.popThen fun a => Takes.require.query fun _ ha => ?_
    refine Takes.require.query fun _ htype => valueOf_takes.weaken ?_
    rintro results _ ⟨h, rfl⟩
    exact .convert ha htype h
  | loadIndirect =>
    refine popLocationThen fun address location haddress hlocation => valueOf_takes.weaken ?_
    rintro results _ ⟨h, rfl⟩
    exact .loadIndirect haddress hlocation h
  | storeIndirect =>
    refine refuseAddress_takes.query fun _ hfree => Takes.popThen fun value => ?_
    refine popLocationThen fun address location haddress hlocation => ?_
    exact expectAssignable_takes.query fun _ hvalue =>
      .pure (.storeIndirect hfree haddress hlocation hvalue)
  | loadElement =>
    refine popElementThen fun container element hcontainer helement => valueOf_takes.weaken ?_
    rintro results _ ⟨h, rfl⟩
    exact .loadElement hcontainer helement h
  | storeElement =>
    refine refuseAddress_takes.query fun _ hfree => Takes.popThen fun value => ?_
    refine popElementThen fun container element hcontainer helement => ?_
    exact expectAssignable_takes.query fun _ hvalue =>
      .pure (.storeElement hfree hcontainer helement hvalue)
  | elementAddress =>
    refine popElementThen fun container element hcontainer helement => addressOf_takes.weaken ?_
    rintro _ _ ⟨⟨address, h, rfl⟩, rfl⟩
    exact .elementAddress hcontainer helement h
  | callIndirect => exact absurd rfl hcall

/-- **A step takes and leaves what a rule allows.** -/
theorem rule_of_step (h : c.step instr s = .ok (effect, out)) :
    c.Rule instr effect.popped.reverse effect.pushed := by
  cases instr with
  | plain op => exact .plain (takes_of_step h (plain_takes op))
  | constant value =>
    exact takes_of_step (P := fun results operands => c.Rule (.constant value) operands results) h
      (.pure .constant)
  | argument a index =>
    obtain ⟨v, hv, hrule⟩ := takes_of_step h (access_takes a c.decl.params index)
    exact .argument hv hrule
  | localVar a index =>
    obtain ⟨v, hv, hrule⟩ := takes_of_step h (access_takes a c.decl.locals index)
    exact .localVar hv hrule
  | field a ref =>
    obtain ⟨field, owner, hfield, howner, hrule⟩ := takes_of_step h (fieldAccess_takes a ref)
    exact .field hfield howner hrule
  | function op func =>
    obtain ⟨callee, hf, hrule⟩ := funcRule_of_step h
    exact .function hf hrule
  | typed op type => exact .typed (typeRule_of_step h)
  | jump target =>
    exact takes_of_step (P := fun results operands => c.Rule (.jump target) operands results) h
      (.pure .jump)
  | branch condition target =>
    refine takes_of_step
      (P := fun results operands => c.Rule (.branch condition target) operands results) h ?_
    exact (test_takes condition).bind fun _ _ h => .pure (.branch h)

end Steps

end TypingContext

/-- What verification records for an instruction that control reaches is allowed by a rule, and lies
on the stack recorded there. -/
theorem TypedFunction.Covers.exists_rule {typed : TypedFunction} {c : TypingContext}
    (h : typed.Covers c) (hprim : c.types.HasPrimitives) {i : Nat} {s : OperandStack TypeId}
    (hs : typed.states[i]? = some (some s)) :
    ∃ instr kept effect out, c.decl.body[i]? = some instr.instr ∧
      typed.instrs[i]? = some (some instr) ∧ c.Rule instr.instr instr.operands instr.results ∧
      c.step instr.instr s = .ok (effect, out) ∧ s.bottomUp = kept ++ instr.operands ∧
      out.bottomUp = kept ++ instr.results ∧
      ∀ j, c.decl.Edge i j → ∃ s', typed.states[j]? = some (some s') ∧
        c.types.StackBelow out s' := by
  have hlt := h.lt_of_isReachable (isReachable_eq_true.mpr ⟨s, hs⟩)
  have hinstr := Array.getElem?_eq_getElem hlt
  obtain ⟨effect, out, hstep, hrecorded, hflow⟩ := h.reached hinstr hs
  obtain ⟨kept, hstack, hout⟩ := TypingContext.step_splits hprim hstep
  exact ⟨_, kept, effect, out, hinstr, hrecorded, TypingContext.rule_of_step hstep, hstep, hstack,
    hout, hflow⟩

end StackCode
