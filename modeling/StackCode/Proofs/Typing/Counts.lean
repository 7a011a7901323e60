import StackCode.Proofs.Typing.Resolved
import StackCode.Proofs.Typing.Rules

/-!
# How many values instructions take and leave

Every instruction takes a number of values off the stack and leaves a number of values there.  Both
can be read off the instruction, the declaration of a callee and the type of an indirect call,
without the types on the stack.  The typing rules keep to these numbers: where a rule succeeds, the
height of the stack changes by their difference, and a rule finds too few values only on a stack
with fewer values than the instruction takes.

## Main definitions

* `TypingContext.counts`: how many values an instruction takes and leaves.
* `Operands.TakesCount`: computations that take a number of values.

## Main results

* `TypingContext.results_takesCount`: the rule of an instruction takes as many values as it should.
* `TypingContext.Rule.length_results`: it leaves as many values as it should.
* `TypingContext.step_counts`: how a step changes the height of the stack.
-/

namespace StackCode

/-! ### The numbers -/

/-- How many values a value of a type is on the stack: there is none for `void`. -/
def TypeId.valueCount (type : TypeId) : Nat := if type = .void then 0 else 1

/-- How many values an operator takes and leaves, in a function with this result. -/
def PlainOp.counts (result : TypeId) : PlainOp → Nat × Nat
  | .nop => (0, 0)
  | .arith _ | .integer _ | .compare _ | .compareUn _ => (2, 1)
  | .neg | .not => (1, 1)
  | .dup => (1, 2)
  | .pop => (1, 0)
  | .null => (0, 1)
  | .ret => (result.valueCount, 0)

/-- How many values an access takes and leaves, for a place that `named` values on the stack
name. -/
def Access.counts (named : Nat) : Access → Nat × Nat
  | .load | .address => (named, 1)
  | .store => (named + 1, 0)

namespace TypingContext

variable (c : TypingContext)

/-- How many values an object is that a constructor with these parameters makes: none if its first
parameter refers to `void`. -/
def objectCount : (params : List Variable) → Nat
  | [] => 1
  | this :: _ =>
    match (c.types.referent? this.type : Checked Violation _) with
    | .ok (some object) => object.valueCount
    | _ => 1

/-- How many values an instruction with a function takes and leaves. -/
def funcCounts (callee : FunctionDecl) : FuncOp → Nat × Nat
  | .call => (callee.params.length, callee.result.valueCount)
  | .newObject => (callee.params.length - 1, c.objectCount callee.params)
  | .loadFunction => (0, 1)

/-- How many values an instruction at a type takes and leaves.  What is behind a reference to `void`
is no value. -/
def typeCounts (type : TypeId) : TypeOp → Nat × Nat
  | .convert => (1, 1)
  | .loadIndirect => (1, type.valueCount)
  | .storeIndirect => (2, 0)
  | .loadElement | .elementAddress => (2, 1)
  | .storeElement => (3, 0)
  | .callIndirect =>
    match (c.types.kind type : Checked Violation _) with
    | .ok (.function params result) => (params.length + 1, result.valueCount)
    | _ => (0, 0)

/-- How many values an instruction takes and leaves. -/
def counts : Instr → Nat × Nat
  | .plain op => op.counts c.decl.result
  | .constant _ => (0, 1)
  | .argument a _ | .localVar a _ => a.counts 0
  | .field a _ => a.counts 1
  | .function op func =>
    match c.program.function? func with
    | some callee => c.funcCounts callee op
    | none => (0, 0)
  | .typed op type => c.typeCounts type op
  | .jump _ => (0, 0)
  | .branch condition _ => (condition.operandCount, 0)

/-- How many values an instruction takes. -/
def pops (instr : Instr) : Nat := (c.counts instr).1

/-- How many values an instruction leaves. -/
def pushes (instr : Instr) : Nat := (c.counts instr).2

end TypingContext

/-- What a call takes and leaves is read off the function it names. -/
theorem TypingContext.counts_function {c : TypingContext} {op : FuncOp} {func : FuncRef}
    {callee : FunctionDecl} (hf : c.program.function? func = some callee) :
    c.counts (.function op func) = c.funcCounts callee op := by
  simp only [counts, hf]

/-! ### Lookups do not refuse -/

/-- The computation does not refuse its input; all that can go wrong is a lookup of a type that the
table does not have. -/
def Checked.Unrefusing {ε α : Type} (query : Checked ε α) : Prop :=
  Ends (fun _ => True) (fun fault => ∃ type, fault = .dangling type) query

namespace Checked.Unrefusing

variable {ε α β : Type}

theorem pure (a : α) : Unrefusing (pure a : Checked ε α) := trivial

theorem bind {query : Checked ε α} {f : α → Checked ε β} (h : query.Unrefusing)
    (hf : ∀ a, (f a).Unrefusing) : (query >>= f).Unrefusing :=
  Ends.bind h fun a _ => hf a

end Checked.Unrefusing

namespace TypeTable

open Checked

variable {ε : Type} (t : TypeTable)

theorem entry_unrefusing (type : TypeId) : (t.entry type : Checked ε _).Unrefusing := by
  unfold entry
  cases t.entry? type with
  | some e => exact Ends.ok trivial
  | none => exact Ends.error ⟨type, rfl⟩

theorem kind_unrefusing (type : TypeId) : (t.kind type : Checked ε _).Unrefusing :=
  (t.entry_unrefusing type).bind fun _ => .pure _

theorem verificationType_unrefusing (type : TypeId) :
    (t.verificationType type : Checked ε _).Unrefusing :=
  (t.entry_unrefusing type).bind fun _ => .pure _

theorem stackType_unrefusing (type : TypeId) : (t.stackType type : Checked ε _).Unrefusing :=
  (t.entry_unrefusing type).bind fun _ => .pure _

theorem referent?_unrefusing (type : TypeId) : (t.referent? type : Checked ε _).Unrefusing :=
  (t.kind_unrefusing type).bind fun _ => .pure _

theorem isReference_unrefusing (type : TypeId) : (t.isReference type : Checked ε _).Unrefusing :=
  (t.kind_unrefusing type).bind fun _ => .pure _

theorem carriesAddress_unrefusing (type : TypeId) :
    (t.carriesAddress type : Checked ε _).Unrefusing :=
  (t.kind_unrefusing type).bind fun _ => .pure _

theorem assignable_unrefusing (source target : TypeId) :
    (t.assignable source target : Checked ε _).Unrefusing := by
  refine (t.verificationType_unrefusing target).bind fun standIn => ?_
  split
  · exact .pure true
  · split
    · exact t.isReference_unrefusing standIn
    · exact .pure _

theorem elementType?_unrefusing (container : TypeId) :
    (t.elementType? container : Checked ε _).Unrefusing := by
  refine (t.kind_unrefusing container).bind fun kind => ?_
  cases kind with
  | reference target =>
    refine (t.kind_unrefusing target).bind fun kind' => ?_
    cases kind' <;> exact .pure _
  | _ => exact .pure _

theorem join?_unrefusing (a b : TypeId) : (t.join? a b : Checked ε _).Unrefusing := by
  have hright : (if b = .null then do
      if ← t.isReference a then return some a
      return none
    else return none : Checked ε (Option TypeId)).Unrefusing := by
    split
    · refine (t.isReference_unrefusing a).bind fun isReference => ?_
      cases isReference <;> exact .pure _
    · exact .pure _
  unfold join?
  split
  · exact .pure _
  · dsimp only
    split
    · refine (t.isReference_unrefusing b).bind fun isReference => ?_
      cases isReference with
      | true => exact .pure _
      | false => exact hright
    · exact hright

end TypeTable

/-! ### Computations that take a number of values -/

/-- What a violation says of a stack of `size` values, from which `n` values are to be taken: that
there are fewer, or that others are left when nothing may be left.  The latter is a violation of the
`last` instruction only, and the other violations of the height are none of an instruction. -/
def Violation.ShortOf (last : Prop) (n size : Nat) : Violation → Prop
  | .stackUnderflow | .arityMismatch .. => size < n
  | .stackNotEmpty depth => last ∧ size = depth + n ∧ 0 < depth
  | .stackHeightMismatch .. | .fallsOffEnd => False
  | _ => True

namespace Operands

variable {α β : Type} {last : Prop} {k n : Nat}

/-- On every stack the computation takes `n` values off the top.  It finds too few only if there are
fewer. -/
def TakesCount (last : Prop) (n : Nat) (m : Operands α) : Prop :=
  ∀ s : OperandStack TypeId, Ends (fun answer => s.size = answer.2.size + n)
    (fun fault => ∀ v, fault = .refused v → v.ShortOf last n s.size) (m s)

namespace TakesCount

/-- One part after another.  That values are left behind is said at the end only, so the first part
does not say it. -/
theorem bind {m : Operands α} {f : α → Operands β} (h : TakesCount False k m)
    (hf : ∀ a, TakesCount last n (f a)) : TakesCount last (n + k) (m >>= f) := by
  intro s
  show Ends _ _ (m s >>= fun answer => f answer.1 answer.2)
  have hm := h s
  cases hrun : m s with
  | error fault =>
    refine Ends.error fun v hv => ?_
    have hshort := hm.cause hrun v hv
    cases v with
    | stackUnderflow | arityMismatch => exact Nat.lt_add_left n hshort
    | stackNotEmpty => exact hshort.1.elim
    | stackHeightMismatch | fallsOffEnd => exact hshort.elim
    | _ => trivial
  | ok answer =>
    have hsize : s.size = answer.2.size + k := hm.result hrun
    refine (hf answer.1 answer.2).mono (fun left hleft => ?_) fun fault hfault v hv => ?_
    · rw [hsize, hleft, Nat.add_assoc]
    · have hshort := hfault v hv
      cases v with
      | stackUnderflow | arityMismatch =>
        rw [hsize]
        exact Nat.add_lt_add_right hshort k
      | stackNotEmpty depth =>
        obtain ⟨hlast, hdepth, hpos⟩ := hshort
        exact ⟨hlast, by rw [hsize, hdepth, Nat.add_assoc], hpos⟩
      | stackHeightMismatch | fallsOffEnd => exact hshort.elim
      | _ => trivial

/-- A part that takes nothing, before any other. -/
theorem query {m : Operands α} {f : α → Operands β} (h : TakesCount False 0 m)
    (hf : ∀ a, TakesCount last n (f a)) : TakesCount last n (m >>= f) := h.bind hf

/-- A part that takes nothing, after any other. -/
theorem answer {m : Operands α} {f : α → Operands β} (h : TakesCount False n m)
    (hf : ∀ a, TakesCount last 0 (f a)) : TakesCount last n (m >>= f) := by
  have hbind := h.bind hf
  rwa [Nat.zero_add] at hbind

theorem pure (a : α) : TakesCount last 0 (pure a) := fun _ => rfl

/-- A refusal for a reason other than the height of the stack. -/
theorem refuse {v : Violation} (h : ∀ size, v.ShortOf last n size) :
    TakesCount last n (refuse v : Operands α) := by
  intro s w hw
  cases hw
  exact h s.size

theorem require {condition : Bool} {v : Violation} (h : ∀ size, v.ShortOf last 0 size) :
    TakesCount last 0 (require condition v) := by
  cases condition with
  | true => exact .pure ()
  | false => exact .refuse h

theorem pop : TakesCount last 1 pop := by
  rintro ⟨_ | ⟨type, below⟩⟩
  · rintro v ⟨⟩
    exact Nat.zero_lt_one
  · exact Ends.ok rfl

/-- A lookup, before any other part. -/
theorem askThen {query : Checked Violation α} {f : α → Operands β} (h : query.Unrefusing)
    (hf : ∀ a, query = .ok a → TakesCount last n (f a)) :
    TakesCount last n (ask query >>= f) := by
  intro s
  cases hquery : query with
  | ok a => exact hf a hquery s
  | error fault =>
    obtain ⟨type, rfl⟩ := Ends.cause h hquery
    rintro v ⟨⟩

/-- A question that refuses nothing takes no operand. -/
theorem ask {query : Checked Violation α} (h : query.Unrefusing) :
    TakesCount last 0 (ask query) := by
  have hask : TakesCount last 0 (Operands.ask query >>= Pure.pure) := askThen h fun a _ => .pure a
  rwa [bind_pure] at hask

/-- Taking one value, before any other part. -/
theorem popThen {f : TypeId → Operands β} (hf : ∀ a, TakesCount last n (f a)) :
    TakesCount last (n + 1) (Operands.pop >>= f) := pop.bind hf

end TakesCount

theorem popPair_takesCount {expected : Expectation} {inClass : TypeId → Bool} :
    TakesCount last 2 (popPair expected inClass) := by
  refine .popThen fun right => .popThen fun left => ?_
  exact .query (.require fun _ => trivial) fun _ => .query (.require fun _ => trivial)
    fun _ => .pure left

theorem popIndex_takesCount : TakesCount last 1 popIndex :=
  .popThen fun _ => .require fun _ => trivial

end Operands

namespace TypeTable

open Operands

variable {t : TypeTable} {last : Prop} {n : Nat} {type : TypeId}

theorem expectAssignable_takesCount {value : TypeId} :
    TakesCount last 0 (t.expectAssignable value type) :=
  .query (.ask (t.assignable_unrefusing value type)) fun _ => .require fun _ => trivial

theorem expectLocation_takesCount {location : TypeId} :
    TakesCount last 0 (t.expectLocation location type) :=
  .query (.ask (t.verificationType_unrefusing location)) fun _ => expectAssignable_takesCount

theorem isNullable_takesCount : TakesCount last 0 (t.isNullable type) := by
  unfold isNullable
  split
  · exact .pure true
  · exact .ask (t.isReference_unrefusing type)

theorem popEqualityPair_takesCount : TakesCount last 2 t.popEqualityPair := by
  refine .popThen fun right => .popThen fun left => ?_
  refine .query isNullable_takesCount fun _ => .query (.require fun _ => trivial) fun _ => ?_
  exact .query isNullable_takesCount fun _ => .require fun _ => trivial

theorem popEach_takesCount {params : List TypeId} :
    TakesCount last params.length
      (params.forM fun param => do t.expectAssignable (← pop) param) := by
  induction params with
  | nil => exact .pure ()
  | cons param params ih =>
    exact .bind (.popThen fun _ => expectAssignable_takesCount) fun _ => ih

/-- Too few operands for a call are noticed before any is taken. -/
theorem popArguments_takesCount {params : List TypeId} :
    TakesCount last params.length (t.popArguments params) := by
  intro s
  by_cases hlt : s.size < params.length
  · have hrequire : decide (params.length ≤ s.size) = false := decide_eq_false (Nat.not_le.mpr hlt)
    have herror : t.popArguments params s =
        .error (.refused (.arityMismatch params.length s.size)) := by
      show (require (decide (params.length ≤ s.size)) _ >>= fun _ => _ : Operands Unit) s = _
      rw [hrequire]
      rfl
    rw [herror]
    rintro v ⟨⟩
    exact hlt
  · have hrequire : decide (params.length ≤ s.size) = true := decide_eq_true (Nat.not_lt.mp hlt)
    have heach : t.popArguments params s =
        params.reverse.forM (m := Operands)
          (fun param => do t.expectAssignable (← pop) param) s := by
      show (require (decide (params.length ≤ s.size)) _ >>= fun _ => _ : Operands Unit) s = _
      rw [hrequire]
      rfl
    rw [heach, ← List.length_reverse]
    exact popEach_takesCount s

theorem popReference_takesCount : TakesCount last 1 t.popReference := by
  refine .popThen fun address => .query (.ask (t.referent?_unrefusing address)) fun location? => ?_
  cases location? with
  | some location => exact .pure location
  | none => exact .refuse fun _ => trivial

theorem popContainer_takesCount : TakesCount last 1 t.popContainer := by
  refine .popThen fun container => ?_
  refine .query (.ask (t.elementType?_unrefusing container)) fun element? => ?_
  cases element? with
  | some element => exact .pure element
  | none => exact .refuse fun _ => trivial

theorem valueOf_takesCount : TakesCount last 0 (t.valueOf type) := by
  unfold valueOf
  split
  · exact .pure []
  · exact .query (.ask (t.stackType_unrefusing type)) fun _ => .pure _

theorem addressOf_takesCount : TakesCount last 0 (t.addressOf type) := by
  refine .query (.ask (t.carriesAddress_unrefusing type)) fun carries => ?_
  cases carries with
  | true => exact .refuse fun _ => trivial
  | false =>
    dsimp only
    cases t.referenceTo? type with
    | some reference => exact .query (.ask (t.stackType_unrefusing reference)) fun _ => .pure _
    | none => exact .refuse fun _ => trivial

theorem refuseAddress_takesCount {use : AddressUse} :
    TakesCount last 0 (t.refuseAddress use type) := by
  refine .query (.ask (t.carriesAddress_unrefusing type)) fun carries => ?_
  cases carries with
  | true => exact .refuse fun _ => trivial
  | false => exact .pure ()

/-- Taking a reference to a location that is accessed at a type, before any other part. -/
theorem popLocationThen_takesCount {β : Type} {f : Operands β} (hf : TakesCount last n f) :
    TakesCount last (n + 1) (do t.expectLocation (← t.popReference) type; f) :=
  popReference_takesCount.bind fun _ => .query expectLocation_takesCount fun _ => hf

/-- Taking a container and an index of an element that is accessed at a type, before any other
part. -/
theorem popElementThen_takesCount {β : Type} {f : TypeId → Operands β}
    (hf : ∀ element, TakesCount last n (f element)) :
    TakesCount last (n + 2) (do
      popIndex
      let element ← t.popContainer
      t.expectLocation element type
      f element) :=
  popIndex_takesCount.bind fun _ => popContainer_takesCount.bind fun element =>
    .query expectLocation_takesCount fun _ => hf element

end TypeTable

/-! ### The rules -/

namespace TypingContext

open Operands TypeTable

variable {c : TypingContext} {last : Prop}

/-- The end of a return is where values may be left. -/
theorem leaveNothing_takesCount (h : last) : TakesCount last 0 leaveNothing := by
  intro s
  by_cases hzero : s.size = 0
  · have hok : leaveNothing s = .ok ([], s) := by
      show (require (decide (s.size = 0)) _ >>= fun _ => pure [] : Operands _) s = _
      rw [decide_eq_true hzero]
      rfl
    rw [hok]
    exact Ends.ok rfl
  · have herror : leaveNothing s = .error (.refused (.stackNotEmpty s.size)) := by
      show (require (decide (s.size = 0)) _ >>= fun _ => pure [] : Operands _) s = _
      rw [decide_eq_false hzero]
      rfl
    rw [herror]
    rintro v ⟨⟩
    exact ⟨h, rfl, Nat.pos_of_ne_zero hzero⟩

/-- Instructions without operands take as many values as their form says. -/
theorem plain_takesCount (op : PlainOp) :
    TakesCount (op = .ret) (op.counts c.decl.result).1 (c.plain op) := by
  cases op with
  | nop | null => exact .pure _
  | dup | pop => exact .popThen fun _ => .pure _
  | arith op | integer op => exact popPair_takesCount.answer fun _ => .pure _
  | neg | not => exact .popThen fun _ => .query (.require fun _ => trivial) fun _ => .pure _
  | compareUn op => exact popPair_takesCount.answer fun _ => .pure _
  | compare op =>
    cases op with
    | equal => exact popEqualityPair_takesCount.answer fun _ => .pure _
    | _ => exact popPair_takesCount.answer fun _ => .pure _
  | ret =>
    rw [plain_ret]
    dsimp only [PlainOp.counts, TypeId.valueCount]
    by_cases hvoid : c.decl.result = .void
    · rw [if_pos hvoid, if_neg (not_not.mpr hvoid)]
      exact leaveNothing_takesCount rfl
    · rw [if_neg hvoid, if_pos hvoid]
      exact .query refuseAddress_takesCount fun _ => .popThen fun _ =>
        .query expectAssignable_takesCount fun _ => leaveNothing_takesCount rfl

/-- A variable access takes a value if it stores one. -/
theorem access_takesCount (a : Access) (vars : List Variable) (index : Nat) :
    TakesCount last (a.counts 0).1 (c.access a vars index) := by
  unfold access
  cases vars[index]? with
  | none => exact .refuse fun _ => trivial
  | some v =>
    cases a with
    | load => exact valueOf_takesCount
    | store => exact .popThen fun _ => .query expectAssignable_takesCount fun _ => .pure _
    | address => exact addressOf_takesCount

/-- A field access takes the object, and a value if it stores one. -/
theorem fieldAccess_takesCount (a : Access) (ref : FieldRef) :
    TakesCount last (a.counts 1).1 (c.fieldAccess a ref) := by
  unfold fieldAccess
  split
  · cases a with
    | load =>
      exact .popThen fun _ => .query expectAssignable_takesCount fun _ => valueOf_takesCount
    | store =>
      refine .query refuseAddress_takesCount fun _ => .popThen fun _ => .popThen fun _ => ?_
      exact .query expectAssignable_takesCount fun _ =>
        .query expectAssignable_takesCount fun _ => .pure _
    | address =>
      exact .popThen fun _ => .query expectAssignable_takesCount fun _ => addressOf_takesCount
  · exact .refuse fun _ => trivial

theorem constructed?_unrefusing {ε : Type} (callee : FunctionDecl) :
    (c.constructed? callee : Checked ε _).Unrefusing := by
  unfold constructed?
  cases callee.params with
  | nil => exact .pure none
  | cons this others => exact (c.types.referent?_unrefusing this.type).bind fun _ => .pure _

/-- A call takes as many values as the function has parameters. -/
theorem funcOp_takesCount (op : FuncOp) (func : FuncRef) :
    TakesCount last (c.pops (.function op func)) (c.funcOp op func) := by
  unfold funcOp
  cases hf : c.program.function? func with
  | none => exact .refuse fun _ => trivial
  | some callee =>
    have hlength : callee.paramTypes.length = callee.params.length := List.length_map _
    rw [pops, counts_function hf]
    cases op with
    | call =>
      refine .answer ?_ fun _ => valueOf_takesCount
      rw [funcCounts, ← hlength]
      exact popArguments_takesCount
    | newObject =>
      refine .query (.ask (constructed?_unrefusing callee)) fun object? => ?_
      cases object? with
      | none => exact .refuse fun _ => trivial
      | some object =>
        refine .answer ?_ fun _ => valueOf_takesCount
        rw [funcCounts, ← hlength, ← List.length_tail]
        exact popArguments_takesCount
    | loadFunction => exact .query (.ask (c.types.stackType_unrefusing _)) fun _ => .pure _

theorem typeOp_takesCount (op : TypeOp) (type : TypeId) :
    TakesCount last (c.typeCounts type op).1 (c.typeOp op type) := by
  cases op with
  | convert =>
    exact .popThen fun _ => .query (.require fun _ => trivial) fun _ =>
      .query (.require fun _ => trivial) fun _ => valueOf_takesCount
  | loadIndirect => exact popLocationThen_takesCount valueOf_takesCount
  | storeIndirect =>
    refine .query refuseAddress_takesCount fun _ => .popThen fun _ => ?_
    exact popLocationThen_takesCount (.query expectAssignable_takesCount fun _ => .pure _)
  | loadElement => exact popElementThen_takesCount fun _ => valueOf_takesCount
  | storeElement =>
    refine .query refuseAddress_takesCount fun _ => .popThen fun _ => ?_
    exact popElementThen_takesCount fun _ => .query expectAssignable_takesCount fun _ => .pure _
  | elementAddress => exact popElementThen_takesCount fun _ => addressOf_takesCount
  | callIndirect =>
    refine .askThen (c.types.kind_unrefusing type) fun kind hkind => ?_
    rw [typeCounts, hkind]
    cases kind with
    | function params result =>
      exact .popThen fun _ => .query expectAssignable_takesCount fun _ =>
        popArguments_takesCount.answer fun _ => valueOf_takesCount
    | _ => exact .refuse fun _ => trivial

theorem test_takesCount (condition : Condition) :
    TakesCount last condition.operandCount (c.test condition) := by
  cases condition with
  | isTrue | isFalse =>
    exact .popThen fun _ => .query isNullable_takesCount fun _ => .require fun _ => trivial
  | equal | notEqual => exact popEqualityPair_takesCount
  | ordered _ | orderedUn _ => exact popPair_takesCount.answer fun _ => .pure ()

/-- **The rule of an instruction takes as many values as it should.** -/
theorem results_takesCount (instr : Instr) :
    TakesCount (instr = .plain .ret) (c.pops instr) (c.results instr) := by
  cases instr with
  | plain op =>
    intro s
    refine (plain_takesCount op s).mono (fun _ h => h) fun fault hfault v hv => ?_
    have hshort := hfault v hv
    cases v with
    | stackNotEmpty depth => exact ⟨congrArg Instr.plain hshort.1, hshort.2⟩
    | _ => exact hshort
  | constant value => exact .pure _
  | argument a index => exact access_takesCount a _ index
  | localVar a index => exact access_takesCount a _ index
  | field a ref => exact fieldAccess_takesCount a ref
  | function op func => exact funcOp_takesCount op func
  | typed op type => exact typeOp_takesCount op type
  | jump target => exact .pure _
  | branch condition target => exact (test_takesCount condition).answer fun _ => .pure _

/-! ### What is left -/

/-- A value of type `void` is none, and any other is one. -/
theorem length_of_leaves {type : TypeId} {results : List TypeId} (h : c.types.Leaves type results) :
    results.length = type.valueCount := by
  unfold TypeId.valueCount
  rcases h with ⟨hvoid, rfl⟩ | ⟨hvoid, stack, -, rfl⟩
  · rw [if_pos hvoid, List.length_nil]
  · rw [if_neg hvoid, List.length_singleton]

theorem length_of_leaves_value {type : TypeId} {results : List TypeId}
    (h : c.types.Leaves type results) (hvoid : type ≠ .void) : results.length = 1 := by
  rw [length_of_leaves h, TypeId.valueCount, if_neg hvoid]

/-- What is no `void` is not accessed as `void`. -/
theorem ne_void_of_accessibleAs (h : c.types.Coherent) {location type : TypeId}
    (haccess : c.types.AccessibleAs location type) (hlocation : location ≠ .void) :
    type ≠ .void := by
  rintro rfl
  obtain ⟨standIn, hclass, target, htarget, hcases⟩ := haccess
  obtain rfl : target = .void := htarget.unique (h.hasClass_primitive .void)
  rcases hcases with rfl | ⟨-, hreference⟩ | ⟨-, hint | hint⟩
  · have hvoid : ∀ q : Primitive, q.verification = .void → q = .void := by
      intro q
      cases q <;> decide
    exact hlocation (h.eq_of_standIn_eq hvoid hclass.standIn_eq)
  · exact h.primitives.not_isReference .void hreference
  · cases hint
  · cases hint

/-- The elements of a container are values. -/
theorem ne_void_of_hasElement (ht : c.types.Coherent) {container element : TypeId}
    (h : c.types.HasElement container element) : element ≠ .void := by
  cases h with
  | span hkind => exact (ht.value_of_hasKind hkind (List.mem_singleton_self _)).1
  | array _ hkind => exact (ht.value_of_hasKind hkind (List.mem_singleton_self _)).1

section Bound

variable (htypes : c.types.Built) (hbound : c.Bound)

include htypes hbound

/-- **An instruction leaves as many values as it should.** -/
theorem Rule.length_results {instr : Instr} {operands results : List TypeId}
    (h : c.Rule instr operands results) : results.length = c.pushes instr := by
  have hvar {v : Variable} {a : Access} {operands results : List TypeId}
      (hv : v ∈ c.decl.params ++ c.decl.locals)
      (hrule : c.types.VariableRule v.type a operands results) :
      results.length = (a.counts 0).2 := by
    cases hrule with
    | load h => exact length_of_leaves_value h (hbound.function.vars v hv).2
    | store | address => rfl
  cases h with
  | plain h =>
    cases h with
    | _ => rfl
  | constant | jump => rfl
  | branch h => rfl
  | argument hv h => exact hvar (List.mem_append_left _ (List.mem_of_getElem? hv)) h
  | localVar hv h => exact hvar (List.mem_append_right _ (List.mem_of_getElem? hv)) h
  | field hfield howner h =>
    cases h with
    | load _ h =>
      obtain ⟨_, s, -, hs, hmem⟩ := field?_eq_some hfield
      exact length_of_leaves_value h (htypes.value_of_mem hs hmem).1
    | store | address => rfl
  | function hf h =>
    rw [pushes, counts_function hf]
    cases h with
    | call _ h => exact length_of_leaves h
    | newObject hparams hthis _ h =>
      have hobject : (c.types.referent? _ : Checked Violation _) = .ok (some _) :=
        referent?_eq_ok.mpr ⟨_, hthis, rfl⟩
      rw [funcCounts, hparams, objectCount, hobject]
      exact length_of_leaves h
    | loadFunction => rfl
  | typed h =>
    cases h with
    | convert _ htype h =>
      refine length_of_leaves_value h ?_
      rintro rfl
      cases htype
    | loadIndirect _ _ h => exact length_of_leaves h
    | loadElement hcontainer helement h =>
      have hvoid := ne_void_of_hasElement hbound.types hcontainer
      exact length_of_leaves_value h (ne_void_of_accessibleAs hbound.types helement hvoid)
    | callIndirect htype _ _ h =>
      have hkind : (c.types.kind _ : Checked Violation _) = .ok _ := kind_eq_ok.mpr htype
      rw [pushes, counts, typeCounts, hkind]
      exact length_of_leaves h
    | storeIndirect | storeElement | elementAddress => rfl

/-- **How a step changes the height of the stack**, and what it says of the height if it refuses
the instruction. -/
theorem step_counts (instr : Instr) (s : OperandStack TypeId) :
    Ends (fun left => left.2.size + c.pops instr = s.size + c.pushes instr)
      (fun fault => ∀ v, fault = .refused v →
        v.ShortOf (instr = .plain .ret) (c.pops instr) s.size) (c.step instr s) := by
  refine Ends.iff_forall.mpr ⟨fun left hleft => ?_, fun fault hfault => ?_⟩
  · have hpushed := (rule_of_step hleft).length_results htypes hbound
    obtain ⟨⟨results, rest⟩, hresults, hpure⟩ := bind_eq_ok.mp hleft
    cases pure_eq_ok.mp hpure
    have htaken : s.size = rest.size + c.pops instr := (results_takesCount instr s).result hresults
    have hheight : (rest.pushAll results).size = rest.size + results.length := by
      rw [← OperandStack.length_bottomUp, OperandStack.bottomUp_pushAll, List.length_append,
        OperandStack.length_bottomUp]
    rw [hheight, htaken, ← hpushed]
    exact Nat.add_right_comm _ _ _
  · rcases bind_eq_error.mp hfault with hresults | ⟨_, _, hpure⟩
    · exact (results_takesCount instr s).cause hresults
    · cases hpure

end Bound

end TypingContext

end StackCode
