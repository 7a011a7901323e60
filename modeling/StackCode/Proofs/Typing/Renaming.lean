import StackCode.Proofs.Dataflow.Lockstep
import StackCode.Proofs.Program.Renaming
import StackCode.Proofs.Typing.Simulation
import StackCode.Typing.Verify

/-!
# Typing under other names

The typing rules look at types through lookups and comparisons only, so the rule of an instruction
and the rule of the renamed instruction agree on a stack and the renamed stack.  The solver then
runs over both bodies in lockstep, and a program is verified exactly if it is verified under other
names, with the renamed types at every instruction.

## Main definitions

* `TypeRenaming.Carries`: two computations on operands agree, up to the renaming.
* `TypedFunction.Renamed`, `TypedProgram.Renamed`: verified forms under other names.

## Main results

* `TypingContext.results_carries`: the typing rules of an instruction and of the renamed one agree.
* `Program.Carried.verify_agree`: both programs are verified, or neither is.
-/

namespace StackCode

open Operands

namespace TypeRenaming

section Carries

variable {α β γ δ : Type} {r : TypeRenaming} {R : α → β → Prop} {S : γ → δ → Prop}
  {m n : Operands α} {m' n' : Operands β} {f : α → Operands γ} {f' : β → Operands δ}

/-- On every stack and the renamed stack the two computations agree: they answer values in the
relation `R` and leave a stack and the renamed stack. -/
def Carries (r : TypeRenaming) (R : α → β → Prop) (m : Operands α) (m' : Operands β) : Prop :=
  ∀ s, Agree (fun a b => R a.1 b.1 ∧ b.2 = a.2.map r.type) (m s) (m' (s.map r.type))

/-- Sequences correspond if their parts do. -/
theorem Carries.bind (h : r.Carries R m m') (hf : ∀ a b, R a b → r.Carries S (f a) (f' b)) :
    r.Carries S (m >>= f) (m' >>= f') := by
  intro s
  refine (h s).bind ?_
  rintro ⟨a, rest⟩ ⟨b, _⟩ ⟨hab, hrest⟩
  cases hrest
  exact hf a b hab rest

theorem Carries.seq {x : Operands γ} {x' : Operands δ} (h : r.Carries R m m')
    (hnext : r.Carries S x x') : r.Carries S (m >>= fun _ => x) (m' >>= fun _ => x') :=
  h.bind fun _ _ _ => hnext

theorem Carries.pure {a : α} {b : β} (h : R a b) : r.Carries R (pure a) (pure b) :=
  fun _ => .ok ⟨h, rfl⟩

theorem Carries.refuse {v v' : Violation} : r.Carries R (refuse v) (refuse v') :=
  fun _ => .error _ _

theorem Carries.ite {c c' : Prop} [Decidable c] [Decidable c'] (hc : c ↔ c')
    (h : r.Carries R m m') (h' : r.Carries R n n') :
    r.Carries R (if c then m else n) (if c' then m' else n') := by
  by_cases hcond : c
  · rw [if_pos hcond, if_pos (hc.mp hcond)]
    exact h
  · rw [if_neg hcond, if_neg (mt hc.mpr hcond)]
    exact h'

theorem Carries.require {b b' : Bool} {v v' : Violation} (h : b' = b) :
    r.Carries (fun _ _ => True) (require b v) (require b' v') :=
  .ite (h ▸ Iff.rfl) (.pure trivial) .refuse

theorem Carries.ask {query : Checked Violation α} {query' : Checked Violation β}
    (h : Agree R query query') : r.Carries R (ask query) (ask query') :=
  fun _ => h.bind fun _ _ hab => .pure ⟨hab, rfl⟩

/-- The top of the renamed stack is the renamed top. -/
theorem Carries.pop : r.Carries (fun a b => b = r.type a) pop pop := by
  rintro ⟨_ | ⟨a, rest⟩⟩
  · exact .error _ _
  · exact .ok ⟨rfl, rfl⟩

theorem Carries.get : r.Carries (fun s s' => s' = s.map r.type) get get :=
  fun _ => .ok ⟨rfl, rfl⟩

/-- Operands of one type of a class that the renaming keeps. -/
theorem popPair_carries {expected : Expectation} {inClass : TypeId → Bool}
    (hclass : ∀ a, inClass (r.type a) = inClass a) :
    r.Carries (fun a b => b = r.type a) (popPair expected inClass) (popPair expected inClass) := by
  refine Carries.pop.bind ?_
  rintro right _ rfl
  refine Carries.pop.bind ?_
  rintro left _ rfl
  refine (Carries.require (hclass left)).seq ?_
  exact (Carries.require (decide_eq_decide.mpr r.type_inj)).seq (.pure rfl)

theorem popIndex_carries : r.Carries (fun _ _ => True) popIndex popIndex := by
  refine Carries.pop.bind ?_
  rintro index _ rfl
  exact .require (decide_eq_decide.mpr (r.type_eq_primitive .int32))

end Carries

end TypeRenaming

/-! ### Operands -/

namespace TypeTable.Carried

open TypeRenaming

variable {r : TypeRenaming} {t t' : TypeTable} (h : Carried r t t')

include h

theorem expectAssignable_carries (value type : TypeId) :
    r.Carries (fun _ _ => True) (t.expectAssignable value type)
      (t'.expectAssignable (r.type value) (r.type type)) := by
  refine (Carries.ask (h.assignable_agree value type)).bind ?_
  rintro allowed _ rfl
  exact .require rfl

theorem expectLocation_carries (location type : TypeId) :
    r.Carries (fun _ _ => True) (t.expectLocation location type)
      (t'.expectLocation (r.type location) (r.type type)) := by
  refine (Carries.ask (h.verificationType_agree location)).bind ?_
  rintro standIn _ rfl
  exact h.expectAssignable_carries standIn type

theorem isNullable_carries (type : TypeId) :
    r.Carries Eq (t.isNullable type) (t'.isNullable (r.type type)) :=
  .ite (r.type_eq_primitive .null).symm (.pure rfl) (.ask (h.isReference_agree type))

theorem popEqualityPair_carries :
    r.Carries (fun _ _ => True) t.popEqualityPair t'.popEqualityPair := by
  refine Carries.pop.bind ?_
  rintro right _ rfl
  refine Carries.pop.bind ?_
  rintro left _ rfl
  refine (h.isNullable_carries left).bind ?_
  rintro leftNullable _ rfl
  refine (Carries.require (by rw [r.isNumeric_type])).seq ?_
  refine (h.isNullable_carries right).bind ?_
  rintro rightNullable _ rfl
  refine .require ?_
  have hnull (a : TypeId) : decide (r.type a = .null) = decide (a = .null) :=
    decide_eq_decide.mpr (r.type_eq_primitive .null)
  rw [hnull, hnull, decide_eq_decide.mpr r.type_inj]

/-- Arguments are accepted under other names.  The last argument is on top, so they are taken from
the last to the first. -/
theorem popArguments_carries (params : List TypeId) :
    r.Carries (fun _ _ => True) (t.popArguments params) (t'.popArguments (params.map r.type)) := by
  refine Carries.get.bind ?_
  rintro s _ rfl
  refine (Carries.require (by simp)).seq ?_
  rw [← List.map_reverse]
  induction params.reverse with
  | nil => exact .pure trivial
  | cons param rest ih =>
    refine Carries.seq (R := fun _ _ => True) (Carries.pop.bind ?_) ih
    rintro value _ rfl
    exact h.expectAssignable_carries value param

theorem popReference_carries :
    r.Carries (fun a b => b = r.type a) t.popReference t'.popReference := by
  refine Carries.pop.bind ?_
  rintro address _ rfl
  refine (Carries.ask (h.referent?_agree address)).bind ?_
  rintro location _ rfl
  cases location with
  | none => exact .refuse
  | some location => exact .pure rfl

theorem popContainer_carries :
    r.Carries (fun a b => b = r.type a) t.popContainer t'.popContainer := by
  refine Carries.pop.bind ?_
  rintro container _ rfl
  refine (Carries.ask (h.elementType?_agree container)).bind ?_
  rintro element _ rfl
  cases element with
  | none => exact .refuse
  | some element => exact .pure rfl

theorem stackTypeOf_carries (type : TypeId) : r.Carries (fun l l' => l' = l.map r.type)
    (do return [← ask (t.stackType type)]) (do return [← ask (t'.stackType (r.type type))]) := by
  refine (Carries.ask (h.stackType_agree type)).bind ?_
  rintro onStack _ rfl
  exact .pure rfl

theorem valueOf_carries (type : TypeId) :
    r.Carries (fun l l' => l' = l.map r.type) (t.valueOf type) (t'.valueOf (r.type type)) :=
  .ite (r.type_eq_primitive .void).symm (.pure rfl) (h.stackTypeOf_carries type)

theorem refuseAddress_carries (use : AddressUse) (type : TypeId) :
    r.Carries (fun _ _ => True) (t.refuseAddress use type)
      (t'.refuseAddress use (r.type type)) := by
  refine (Carries.ask (h.carriesAddress_agree type)).bind ?_
  rintro carries _ rfl
  exact .ite Iff.rfl .refuse (.pure trivial)

theorem addressOf_carries (type : TypeId) :
    r.Carries (fun l l' => l' = l.map r.type) (t.addressOf type) (t'.addressOf (r.type type)) := by
  refine (Carries.ask (h.carriesAddress_agree type)).bind ?_
  rintro carries _ rfl
  refine .ite Iff.rfl .refuse ?_
  rw [h.referenceTo?_type]
  cases t.referenceTo? type with
  | none => exact .refuse
  | some reference => exact h.stackTypeOf_carries reference

end TypeTable.Carried

/-! ### Instructions -/

/-- A function of a program under other names. -/
structure TypingContext.Carried (r : TypeRenaming) (c c' : TypingContext) : Prop where
  program : c.program.Carried r c'.program
  decl : c.decl.Renamed r.type c'.decl

namespace TypingContext

open TypeRenaming

variable {r : TypeRenaming} {c c' : TypingContext}

theorem Carried.types (h : Carried r c c') : TypeTable.Carried r c.types c'.types :=
  h.program.types

theorem popNumber_carries {expected : Expectation} {inClass : TypeId → Bool}
    (hclass : ∀ a, inClass (r.type a) = inClass a) :
    let rule : Operands (List TypeId) := do
      let operand ← pop
      require (inClass operand) (.typeMismatch expected operand)
      return [operand]
    r.Carries (fun l l' => l' = l.map r.type) rule rule := by
  refine Carries.pop.bind ?_
  rintro operand _ rfl
  exact (Carries.require (hclass operand)).seq (.pure rfl)

theorem leaveNothing_carries :
    r.Carries (fun l l' => l' = l.map r.type) leaveNothing leaveNothing := by
  refine Carries.get.bind ?_
  rintro s _ rfl
  rw [OperandStack.size_map]
  exact (Carries.require rfl).seq (.pure rfl)

/-- A comparison leaves a number. -/
theorem flag_carries {m m' : Operands TypeId} (h : r.Carries (fun a b => b = r.type a) m m') :
    r.Carries (fun l l' => l' = l.map r.type) (do let _ ← m; return [.int32])
      (do let _ ← m'; return [.int32]) :=
  h.seq (.pure (congrArg (fun a => [a]) (r.primitive .int32).symm))

variable (h : Carried r c c')

include h

/-- Rules of instructions without operands under other names.  The classes of numbers are classes of
primitives, which are fixed. -/
theorem plain_carries (op : PlainOp) :
    r.Carries (fun l l' => l' = l.map r.type) (c.plain op) (c'.plain op) := by
  have hpair {expected : Expectation} {inClass : TypeId → Bool}
      (hclass : ∀ a, inClass (r.type a) = inClass a) :
      r.Carries (fun l l' => l' = l.map r.type) (do return [← popPair expected inClass])
        (do return [← popPair expected inClass]) := by
    refine (popPair_carries hclass).bind ?_
    rintro a _ rfl
    exact .pure rfl
  cases op with
  | nop => exact .pure rfl
  | arith _ => exact hpair r.isNumeric_type
  | integer _ => exact hpair r.isInteger_type
  | neg => exact popNumber_carries r.isNumeric_type
  | not => exact popNumber_carries r.isInteger_type
  | compare op =>
    cases op with
    | equal =>
      refine h.types.popEqualityPair_carries.seq (.pure ?_)
      exact congrArg (fun a => [a]) (r.primitive .int32).symm
    | _ => exact flag_carries (popPair_carries r.isNumeric_type)
  | compareUn op => exact flag_carries (popPair_carries r.isInteger_type)
  | dup =>
    refine Carries.pop.bind ?_
    rintro operand _ rfl
    exact .pure rfl
  | pop => exact Carries.pop.seq (.pure rfl)
  | null => exact .pure (congrArg (fun a => [a]) (r.primitive .null).symm)
  | ret =>
    rw [plain_ret, plain_ret, h.decl.result]
    refine .ite (not_congr (r.type_eq_primitive .void).symm) ?_ leaveNothing_carries
    refine (h.types.refuseAddress_carries .returned c.decl.result).seq (Carries.pop.bind ?_)
    rintro value _ rfl
    exact (h.types.expectAssignable_carries value c.decl.result).seq leaveNothing_carries

theorem access_carries {vars vars' : List Variable}
    (hvars : List.Forall₂ (Variable.Renamed r.type) vars vars') (a : Access) (index : Nat) :
    r.Carries (fun l l' => l' = l.map r.type) (c.access a vars index)
      (c'.access a vars' index) := by
  have hvar := rel_getElem?_of_forall₂ hvars index
  unfold access
  generalize vars[index]? = v at hvar ⊢
  generalize vars'[index]? = v' at hvar ⊢
  cases hvar with
  | none => exact .refuse
  | @some v v' hv =>
    cases a with
    | load =>
      dsimp only
      rw [hv]
      exact h.types.valueOf_carries v.type
    | store =>
      dsimp only
      rw [hv]
      refine Carries.pop.bind ?_
      rintro value _ rfl
      exact (h.types.expectAssignable_carries value v.type).seq (.pure rfl)
    | address =>
      dsimp only
      rw [hv]
      exact h.types.addressOf_carries v.type

/-- Rules of field accesses under other names.  Every access takes a reference to the owner. -/
theorem fieldAccess_carries (a : Access) (ref : FieldRef) :
    r.Carries (fun l l' => l' = l.map r.type) (c.fieldAccess a ref)
      (c'.fieldAccess a ⟨r.type ref.owner, ref.index⟩) := by
  have hfield := h.types.field ref.owner ref.index
  unfold fieldAccess
  dsimp only
  rw [h.types.referenceTo?_type]
  generalize c.types.field? ref.owner ref.index = f at hfield ⊢
  generalize c'.types.field? (r.type ref.owner) ref.index = f' at hfield ⊢
  cases hfield with
  | none => exact .refuse
  | @some f f' hf =>
    cases c.types.referenceTo? ref.owner with
    | none => exact .refuse
    | some ownerReference =>
      have howner {S : List TypeId → List TypeId → Prop} {x x' : Operands (List TypeId)}
          (hx : r.Carries S x x') : r.Carries S
            (do c.types.expectAssignable (← pop) ownerReference; x)
            (do c'.types.expectAssignable (← pop) (r.type ownerReference); x') := by
        refine Carries.pop.bind ?_
        rintro owner _ rfl
        exact (h.types.expectAssignable_carries owner ownerReference).seq hx
      dsimp only [Option.map_some]
      rw [hf.type]
      cases a with
      | load => exact howner (h.types.valueOf_carries f.type)
      | store =>
        refine (h.types.refuseAddress_carries .stored f.type).seq (Carries.pop.bind ?_)
        rintro value _ rfl
        exact howner ((h.types.expectAssignable_carries value f.type).seq (.pure rfl))
      | address => exact howner (h.types.addressOf_carries f.type)

theorem constructed?_agree {ε δ : Type} {callee callee' : FunctionDecl}
    (hcallee : callee.Renamed r.type callee') : Agree (fun o o' => o' = o.map r.type)
      (c.constructed? callee : Checked ε _) (c'.constructed? callee' : Checked δ _) := by
  have hparams := hcallee.forall₂_params
  unfold constructed?
  rw [hcallee.result]
  generalize callee.params = params at hparams ⊢
  generalize callee'.params = params' at hparams ⊢
  cases hparams with
  | nil => exact .pure rfl
  | @cons this this' _ _ hthis _ =>
    dsimp only
    rw [hthis]
    refine (h.types.referent?_agree this.type).bind ?_
    rintro target _ rfl
    refine .pure ?_
    rw [apply_ite (Option.map r.type)]
    exact if_congr (r.type_eq_primitive .void) rfl rfl

theorem funcOp_carries (op : FuncOp) (func : FuncRef) :
    r.Carries (fun l l' => l' = l.map r.type) (c.funcOp op func) (c'.funcOp op func) := by
  have hfunction := h.program.function? func
  unfold funcOp
  generalize c.program.function? func = f at hfunction ⊢
  generalize c'.program.function? func = f' at hfunction ⊢
  cases hfunction with
  | none => exact .refuse
  | @some callee callee' hcallee =>
    dsimp only
    cases op with
    | call =>
      dsimp only
      rw [hcallee.params, hcallee.result]
      exact (h.types.popArguments_carries callee.paramTypes).seq
        (h.types.valueOf_carries callee.result)
    | newObject =>
      refine (Carries.ask (constructed?_agree h hcallee)).bind ?_
      rintro object _ rfl
      cases object with
      | none => exact .refuse
      | some object =>
        dsimp only [Option.map_some]
        rw [hcallee.params, ← List.map_tail]
        exact (h.types.popArguments_carries callee.paramTypes.tail).seq
          (h.types.valueOf_carries object)
    | loadFunction =>
      dsimp only
      rw [hcallee.signature]
      exact h.types.stackTypeOf_carries callee.signature

theorem typeOp_carries (op : TypeOp) (type : TypeId) :
    r.Carries (fun l l' => l' = l.map r.type) (c.typeOp op type)
      (c'.typeOp op (r.type type)) := by
  have hload {m m' : Operands TypeId} (hm : r.Carries (fun a b => b = r.type a) m m') :
      r.Carries (fun l l' => l' = l.map r.type)
        (do c.types.expectLocation (← m) type; c.types.valueOf type)
        (do c'.types.expectLocation (← m') (r.type type); c'.types.valueOf (r.type type)) := by
    refine hm.bind ?_
    rintro location _ rfl
    exact (h.types.expectLocation_carries location type).seq (h.types.valueOf_carries type)
  have hstore {m m' : Operands TypeId} (hm : r.Carries (fun a b => b = r.type a) m m')
      (value : TypeId) : r.Carries (fun l l' => l' = l.map r.type)
        (do c.types.expectLocation (← m) type; c.types.expectAssignable value type; return [])
        (do c'.types.expectLocation (← m') (r.type type)
            c'.types.expectAssignable (r.type value) (r.type type)
            return []) := by
    refine hm.bind ?_
    rintro location _ rfl
    refine (h.types.expectLocation_carries location type).seq ?_
    exact (h.types.expectAssignable_carries value type).seq (.pure rfl)
  cases op with
  | convert =>
    refine Carries.pop.bind ?_
    rintro operand _ rfl
    refine (Carries.require (r.isNumeric_type operand)).seq ?_
    exact (Carries.require (r.isConversionTarget_type type)).seq (h.types.valueOf_carries type)
  | loadIndirect => exact hload h.types.popReference_carries
  | storeIndirect =>
    refine (h.types.refuseAddress_carries .stored type).seq (Carries.pop.bind ?_)
    rintro value _ rfl
    exact hstore h.types.popReference_carries value
  | loadElement => exact popIndex_carries.seq (hload h.types.popContainer_carries)
  | storeElement =>
    refine (h.types.refuseAddress_carries .stored type).seq (Carries.pop.bind ?_)
    rintro value _ rfl
    exact popIndex_carries.seq (hstore h.types.popContainer_carries value)
  | elementAddress =>
    refine popIndex_carries.seq (h.types.popContainer_carries.bind ?_)
    rintro element _ rfl
    exact (h.types.expectLocation_carries element type).seq (h.types.addressOf_carries element)
  | callIndirect =>
    refine (Carries.ask (h.types.kind_agree type)).bind ?_
    rintro kind _ rfl
    cases kind with
    | function params result =>
      refine Carries.pop.bind ?_
      rintro callee _ rfl
      refine (h.types.expectAssignable_carries callee type).seq ?_
      exact (h.types.popArguments_carries params).seq (h.types.valueOf_carries result)
    | _ => exact .refuse

theorem test_carries (condition : Condition) :
    r.Carries (fun _ _ => True) (c.test condition) (c'.test condition) := by
  cases condition with
  | isTrue | isFalse =>
    refine Carries.pop.bind ?_
    rintro operand _ rfl
    refine (h.types.isNullable_carries operand).bind ?_
    rintro nullable _ rfl
    exact .require (by rw [r.isInteger_type])
  | equal | notEqual => exact h.types.popEqualityPair_carries
  | orderedUn _ => exact (popPair_carries r.isInteger_type).seq (.pure trivial)
  | ordered _ => exact (popPair_carries r.isNumeric_type).seq (.pure trivial)

/-- **The typing rules of an instruction and of the renamed one agree.** -/
theorem results_carries (instr : Instr) :
    r.Carries (fun l l' => l' = l.map r.type) (c.results instr)
      (c'.results (instr.rename r.type)) := by
  cases instr with
  | plain op => exact plain_carries h op
  | constant value =>
    refine .pure (congrArg (fun a => [a]) ?_)
    cases value with
    | int32 _ => exact (r.primitive .int32).symm
    | int64 _ => exact (r.primitive .int64).symm
    | float32 _ => exact (r.primitive .float32).symm
    | float64 _ => exact (r.primitive .float64).symm
  | argument a index => exact access_carries h h.decl.forall₂_params a index
  | localVar a index => exact access_carries h h.decl.forall₂_locals a index
  | field a ref => exact fieldAccess_carries h a ref
  | function op func => exact funcOp_carries h op func
  | typed op type => exact typeOp_carries h op type
  | jump _ => exact .pure rfl
  | branch condition _ => exact (test_carries h condition).seq (.pure rfl)

/-! ### Verification -/

omit h in
/-- Renaming changes no way out of an instruction. -/
theorem exits_rename {ρ : TypeId → TypeId} (instr : Instr) :
    (instr.rename ρ).exits = instr.exits := by
  cases instr <;> rfl

/-- A visit of the renamed instruction gives the renamed effect. -/
theorem visit_agree (instr : Instr) (s : OperandStack TypeId) :
    Agree (Visit.Mapped r.type) (c.visit instr s)
      (c'.visit (instr.rename r.type) (s.map r.type)) := by
  have hstep : Agree (fun a b => b = (a.1.map r.type, a.2.map r.type)) (c.step instr s)
      (c'.step (instr.rename r.type) (s.map r.type)) := by
    refine (results_carries h instr s).bind ?_
    rintro ⟨results, rest⟩ ⟨_, _⟩ ⟨hresults, hrest⟩
    cases hresults
    cases hrest
    refine .pure (Prod.ext ?_ (OperandStack.map_pushAll rest results).symm)
    exact congrArg (fun popped => (⟨popped, results.map r.type⟩ : Effect TypeId))
      (OperandStack.above_map s rest)
  refine hstep.bind ?_
  rintro ⟨effect, left⟩ _ rfl
  refine .pure ⟨rfl, ?_⟩
  rw [exits_rename, List.map_map]
  rfl

end TypingContext

/-- Stacks merge under other names as they do. -/
theorem TypeTable.Carried.mergeStacks_agree {r : TypeRenaming} {t t' : TypeTable}
    (h : Carried r t t') (recorded incoming : OperandStack TypeId) :
    Agree (fun m m' => m' = m.map r.type) (t.mergeStacks recorded incoming)
      (t'.mergeStacks (recorded.map r.type) (incoming.map r.type)) := by
  have hpairs : List.Forall₂ (fun x y => y = (r.type x.1, r.type x.2))
      (recorded.bottomUp.zip incoming.bottomUp)
      ((recorded.map r.type).bottomUp.zip (incoming.map r.type).bottomUp) := by
    rw [forall₂_eq_map_iff, OperandStack.bottomUp_map, OperandStack.bottomUp_map, List.zip_map]
    rfl
  unfold mergeStacks
  rw [OperandStack.size_map, OperandStack.size_map]
  refine .ite Iff.rfl (fun _ => ?_) fun _ => .error _ _
  refine Agree.bind (.mapM hpairs (S := fun a b => b = r.type a) ?_) fun joined _ hjoined => ?_
  · rintro ⟨a, b⟩ _ rfl
    refine (h.join?_agree a b).bind ?_
    rintro joined _ rfl
    cases joined with
    | none => exact .error _ _
    | some joined => exact .pure rfl
  · refine .pure ?_
    rw [OperandStack.map_ofBottomUp, forall₂_eq_map_iff.mp hjoined]

/-- The analyses of a function and of the function under other names run in lockstep. -/
theorem TypingContext.Carried.lockstep {r : TypeRenaming} {c c' : TypingContext}
    (h : Carried r c c') (func : FuncRef) :
    Analysis.Lockstep r.type (c.analysis func) (c'.analysis func) c.decl.body c'.decl.body where
  injective := r.injective
  size := by rw [h.decl.body, Array.size_map]
  transfer s hinstr hinstr' := by
    rw [h.decl.body, Array.getElem?_map, hinstr] at hinstr'
    cases hinstr'
    exact (visit_agree h _ s).widen
  merge _ recorded incoming := (h.types.mergeStacks_agree recorded incoming).widen

/-- The typed instruction with its types renamed. -/
def TypedInstr.rename (ρ : TypeId → TypeId) (i : TypedInstr) : TypedInstr :=
  ⟨i.instr.rename ρ, i.operands.map ρ, i.results.map ρ⟩

/-- The verified form of a function, up to remarks, with its types renamed. -/
structure TypedFunction.Renamed (ρ : TypeId → TypeId) (f f' : TypedFunction) : Prop where
  states : f'.states = f.states.map (Option.map (OperandStack.map ρ))
  instrs : f'.instrs = f.instrs.map (Option.map (TypedInstr.rename ρ))

/-- The verified form of a program, up to remarks, with its types renamed. -/
def TypedProgram.Renamed (ρ : TypeId → TypeId) (p p' : TypedProgram) : Prop :=
  ∀ func, Option.Rel (TypedFunction.Renamed ρ) (p.function? func) (p'.function? func)

/-- The typing read off a renamed solution is renamed. -/
theorem TypedFunction.renamed_ofSolution {ρ : TypeId → TypeId} {s s' : Solution TypeId}
    (h : s.Mapped ρ s') (func : FuncRef) (body : Array Instr) (report : Bool) :
    (ofSolution func body report s).Renamed ρ
      (ofSolution func (body.map (Instr.rename ρ)) report s') where
  states := h.states
  instrs := by
    have hpair (instr : Instr) (effect : Option (Effect TypeId)) :
        ((effect.map (Effect.map ρ)).map fun e =>
          (⟨instr.rename ρ, e.popped.reverse, e.pushed⟩ : TypedInstr)) =
        (effect.map fun e => ⟨instr, e.popped.reverse, e.pushed⟩).map (TypedInstr.rename ρ) := by
      cases effect with
      | none => rfl
      | some e => simp [TypedInstr.rename, Effect.map]
    simp only [ofSolution, h.effects, Array.toList_map, List.zip_map, List.map_map,
      List.map_toArray]
    refine congrArg List.toArray (List.map_congr_left fun pair _ => ?_)
    exact hpair pair.1 pair.2

namespace Program.Carried

variable {r : TypeRenaming} {p q : Program} (h : Carried r p q)

include h

/-- A function is verified under other names exactly if it is, with the renamed typing. -/
theorem verifyFunction_agree (config : VerifyConfig) (func : FuncRef) :
    Agree (TypedFunction.Renamed r.type) (p.verifyFunction config func)
      (q.verifyFunction config func) := by
  have hfunction := h.function? func
  unfold verifyFunction
  generalize p.function? func = f at hfunction ⊢
  generalize q.function? func = f' at hfunction ⊢
  cases hfunction with
  | none => exact .error _ _
  | @some decl decl' hdecl =>
    have hsize : decl'.body.size = decl.body.size := by rw [hdecl.body, Array.size_map]
    have hcontext : TypingContext.Carried r ⟨p, decl⟩ ⟨q, decl'⟩ := ⟨h, hdecl⟩
    dsimp only
    rw [hdecl.implementation, hsize, hdecl.labels]
    cases decl.implementation with
    | syscall _ => exact .pure ⟨by simp [TypedFunction.stub], by simp [TypedFunction.stub]⟩
    | code =>
      refine .ite Iff.rfl (fun _ => .error _ _) fun _ => ?_
      refine ((hcontext.lockstep func).solve decl.labels).bind fun s s' hs => .pure ?_
      rw [hdecl.body]
      exact TypedFunction.renamed_ofSolution hs func decl.body config.reportUnreachable

/-- **Both programs are verified, or neither is**, and then the verified forms of their functions
are the same up to names. -/
theorem verify_agree (config : VerifyConfig) :
    Agree (TypedProgram.Renamed r.type) (p.verify config) (q.verify config) := by
  refine Agree.bind (.mapM h.forall₂_moduleList
    (S := fun fs fs' => List.Forall₂ (TypedFunction.Renamed r.type) fs.toList fs'.toList) ?_) ?_
  · rintro ⟨_, m⟩ ⟨id, m'⟩ ⟨rfl, hm⟩
    refine Agree.bind (.mapM (forall₂_functionsOf hm id) ?_) fun fs fs' hfs => .pure hfs
    rintro ⟨_, f⟩ ⟨func, f'⟩ ⟨rfl, -⟩
    exact h.verifyFunction_agree config func
  · intro modules modules' hmodules
    refine .pure fun func => ?_
    have hmodule := rel_getElem?_of_forall₂ hmodules func.module.index
    rw [TypedProgram.function?, TypedProgram.function?, List.getElem?_toArray,
      List.getElem?_toArray]
    generalize modules[func.module.index]? = m at hmodule ⊢
    generalize modules'[func.module.index]? = m' at hmodule ⊢
    cases hmodule with
    | none => exact .none
    | some hm =>
      have hfunction := rel_getElem?_of_forall₂ hm func.index
      rwa [Array.getElem?_toList, Array.getElem?_toList] at hfunction

end Program.Carried

end StackCode
