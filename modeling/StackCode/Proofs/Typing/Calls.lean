import StackCode.Proofs.Types.Classes
import StackCode.Proofs.Typing.Simulation

/-!
# What calls take and leave

A call takes one operand for each parameter, and each operand may be stored in its parameter.  What
it leaves is a value of the result type.  The caller sees both as types on its operand stack, which
are not the declared types, but take the same slots.

## Main definitions

* `TypeTable.Leaves`: what a value of a type leaves on the stack.

## Main results

* `TypeTable.popArguments_takes`: the operands of a call fit the parameters.
* `TypeTable.Coherent.hasTotalSlots_leaves`: a result takes the same slots on the stack.
* `TypingContext.step_call`, `TypingContext.step_newObject`, `TypingContext.step_callIndirect`: what
  the three forms of calls take and leave.
-/

namespace StackCode

open Operands

namespace TypeTable

variable {t : TypeTable} {s r : OperandStack TypeId}

/-- What a value of a type leaves on the stack: nothing for `void`. -/
def Leaves (t : TypeTable) (type : TypeId) (results : List TypeId) : Prop :=
  (type = .void ∧ results = []) ∨
    (type ≠ .void ∧ ∃ stack, t.HasStack type stack ∧ results = [stack])

theorem valueOf_leaves {type : TypeId} {results : List TypeId}
    (h : t.valueOf type s = .ok (results, r)) : t.Leaves type results ∧ s = r := by
  unfold valueOf at h
  by_cases hvoid : type = .void
  · rw [if_pos hvoid] at h
    obtain ⟨rfl, rfl⟩ := pure_run_eq_ok.mp h
    exact ⟨.inl ⟨hvoid, rfl⟩, rfl⟩
  · rw [if_neg hvoid] at h
    obtain ⟨stack, _, hask, h⟩ := bind_run_eq_ok.mp h
    obtain ⟨hstack, rfl⟩ := ask_eq_ok.mp hask
    obtain ⟨rfl, rfl⟩ := pure_run_eq_ok.mp h
    exact ⟨.inr ⟨hvoid, stack, stackType_eq_ok.mp hstack, rfl⟩, rfl⟩

/-- A result takes the same slots on the stack. -/
theorem Coherent.hasTotalSlots_leaves (h : t.Coherent) {type : TypeId} {results : List TypeId}
    (hleaves : t.Leaves type results) {slots : Nat} (hslots : t.HasSlots type slots) :
    t.HasTotalSlots results slots := by
  rcases hleaves with ⟨rfl, rfl⟩ | ⟨-, stack, hstack, rfl⟩
  · have hzero : t.HasSlots .void 0 := ⟨_, h.hasLayout_primitive .void, rfl⟩
    rw [hslots.unique hzero]
    exact hasTotalSlots_nil
  · exact hasTotalSlots_singleton.mpr (h.hasSlots_stack hstack hslots)

/-- Null takes the slots of the reference it stands for. -/
theorem Coherent.hasTotalSlots_below (h : t.Coherent) {total : Nat} (hbelow : t.StackBelow s r)
    (htotal : t.HasTotalSlots r.bottomUp total) : t.HasTotalSlots s.bottomUp total := by
  refine HasTotalSlots.of_forall₂ (fun {a b slots} hab hb => ?_)
    (List.forall₂_reverse_iff.mpr hbelow) htotal
  cases hab with
  | refl => exact hb
  | null href =>
    rw [hb.unique (h.hasSlots_reference href)]
    exact ⟨_, h.hasLayout_primitive .null, rfl⟩

theorem popEach_takes {params : List TypeId} {u : Unit}
    (h : (params.forM fun param => do t.expectAssignable (← pop) param) s = .ok (u, r)) :
    ∃ values, s.topDown = values ++ r.topDown ∧ List.Forall₂ t.Assignable values params := by
  induction params generalizing s with
  | nil =>
    obtain ⟨-, rfl⟩ := pure_run_eq_ok.mp h
    exact ⟨[], rfl, .nil⟩
  | cons param params ih =>
    obtain ⟨_, mid, hfirst, hrest⟩ := bind_run_eq_ok.mp h
    obtain ⟨value, below, hpop, hexpect⟩ := bind_run_eq_ok.mp hfirst
    obtain ⟨hvalue, rfl⟩ := expectAssignable_eq_ok.mp hexpect
    obtain rfl := pop_eq_ok.mp hpop
    obtain ⟨values, hvalues, hfit⟩ := ih hrest
    refine ⟨value :: values, ?_, .cons hvalue hfit⟩
    rw [OperandStack.push, hvalues, List.cons_append]

/-- The operands of a call fit the parameters. -/
theorem popArguments_takes {params : List TypeId} {u : Unit}
    (h : t.popArguments params s = .ok (u, r)) :
    ∃ values, s.bottomUp = r.bottomUp ++ values ∧ List.Forall₂ t.Assignable values params := by
  obtain ⟨depth, mid, hget, h⟩ := bind_run_eq_ok.mp h
  cases hget
  obtain ⟨_, mid, hrequire, h⟩ := bind_run_eq_ok.mp h
  obtain ⟨-, rfl⟩ := require_eq_ok.mp hrequire
  obtain ⟨values, hvalues, hfit⟩ := popEach_takes h
  refine ⟨values.reverse, ?_, ?_⟩
  · rw [OperandStack.bottomUp, hvalues, List.reverse_append]
    rfl
  · have hreverse := List.forall₂_reverse_iff.mpr hfit
    rwa [List.reverse_reverse] at hreverse

section FunctionTypes

variable {type function a b : TypeId} {params params' : List TypeId} {result result' : TypeId}

/-- One type stands for both. -/
def SameClass (t : TypeTable) (a b : TypeId) : Prop :=
  ∃ standIn, t.HasClass a standIn ∧ t.HasClass b standIn

/-- What may be stored in a location depends on the class of its type. -/
theorem Assignable.of_sameClass {source : TypeId} (h : t.Assignable source a)
    (hclass : t.SameClass a b) : t.Assignable source b := by
  obtain ⟨standIn, ha, hcases⟩ := h
  obtain ⟨standIn', ha', hb⟩ := hclass
  exact ⟨standIn, ha.unique ha' ▸ hb, hcases⟩

theorem Coherent.hasSlots_of_sameClass (h : t.Coherent) (hclass : t.SameClass a b) {slots : Nat}
    (hslots : t.HasSlots a slots) : t.HasSlots b slots := by
  obtain ⟨standIn, ha, hb⟩ := hclass
  exact h.hasSlots_of_class hb ha hslots

/-- What may be stored in a location of a function type is the class of the type. -/
theorem Coherent.hasClass_of_assignable (h : t.Coherent)
    (hkind : t.HasKind type (.function params result)) (hassign : t.Assignable function type) :
    t.HasClass type function := by
  obtain ⟨standIn, hclass, hcases⟩ := hassign
  have hstandIn := h.hasKind_class hkind hclass
  have hprimitive : ∀ p : Primitive, standIn ≠ p.id := by
    rintro p rfl
    cases hstandIn.unique (h.primitives p)
  rcases hcases with rfl | ⟨-, target, htarget⟩ | ⟨-, hint8 | hint16⟩
  · exact hclass
  · cases hstandIn.unique htarget
  · exact absurd hint8 (hprimitive .int8)
  · exact absurd hint16 (hprimitive .int16)

/-- Function types of one class have parameters and results of one class. -/
theorem Coherent.sameClass_of_function (h : t.Coherent)
    (ha : t.HasKind a (.function params result)) (hb : t.HasKind b (.function params' result'))
    (hclass : t.SameClass a b) :
    List.Forall₂ t.SameClass params params' ∧ t.SameClass result result' := by
  obtain ⟨standIn, hclassA, hclassB⟩ := hclass
  obtain ⟨hresult, hparams⟩ := madeBelow_function.mp (h.madeBelow ha)
  obtain ⟨hresult', hparams'⟩ := madeBelow_function.mp (h.madeBelow hb)
  have hsame := (h.hasKind_class ha hclassA).unique (h.hasKind_class hb hclassB)
  simp only [normalForm, normalize, TypeKind.function.injEq] at hsame
  constructor
  · have hmap : List.Forall₂ Eq (params.map t.standIn) (params'.map t.standIn) := by
      rw [List.forall₂_eq_eq_eq]
      exact hsame.1
    rw [List.forall₂_map_left_iff, List.forall₂_map_right_iff] at hmap
    refine List.forall₂_iff_zip.mpr ⟨hmap.length_eq, fun {param param'} hmem => ?_⟩
    obtain ⟨hparam, hparam'⟩ := List.of_mem_zip hmem
    have hstandIn := hasClass_standIn (hparams' param' hparam')
    rw [← (List.forall₂_iff_zip.mp hmap).2 hmem] at hstandIn
    exact ⟨_, hasClass_standIn (hparams param hparam), hstandIn⟩
  · have hstandIn := hasClass_standIn hresult'
    rw [← hsame.2] at hstandIn
    exact ⟨_, hasClass_standIn hresult, hstandIn⟩

end FunctionTypes

end TypeTable

namespace TypingContext

variable {c : TypingContext} {s out : OperandStack TypeId} {effect : Effect TypeId}
  {callee : FunctionDecl} {func : FuncRef} {type : TypeId}

/-- What a step takes is what its rule takes off the stack. -/
theorem step_eq_ok {instr : Instr} (h : c.step instr s = .ok (effect, out)) :
    ∃ rest, c.results instr s = .ok (effect.pushed, rest) ∧
      ∀ values, s.bottomUp = rest.bottomUp ++ values → effect.popped.reverse = values := by
  obtain ⟨⟨results, rest⟩, hresults, hleft⟩ := bind_eq_ok.mp h
  cases pure_eq_ok.mp hleft
  refine ⟨rest, hresults, fun values hvalues => ?_⟩
  have htop : s.topDown = values.reverse ++ rest.topDown := by
    have hreverse := congrArg List.reverse hvalues
    simpa [OperandStack.bottomUp] using hreverse
  have hcount : s.size - rest.size = values.reverse.length := by
    simp [OperandStack.size, htop]
  simp only [OperandStack.above, hcount, htop, List.take_left, List.reverse_reverse]

/-- A call takes what fits the parameters of the function. -/
theorem step_call (hf : c.program.function? func = some callee)
    (h : c.step (.function .call func) s = .ok (effect, out)) :
    List.Forall₂ c.types.Assignable effect.popped.reverse callee.paramTypes ∧
      c.types.Leaves callee.result effect.pushed := by
  obtain ⟨rest, hresults, hpopped⟩ := step_eq_ok h
  simp only [results, funcOp, hf] at hresults
  obtain ⟨_, mid, hargs, hvalue⟩ := bind_run_eq_ok.mp hresults
  obtain ⟨hleaves, rfl⟩ := TypeTable.valueOf_leaves hvalue
  obtain ⟨values, hvalues, hfit⟩ := TypeTable.popArguments_takes hargs
  exact ⟨hpopped values hvalues ▸ hfit, hleaves⟩

/-- A construction takes what fits the parameters after the first, which is a reference to the
object it leaves. -/
theorem step_newObject (hf : c.program.function? func = some callee)
    (h : c.step (.function .newObject func) s = .ok (effect, out)) :
    ∃ this others object, callee.params = this :: others ∧ callee.result = .void ∧
      c.types.HasKind this.type (.reference object) ∧
      List.Forall₂ c.types.Assignable effect.popped.reverse (others.map Variable.type) ∧
      c.types.Leaves object effect.pushed := by
  obtain ⟨rest, hresults, hpopped⟩ := step_eq_ok h
  simp only [results, funcOp, hf] at hresults
  obtain ⟨object?, mid, hask, hresults⟩ := bind_run_eq_ok.mp hresults
  obtain ⟨hobject, rfl⟩ := ask_eq_ok.mp hask
  cases hparams : callee.params with
  | nil =>
    simp only [constructed?, hparams] at hobject
    cases pure_eq_ok.mp hobject
    cases hresults
  | cons this others =>
    simp only [constructed?, hparams] at hobject
    obtain ⟨target?, htarget, hobject⟩ := bind_eq_ok.mp hobject
    obtain ⟨kind, hkind, rfl⟩ := TypeTable.referent?_eq_ok.mp htarget
    have hobject := pure_eq_ok.mp hobject
    by_cases hvoid : callee.result = .void
    · rw [if_pos hvoid] at hobject
      cases kind with
      | reference object =>
        obtain rfl : some object = object? := hobject
        obtain ⟨_, mid, hargs, hvalue⟩ := bind_run_eq_ok.mp hresults
        obtain ⟨hleaves, rfl⟩ := TypeTable.valueOf_leaves hvalue
        obtain ⟨values, hvalues, hfit⟩ := TypeTable.popArguments_takes hargs
        refine ⟨this, others, object, rfl, hvoid, hkind, ?_, hleaves⟩
        rw [FunctionDecl.paramTypes, hparams, List.map_cons, List.tail_cons] at hfit
        exact hpopped values hvalues ▸ hfit
      | _ =>
        obtain rfl : none = object? := hobject
        cases hresults
    · rw [if_neg hvoid] at hobject
      subst hobject
      cases hresults

/-- An indirect call takes a function on top of what fits the parameters of the function type. -/
theorem step_callIndirect (h : c.step (.typed .callIndirect type) s = .ok (effect, out)) :
    ∃ params result values function, c.types.HasKind type (.function params result) ∧
      effect.popped.reverse = values ++ [function] ∧ c.types.Assignable function type ∧
      List.Forall₂ c.types.Assignable values params ∧ c.types.Leaves result effect.pushed := by
  obtain ⟨rest, hresults, hpopped⟩ := step_eq_ok h
  simp only [results, typeOp] at hresults
  obtain ⟨kind, mid, hask, hresults⟩ := bind_run_eq_ok.mp hresults
  obtain ⟨hkind, rfl⟩ := ask_eq_ok.mp hask
  cases kind with
  | function params result =>
    obtain ⟨function, below, hpop, hcall⟩ := bind_run_eq_ok.mp hresults
    obtain ⟨_, mid, hexpect, hcall⟩ := bind_run_eq_ok.mp hcall
    obtain ⟨hfunction, rfl⟩ := TypeTable.expectAssignable_eq_ok.mp hexpect
    obtain ⟨_, mid, hargs, hvalue⟩ := bind_run_eq_ok.mp hcall
    obtain ⟨hleaves, rfl⟩ := TypeTable.valueOf_leaves hvalue
    obtain ⟨values, hvalues, hfit⟩ := TypeTable.popArguments_takes hargs
    refine ⟨params, result, values, function, TypeTable.kind_eq_ok.mp hkind, hpopped _ ?_,
      hfunction, hfit, hleaves⟩
    rw [pop_eq_ok.mp hpop, OperandStack.bottomUp_push, hvalues, List.append_assoc]
  | _ => cases hresults

end TypingContext

end StackCode
