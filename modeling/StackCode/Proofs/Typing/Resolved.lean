import StackCode.Proofs.Types.Exhaustion
import StackCode.Proofs.Typing.Outcome

/-!
# Names that typing finds

Typing looks up the functions, variables and fields that instructions name, and the type of
references to a place whose address is taken.  Binding has found the names, and there are references
to every place that values can be stored in, with one exception.  Binding refuses variables of type
`void`, but lets a local have the type `null`; there are no references to `null`, so taking the
address of such a local is refused as unbound, although everything it names is there.

## Main definitions

* `FunctionDecl.TakesNullAddress`: the instructions with an address that has no type.

## Main results

* `Program.BoundCode.resolves_iff`: what a bound instruction names is there, with that exception.
* `Program.BoundCode.step_unbound_iff`: the instructions that are refused as unbound.
* `Program.unbound_only_null_address`: what verification refuses as unbound.
-/

namespace StackCode

/-- The instruction takes the address of a local of type `null`. -/
def FunctionDecl.TakesNullAddress (decl : FunctionDecl) (index : Nat) : Prop :=
  ∃ k v, decl.body[index]? = some (.localVar .address k) ∧ decl.locals[k]? = some v ∧
    v.type = .null

namespace TypeTable.Coherent

variable {t : TypeTable} (h : t.Coherent)

include h

/-- There is no type of references to `null`. -/
theorem referenceTo?_null : t.referenceTo? .null = none := by
  obtain ⟨e, he, hkind⟩ := h.primitives .null
  have hnone : e.reference.isSome = false := by rw [(h.sound he).addressable, hkind]; rfl
  exact Option.bind_eq_none_iff.mpr fun e' he' => by
    cases he.symm.trans he'
    simpa using hnone

theorem addressOf_null (s : OperandStack TypeId) :
    t.addressOf .null s = .error (.refused .unbound) := by
  have hcarries : (t.carriesAddress .null : Checked Violation Bool) = .ok false :=
    bind_eq_ok.mpr ⟨_, kind_eq_ok.mpr (h.primitives .null), rfl⟩
  simp only [addressOf, Operands.ask, hcarries, h.referenceTo?_null]
  rfl

end TypeTable.Coherent

namespace Program

open TypeTable

variable {p : Program} {m : ModuleDecl} {func : FuncRef} {decl : FunctionDecl}

/-- A parameter has values that can be stored, as the function type has checked. -/
theorem BoundSignature.value_of_mem_params (h : p.BoundSignature decl) (htypes : p.types.Coherent)
    {v : Variable} (hv : v ∈ decl.params) : v.type ≠ .void ∧ v.type ≠ .null := by
  obtain ⟨e, he, hkind⟩ := h.signature
  exact htypes.value_of_hasKind ⟨e, he, hkind⟩ (List.mem_map_of_mem hv)

section Instructions

variable {index : Nat} {instr : Instr} (h : p.BoundCode m func decl) (htypes : p.types.Built)
  (hsignature : p.BoundSignature decl) (hinstr : decl.body[index]? = some instr)

include h htypes hsignature hinstr

/-- What a bound instruction names is there, unless it takes the address of a local of type
`null`. -/
theorem BoundCode.resolves_iff :
    (TypingContext.mk p decl).Resolves instr ↔ ¬ decl.TakesNullAddress index := by
  have hbound := h.instr hinstr
  cases instr with
  | argument a k =>
    have hlt : k < decl.params.length := of_decide_eq_true (demand_eq_ok.mp hbound)
    refine iff_of_true ⟨decl.params[k], List.getElem?_eq_getElem hlt, fun _ => ?_⟩ ?_
    · exact hsignature.value_of_mem_params htypes.coherent (List.getElem_mem hlt)
    · rintro ⟨_, _, hother, -⟩
      cases hinstr.symm.trans hother
  | localVar a k =>
    have hlt : k < decl.locals.length := of_decide_eq_true (demand_eq_ok.mp hbound)
    have hv : decl.locals[k]? = some decl.locals[k] := List.getElem?_eq_getElem hlt
    have hvoid := (hsignature.vars _ (List.mem_append_right _ (List.getElem_mem hlt))).2
    constructor
    · rintro ⟨v, hv, hvalue⟩ ⟨k', v', hinstr', hv', hnull⟩
      cases hinstr.symm.trans hinstr'
      cases hv.symm.trans hv'
      exact (hvalue rfl).2 hnull
    · intro hnot
      refine ⟨_, hv, ?_⟩
      rintro rfl
      exact ⟨hvoid, fun hnull => hnot ⟨k, _, hinstr, hv, hnull⟩⟩
  | field a ref =>
    obtain ⟨field, hfield⟩ := Option.isSome_iff_exists.mp (demand_eq_ok.mp hbound)
    obtain ⟨_, s, -, hs, hmem⟩ := field?_eq_some hfield
    refine iff_of_true ⟨field, hfield, fun _ => htypes.value_of_mem hs hmem⟩ ?_
    rintro ⟨_, _, hother, -⟩
    cases hinstr.symm.trans hother
  | function op callee =>
    refine iff_of_true (h.exists_callee hinstr) ?_
    rintro ⟨_, _, hother, -⟩
    cases hinstr.symm.trans hother
  | _ =>
    refine iff_of_true trivial ?_
    rintro ⟨_, _, hother, -⟩
    cases hinstr.symm.trans hother

variable (hbound : (TypingContext.mk p decl).Bound) {s : OperandStack TypeId}

include hbound

/-- **The instructions that are refused as unbound**, on a stack of known types: those that take the
address of a local of type `null`. -/
theorem BoundCode.step_unbound_iff (hs : p.types.Knows s.topDown) :
    (TypingContext.mk p decl).step instr s = .error (.refused .unbound) ↔
      decl.TakesNullAddress index := by
  constructor
  · intro hstep
    by_contra hnot
    have hresolves := (h.resolves_iff htypes hsignature hinstr).mpr hnot
    have hends := hbound.step_expected true (h.lt_size hinstr) (fun _ => hresolves) hs
    cases hends.cause hstep
  · rintro ⟨k, v, hinstr', hv, hnull⟩
    cases hinstr.symm.trans hinstr'
    have hresults : (TypingContext.mk p decl).results (.localVar .address k) s =
        .error (.refused .unbound) := by
      simp only [TypingContext.results, TypingContext.access, hv, hnull]
      exact htypes.coherent.addressOf_null s
    rw [TypingContext.step, hresults]
    rfl

end Instructions

/-- **What verification refuses as unbound**, in a bound program with a table that has ids left: an
instruction that control reaches and that takes the address of a local of type `null`.  A body with
such an instruction is not accepted. -/
theorem unbound_only_null_address (config : VerifyConfig) (htypes : p.types.Reached)
    (hids : p.types.size < wordLimit) (hbind : p.bind = .ok ())
    (hf : p.function? func = some decl) :
    (∀ e, p.verifyFunction config func = .error (.refused e) → e.violation = .unbound →
      ∃ i, e = .located func i .unbound ∧ Relation.ReflTransGen decl.Edge 0 i ∧
        decl.TakesNullAddress i) ∧
    (decl.implementation = .code → ∀ i, Relation.ReflTransGen decl.Edge 0 i →
      decl.TakesNullAddress i → ∃ e, p.verifyFunction config func = .error (.refused e)) := by
  have hbuilt := (reached_iff_built hids).mp htypes
  have hbound := TypingContext.bound_of_bind hbuilt.coherent hbind hf
  have hsignature := boundSignature_of_bind hbind hf
  constructor
  · -- of the steps of the body, only those that take such an address are refused as unbound
    have hends : Ends (fun _ => True) (Fault.Refuses fun e => e.violation = .unbound →
        ∃ i, e = .located func i .unbound ∧ Relation.ReflTransGen decl.Edge 0 i ∧
          decl.TakesNullAddress i) (p.verifyFunction config func) := by
      refine (verifyFunction_ends_of_step ?_ ?_ hbind hf).weaken fun _ _ _ => trivial
      · rintro index v hv rfl
        cases hv
      · intro m index instr s hcode hinstr hpath hs
        refine Ends.iff_forall.mpr ⟨fun left hleft => ?_, fun fault hfault => ?_⟩
        · exact ((hbound.step_ends (hcode.lt_size hinstr) hs).result hleft).2.2
        · have hrefused := (hbound.step_ends (hcode.lt_size hinstr) hs).cause hfault
          cases fault with
          | dangling type => exact hrefused
          | refused v =>
            rintro rfl
            exact ⟨index, rfl, hpath,
              (hcode.step_unbound_iff hbuilt hsignature hinstr hbound hs).mp hfault⟩
    exact fun e he => hends.cause he
  · intro hcode i hpath htakes
    obtain ⟨m, hm, hdecl⟩ := function?_eq_some.mp hf
    have hbody := boundCode_of_bind hbind hm hdecl hcode
    have hends : Ends _ _ (p.verifyFunction config func) :=
      verifyFunction_ends hbuilt.coherent hbind hf
    rcases hends.ok_or_refuse with ⟨typed, hverify, hknows⟩ | ⟨e, he, -⟩
    · -- an accepted body has a stack for the instruction, and a step from it
      have hcovers := verifyFunction_covers hf hcode hverify
      obtain ⟨s, hs⟩ := TypedFunction.isReachable_eq_true.mp
        ((hcovers.isReachable_iff hbody.nonempty).mpr hpath)
      obtain ⟨k, v, hinstr, -⟩ := id htakes
      obtain ⟨effect, out, hstep, -⟩ := hcovers.reached hinstr hs
      have hrefused := (hbody.step_unbound_iff hbuilt hsignature hinstr hbound
        (hknows i s hs)).mpr htakes
      cases hstep.symm.trans hrefused
    · exact ⟨e, he⟩

/-- A function that takes the address of a local of type `null` and drops it. -/
def nullPlace : FunctionDecl where
  name := "take"
  params := []
  locals := [⟨"place", .null⟩]
  result := .void
  signature := ⟨24⟩
  labels := #[]
  body := #[.localVar .address 0, .plain .pop, .plain .ret]
  implementation := .code
  zeroInit := false

def nullPlaces : Program where
  types := (TypeTable.initial.function [] .void).1
  modules := #[⟨"main", [], #[nullPlace], none⟩]

theorem nullPlaces_reached : nullPlaces.types.Reached :=
  Built.reached (.function .initial _ _) (by decide)

/-- The program is bound, and its function is refused as unbound. -/
theorem nullPlaces_unbound : nullPlaces.types.Reached ∧ nullPlaces.types.size < wordLimit ∧
    nullPlaces.bind = .ok () ∧ nullPlaces.function? ⟨⟨0⟩, 0⟩ = some nullPlace ∧
    nullPlaces.verifyFunction {} ⟨⟨0⟩, 0⟩ =
      .error (.refused (.located ⟨⟨0⟩, 0⟩ 0 .unbound)) := by
  exact ⟨nullPlaces_reached, by decide, by cbv, rfl, by cbv⟩

/-- The refusal is for the address that the first instruction takes. -/
theorem nullPlaces_refused :
    nullPlaces.types.Reached ∧ nullPlaces.types.size < wordLimit ∧
    (∃ i, VerifyError.located ⟨⟨0⟩, 0⟩ 0 .unbound = .located ⟨⟨0⟩, 0⟩ i .unbound ∧
      Relation.ReflTransGen nullPlace.Edge 0 i ∧ nullPlace.TakesNullAddress i) ∧
    ∃ e, nullPlaces.verifyFunction {} ⟨⟨0⟩, 0⟩ = .error (.refused e) := by
  have hids : nullPlaces.types.size < wordLimit := by decide
  have hbind : nullPlaces.bind = .ok () := by cbv
  have hverify : nullPlaces.verifyFunction {} ⟨⟨0⟩, 0⟩ =
      .error (.refused (.located ⟨⟨0⟩, 0⟩ 0 .unbound)) := by cbv
  have hf : nullPlaces.function? ⟨⟨0⟩, 0⟩ = some nullPlace := rfl
  obtain ⟨honly, hrefuses⟩ := unbound_only_null_address {} nullPlaces_reached hids hbind hf
  exact ⟨nullPlaces_reached, hids, honly _ hverify rfl,
    hrefuses rfl 0 .refl ⟨0, _, rfl, rfl, rfl⟩⟩

end Program

end StackCode
