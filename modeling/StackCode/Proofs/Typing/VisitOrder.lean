import Mathlib.Tactic.IntervalCases
import StackCode.Proofs.Typing.Certificate

/-!
# The order of visits and the verdict

A body with a certificate can still be rejected.  An instruction that looks behind an operand
refuses null, and whether the solver visits it while null is all that has arrived depends on the
order of the visits: swapping the arms of a conditional can change the verdict.  This is the only
way in which the order matters.  Where no path brings null to such an operand, every order of visits
accepts a body that has a certificate, and all orders record the same stacks.

## Main definitions

* `TypingContext.Outcome`: the ways in which typing a body can end, over all orders of visits.
* `TypingContext.RefusesNull`: a body is rejected for looking behind null.
* `TypingContext.MeetsNull`: some path brings null to an instruction that looks behind it.

## Main results

* `Program.nullFirst_rejected`: a body with a certificate that is rejected.
* `Program.verdict_of_certificate`: how far a certificate decides the verdict.
-/

namespace StackCode

open Progress

/-- Assignments that lie below each other are the same. -/
theorem TypeTable.StatesBelow.antisymm {t : TypeTable}
    {states states' : Array (Option (OperandStack TypeId))} (hsize : states.size = states'.size)
    (h : t.StatesBelow states states') (h' : t.StatesBelow states' states) : states = states' := by
  refine Array.ext hsize fun i hi hi' => ?_
  have hleft := Array.getElem?_eq_getElem hi
  have hright := Array.getElem?_eq_getElem hi'
  rcases hs : states[i] with _ | s
  · rcases hs' : states'[i] with _ | s'
    · rfl
    · obtain ⟨s, hs'', -⟩ := h' i s' (hs' ▸ hright)
      rw [hleft, hs] at hs''
      cases hs''
  · obtain ⟨s', hs', hbelow⟩ := h i s (hs ▸ hleft)
    obtain ⟨s'', hs'', hbelow'⟩ := h' i s' hs'
    rw [hleft, hs] at hs''
    cases hs''
    rw [hright] at hs'
    rw [Option.some.inj hs', hbelow.antisymm hbelow']

namespace TypingContext

variable {c : TypingContext} {func : FuncRef} {assigned : Array (Option (OperandStack TypeId))}

/-- The ways in which typing the body can end, with the instructions visited in any order. -/
def Outcome (c : TypingContext) (func : FuncRef)
    (result : Except (Fault VerifyError) (Progress TypeId)) : Prop :=
  Runs (c.analysis func) c.decl.body c.decl.labels (start c.decl.body.size) result

/-- The error says that an instruction looks behind an operand that is null, on a stack below the
one assigned to the instruction. -/
def RefusesNull (c : TypingContext) (func : FuncRef)
    (assigned : Array (Option (OperandStack TypeId))) (e : Fault VerifyError) : Prop :=
  ∃ i instr s found depth expected, c.decl.body[i]? = some instr ∧
    assigned[i]? = some (some s) ∧ c.types.StackBelow found s ∧
    instr.addressOperand? = some (depth, expected) ∧ found.topDown[depth]? = some .null ∧
    e = .refused (.located func i (.typeMismatch expected .null))

/-- Some path comes to an instruction with null for the operand the instruction looks behind. -/
def MeetsNull (c : TypingContext) : Prop :=
  ∃ i instr s depth expected, c.Reaches i s ∧ c.decl.body[i]? = some instr ∧
    instr.addressOperand? = some (depth, expected) ∧ s.topDown[depth]? = some .null

theorem Certificate.nonempty (h : c.Certificate assigned) : 0 < c.decl.body.size :=
  h.size_eq ▸ (Array.getElem?_eq_some_iff.mp h.start).1

/-- An instruction passes if its step succeeds and arrives. -/
theorem Passes.of_step {i : Nat} {instr : Instr} {s o : OperandStack TypeId} {e : Effect TypeId}
    (hstep : c.step instr s = .ok (e, o))
    (harrives : ∀ exit ∈ instr.exits,
      Arrives c.types.StackBelow c.decl.body c.decl.labels assigned i exit o) :
    c.Passes assigned i instr s := by
  refine ⟨_, visit_eq_ok.mpr ⟨e, o, hstep, rfl⟩, fun exit out hmem => ?_⟩
  obtain ⟨exit, hexit, heq⟩ := List.mem_map.mp hmem
  cases heq
  exact harrives exit hexit

/-- Below a certificate, the rule of an instruction fails only if it looks behind null. -/
theorem Certificate.nullAccess_of_fails (hprim : c.types.HasPrimitives)
    (h : c.Certificate assigned) {i : Nat} {stack : OperandStack TypeId} {e : Fault VerifyError}
    (hfails : FailsUnder (c.analysis func) c.types.StackBelow c.decl.body assigned i stack e) :
    ∃ instr s depth expected, c.decl.body[i]? = some instr ∧ assigned[i]? = some (some s) ∧
      c.types.StackBelow stack s ∧ instr.addressOperand? = some (depth, expected) ∧
      stack.topDown[depth]? = some .null ∧
      e = .refused (.located func i (.typeMismatch expected .null)) := by
  obtain ⟨instr, s, hinstr, hs, hbelow, hfail⟩ := hfails
  obtain ⟨v, hv, -⟩ := h.passes hinstr hs
  obtain ⟨effect, out, hstep, -⟩ := visit_eq_ok.mp hv
  have hvisit : (c.visit instr stack).widen (.located func i) = .error e := hfail
  rcases c.step_below hprim hbelow hstep with
    ⟨effect', out', hok, -⟩ | ⟨e', herror, depth, expected, haddress, hnull, rfl⟩
  · rw [visit_eq_ok.mpr ⟨effect', out', hok, rfl⟩] at hvisit
    cases hvisit
  · refine ⟨instr, s, depth, expected, hinstr, hs, hbelow, haddress, hnull, ?_⟩
    rw [visit, herror] at hvisit
    cases hvisit
    rfl

/-- **Below a certificate** every order of visits ends in a certificate, or with an instruction that
looks behind null. -/
theorem Certificate.outcome (hprim : c.types.HasPrimitives) (h : c.Certificate assigned)
    {result : Except (Fault VerifyError) (Progress TypeId)} (hrun : c.Outcome func result) :
    (∃ q, result = .ok q ∧ c.Certificate q.states ∧ c.types.StatesBelow q.states assigned) ∨
      ∃ e, result = .error e ∧ c.RefusesNull func assigned e := by
  have hupper := h.upperSolution func hprim
  rcases Runs.under (P := fun _ => True) hupper (fun _ _ => trivial) (under_start hupper) trivial
    hrun with ⟨q, rfl, hunder, -⟩ | ⟨q, i, found, e, -, -, hfails, rfl⟩
  · exact .inl ⟨q, rfl, certificate_of_fixpoint h.nonempty (Runs.fixpoint (c.bounds func) hrun),
      hunder⟩
  · obtain ⟨instr, s, depth, expected, hfound⟩ := h.nullAccess_of_fails hprim hfails
    exact .inr ⟨e, rfl, i, instr, s, found, depth, expected, hfound⟩

/-- All orders of visits that accept a body record the same stacks.  Each run stays below what the
other ends with. -/
theorem states_eq_of_outcome (hprim : c.types.HasPrimitives) (hpos : 0 < c.decl.body.size)
    {q q' : Progress TypeId} (h : c.Outcome func (.ok q)) (h' : c.Outcome func (.ok q')) :
    q.states = q'.states := by
  have hq := certificate_of_fixpoint hpos (Runs.fixpoint (c.bounds func) h)
  have hq' := certificate_of_fixpoint hpos (Runs.fixpoint (c.bounds func) h')
  have below : ∀ {r r' : Progress TypeId}, c.Certificate r'.states → c.Outcome func (.ok r) →
      c.types.StatesBelow r.states r'.states := by
    intro r r' hr' hrun
    rcases hr'.outcome hprim hrun with ⟨r, hr, -, hbelow⟩ | ⟨e, he, -⟩
    · cases hr
      exact hbelow
    · cases he
  exact (below hq' h).antisymm (hq.size_eq.trans hq'.size_eq.symm) (below hq h')

/-- Where no path meets null, every recorded stack has a path below it. -/
theorem recorded_above_path (hprim : c.types.HasPrimitives) (hnull : ¬ c.MeetsNull) {index : Nat}
    {rest : List Nat} {p q : Progress TypeId}
    (hp : Recorded (fun i s => ∃ s', c.Reaches i s' ∧ c.types.StackBelow s' s) p)
    (h : Progress.visit (c.analysis func) c.decl.body c.decl.labels index rest p = .ok q) :
    Recorded (fun i s => ∃ s', c.Reaches i s' ∧ c.types.StackBelow s' s) q := by
  refine hp.visit ?_ ?_ h
  · intro target recorded incoming merged hmerge hpath
    obtain ⟨s', hreach, hbelow⟩ := hpath
    exact ⟨s', hreach, hbelow.trans ((c.bounds func).incoming_le hmerge)⟩
  · intro i instr stack v exit out target hinstr hpath hv hmem hresolve
    obtain ⟨s', hreach, hbelow⟩ := hpath
    obtain ⟨effect, out, hstep, rfl⟩ := visit_eq_ok.mp (Checked.widen_eq_ok.mp hv)
    obtain ⟨exit, hexit, heq⟩ := List.mem_map.mp hmem
    cases heq
    rcases c.step_below hprim hbelow hstep with
      ⟨effect', out', hstep', hout⟩ | ⟨e, -, depth, expected, haddress, htop, -⟩
    · exact ⟨out', hreach.step hinstr hstep' (.of_exit hinstr hexit hresolve), hout⟩
    · exact absurd ⟨i, instr, s', depth, expected, hreach, hinstr, haddress, htop⟩ hnull

/-- **Where no path meets null, every order accepts** a body that has a certificate. -/
theorem Certificate.accepted (hprim : c.types.HasPrimitives) (h : c.Certificate assigned)
    (hnull : ¬ c.MeetsNull) {result : Except (Fault VerifyError) (Progress TypeId)}
    (hrun : c.Outcome func result) : ∃ q, result = .ok q := by
  have hupper := h.upperSolution func hprim
  have hstart : Recorded (fun i s => ∃ s', c.Reaches i s' ∧ c.types.StackBelow s' s)
      (Progress.start c.decl.body.size) := recorded_start fun _ => ⟨.empty, .start, .refl _⟩
  rcases Runs.under hupper (recorded_above_path hprim hnull) (under_start hupper) hstart hrun with
    ⟨q, hq, -⟩ | ⟨q, i, stack, e, hpaths, hstack, hfails, -⟩
  · exact ⟨q, hq⟩
  · -- the path below the stack that fails has null in the same place
    obtain ⟨instr, s, depth, expected, hinstr, -, -, haddress, htop, -⟩ :=
      h.nullAccess_of_fails hprim hfails
    obtain ⟨s', hreach, hbelow⟩ := hpaths i stack hstack
    obtain ⟨a, ha, hbelow'⟩ := getElem?_of_forall₂ hbelow.flip htop
    obtain rfl := TypeTable.Below.eq_null hbelow'
    exact absurd ⟨i, instr, s', depth, expected, hreach, hinstr, haddress, ha⟩ hnull

end TypingContext

namespace Program

variable {p : Program} {config : VerifyConfig} {func : FuncRef} {decl : FunctionDecl}

/-- Verification of a body within the limit is one of the outcomes. -/
theorem verifyFunction_outcome (hf : p.function? func = some decl)
    (hcode : decl.implementation = .code) (hsize : decl.body.size ≤ config.maxInstructions) :
    (∃ q typed, (TypingContext.mk p decl).Outcome func (.ok q) ∧
        p.verifyFunction config func = .ok typed ∧ typed.states = q.states) ∨
      ∃ e, (TypingContext.mk p decl).Outcome func (.error e) ∧
        p.verifyFunction config func = .error e := by
  have hruns := run_runs ((TypingContext.mk p decl).analysis func) decl.body decl.labels
    (start decl.body.size)
  simp only [verifyFunction, hf, hcode, if_neg (Nat.not_lt.mpr hsize), Analysis.solve]
  cases hrun : run ((TypingContext.mk p decl).analysis func) decl.body decl.labels
      (start decl.body.size) with
  | error e =>
    rw [hrun] at hruns
    exact .inr ⟨e, hruns, rfl⟩
  | ok q =>
    rw [hrun] at hruns
    exact .inl ⟨q, _, hruns, rfl, rfl⟩

/-- The body of `nullJoinBody` with the arms of its conditional swapped. -/
def nullFirstBody : FunctionDecl where
  name := "load"
  params := []
  locals := [⟨"place", ⟨16⟩⟩]
  result := .void
  signature := ⟨24⟩
  labels := #[4, 5]
  body := #[.constant (.int32 1), .branch .isTrue ⟨0⟩, .localVar .load 0, .jump ⟨1⟩,
    .plain .null, .typed .loadIndirect .int32, .plain .pop, .plain .ret]
  implementation := .code
  zeroInit := true

/-- The program of that function alone. -/
def nullFirst : Program where
  types := (TypeTable.initial.function [] .void).1
  modules := #[⟨"main", [], #[nullFirstBody], none⟩]

/-- A certificate for that function: the load finds a reference. -/
def nullFirstStacks : Array (Option (OperandStack TypeId)) :=
  #[some .empty, some ⟨[.int32]⟩, some .empty, some ⟨[⟨16⟩]⟩, some .empty, some ⟨[⟨16⟩]⟩,
    some ⟨[.int32]⟩, some .empty]

/-- The stacks are a certificate: at the join, null gives way to the reference of the other arm. -/
theorem nullFirst_certificate :
    (TypingContext.mk nullFirst nullFirstBody).Certificate nullFirstStacks where
  size_eq := rfl
  start := rfl
  passes := by
    intro i instr s hinstr hs
    have hi : i < 8 := (Array.getElem?_eq_some_iff.mp hs).1
    interval_cases i <;> cases hinstr <;> cases hs
    · exact .of_step (e := ⟨[], [.int32]⟩) (by decide)
        (List.forall_mem_singleton.mpr ⟨1, _, rfl, rfl, .refl _⟩)
    · exact .of_step (e := ⟨[.int32], []⟩) (by decide)
        (List.forall_mem_cons.mpr ⟨⟨4, _, rfl, rfl, .refl .empty⟩,
          List.forall_mem_singleton.mpr ⟨2, _, rfl, rfl, .refl _⟩⟩)
    · exact .of_step (e := ⟨[], [⟨16⟩]⟩) (by decide)
        (List.forall_mem_singleton.mpr ⟨3, _, rfl, rfl, .refl _⟩)
    · exact .of_step (e := ⟨[], []⟩) (by decide)
        (List.forall_mem_singleton.mpr ⟨5, _, rfl, rfl, .refl _⟩)
    · exact .of_step (e := ⟨[], [.null]⟩) (o := ⟨[.null]⟩) (by decide)
        (List.forall_mem_singleton.mpr ⟨5, _, rfl, rfl, .cons (.null ⟨_, _, rfl, rfl⟩) .nil⟩)
    · exact .of_step (e := ⟨[⟨16⟩], [.int32]⟩) (by decide)
        (List.forall_mem_singleton.mpr ⟨6, _, rfl, rfl, .refl _⟩)
    · exact .of_step (e := ⟨[.int32], []⟩) (by decide)
        (List.forall_mem_singleton.mpr ⟨7, _, rfl, rfl, .refl _⟩)
    · exact .of_step (e := ⟨[], []⟩) (o := .empty) (by decide) (List.forall_mem_nil _)

/-- **A certificate is not enough to be accepted**: null arrives at the load before the reference
does.  With the arms of the conditional swapped, the body is accepted. -/
theorem nullFirst_rejected :
    nullFirst.bind = .ok () ∧ nullFirst.function? ⟨⟨0⟩, 0⟩ = some nullFirstBody ∧
      nullFirstBody.body.size ≤ ({} : VerifyConfig).maxInstructions ∧
      (TypingContext.mk nullFirst nullFirstBody).Certificate nullFirstStacks ∧
      nullFirst.verifyFunction {} ⟨⟨0⟩, 0⟩ =
        .error (.refused (.located ⟨⟨0⟩, 0⟩ 5 (.typeMismatch .reference .null))) ∧
      (nullJoin.verifyFunction {} ⟨⟨0⟩, 0⟩).toOption.isSome = true :=
  ⟨by decide, rfl, by decide, nullFirst_certificate, by cbv, by cbv⟩

/-- **How far a certificate decides the verdict.**  A body that has one is rejected only for looking
behind null, whatever the order of visits, and all orders that accept it record the same stacks.  If
no path meets null, verification accepts the body, and so does every order of visits. -/
theorem verdict_of_certificate (htypes : p.types.Built) (hf : p.function? func = some decl)
    (hcode : decl.implementation = .code) (hsize : decl.body.size ≤ config.maxInstructions)
    {assigned : Array (Option (OperandStack TypeId))}
    (hassigned : (TypingContext.mk p decl).Certificate assigned) :
    ((∃ typed, p.verifyFunction config func = .ok typed) ∨
        ∃ e, p.verifyFunction config func = .error e ∧
          (TypingContext.mk p decl).RefusesNull func assigned e) ∧
      (∀ result, (TypingContext.mk p decl).Outcome func result → (∃ q, result = .ok q) ∨
        ∃ e, result = .error e ∧ (TypingContext.mk p decl).RefusesNull func assigned e) ∧
      (∀ q q', (TypingContext.mk p decl).Outcome func (.ok q) →
        (TypingContext.mk p decl).Outcome func (.ok q') → q.states = q'.states) ∧
      (¬ (TypingContext.mk p decl).MeetsNull →
        ∃ typed, p.verifyFunction config func = .ok typed ∧
          ∀ result, (TypingContext.mk p decl).Outcome func result →
            ∃ q, result = .ok q ∧ q.states = typed.states) := by
  have hprim : (TypingContext.mk p decl).types.HasPrimitives := htypes.hasPrimitives
  have hends : ∀ result, (TypingContext.mk p decl).Outcome func result → (∃ q, result = .ok q) ∨
      ∃ e, result = .error e ∧ (TypingContext.mk p decl).RefusesNull func assigned e := by
    intro result hrun
    exact (hassigned.outcome hprim hrun).imp_left fun ⟨q, hq, _⟩ => ⟨q, hq⟩
  have hsame : ∀ q q', (TypingContext.mk p decl).Outcome func (.ok q) →
      (TypingContext.mk p decl).Outcome func (.ok q') → q.states = q'.states := by
    intro q q' hq hq'
    exact TypingContext.states_eq_of_outcome hprim hassigned.nonempty hq hq'
  refine ⟨?_, hends, hsame, fun hnull => ?_⟩
  · rcases verifyFunction_outcome hf hcode hsize with ⟨_, typed, -, hok, -⟩ | ⟨e, hrun, herror⟩
    · exact .inl ⟨typed, hok⟩
    · rcases hends _ hrun with ⟨q, hq⟩ | ⟨e', he', hrefuses⟩
      · cases hq
      · cases he'
        exact .inr ⟨e, herror, hrefuses⟩
  · rcases verifyFunction_outcome hf hcode hsize with ⟨q, typed, hrun, hok, hstates⟩ | ⟨e, hrun, -⟩
    · refine ⟨typed, hok, fun result hresult => ?_⟩
      obtain ⟨q', rfl⟩ := hassigned.accepted hprim hnull hresult
      exact ⟨q', rfl, (hsame q' q hresult hrun).trans hstates.symm⟩
    · obtain ⟨q, hq⟩ := hassigned.accepted hprim hnull hrun
      cases hq

/-- The conditional of `nullFirstBody`, with the value it leaves dropped. -/
def nullDroppedBody : FunctionDecl where
  name := "drop"
  params := []
  locals := [⟨"place", ⟨16⟩⟩]
  result := .void
  signature := ⟨24⟩
  labels := #[4, 5]
  body := #[.constant (.int32 1), .branch .isTrue ⟨0⟩, .localVar .load 0, .jump ⟨1⟩,
    .plain .null, .plain .pop, .plain .ret]
  implementation := .code
  zeroInit := true

/-- The program of that function alone. -/
def nullDropped : Program where
  types := (TypeTable.initial.function [] .void).1
  modules := #[⟨"main", [], #[nullDroppedBody], none⟩]

/-- Null meets a reference, but nothing looks behind it: every order accepts. -/
theorem verdict_of_nullDropped :
    ¬ (TypingContext.mk nullDropped nullDroppedBody).MeetsNull ∧
      ∃ typed, nullDropped.verifyFunction {} ⟨⟨0⟩, 0⟩ = .ok typed ∧
        ∀ result, (TypingContext.mk nullDropped nullDroppedBody).Outcome ⟨⟨0⟩, 0⟩ result →
          ∃ q, result = .ok q ∧ q.states = typed.states := by
  have hnull : ¬ (TypingContext.mk nullDropped nullDroppedBody).MeetsNull := by
    rintro ⟨i, instr, s, depth, expected, -, hinstr, haddress, -⟩
    have hi : i < 7 := (Array.getElem?_eq_some_iff.mp hinstr).1
    interval_cases i <;> cases hinstr <;> cases haddress
  have hverified : (nullDropped.verifyFunction {} ⟨⟨0⟩, 0⟩).toOption.isSome = true := by cbv
  refine ⟨hnull, ?_⟩
  cases hverify : nullDropped.verifyFunction {} ⟨⟨0⟩, 0⟩ with
  | error e => rw [hverify] at hverified; cases hverified
  | ok typed =>
    have hassigned := certificate_of_verify rfl rfl (by decide) hverify
    rw [← hverify]
    exact (verdict_of_certificate (.function .initial [] .void) rfl rfl (by decide)
      hassigned).2.2.2 hnull

end Program

end StackCode
