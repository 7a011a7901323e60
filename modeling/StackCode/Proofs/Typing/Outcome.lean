import StackCode.Proofs.Dataflow.Reached
import StackCode.Proofs.Typing.Known
import StackCode.Proofs.Typing.Verified

/-!
# How verification ends

Verification of a bound program looks up known types only, and never finds a label that stands at no
instruction: it accepts the program, or it refuses it for a fault of the program.

## Main results

* `Program.verify_ends`: how verification of a bound program ends.
* `Program.knows_states`: the stacks it records are of known types.
-/

namespace StackCode

/-- Whether binding rules the error out. -/
def VerifyError.isInternal (e : VerifyError) : Bool := e.violation.isInternal

namespace Program

open TypeTable

variable {p : Program} {m : ModuleDecl} {func : FuncRef} {decl : FunctionDecl}

/-- A label that bound code names stands at an instruction. -/
theorem BoundCode.exists_target (h : p.BoundCode m func decl) {index : Nat} {instr : Instr}
    {l : Label} (hinstr : decl.body[index]? = some instr) (hlabel : instr.target? = some l) :
    ∃ target, decl.labelTarget? l = some target ∧ target < decl.body.size := by
  have hbound := h.instr hinstr
  have hsome : (decl.labelTarget? l).isSome = true := by
    cases instr with
    | jump l' | branch _ l' =>
      cases hlabel
      exact demand_eq_ok.mp hbound
    | _ => cases hlabel
  obtain ⟨target, htarget⟩ := Option.isSome_iff_exists.mp hsome
  exact ⟨target, htarget, h.label_lt htarget⟩

/-- A type that bound code names is known. -/
theorem BoundCode.lt_size (h : p.BoundCode m func decl) {index : Nat} {instr : Instr}
    (hinstr : decl.body[index]? = some instr) (op : TypeOp) (type : TypeId)
    (htyped : instr = .typed op type) : type.index < p.types.size := by
  subst htyped
  exact contains_iff.mp (demand_eq_ok.mp (h.instr hinstr))

section Steps

variable {Q : VerifyError → Prop}
  (hrule : ∀ index v, v.isExpected true = true → Q ⟨func, index, v⟩)
  (hstep : ∀ {m index instr s}, p.BoundCode m func decl → decl.body[index]? = some instr →
    Relation.ReflTransGen decl.Edge 0 index → p.types.Knows s.topDown →
    Ends (fun left => p.types.Knows left.2.topDown)
      (Fault.Refuses fun v => Q (.located func index v)) ((TypingContext.mk p decl).step instr s))

include hrule hstep

/-- The typing of a bound body stays within the table, and finds every label, if its steps stay
within the table where control can go. -/
theorem BoundCode.carries (h : p.BoundCode m func decl) :
    ((TypingContext.mk p decl).analysis func).Carries decl.body decl.labels
      (fun i s => p.types.Knows s.topDown ∧ Relation.ReflTransGen decl.Edge 0 i)
      (Fault.Refuses Q) where
  transfer {index instr stack} hinstr hstack := by
    refine Ends.widen (Ends.bind (hstep h hinstr hstack.2 hstack.1) ?_) fun _ hv => hv
    intro left hleft
    refine .pure fun exit out hmem => ?_
    obtain ⟨exit, hexit, heq⟩ := List.mem_map.mp hmem
    cases heq
    refine ⟨fun hnone => ?_, fun hresolve =>
      ⟨hleft, hstack.2.tail (.of_exit hinstr hexit hresolve)⟩⟩
    cases exit with
    | next => exact hrule _ _ rfl
    | label l =>
      obtain ⟨target, htarget, hlt⟩ :=
        h.exists_target hinstr (Instr.label_mem_exits_iff.mp hexit)
      rw [FunctionDecl.labelTarget?] at htarget
      simp [Exit.resolve?, htarget, hlt] at hnone
  merge hrecorded hincoming :=
    ((mergeStacks_ends hrecorded.1 hincoming.1).widen fun _ hv => hrule _ _ hv).weaken
      fun _ _ hmerged => ⟨hmerged, hrecorded.2⟩

/-- How verification of a function ends, from how its steps end. -/
theorem verifyFunction_ends_of_step {config : VerifyConfig} (hbind : p.bind = .ok ())
    (hf : p.function? func = some decl) :
    Ends (fun typed => ∀ (i : Nat) s, typed.states[i]? = some (some s) → p.types.Knows s.topDown)
      (Fault.Refuses Q) (p.verifyFunction config func) := by
  simp only [verifyFunction, hf]
  cases himpl : decl.implementation with
  | syscall id => exact .pure fun i s hs => by simp [TypedFunction.stub] at hs
  | code =>
    obtain ⟨m, hm, hdecl⟩ := function?_eq_some.mp hf
    have hcode := boundCode_of_bind hbind hm hdecl himpl
    dsimp only
    split
    · exact .refuse (hrule _ _ rfl)
    · refine Ends.bind (Analysis.solve_ends (hcode.carries hrule hstep) fun _ => ⟨knows_nil, .refl⟩)
        fun solution hstates => .pure fun i s hs => (hstates i s hs).1

end Steps

section

variable (htypes : p.types.Coherent) (hbind : p.bind = .ok ())

include htypes hbind

/-- How verification of a function ends. -/
theorem verifyFunction_ends {config : VerifyConfig} (hf : p.function? func = some decl) :
    Ends (fun typed => ∀ (i : Nat) s, typed.states[i]? = some (some s) → p.types.Knows s.topDown)
      (Fault.Refuses (·.isInternal = false)) (p.verifyFunction config func) := by
  refine verifyFunction_ends_of_step (fun _ _ hv => Violation.isInternal_of_isExpected hv)
    (fun hcode hinstr _ hs => ?_) hbind hf
  exact ((TypingContext.bound_of_bind htypes hbind hf).step_ends (hcode.lt_size hinstr) hs).weaken
    fun _ _ hleft => hleft.2.2

/-- **How verification of a bound program ends.** -/
theorem verify_ends {config : VerifyConfig} :
    Ends (fun _ => True) (Fault.Refuses (·.isInternal = false)) (p.verify config) := by
  refine Ends.bind (Ends.mapM (R := fun _ _ => True) fun idm hidm => ?_) fun _ _ => .pure trivial
  obtain ⟨id, m⟩ := idm
  refine Ends.bind (Ends.mapM (R := fun _ _ => True) fun fd hfd => ?_) fun _ _ => .pure trivial
  obtain ⟨func, decl⟩ := fd
  have hf := function?_of_mem_functionsOf (mem_moduleList.mp hidm) hfd
  exact (verifyFunction_ends htypes hbind hf).weaken fun _ _ _ => trivial

/-- The stacks that verification records are of known types. -/
theorem knows_states {config : VerifyConfig} {typing : TypedProgram} {typed : TypedFunction}
    (hverify : p.verify config = .ok typing) (hf : p.function? func = some decl)
    (htyped : typing.function? func = some typed) {i : Nat} {s : OperandStack TypeId}
    (hs : typed.states[i]? = some (some s)) : p.types.Knows s.topDown := by
  obtain ⟨typed', htyped', hfunction⟩ := function?_of_verify hverify hf
  cases htyped.symm.trans htyped'
  exact (verifyFunction_ends htypes hbind hf).result hfunction i s hs

end

end Program

end StackCode
