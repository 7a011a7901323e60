import StackCode.Proofs.Typing.Simulation
import StackCode.Proofs.Typing.Verified

/-!
# Safety along every path

Verification merges the stacks of all paths that meet.  A single path, followed without merging,
never leaves what was recorded: at each instruction it comes to, its stack lies below the recorded
one, and the typing rule succeeds on it unless the instruction looks behind a null.

## Main definitions

* `TypingContext.Reaches`: some path comes to an instruction with this stack.
* `TypingContext.HoldsResult`: a stack that holds the result of the function and nothing else.

## Main results

* `TypedFunction.Covers.below_of_reaches`: paths stay below the recorded stacks.
* `Program.safe_along_path`: what holds at each instruction a path comes to.
-/

namespace StackCode

namespace TypingContext

open Operands TypeTable

/-- Some path comes to the instruction at an index with this stack: it starts at the first
instruction with the empty stack, and runs the typing rule of each instruction it passes. -/
inductive Reaches (c : TypingContext) : Nat → OperandStack TypeId → Prop
  | start : Reaches c 0 .empty
  | step {i j : Nat} {instr : Instr} {s out : OperandStack TypeId} {e : Effect TypeId}
      (hreach : Reaches c i s) (hinstr : c.decl.body[i]? = some instr)
      (hstep : c.step instr s = .ok (e, out)) (hedge : c.decl.Edge i j) : Reaches c j out

/-- The stack holds the result of the function and nothing else. -/
def HoldsResult (c : TypingContext) (s : OperandStack TypeId) : Prop :=
  if c.decl.result = .void then s = .empty
  else ∃ value, s = ⟨[value]⟩ ∧ c.types.Assignable value c.decl.result

theorem eq_empty_of_leaveNothing {s : OperandStack TypeId}
    {left : List TypeId × OperandStack TypeId} (h : leaveNothing s = .ok left) : s = .empty := by
  obtain ⟨_, _, hget, h⟩ := bind_run_eq_ok.mp h
  cases hget
  obtain ⟨_, _, hrequire, -⟩ := bind_run_eq_ok.mp h
  have hsize := of_decide_eq_true (require_eq_ok.mp hrequire).1
  exact OperandStack.ext (List.length_eq_zero_iff.mp hsize)

theorem eq_of_refuseAddress {t : TypeTable} {use : AddressUse} {type : TypeId} {u : Unit}
    {s r : OperandStack TypeId} (h : t.refuseAddress use type s = .ok (u, r)) : r = s := by
  rcases refuseAddress_follows (StackBelow.refl s) h with ⟨hr, -⟩ | ⟨e, -, check, hmem, -⟩
  · exact hr
  · cases hmem

/-- A return passes its rule only with the result of the function alone on the stack. -/
theorem holdsResult_of_ret {c : TypingContext} {s : OperandStack TypeId}
    {left : List TypeId × OperandStack TypeId} (h : c.plain .ret s = .ok left) :
    c.HoldsResult s := by
  unfold HoldsResult
  rw [plain_ret] at h
  by_cases hvoid : c.decl.result = .void
  · rw [if_neg (not_not.mpr hvoid)] at h
    rw [if_pos hvoid]
    exact eq_empty_of_leaveNothing h
  · rw [if_pos hvoid] at h
    rw [if_neg hvoid]
    obtain ⟨_, _, hrefuse, h⟩ := bind_run_eq_ok.mp h
    obtain ⟨value, rest, hpop, h⟩ := bind_run_eq_ok.mp h
    obtain ⟨_, _, hassign, h⟩ := bind_run_eq_ok.mp h
    obtain rfl := eq_of_refuseAddress hrefuse
    obtain rfl := pop_eq_ok.mp hpop
    obtain ⟨hassignable, rfl⟩ := expectAssignable_eq_ok.mp hassign
    exact ⟨value, by rw [eq_empty_of_leaveNothing h]; rfl, hassignable⟩

end TypingContext

/-- **Paths stay below the recorded stacks.** -/
theorem TypedFunction.Covers.below_of_reaches {typed : TypedFunction} {c : TypingContext}
    (hprim : c.types.HasPrimitives) (hcovers : typed.Covers c) (hpos : 0 < c.decl.body.size)
    {i : Nat} {s : OperandStack TypeId} (h : c.Reaches i s) :
    ∃ recorded, typed.states[i]? = some (some recorded) ∧ c.types.StackBelow s recorded := by
  induction h with
  | start => exact ⟨.empty, hcovers.start hpos, .refl _⟩
  | @step i j instr s out _ _ hinstr hstep hedge ih =>
    obtain ⟨recorded, hrecorded, hbelow⟩ := ih
    obtain ⟨effect', out', hstep', -, hnext⟩ := hcovers.reached hinstr hrecorded
    obtain ⟨recorded', hrecorded', hout'⟩ := hnext j hedge
    -- the path took this step, so the step below the recorded stack is not a null access
    rcases c.step_below hprim hbelow hstep' with ⟨_, _, hsame, hout⟩ | ⟨e, herror, -⟩
    · cases hstep.symm.trans hsame
      exact ⟨recorded', hrecorded', hout.trans hout'⟩
    · cases hstep.symm.trans herror

namespace Program

variable {p : Program} {config : VerifyConfig} {func : FuncRef} {decl : FunctionDecl}
  {typed : TypedFunction}

/-- **Safety along every path.**  Wherever a path through a verified function comes, there is an
instruction with a stack recorded before it, the stack of the path lies below the recorded one, and
the typing rule of the instruction succeeds on the stack of the path or the instruction looks behind
a null; a return finds the result of the function and nothing else. -/
theorem safe_along_path (htypes : p.types.Built) (hbind : p.bind = .ok ())
    (hf : p.function? func = some decl) (hcode : decl.implementation = .code)
    (hverify : p.verifyFunction config func = .ok typed) {i : Nat} {s : OperandStack TypeId}
    (hpath : (TypingContext.mk p decl).Reaches i s) :
    ∃ instr recorded, decl.body[i]? = some instr ∧ typed.states[i]? = some (some recorded) ∧
      p.types.StackBelow s recorded ∧
      ((∃ effect out, (TypingContext.mk p decl).step instr s = .ok (effect, out)) ∨
        ∃ e, (TypingContext.mk p decl).step instr s = .error e ∧ NullAccess instr s e) ∧
      (instr = .plain .ret → (TypingContext.mk p decl).HoldsResult s) := by
  have hprim : (TypingContext.mk p decl).types.HasPrimitives := htypes.hasPrimitives
  have hcovers := verifyFunction_covers hf hcode hverify
  obtain ⟨m, hm, hfunc⟩ := function?_eq_some.mp hf
  have hpos := (boundCode_of_bind hbind hm hfunc hcode).nonempty
  obtain ⟨recorded, hrecorded, hbelow⟩ := hcovers.below_of_reaches hprim hpos hpath
  have hsize := (Array.getElem?_eq_some_iff.mp hrecorded).1
  rw [hcovers.size_states] at hsize
  have hinstr : decl.body[i]? = some decl.body[i] := Array.getElem?_eq_getElem hsize
  obtain ⟨effect', out', hstep', -, -⟩ := hcovers.reached hinstr hrecorded
  have hstep := TypingContext.step_below hprim hbelow hstep'
  refine ⟨_, recorded, hinstr, hrecorded, hbelow, ?_, fun hret => ?_⟩
  · exact hstep.imp_left fun ⟨effect, out, hok, _⟩ => ⟨effect, out, hok⟩
  · rw [hret] at hstep
    rcases hstep with ⟨effect, out, hok, -⟩ | ⟨e, -, depth, expected, haddress, -⟩
    · obtain ⟨left, hleft, -⟩ := bind_eq_ok.mp hok
      exact TypingContext.holdsResult_of_ret hleft
    · cases haddress

/-- Two paths meet before a load through a reference, one with null and one with a reference. -/
def nullJoinBody : FunctionDecl where
  name := "load"
  params := []
  locals := [⟨"place", ⟨16⟩⟩]
  result := .void
  signature := ⟨24⟩
  labels := #[4, 5]
  body := #[.constant (.int32 1), .branch .isTrue ⟨0⟩, .plain .null, .jump ⟨1⟩,
    .localVar .load 0, .typed .loadIndirect .int32, .plain .pop, .plain .ret]
  implementation := .code
  zeroInit := true

/-- The program of that function alone. -/
def nullJoin : Program where
  types := (TypeTable.initial.function [] .void).1
  modules := #[⟨"main", [], #[nullJoinBody], none⟩]

/-- The path that brings null. -/
theorem nullJoin_reaches : (TypingContext.mk nullJoin nullJoinBody).Reaches 5 ⟨[.null]⟩ := by
  have hconstant : (TypingContext.mk nullJoin nullJoinBody).Reaches 1 ⟨[.int32]⟩ :=
    .step (e := ⟨[], [.int32]⟩) .start rfl rfl (.next rfl rfl)
  have hbranch : (TypingContext.mk nullJoin nullJoinBody).Reaches 2 .empty :=
    .step (e := ⟨[.int32], []⟩) hconstant rfl (by cbv) (.next rfl rfl)
  have hnull : (TypingContext.mk nullJoin nullJoinBody).Reaches 3 ⟨[.null]⟩ :=
    .step (e := ⟨[], [.null]⟩) hbranch rfl rfl (.next rfl rfl)
  exact .step (e := ⟨[], []⟩) hnull rfl rfl (.target rfl rfl rfl)

/-- The path that brings null is safe up to the load, which is refused. -/
theorem safe_along_nullJoin :
    ∃ typed, nullJoin.verifyFunction {} ⟨⟨0⟩, 0⟩ = .ok typed ∧
      ∃ instr recorded, nullJoinBody.body[5]? = some instr ∧
        typed.states[5]? = some (some recorded) ∧ nullJoin.types.StackBelow ⟨[.null]⟩ recorded ∧
        ((∃ effect out,
            (TypingContext.mk nullJoin nullJoinBody).step instr ⟨[.null]⟩ = .ok (effect, out)) ∨
          ∃ e, (TypingContext.mk nullJoin nullJoinBody).step instr ⟨[.null]⟩ = .error e ∧
            NullAccess instr ⟨[.null]⟩ e) ∧
        (instr = .plain .ret → (TypingContext.mk nullJoin nullJoinBody).HoldsResult ⟨[.null]⟩) := by
  have hverified : (nullJoin.verifyFunction {} ⟨⟨0⟩, 0⟩).toOption.isSome = true := by cbv
  cases hverify : nullJoin.verifyFunction {} ⟨⟨0⟩, 0⟩ with
  | error e => rw [hverify] at hverified; cases hverified
  | ok typed =>
    exact ⟨typed, rfl, safe_along_path (.function .initial [] .void) (by cbv) rfl rfl hverify
      nullJoin_reaches⟩

end Program

end StackCode
