import StackCode.Proofs.Dataflow.Reached
import StackCode.Proofs.Typing.Counts

/-!
# Heights along paths

The height of a path through a body is what its instructions leave, less what they take.  While a
body is typed, every recorded stack has the height of some path that comes there: a stack is passed
on along an edge, and a merge keeps the height of the stacks that meet.  So typing refuses a body
for the height of a stack only if some path has that height, at whatever moment of the iteration it
does so.

## Main definitions

* `FunctionDecl.Path`: the paths through a body, with the instructions they pass.
* `TypingContext.height`: the height of a path.
* `TypingContext.Genuine`: what an error says of the paths that come to an instruction.

## Main results

* `TypingContext.genuine_of_shortOf`, `TypingContext.genuine_of_merge`: the errors of one step and
  of one merge.
* `TypingContext.carries_heights`: recorded stacks have the heights of paths.
* `Program.stack_errors_genuine`: errors on the height of the stack are genuine.
-/

namespace StackCode

/-- The paths through a body, with the instructions they pass before they come to an index. -/
inductive FunctionDecl.Path (f : FunctionDecl) : (passed : List Nat) → Nat → Prop
  | start : Path f [] 0
  | step {passed : List Nat} {i j : Nat} (hpath : Path f passed i) (hedge : f.Edge i j) :
      Path f (passed ++ [i]) j

namespace TypingContext

open TypeTable

variable (c : TypingContext)

/-- By how much the instruction at an index raises the stack. -/
def rise (index : Nat) : Int :=
  match c.decl.body[index]? with
  | some instr => c.pushes instr - c.pops instr
  | none => 0

/-- The height of a path: the sum over the instructions it passes. -/
def height (passed : List Nat) : Int := passed.foldl (fun sum index => sum + c.rise index) 0

/-- Some path comes to the index with this height. -/
def ComesWith (index : Nat) (height : Int) : Prop :=
  ∃ passed, c.decl.Path passed index ∧ c.height passed = height

/-- What an error at an index says of the paths that come there. -/
def Genuine (index : Nat) : Violation → Prop
  | .stackHeightMismatch recorded incoming =>
    c.ComesWith index recorded ∧ c.ComesWith index incoming ∧ recorded ≠ incoming
  | .stackUnderflow | .arityMismatch .. =>
    ∃ instr height, c.decl.body[index]? = some instr ∧ c.ComesWith index height ∧
      height < c.pops instr
  | .stackNotEmpty depth =>
    c.decl.body[index]? = some (.plain .ret) ∧
      c.ComesWith index (depth + c.decl.result.valueCount) ∧ 0 < depth
  | .fallsOffEnd =>
    index + 1 = c.decl.body.size ∧
      ∃ instr height, c.decl.body[index]? = some instr ∧ instr.isTerminator = false ∧
        c.ComesWith index height
  | _ => True

variable {c} {index : Nat} {instr : Instr} {s : OperandStack TypeId}

theorem comesWith_start : c.ComesWith 0 0 := ⟨[], .start, rfl⟩

/-- A path goes on along an edge. -/
theorem ComesWith.step {j : Nat} {before after : Int} (h : c.ComesWith index before)
    (hinstr : c.decl.body[index]? = some instr) (hedge : c.decl.Edge index j)
    (hafter : after + c.pops instr = before + c.pushes instr) : c.ComesWith j after := by
  obtain ⟨passed, hpath, hheight⟩ := h
  refine ⟨passed ++ [index], hpath.step hedge, ?_⟩
  have hrise : c.rise index = c.pushes instr - c.pops instr := by rw [rise, hinstr]
  calc c.height (passed ++ [index])
      = c.height passed + c.rise index := List.foldl_concat ..
    _ = before + (c.pushes instr - c.pops instr) := by rw [hheight, hrise]
    _ = after := by omega

/-! ### Steps and merges -/

/-- What a step refuses for the height of a stack that some path has, it refuses for that path. -/
theorem genuine_of_shortOf (hinstr : c.decl.body[index]? = some instr)
    (hs : c.ComesWith index s.size) {v : Violation}
    (h : v.ShortOf (instr = .plain .ret) (c.pops instr) s.size) : c.Genuine index v := by
  cases v with
  | stackUnderflow | arityMismatch => exact ⟨instr, s.size, hinstr, hs, Int.ofNat_lt.mpr h⟩
  | stackNotEmpty depth =>
    obtain ⟨rfl, hsize, hpos⟩ := h
    refine ⟨hinstr, ?_, hpos⟩
    rw [hsize] at hs
    exact hs
  | stackHeightMismatch | fallsOffEnd => exact h.elim
  | _ => trivial

/-- **A merge** keeps the height, and refuses stacks of different heights.  What fails for stacks of
one height is the join of a position. -/
theorem genuine_of_merge {target : Nat} {recorded incoming : OperandStack TypeId}
    (hrecorded : c.ComesWith target recorded.size) (hincoming : c.ComesWith target incoming.size) :
    Ends (fun merged => c.ComesWith target merged.size)
      (fun fault => ∀ v, fault = .refused v → c.Genuine target v)
      (c.types.mergeStacks recorded incoming) := by
  have hends : Ends (fun _ => True) (fun fault => ∀ v, fault = .refused v → c.Genuine target v)
      (c.types.mergeStacks recorded incoming) := by
    unfold mergeStacks
    split
    · refine Ends.bind (Ends.mapM (R := fun _ _ => True) fun ab _ => ?_) fun _ _ => .pure trivial
      refine Ends.bind (P := fun _ => True) ?_ fun joined? _ => ?_
      · refine (c.types.join?_unrefusing ab.1 ab.2).mono (fun _ h => h) ?_
        rintro _ ⟨type, rfl⟩ v ⟨⟩
      · cases joined? with
        | some joined => exact .pure trivial
        | none =>
          rintro v ⟨⟩
          trivial
    · rename_i hsize
      rintro v ⟨⟩
      exact ⟨hrecorded, hincoming, hsize⟩
  refine hends.weaken fun merged hmerged _ => ?_
  rw [← (mergeStacks_upper hmerged).1.size_eq]
  exact hrecorded

/-- Control that passes the last instruction is not resolved. -/
theorem genuine_of_unresolved {exit : Exit} (hinstr : c.decl.body[index]? = some instr)
    (hexit : exit ∈ instr.exits) (hs : c.ComesWith index s.size) (func : FuncRef)
    (hnone : exit.resolve? c.decl.body.size c.decl.labels index = none) :
    ∃ v, (c.analysis func).unresolved index exit = .refused (.located func index v) ∧
      c.Genuine index v := by
  cases exit with
  | label l => exact ⟨_, rfl, trivial⟩
  | next =>
    refine ⟨_, rfl, ?_, instr, s.size, hinstr, (Instr.next_mem_exits_iff instr).mp hexit, hs⟩
    have hlt := (Array.getElem?_eq_some_iff.mp hinstr).1
    have hge : ¬ index + 1 < c.decl.body.size := by
      intro hlt
      simp [Exit.resolve?, hlt] at hnone
    omega

section Bound

variable (htypes : c.types.Built) (hbound : c.Bound)

include htypes hbound

/-- **Recorded stacks have the heights of paths**, and errors say what they should of the paths. -/
theorem carries_heights (func : FuncRef) :
    (c.analysis func).Carries c.decl.body c.decl.labels (fun i s => c.ComesWith i s.size)
      fun fault => ∀ e, fault = .refused e → ∃ i v, e = .located func i v ∧ c.Genuine i v where
  transfer {index instr stack} hinstr hstack := by
    have hstep := step_counts htypes hbound instr stack
    refine Ends.mapError (Ends.bind (hstep.mono (fun _ h => h) ?_) ?_)
    · rintro fault hfault e he
      cases fault with
      | dangling type => cases he
      | refused v =>
        cases he
        exact ⟨index, v, rfl, genuine_of_shortOf hinstr hstack (hfault v rfl)⟩
    · intro left hleft
      refine .pure fun exit out hmem => ?_
      obtain ⟨exit, hexit, heq⟩ := List.mem_map.mp hmem
      cases heq
      refine ⟨fun hnone e he => ?_, fun hresolve => ?_⟩
      · obtain ⟨v, hv, hgenuine⟩ := genuine_of_unresolved hinstr hexit hstack func hnone
        cases hv.symm.trans he
        exact ⟨index, v, rfl, hgenuine⟩
      · exact hstack.step hinstr (.of_exit hinstr hexit hresolve) (by exact_mod_cast hleft)
  merge {target recorded incoming} hrecorded hincoming := by
    refine Ends.mapError ((genuine_of_merge hrecorded hincoming).mono (fun _ h => h) ?_)
    rintro fault hfault e he
    cases fault with
    | dangling type => cases he
    | refused v =>
      cases he
      exact ⟨target, v, rfl, hfault v rfl⟩

end Bound

end TypingContext

namespace Program

variable {p : Program} {config : VerifyConfig} {func : FuncRef} {decl : FunctionDecl}

/-- **Errors on the height of the stack are genuine.**  If a body of a bound program is refused,
then at an instruction, and for what some path through the body does there.  Where stacks of
different heights meet, two paths come with these heights; where an instruction finds too few
values, a path comes with fewer than it takes; where a return leaves values behind, a path comes
with as many in addition to the result; and where control falls off the end, a path comes to the
last instruction, which passes control on. -/
theorem stack_errors_genuine (htypes : p.types.Built) (hbind : p.bind = .ok ())
    (hf : p.function? func = some decl) (hcode : decl.implementation = .code)
    (hsize : decl.body.size ≤ config.maxInstructions) {e : VerifyError}
    (he : p.verifyFunction config func = .error (.refused e)) :
    ∃ i v, e = .located func i v ∧ (TypingContext.mk p decl).Genuine i v := by
  have hbound := TypingContext.bound_of_bind htypes.coherent hbind hf
  simp only [verifyFunction, hf, hcode, if_neg (Nat.not_lt.mpr hsize)] at he
  have hends := Analysis.solve_ends
    (TypingContext.carries_heights (c := ⟨p, decl⟩) htypes hbound func)
    fun _ => TypingContext.comesWith_start
  rcases bind_eq_error.mp he with hsolve | ⟨_, _, hpure⟩
  · exact hends.cause hsolve e rfl
  · cases hpure

/-- A function that branches over a push: the two ways meet with different heights. -/
def unevenBody : FunctionDecl where
  name := "uneven"
  params := []
  locals := []
  result := .void
  signature := ⟨24⟩
  labels := #[3]
  body := #[.constant (.int32 1), .branch .isTrue ⟨0⟩, .constant (.int32 2), .plain .nop,
    .plain .ret]
  implementation := .code
  zeroInit := false

def uneven : Program where
  types := (TypeTable.initial.function [] .void).1
  modules := #[⟨"main", [], #[unevenBody], none⟩]

/-- The ways of the branch come with no value and with one. -/
theorem stack_errors_genuine_uneven :
    uneven.verifyFunction {} ⟨⟨0⟩, 0⟩ =
      .error (.refused (.located ⟨⟨0⟩, 0⟩ 3 (.stackHeightMismatch 0 1))) ∧
    (TypingContext.mk uneven unevenBody).Genuine 3 (.stackHeightMismatch 0 1) := by
  have hverify : uneven.verifyFunction {} ⟨⟨0⟩, 0⟩ =
      .error (.refused (.located ⟨⟨0⟩, 0⟩ 3 (.stackHeightMismatch 0 1))) := by cbv
  have hsize : unevenBody.body.size ≤ VerifyConfig.maxInstructions {} := by decide
  obtain ⟨i, v, heq, hgenuine⟩ :=
    stack_errors_genuine (.function .initial [] .void) (by cbv) rfl rfl hsize hverify
  cases heq
  exact ⟨hverify, hgenuine⟩

end Program

end StackCode
