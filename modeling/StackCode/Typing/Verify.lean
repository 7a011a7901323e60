import StackCode.Instr.Text
import StackCode.Typing.Merge

/-!
# Typed programs

Verification of functions and programs.  A verified function comes with the stack before each
instruction control can reach, and each such instruction with the types it takes and leaves; these
are what later stages work from.

## Main definitions

* `VerifyConfig`: the limits of verification.
* `TypedInstr`, `TypedFunction`, `TypedProgram`: what verification finds.
* `Program.verifyFunction`, `Program.verify`: stop at the first error.
* `Program.verifyReport`: goes on after errors.
-/

namespace StackCode

/-- The limits and switches of verification. -/
structure VerifyConfig where
  /-- The longest body allowed. -/
  maxInstructions : Nat := 65536
  /-- Whether unreachable instructions are remarked on. -/
  reportUnreachable : Bool := true
deriving DecidableEq, Repr

/-- An instruction with the types it takes and leaves. -/
structure TypedInstr where
  instr : Instr
  /-- The operands, bottom first. -/
  operands : List TypeId
  /-- The results, bottom first. -/
  results : List TypeId
deriving DecidableEq, Repr

/-- A verified function. -/
structure TypedFunction where
  func : FuncRef
  /-- The stack before each instruction; nothing where control does not come. -/
  states : Array (Option (OperandStack TypeId))
  /-- The instructions control can reach. -/
  instrs : Array (Option TypedInstr)
  findings : Array Finding
deriving DecidableEq

/-- Whether control can reach an instruction. -/
def TypedFunction.isReachable (f : TypedFunction) (index : Nat) : Bool :=
  match f.states[index]? with
  | some (some _) => true
  | _ => false

/-- The verified functions of a program, by module. -/
structure TypedProgram where
  modules : Array (Array TypedFunction)
deriving DecidableEq

/-- The verified form of a function. -/
def TypedProgram.function? (p : TypedProgram) (f : FuncRef) : Option TypedFunction := do
  (← p.modules[f.module.index]?)[f.index]?

/-- The remark on an instruction that control does not reach. -/
def unreachableFinding (func : FuncRef) (index : Nat) (instr : Instr) : Finding :=
  ⟨index, .warning .verification 2100
    (func.toText ++ s!"@{index}: unreachable instruction `" ++ instr.toText ++ "`")⟩

namespace TypedFunction

/-- The verified form of a function without a body. -/
def stub (func : FuncRef) : TypedFunction := ⟨func, #[], #[], #[]⟩

/-- The verified form of a body, from the solution of its typing. -/
def ofSolution (func : FuncRef) (body : Array Instr) (reportUnreachable : Bool)
    (s : Solution TypeId) : TypedFunction :=
  let visited := body.toList.zip s.effects.toList
  let instrs := visited.map fun (instr, effect) =>
    effect.map fun e => ⟨instr, e.popped.reverse, e.pushed⟩
  let unreachable := visited.zipIdx.filterMap fun ((instr, effect), index) =>
    match effect with
    | none => some (unreachableFinding func index instr)
    | some _ => none
  ⟨func, s.states, instrs.toArray,
    if reportUnreachable then s.findings ++ unreachable else s.findings⟩

end TypedFunction

namespace Program

/-- Verifies a function. -/
def verifyFunction (p : Program) (config : VerifyConfig) (func : FuncRef) :
    Checked VerifyError TypedFunction :=
  match p.function? func with
  | none => .refuse (.located func 0 .unbound)
  | some decl =>
    match decl.implementation with
    | .syscall _ => return .stub func
    | .code =>
      if config.maxInstructions < decl.body.size then
        .refuse ⟨func, none, .tooManyInstructions decl.body.size⟩
      else do
        let context : TypingContext := ⟨p, decl⟩
        let solution ← (context.analysis func).solve decl.body decl.labels
        return .ofSolution func decl.body config.reportUnreachable solution

/-- Verifies every function, in order, up to the first error. -/
def verify (p : Program) (config : VerifyConfig) : Checked VerifyError TypedProgram := do
  let modules ← p.moduleList.mapM fun (id, m) => do
    let functions ← (functionsOf id m).mapM fun (func, _) => p.verifyFunction config func
    return functions.toArray
  return ⟨modules.toArray⟩

end Program

/-- What verification finds if it goes on after errors. -/
structure VerifyReport where
  verified : Array TypedFunction := #[]
  diagnostics : Array Diagnostic := #[]

namespace VerifyReport

/-- Whether there is no error. -/
def isOk (r : VerifyReport) : Bool := !r.diagnostics.toList.any Diagnostic.isError

/-- Adds the verdict on a function. -/
def add (r : VerifyReport) : Except VerifyError TypedFunction → VerifyReport
  | .ok f =>
    ⟨r.verified.push f, r.diagnostics ++ f.findings.toList.map Finding.diagnostic⟩
  | .error e => ⟨r.verified, r.diagnostics.push e.toDiagnostic⟩

end VerifyReport

/-- Verifies every function, in order, and collects remarks and errors. -/
def Program.verifyReport {ε : Type} (p : Program) (config : VerifyConfig) :
    Checked ε VerifyReport :=
  p.functions.foldlM (fun report (func, _) =>
    match p.verifyFunction config func with
    | .ok f => .ok (report.add (.ok f))
    | .error (.refused e) => .ok (report.add (.error e))
    | .error (.dangling type) => .error (.dangling type)) {}

end StackCode
