import StackCode.Link.Linker
import StackCode.Program.Binding

/-!
# Compilation

The whole way from a program to linked modules: bind, verify, compile each module, link.

## Main definitions

* `CompileConfig`: the limits of all stages.
* `CompileError`: the error of a stage.
* `Program.compile`: the stages in order.
-/

namespace StackCode

/-- The limits of all stages. -/
structure CompileConfig where
  verify : VerifyConfig := {}
  codegen : CodegenConfig := {}
deriving DecidableEq, Repr

/-- The error of a stage. -/
inductive CompileError where
  | type (e : TypeError)
  | bind (e : BindError)
  | verify (e : VerifyError)
  | encode (e : EncodeError)
  | link (e : LinkError)
deriving DecidableEq, Repr

namespace CompileError

/-- The message of the stage itself. -/
def cause : CompileError → String
  | type e => e.message
  | bind e => e.message
  | verify e => e.message
  | encode e => e.message
  | link e => e.message

/-- The printed message, which names the stage. -/
def message : CompileError → String
  | type e => "type error: " ++ e.message
  | bind e => "binding failed: " ++ e.message
  | verify e => "verification failed: " ++ e.message
  | encode e => "encoding failed: " ++ e.message
  | link e => "linking failed: " ++ e.message

/-- The error as a diagnostic: that of the stage. -/
def toDiagnostic : CompileError → Diagnostic
  | type e => e.toDiagnostic
  | bind e => e.toDiagnostic
  | verify e => e.toDiagnostic
  | encode e => e.toDiagnostic
  | link e => e.toDiagnostic

end CompileError

/-- Compiles and links every module of a program. -/
def Program.compile (p : Program) (config : CompileConfig) :
    Checked CompileError (List LinkedModule) := do
  p.bind.mapError fun e => .refused (.bind e)
  let typing ← (p.verify config.verify).widen .verify
  let modules ← (p.compileModules typing config.codegen).widen .encode
  (linkAll modules).mapError fun e => .refused (.link e)

end StackCode
