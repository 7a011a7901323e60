import StackCode.Instr.Basic
import StackCode.Types.Interning

/-!
# Programs

A program is a type table and a list of modules.  A module imports other modules of the program and
declares functions; a function is either a body of instructions with labels or a stub for a system
call.

## Main definitions

* `FunctionDecl`, `ModuleDecl`, `Program`.
* `Program.module?`, `Program.function?`: lookup by reference.
* `Program.functions`: every function with its reference, in order.
-/

namespace StackCode

/-- A parameter or local. -/
structure Variable where
  name : String
  type : TypeId
deriving DecidableEq, Repr

/-- How a function is carried out. -/
inductive Implementation where
  /-- By the instructions of its body. -/
  | code
  /-- By the system call of this number. -/
  | syscall (id : UInt16)
deriving DecidableEq, Repr

/-- A function. -/
structure FunctionDecl where
  name : String
  params : List Variable
  locals : List Variable
  /-- The type of the result; `void` for none. -/
  result : TypeId
  /-- The function type of the declaration. -/
  signature : TypeId
  /-- The instruction each label stands at. -/
  labels : Array Nat
  body : Array Instr
  implementation : Implementation
  /-- Whether locals are cleared on entry. -/
  zeroInit : Bool
deriving DecidableEq, Repr

namespace FunctionDecl

/-- The types of the parameters. -/
def paramTypes (f : FunctionDecl) : List TypeId := f.params.map Variable.type

/-- The instruction a label stands at. -/
def labelTarget? (f : FunctionDecl) (l : Label) : Option Nat := f.labels[l.index]?

end FunctionDecl

/-- A module. -/
structure ModuleDecl where
  name : String
  /-- The imported modules, in the order of the import table. -/
  imports : List ModuleId
  functions : Array FunctionDecl
  /-- The function a machine starts with. -/
  entry : Option Nat
deriving DecidableEq, Repr

/-- The position of a module in the import table. -/
def ModuleDecl.importIndex? (m : ModuleDecl) (module : ModuleId) : Option Nat :=
  m.imports.findIdx? (· = module)

/-- A program. -/
structure Program where
  types : TypeTable
  modules : Array ModuleDecl
deriving DecidableEq, Repr

namespace Program

/-- The module of an id. -/
def module? (p : Program) (m : ModuleId) : Option ModuleDecl := p.modules[m.index]?

/-- The function of a reference. -/
def function? (p : Program) (f : FuncRef) : Option FunctionDecl := do
  (← p.module? f.module).functions[f.index]?

/-- The modules with their ids, in order.  Ids are words, and this is exact for at most `wordLimit`
modules: further ones would all have the last word for an id. -/
def moduleList (p : Program) : List (ModuleId × ModuleDecl) :=
  p.modules.toList.zipIdx.map fun (m, i) => (⟨i⟩, m)

/-- The functions of a module with their references, in order, exact for at most `wordLimit`
functions. -/
def functionsOf (id : ModuleId) (m : ModuleDecl) : List (FuncRef × FunctionDecl) :=
  m.functions.toList.zipIdx.map fun (f, i) => (⟨id, i⟩, f)

/-- The functions of the program with their references, in order. -/
def functions (p : Program) : List (FuncRef × FunctionDecl) :=
  p.moduleList.flatMap fun (id, m) => functionsOf id m

/-- `module::function`, or the reference itself if it does not resolve. -/
def qualifiedName (p : Program) (f : FuncRef) : String :=
  match p.module? f.module, p.function? f with
  | some m, some d => m.name ++ "::" ++ d.name
  | _, _ => f.toText

end Program

end StackCode
