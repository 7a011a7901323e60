import StackCode.Program.Basic

/-!
# Binding

A program is bound when everything it names exists.  Modules are checked first, for their imports
and entry points; then each function in order, its signature before its body.  The first failure is
reported.

## Main definitions

* `BindError`: a name that does not resolve.
* `Program.bind`: the check.
-/

namespace StackCode

/-- Why a program is not bound. -/
inductive BindError where
  /-- An imported module does not exist. -/
  | unknownModule (module : ModuleId)
  /-- An instruction names a function that does not exist. -/
  | unknownFunction (site : FuncRef) (index : Nat) (func : FuncRef)
  /-- An instruction names a function of a module that is not imported. -/
  | notImported (site : FuncRef) (index : Nat) (module : ModuleId)
  | unknownArgument (site : FuncRef) (index : Nat) (position : Nat)
  | unknownLocal (site : FuncRef) (index : Nat) (position : Nat)
  | unknownField (site : FuncRef) (index : Nat) (field : FieldRef)
  | unknownLabel (site : FuncRef) (index : Nat) (label : Label)
  /-- A label stands behind the last instruction. -/
  | labelPastEnd (site : FuncRef) (label : Label)
  | unknownType (site : FuncRef) (type : TypeId)
  /-- A parameter or local of type `void`. -/
  | voidVariable (site : FuncRef) (name : String)
  /-- The declared function type is not that of the parameters and result. -/
  | signatureMismatch (site : FuncRef)
  | emptyBody (site : FuncRef)
  /-- A system call with instructions or labels. -/
  | syscallWithBody (site : FuncRef)
  /-- The entry point does not exist or takes parameters. -/
  | badEntry (module : ModuleId) (func : Nat)
deriving DecidableEq, Repr

namespace BindError

/-- The printed message. -/
def message : BindError → String
  | unknownModule m => s!"unknown module m{m.index}"
  | unknownFunction site index func =>
    site.toText ++ s!"@{index}: unresolved function " ++ func.toText
  | notImported site index m => site.toText ++ s!"@{index}: module m{m.index} is not imported"
  | unknownArgument site index a => site.toText ++ s!"@{index}: unresolved argument {a}"
  | unknownLocal site index v => site.toText ++ s!"@{index}: unresolved local {v}"
  | unknownField site index f =>
    site.toText ++ s!"@{index}: unresolved field " ++ f.owner.toText ++ s!".{f.index}"
  | unknownLabel site index l => site.toText ++ s!"@{index}: unresolved label " ++ l.toText
  | labelPastEnd site l =>
    site.toText ++ ": label " ++ l.toText ++ " is not attached to an instruction"
  | unknownType site type => site.toText ++ ": unknown type " ++ type.toText
  | voidVariable site name => site.toText ++ ": variable `" ++ name ++ "` is void"
  | signatureMismatch site => site.toText ++ ": signature type mismatch"
  | emptyBody site => site.toText ++ ": empty function body"
  | syscallWithBody site => site.toText ++ ": syscall function has a body"
  | badEntry m f => s!"m{m.index}: invalid entry point f{f}"

/-- The number of the diagnostic. -/
def code : BindError → Nat
  | unknownModule .. => 1001
  | unknownFunction .. => 1002
  | notImported .. => 1003
  | unknownArgument .. => 1004
  | unknownLocal .. => 1005
  | unknownField .. => 1006
  | unknownLabel .. => 1007
  | labelPastEnd .. => 1008
  | unknownType .. => 1009
  | voidVariable .. => 1010
  | signatureMismatch .. => 1011
  | emptyBody .. => 1012
  | syscallWithBody .. => 1013
  | badEntry .. => 1014

/-- The error as a diagnostic. -/
def toDiagnostic (e : BindError) : Diagnostic := .error .binding e.code e.message

end BindError

namespace Program

/-- Refuses with a cause unless a condition holds. -/
def demand (ok : Bool) (cause : BindError) : Except BindError Unit :=
  if ok then .ok () else .error cause

/-- The imports exist, and the entry point is a function without parameters. -/
def bindModule (p : Program) (id : ModuleId) (m : ModuleDecl) : Except BindError Unit := do
  m.imports.forM fun i => demand (p.module? i).isSome (.unknownModule i)
  match m.entry with
  | none => .ok ()
  | some entry =>
    demand (m.functions[entry]?.any fun f => f.params.isEmpty) (.badEntry id entry)

/-- A variable has a type with values. -/
def bindVariable (p : Program) (site : FuncRef) (v : Variable) : Except BindError Unit := do
  demand (p.types.contains v.type) (.unknownType site v.type)
  demand (v.type ≠ .void) (.voidVariable site v.name)

/-- The variables and the result have types, and the function type is theirs. -/
def bindSignature (p : Program) (site : FuncRef) (f : FunctionDecl) : Except BindError Unit := do
  (f.params ++ f.locals).forM (p.bindVariable site)
  demand (p.types.contains f.result) (.unknownType site f.result)
  demand (p.types.contains f.signature) (.unknownType site f.signature)
  demand ((p.types.entry? f.signature).any fun e => e.kind = .function f.paramTypes f.result)
    (.signatureMismatch site)

/-- What an instruction names exists. -/
def bindInstr (p : Program) (m : ModuleDecl) (site : FuncRef) (f : FunctionDecl) (index : Nat) :
    Instr → Except BindError Unit
  | .plain _ | .constant _ => .ok ()
  | .argument _ a => demand (a < f.params.length) (.unknownArgument site index a)
  | .localVar _ v => demand (v < f.locals.length) (.unknownLocal site index v)
  | .field _ r => demand (p.types.field? r.owner r.index).isSome (.unknownField site index r)
  | .function _ g => do
    demand (g.module = site.module ∨ (m.importIndex? g.module).isSome)
      (.notImported site index g.module)
    demand (p.function? g).isSome (.unknownFunction site index g)
  | .typed _ type => demand (p.types.contains type) (.unknownType site type)
  | .jump l | .branch _ l => demand (f.labelTarget? l).isSome (.unknownLabel site index l)

/-- A system call has no body; any other function has one, its labels stand at instructions of it,
and what the instructions name exists. -/
def bindBody (p : Program) (m : ModuleDecl) (site : FuncRef) (f : FunctionDecl) :
    Except BindError Unit :=
  match f.implementation with
  | .syscall _ => demand (f.body.isEmpty && f.labels.isEmpty) (.syscallWithBody site)
  | .code => do
    demand (!f.body.isEmpty) (.emptyBody site)
    f.labels.toList.zipIdx.forM fun (target, l) =>
      demand (target < f.body.size) (.labelPastEnd site ⟨l⟩)
    f.body.toList.zipIdx.forM fun (instr, index) => p.bindInstr m site f index instr

/-- A function of a module is bound. -/
def bindFunction (p : Program) (m : ModuleDecl) (site : FuncRef) (f : FunctionDecl) :
    Except BindError Unit := do
  p.bindSignature site f
  p.bindBody m site f

/-- Everything the program names exists. -/
def bind (p : Program) : Except BindError Unit := do
  p.moduleList.forM fun (id, m) => p.bindModule id m
  p.moduleList.forM fun (id, m) =>
    (functionsOf id m).forM fun (site, f) => p.bindFunction m site f

end Program

end StackCode
