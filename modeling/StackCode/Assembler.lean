import StackCode.Program.Binding

/-!
# Assembling programs

A program is put together step by step.  Modules and functions are declared first, so that they can
be named before they are complete; a body is collected on its own and handed in when its labels are
placed.  The finished program is bound.

A step that fails leaves the program as it was, except that types interned for it stay.

Modules, functions, labels and instructions are numbered by words.  Past the last word, all of them
get the number of the last one.

## Main definitions

* `BuildError`: why a step fails.
* `BodyBuilder`: a body in the making.
* `Assembler`: a program in the making.
* `Assembler.build`: the finished program.
-/

namespace StackCode

/-- Why a step fails. -/
inductive BuildError where
  | type (e : TypeError)
  | badModule (module : ModuleId)
  | badFuncRef (func : FuncRef)
  /-- The function has a body already. -/
  | alreadyDefined (func : FuncRef)
  /-- A declared function has no body. -/
  | missingFunctionBody (func : FuncRef)
  /-- A label of the body stands nowhere. -/
  | unresolvedLabel (func : FuncRef) (label : Label)
  /-- A label is placed twice, or is none of the body's. -/
  | badLabel (func : FuncRef) (label : Label)
  | bind (e : BindError)
deriving DecidableEq, Repr

namespace BuildError

/-- The printed message. -/
def message : BuildError → String
  | type e => "type error: " ++ e.message
  | badModule m => s!"invalid module id {m.index}"
  | badFuncRef func => "invalid function " ++ func.toText
  | alreadyDefined func => "function " ++ func.toText ++ " is already defined"
  | missingFunctionBody func => "missing function body for " ++ func.toText
  | unresolvedLabel func label =>
    func.toText ++ ": label " ++ label.toText ++ " was never placed"
  | badLabel func label => func.toText ++ ": cannot place label " ++ label.toText
  | bind e => "binding failed: " ++ e.message

/-- The message of the error behind this one. -/
def cause? : BuildError → Option String
  | type e => some e.message
  | bind e => some e.message
  | _ => none

end BuildError

/-- What is declared of a function. -/
structure FunctionSig where
  name : String
  params : List Variable
  locals : List Variable
  result : TypeId
  /-- Whether locals are cleared on entry. -/
  zeroInit : Bool
deriving DecidableEq, Repr

/-- The declaration of a function, without instructions. -/
def FunctionSig.toDecl (sig : FunctionSig) (signature : TypeId) (implementation : Implementation) :
    FunctionDecl where
  name := sig.name
  params := sig.params
  locals := sig.locals
  result := sig.result
  signature := signature
  labels := #[]
  body := #[]
  implementation := implementation
  zeroInit := sig.zeroInit

/-- A body in the making. -/
structure BodyBuilder where
  func : FuncRef
  body : Array Instr := #[]
  /-- The labels made so far, and where those that are placed stand. -/
  labels : Array (Option Nat) := #[]
deriving DecidableEq, Repr

namespace BodyBuilder

/-- The index the next instruction will get. -/
def position (b : BodyBuilder) : Nat := wordIndex b.body.size

/-- Makes a label. -/
def newLabel (b : BodyBuilder) : Label × BodyBuilder :=
  (⟨wordIndex b.labels.size⟩, { b with labels := b.labels.push none })

/-- Puts a label before the next instruction. -/
def place (b : BodyBuilder) (l : Label) : Except BuildError BodyBuilder :=
  match b.labels[l.index]? with
  | some none => .ok { b with labels := b.labels.setIfInBounds l.index (some b.position) }
  | _ => .error (.badLabel b.func l)

/-- Adds an instruction. -/
def push (b : BodyBuilder) (i : Instr) : BodyBuilder := { b with body := b.body.push i }

/-- Where the labels stand; the first label that stands nowhere is an error. -/
def labelTargets (b : BodyBuilder) : Except BuildError (List Nat) :=
  b.labels.toList.zipIdx.mapM fun (target, l) =>
    match target with
    | some target => .ok target
    | none => .error (.unresolvedLabel b.func ⟨wordIndex l⟩)

end BodyBuilder

/-- A declared function. -/
structure FunctionDraft where
  decl : FunctionDecl
  /-- Whether the function has its body; a system call needs none. -/
  defined : Bool
deriving DecidableEq, Repr

/-- A module in the making. -/
structure ModuleDraft where
  name : String
  imports : List ModuleId := []
  functions : Array FunctionDraft := #[]
  entry : Option Nat := none
deriving DecidableEq, Repr

/-- The functions of a module with another one.  A system call needs no body, which is recorded for
the function of its number. -/
def FunctionDraft.addTo (functions : Array FunctionDraft) (decl : FunctionDecl) :
    Array FunctionDraft :=
  match decl.implementation with
  | .code => functions.push ⟨decl, false⟩
  | .syscall _ => (functions.push ⟨decl, false⟩).modify (wordIndex functions.size) fun f =>
    { f with defined := true }

/-- The module with another function. -/
def ModuleDraft.addFunction (m : ModuleDraft) (decl : FunctionDecl) : ModuleDraft :=
  { m with functions := FunctionDraft.addTo m.functions decl }

/-- The module as it stands. -/
def ModuleDraft.toDecl (m : ModuleDraft) : ModuleDecl :=
  ⟨m.name, m.imports, m.functions.map FunctionDraft.decl, m.entry⟩

/-- A program in the making. -/
structure Assembler where
  types : TypeTable := .initial
  modules : Array ModuleDraft := #[]
deriving DecidableEq, Repr

namespace Assembler

/-- Adds a module without imports and functions. -/
def addModule (a : Assembler) (name : String) : ModuleId × Assembler :=
  (⟨wordIndex a.modules.size⟩, { a with modules := a.modules.push { name } })

/-- The module of an id. -/
def module (a : Assembler) (id : ModuleId) : Except BuildError ModuleDraft :=
  match a.modules[id.index]? with
  | some m => .ok m
  | none => .error (.badModule id)

/-- Replaces a module. -/
def setModule (a : Assembler) (id : ModuleId) (m : ModuleDraft) : Assembler :=
  { a with modules := a.modules.setIfInBounds id.index m }

/-- Makes a module import another, once. -/
def addImport (a : Assembler) (id dependency : ModuleId) : Except BuildError Assembler := do
  let _ ← a.module dependency
  let m ← a.module id
  if dependency ∈ m.imports then return a
  return a.setModule id { m with imports := m.imports ++ [dependency] }

/-- Adds a function to a module.  Its function type is interned first. -/
def addFunction (a : Assembler) (id : ModuleId) (sig : FunctionSig)
    (implementation : Implementation) : Except BuildError FuncRef × Assembler :=
  match a.types.function (sig.params.map Variable.type) sig.result with
  | (types, .error e) => (.error (.type e), { a with types })
  | (types, .ok signature) =>
    let a := { a with types }
    match a.module id with
    | .error e => (.error e, a)
    | .ok m =>
      (.ok ⟨id, wordIndex m.functions.size⟩,
        a.setModule id (m.addFunction (sig.toDecl signature implementation)))

/-- Declares a function whose body comes later. -/
def declare (a : Assembler) (id : ModuleId) (sig : FunctionSig) :
    Except BuildError FuncRef × Assembler :=
  a.addFunction id sig .code

/-- Declares a function that is a system call. -/
def declareSyscall (a : Assembler) (id : ModuleId) (sig : FunctionSig) (number : UInt16) :
    Except BuildError FuncRef × Assembler :=
  a.addFunction id sig (.syscall number)

/-- An empty body for a function. -/
def body (func : FuncRef) : BodyBuilder := { func }

/-- Gives a declared function its body. -/
def define (a : Assembler) (b : BodyBuilder) : Except BuildError Assembler := do
  let labels ← b.labelTargets
  match a.modules[b.func.module.index]? with
  | none => .error (.badFuncRef b.func)
  | some m =>
    match m.functions[b.func.index]? with
    | none => .error (.badFuncRef b.func)
    | some f =>
      if f.defined then .error (.alreadyDefined b.func)
      else
        let f : FunctionDraft := ⟨{ f.decl with body := b.body, labels := labels.toArray }, true⟩
        return a.setModule b.func.module
          { m with functions := m.functions.setIfInBounds b.func.index f }

/-- Makes a function the entry point of its module. -/
def setEntry (a : Assembler) (func : FuncRef) : Except BuildError Assembler := do
  let m ← a.module func.module
  if func.index < m.functions.size then
    return a.setModule func.module { m with entry := some func.index }
  .error (.badFuncRef func)

/-- The first function of a module without a body. -/
def missing? (id : ModuleId) (m : ModuleDraft) : Option FuncRef :=
  (m.functions.toList.findIdx? fun f => !f.defined).map fun index => ⟨id, wordIndex index⟩

/-- The finished program: every function has its body, and the program is bound. -/
def build (a : Assembler) : Except BuildError Program := do
  match a.modules.toList.zipIdx.findSome? fun (m, i) => missing? ⟨wordIndex i⟩ m with
  | some func => .error (.missingFunctionBody func)
  | none =>
    let program : Program := ⟨a.types, a.modules.map ModuleDraft.toDecl⟩
    program.bind.mapError .bind
    return program

end Assembler

end StackCode
