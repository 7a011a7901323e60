import StackCode.Code.Emission

/-!
# Compiled modules

The image of a module is its header, an import table of zeros, and the code of its functions.  All
functions are placed before any is written, so every function's offset is known.

## Main definitions

* `CodegenConfig`: the limit on images.
* `CompiledModule`: an image before linking, with what linking and debugging need to know.
* `Program.functionCode`: the operations of a function.
* `Program.compileModule`, `Program.compileModules`: the images of modules.
-/

namespace StackCode

/-- The limits of images. -/
structure CodegenConfig where
  /-- The longest image allowed. -/
  maxImageLength : Nat := 65536
deriving DecidableEq, Repr

/-- An image before linking. -/
structure CompiledModule where
  module : ModuleId
  name : String
  /-- The image, with zeros for the import table. -/
  image : List UInt8
  /-- The capabilities the code needs. -/
  features : Features
  /-- The imported modules, in the order of the import table. -/
  imports : List ModuleId
  /-- The offset of each function's descriptor. -/
  functionOffsets : Array Nat
  /-- For each function the offset of each instruction.  An instruction without code has the offset
  of the next. -/
  instructionOffsets : List (List Nat)
  /-- For each function the offset of each label. -/
  labelOffsets : List (List Nat)
  fixups : List Fixup
deriving DecidableEq

namespace Program

/-- The code of a system call: the call itself and the return of its result. -/
def stubCode (p : Program) (func : FuncRef) (decl : FunctionDecl) (id : UInt16) :
    Checked EncodeError FunctionCode := do
  let frame ← (Frame.ofStub p.types decl).widen (FrameError.located func)
  match ← p.types.returnOp? decl.result with
  | none => .refuse (.frameOverflow func .stack (← p.types.slots decl.result))
  | some ret =>
    return ⟨func, frame.descriptor decl.zeroInit, [[⟨.syscall, .u16 id⟩, ret]], decl.labels⟩

/-- The operations of each instruction of a typed body. -/
def bodyCode (p : Program) (func : FuncRef) (decl : FunctionDecl) (typed : TypedFunction) :
    Checked EncodeError FunctionCode := do
  let frame ← (Frame.ofTyping p.types decl typed.states.toList).widen (FrameError.located func)
  let context : SelectionContext := ⟨p, decl, frame⟩
  let instrs ← typed.instrs.toList.zipIdx.mapM fun (instr, index) =>
    match instr with
    | none => return []
    | some instr => (context.select instr).widen (SelectionError.located func index)
  return ⟨func, frame.descriptor decl.zeroInit, instrs, decl.labels⟩

/-- The operations of a function; `typing` is what verification found. -/
def functionCode (p : Program) (typing : TypedProgram) (func : FuncRef) (decl : FunctionDecl) :
    Checked EncodeError FunctionCode :=
  match decl.implementation with
  | .syscall id => p.stubCode func decl id
  | .code =>
    match typing.function? func with
    | none => .refuse (.unverified func)
    | some typed =>
      if typed.instrs.size = decl.body.size then p.bodyCode func decl typed
      else .refuse (.unverified func)

end Program

/-- The offsets of functions placed one after the other from `start` on, and where they end. -/
def functionOffsets : List PlacedCode → (start : Nat) → Except EncodeError (List Nat × Nat)
  | [], start => .ok ([], start)
  | code :: rest, start =>
    if start < 65536 then do
      let (offsets, finish) ← functionOffsets rest (start + Descriptor.size + code.size)
      return (start :: offsets, finish)
    else .error (.functionOffsetOverflow code.func start)

/-- The offsets of the labels of a function whose code starts at `base`. -/
def PlacedCode.labelOffsets (c : PlacedCode) (base : Nat) : List Nat :=
  let offsets := c.offsets.push c.size
  c.labels.toList.map fun target => base + offsets[target]?.getD 0

/-- The header of the image of a module before linking. -/
def ModuleDecl.header (m : ModuleDecl) (features : Features) (functionOffsets : Array Nat) :
    Header where
  features := features
  moduleCount := 1
  importCount := UInt8.ofNat m.imports.length
  entry := do
    let offset ← functionOffsets[← m.entry]?
    return ⟨Token.thisModule, UInt16.ofNat offset⟩

namespace Program

/-- Writes the image of a module whose functions are placed.  The offsets of instructions and labels
are summed without a limit, which is exact for images of fewer than `wordLimit` bytes: offsets are
words. -/
def writeModule (id : ModuleId) (m : ModuleDecl) (placed : List PlacedCode)
    (offsets : Array Nat) : Except EncodeError CompiledModule := do
  let features := Features.unionAll (placed.map PlacedCode.features)
  let scope : ModuleScope := ⟨id, m.imports, offsets⟩
  let table := List.replicate (m.imports.length * Fingerprint.size) 0
  let start : Emission := ⟨((m.header features offsets).encode ++ table).toArray, #[]⟩
  let written ← placed.foldlM (fun e code => Emission.code scope e code) start
  let based := placed.zip (offsets.toList.map (· + Descriptor.size))
  return {
    module := id
    name := m.name
    image := written.image.toList
    features
    imports := m.imports
    functionOffsets := offsets
    instructionOffsets := based.map fun (code, base) => code.offsets.toList.map (base + ·)
    labelOffsets := based.map fun (code, base) => code.labelOffsets base
    fixups := written.fixups.toList }

/-- The image of a module; `typing` is what verification found. -/
def compileModule (p : Program) (typing : TypedProgram) (config : CodegenConfig) (id : ModuleId) :
    Checked EncodeError CompiledModule :=
  match p.module? id with
  | none => .refuse (.unknownModule id)
  | some m => do
    if Header.maxImports < m.imports.length then
      .refuse (.tooManyImports id m.imports.length)
    let codes ← (functionsOf id m).mapM fun (func, decl) => p.functionCode typing func decl
    let placed ← (codes.mapM FunctionCode.place).mapError .refused
    let (offsets, finish) ←
      (functionOffsets placed (Header.importOffset m.imports.length)).mapError .refused
    if config.maxImageLength < finish then
      .refuse (.imageTooLarge id finish config.maxImageLength)
    (writeModule id m placed offsets.toArray).mapError .refused

/-- The images of all modules, in order, up to the first error. -/
def compileModules (p : Program) (typing : TypedProgram) (config : CodegenConfig) :
    Checked EncodeError (List CompiledModule) :=
  p.moduleList.mapM fun (id, _) => p.compileModule typing config id

end Program

end StackCode
