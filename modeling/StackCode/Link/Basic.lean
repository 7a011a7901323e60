import StackCode.Code.Module

/-!
# Linked modules

A linked module is named by the fingerprint of its image.  The image holds the fingerprints of its
imports, so it names everything it depends on by content.

## Main definitions

* `LinkError`: why a module cannot be linked.
* `LinkedModule`: an image with its fingerprint.
* `CompiledModule.link`: links a module whose imports are linked.
-/

namespace StackCode

/-- Why a module cannot be linked. -/
inductive LinkError where
  /-- The module closes a chain of imports that starts and ends with one module. -/
  | circularImport (module : ModuleId) (cycle : List ModuleId)
  | unknownModule (module : ModuleId)
  /-- There are more modules in the import closure than the header can count. -/
  | moduleCountOverflow (module : ModuleId) (count : Nat)
  /-- A place of the image cannot be filled in. -/
  | badFixup (module : ModuleId) (offset : Nat)
deriving DecidableEq, Repr

namespace LinkError

/-- The printed message. -/
def message : LinkError → String
  | circularImport m cycle =>
    s!"circular import while linking module {m.index}: " ++
      " -> ".intercalate (cycle.map fun c => toString c.index)
  | unknownModule m => s!"unknown module {m.index}"
  | moduleCountOverflow m count =>
    s!"module {m.index}: import closure of {count} modules exceeds 255"
  | badFixup m offset => s!"module {m.index}: cannot patch import token at {offset}"

/-- The number of the diagnostic. -/
def code : LinkError → Nat
  | circularImport .. => 4001
  | unknownModule .. => 4002
  | moduleCountOverflow .. => 4003
  | badFixup .. => 4004

/-- The error as a diagnostic. -/
def toDiagnostic (e : LinkError) : Diagnostic := .error .linking e.code e.message

end LinkError

/-- A linked module. -/
structure LinkedModule where
  module : ModuleId
  name : String
  /-- The fingerprint of the image. -/
  fingerprint : Fingerprint
  image : List UInt8
  /-- The capabilities the code needs. -/
  features : Features
  /-- The number of modules in the import closure, this one included. -/
  moduleCount : UInt8
  /-- The imported modules, in the order of the import table. -/
  imports : List ModuleId
  /-- The fingerprints in the import table. -/
  importFingerprints : List Fingerprint
  /-- The offset of each function's descriptor. -/
  functionOffsets : Array Nat
  /-- For each function the offset of each instruction. -/
  instructionOffsets : List (List Nat)
deriving DecidableEq

namespace CompiledModule

/-- Writes the fingerprints of the imports to the import table. -/
def writeImports (m : CompiledModule) (image : Array UInt8) (imports : List Fingerprint) :
    Except LinkError (Array UInt8) :=
  imports.zipIdx.foldlM (fun image (fingerprint, slot) =>
    match overwrite? image (Header.importOffset slot) fingerprint.bytes with
    | some image => .ok image
    | none => .error (.badFixup m.module (Header.importOffset slot))) image

/-- Writes the number of modules to the header. -/
def writeCount (m : CompiledModule) (image : Array UInt8) (count : UInt8) :
    Except LinkError (Array UInt8) :=
  match overwrite? image Header.moduleCountOffset [count] with
  | some image => .ok image
  | none => .error (.badFixup m.module Header.moduleCountOffset)

/-- The token a fixup is for; `offsets` gives the function offsets of linked modules. -/
def fixupToken? (m : CompiledModule) (offsets : ModuleId → Option (Array Nat)) (f : Fixup) :
    Option Token := do
  let dependency ← m.imports[f.slot.toNat]?
  let offset ← (← offsets dependency)[f.callee.index]?
  if offset < 65536 then some ⟨f.slot, UInt16.ofNat offset⟩ else none

/-- Writes the tokens for functions of imported modules. -/
def writeTokens (m : CompiledModule) (offsets : ModuleId → Option (Array Nat))
    (image : Array UInt8) : Except LinkError (Array UInt8) :=
  m.fixups.foldlM (fun image f =>
    match m.fixupToken? offsets f with
    | none => .error (.badFixup m.module f.offset)
    | some token =>
      match token.patch image f.offset with
      | .ok image => .ok image
      | .error _ => .error (.badFixup m.module f.offset)) image

/-- Links a module, given the fingerprints of its imports, the size of its import closure and the
function offsets of linked modules. -/
def link (m : CompiledModule) (imports : List Fingerprint) (count : UInt8)
    (offsets : ModuleId → Option (Array Nat)) : Except LinkError LinkedModule := do
  let image ← m.writeImports m.image.toArray imports
  let image ← m.writeCount image count
  let image ← m.writeTokens offsets image
  let bytes := image.toList
  return {
    module := m.module
    name := m.name
    fingerprint := .ofImage bytes
    image := bytes
    features := m.features
    moduleCount := count
    imports := m.imports
    importFingerprints := imports
    functionOffsets := m.functionOffsets
    instructionOffsets := m.instructionOffsets }

end CompiledModule

end StackCode
