import StackCode.Code.Placement

/-!
# Emission

Placed code is written to the end of an image: the descriptor, then the operations.  Labels become
offsets and functions become tokens.  A function of the same module is found in the table of
function offsets; for a function of an imported module the token names the import, and its offset is
left to be fixed up when the module is linked.

## Main definitions

* `Fixup`: a token that waits for an imported module.
* `ModuleScope`: what tokens are resolved against.
* `Emission`: an image being written.
* `Emission.code`: writes the code of a function.
-/

namespace StackCode

/-- A token whose offset is known when the imported module is linked. -/
structure Fixup where
  /-- The offset of the token in the image. -/
  offset : Nat
  /-- The position of the module in the import table. -/
  slot : UInt8
  /-- The function the token is for. -/
  callee : FuncRef
deriving DecidableEq, Repr

/-- What tokens of a module are resolved against. -/
structure ModuleScope where
  module : ModuleId
  imports : List ModuleId
  /-- The offset of each function of the module. -/
  functionOffsets : Array Nat
deriving DecidableEq

namespace ModuleScope

/-- The position of a module in the import table. -/
def importSlot? (s : ModuleScope) (m : ModuleId) : Option UInt8 :=
  match s.imports.findIdx? (· = m) with
  | some slot => if slot < 256 then some (UInt8.ofNat slot) else none
  | none => none

/-- The offset of a function of the module. -/
def functionOffset? (s : ModuleScope) (index : Nat) : Option UInt16 :=
  match s.functionOffsets[index]? with
  | some offset => if offset < 65536 then some (UInt16.ofNat offset) else none
  | none => none

/-- The token for a function named by instruction `index` of `func`. -/
def token (s : ModuleScope) (func : FuncRef) (index : Nat) (callee : FuncRef) :
    Except EncodeError Token :=
  if callee.module = s.module then
    match s.functionOffset? callee.index with
    | some offset => .ok ⟨Token.thisModule, offset⟩
    | none => .error (.unbound func index)
  else
    match s.importSlot? callee.module with
    | some slot => .ok ⟨slot, 0⟩
    | none => .error (.notImported func index callee.module)

/-- The operand of an operation of `code`, whose operations start at `base` of the image, with
tokens and offsets for names. -/
def operand (s : ModuleScope) (code : PlacedCode) (base index : Nat) :
    Operand FuncRef Label → Except EncodeError (Operand Token Nat)
  | .none => .ok .none
  | .u8 value => .ok (.u8 value)
  | .u16 value => .ok (.u16 value)
  | .func f => do return .func (← s.token code.func index f)
  | .funcSlots f slots => do return .funcSlots (← s.token code.func index f) slots
  | .i32 value => .ok (.i32 value)
  | .i64 value => .ok (.i64 value)
  | .f32 bits => .ok (.f32 bits)
  | .f64 bits => .ok (.f64 bits)
  | .slot slot => .ok (.slot slot)
  | .slotCount slot count => .ok (.slotCount slot count)
  | .offset value => .ok (.offset value)
  | .offsetSize offset size => .ok (.offsetSize offset size)
  | .size value => .ok (.size value)
  | .target l =>
    match code.targetOffset? l with
    | some offset => .ok (.target (base + offset))
    | none => .error (.unbound code.func index)

/-- The fixup an operation at `offset` of the image leaves. -/
def fixup? (s : ModuleScope) (offset : Nat) (op : SelectedOp) : Option Fixup :=
  match op.operand with
  | .func callee | .funcSlots callee _ =>
    if callee.module = s.module then none
    else (s.importSlot? callee.module).map fun slot => ⟨offset + 1, slot, callee⟩
  | _ => none

end ModuleScope

/-- An image being written. -/
structure Emission where
  image : Array UInt8
  fixups : Array Fixup
deriving DecidableEq

namespace Emission

/-- Writes an operation of instruction `index` of `code`. -/
def op (s : ModuleScope) (code : PlacedCode) (base index : Nat) (e : Emission) (op : SelectedOp) :
    Except EncodeError Emission := do
  let start := e.image.size
  let operand ← s.operand code base index op.operand
  match Operation.encode ⟨op.opcode, operand⟩ start with
  | .ok bytes => return ⟨e.image ++ bytes, e.fixups ++ (s.fixup? start op).toList⟩
  | .error displacement => .error (.branchOverflow code.func index displacement)

/-- Writes the descriptor and the operations of a function. -/
def code (s : ModuleScope) (e : Emission) (code : PlacedCode) : Except EncodeError Emission := do
  let e : Emission := { e with image := e.image ++ code.descriptor.encode }
  let base := e.image.size
  code.instrs.zipIdx.foldlM (fun e (ops, index) =>
    ops.foldlM (fun e op => Emission.op s code base index e op) e) e

end Emission

end StackCode
