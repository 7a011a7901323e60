import StackCode.Image.Token

/-!
# Operations

An operation is an opcode with its operand.  Operations occur in two stages: selected from
instructions, where functions and branch targets are still names, and in an image, where functions
are tokens and branch targets are offsets.  Both are the same type with other names.

## Main definitions

* `Operand`, `Operation`: operations over any names of functions and targets.
* `Operation.encode`: the bytes of an operation of an image.
-/

namespace StackCode

/-- The operand of an operation; `φ` names functions and `τ` names branch targets. -/
inductive Operand (φ τ : Type) where
  | none
  | u8 (value : UInt8)
  | u16 (value : UInt16)
  | func (f : φ)
  /-- A constructor and the slots of the object. -/
  | funcSlots (f : φ) (slots : UInt8)
  | i32 (value : Int32)
  | i64 (value : Int64)
  | f32 (bits : UInt32)
  | f64 (bits : UInt64)
  | slot (index : UInt8)
  /-- A slot and how many slots from there on. -/
  | slotCount (index count : UInt8)
  /-- The offset of a field. -/
  | offset (value : UInt16)
  /-- The offset and size of a field. -/
  | offsetSize (offset size : UInt16)
  /-- The size of an element or block. -/
  | size (value : UInt16)
  | target (t : τ)
deriving DecidableEq, Repr

/-- An opcode with its operand. -/
structure Operation (φ τ : Type) where
  opcode : Opcode
  operand : Operand φ τ
deriving DecidableEq, Repr

/-- Whether a displacement fits in one signed byte. -/
def fitsShort (displacement : Int) : Bool := -128 ≤ displacement ∧ displacement ≤ 127

/-- Whether a displacement fits in a signed 16-bit word. -/
def fitsLong (displacement : Int) : Bool := -32768 ≤ displacement ∧ displacement ≤ 32767

/-- The bytes of a displacement; a displacement that does not fit is the error. -/
def encodeDisplacement (shape : Shape) (displacement : Int) : Except Int (List UInt8) :=
  match shape with
  | .rel8 =>
    if fitsShort displacement then .ok (LittleEndian.encodeInt 1 displacement)
    else .error displacement
  | _ =>
    if fitsLong displacement then .ok (LittleEndian.encodeInt 2 displacement)
    else .error displacement

namespace Operation

variable {φ τ : Type}

/-- An operation without an operand. -/
def bare (opcode : Opcode) : Operation φ τ := ⟨opcode, .none⟩

/-- The encoded length. -/
def length (op : Operation φ τ) : Nat := op.opcode.length

/-- The greatest length the operation can get: branches may be given their long form. -/
def maxLength (op : Operation φ τ) : Nat :=
  match op.opcode.longForm? with
  | some long => long.length
  | none => op.opcode.length

/-- The bytes of an operand; `finish` is the offset displacements count from. -/
def encodeOperand (shape : Shape) (finish : Nat) : Operand Token Nat → Except Int (List UInt8)
  | .none => .ok []
  | .u8 value | .slot value => .ok [value]
  | .u16 value | .offset value | .size value => .ok (LittleEndian.encode 2 value.toNat)
  | .func token => .ok token.encode
  | .funcSlots token slots => .ok (token.encode ++ [slots])
  | .i32 value => .ok (LittleEndian.encodeInt 4 value.toInt)
  | .i64 value => .ok (LittleEndian.encodeInt 8 value.toInt)
  | .f32 bits => .ok (LittleEndian.encode 4 bits.toNat)
  | .f64 bits => .ok (LittleEndian.encode 8 bits.toNat)
  | .slotCount index count => .ok [index, count]
  | .offsetSize offset size =>
    .ok (LittleEndian.encode 2 offset.toNat ++ LittleEndian.encode 2 size.toNat)
  | .target offset => encodeDisplacement shape ((offset : Int) - finish)

/-- The bytes of an operation that starts at an offset of an image.  Displacements count from the
end of the operation. -/
def encode (op : Operation Token Nat) (start : Nat) : Except Int (List UInt8) := do
  let operand ← encodeOperand op.opcode.shape (start + op.opcode.length) op.operand
  return op.opcode.byte :: operand

end Operation

end StackCode
