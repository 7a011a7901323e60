import StackCode.Image.Decoder

/-!
# Function descriptors

The code of a function is preceded by four bytes that size its frame: a flag byte, the deepest
operand stack, the argument slots and the local slots.

## Main definitions

* `Descriptor`: the frame sizes of a function.
* `Descriptor.encode`, `Descriptor.decoder`: its four bytes.
-/

namespace StackCode

/-- The frame sizes of a function, in slots. -/
structure Descriptor where
  /-- Whether locals are cleared on entry. -/
  zeroInit : Bool
  /-- The deepest operand stack. -/
  maxStack : UInt8
  /-- The slots of the arguments. -/
  argSlots : UInt8
  /-- The slots of the locals. -/
  localSlots : UInt8
deriving DecidableEq, Repr

namespace Descriptor

/-- The number of bytes of a descriptor. -/
def size : Nat := 4

/-- The bytes of a descriptor. -/
def encode (d : Descriptor) : List UInt8 :=
  [if d.zeroInit then 1 else 0, d.maxStack, d.argSlots, d.localSlots]

/-- Reads a descriptor; of the flag byte only the lowest bit counts. -/
def decoder : Decoder Descriptor := do
  let flags ← Decoder.u8
  let maxStack ← Decoder.u8
  let argSlots ← Decoder.u8
  let localSlots ← Decoder.u8
  pure ⟨flags &&& 1 != 0, maxStack, argSlots, localSlots⟩

end Descriptor

end StackCode
