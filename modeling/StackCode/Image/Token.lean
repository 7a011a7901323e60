import StackCode.Bytes.Overwrite
import StackCode.Image.Decoder

/-!
# Function tokens

Code refers to a function by a token: a byte that names a module and the offset of the function's
descriptor in that module's image.  The module byte is an index into the import table, or `0xFF` for
the module the code is in.

## Main definitions

* `Token`: a reference to a function in an image.
* `Token.encode`, `Token.decoder`: the three bytes of a token.
* `Token.patch`: overwrites a token in an image.
-/

namespace StackCode

/-- A reference to a function: its module and the offset of its descriptor. -/
structure Token where
  /-- An import index, or `Token.thisModule`. -/
  module : UInt8
  /-- The offset of the descriptor in the image of that module. -/
  offset : UInt16
deriving DecidableEq, Repr

namespace Token

/-- The module byte of the module a token stands in. -/
def thisModule : UInt8 := 0xFF

/-- The number of bytes of a token. -/
def size : Nat := 3

/-- The bytes of a token. -/
def encode (t : Token) : List UInt8 := t.module :: LittleEndian.encode 2 t.offset.toNat

/-- Reads a token. -/
def decoder : Decoder Token := do
  let module ← Decoder.u8
  let offset ← Decoder.u16
  pure ⟨module, offset⟩

/-- Writes the token over the three bytes at an offset, if the image has them. -/
def patch (t : Token) (image : Array UInt8) (offset : Nat) : Except DecodeError (Array UInt8) :=
  match overwrite? image offset t.encode with
  | some image => .ok image
  | none => .error .outOfBounds

/-- The printed form. -/
def toText (t : Token) : String :=
  if t.module = thisModule then "self+0x" ++ Hex.ofNat 4 t.offset.toNat
  else s!"import{t.module.toNat}+0x" ++ Hex.ofNat 4 t.offset.toNat

@[simp] theorem length_encode (t : Token) : t.encode.length = 3 := by
  simp [encode]

end Token

end StackCode
