import StackCode.Fingerprint
import StackCode.Image.Token

/-!
# Image headers

An image starts with a header of eight bytes: the format version, the capabilities its code needs,
the number of modules in its import closure, the number of its imports, and the entry field.  The
entry field is a `call` of the entry function, or as many `nop`s when there is no entry.  The import
table follows, one fingerprint for each import, and then the functions.

## Main definitions

* `Header`: the fields of a header.
* `Header.encode`, `Header.decode`: the eight bytes of a header.
* `Header.importAt`: an entry of the import table.
-/

namespace StackCode

/-- The fixed part of an image before the import table. -/
structure Header where
  /-- The capabilities the code needs. -/
  features : Features
  /-- The number of modules in the import closure, this one included. -/
  moduleCount : UInt8
  /-- The number of imports. -/
  importCount : UInt8
  /-- The entry function. -/
  entry : Option Token
deriving DecidableEq, Repr

namespace Header

/-- The format version written to every image. -/
def version : UInt8 := 1

/-- The number of bytes of a header. -/
def size : Nat := 8

/-- The offset of the module count. -/
def moduleCountOffset : Nat := 2

/-- The offset of the entry field. -/
def entryOffset : Nat := 4

/-- The offset of import slot `index`. -/
def importOffset (index : Nat) : Nat := size + index * Fingerprint.size

/-- The most imports a module can have: one module byte is taken by the module itself. -/
def maxImports : Nat := 255

/-- The bytes of the entry field. -/
def encodeEntry : Option Token → List UInt8
  | some token => Opcode.call.byte :: token.encode
  | none => List.replicate Opcode.call.length Opcode.nop.byte

/-- The bytes of a header. -/
def encode (h : Header) : List UInt8 :=
  [version, h.features.bits, h.moduleCount, h.importCount] ++ encodeEntry h.entry

/-- Reads as many `nop`s. -/
def nops : Nat → Decoder Unit
  | 0 => pure ()
  | n + 1 => do
    let o ← Decoder.opcode
    if o = .nop then nops n else throw .outOfBounds

/-- Reads the entry field. -/
def entryDecoder : Decoder (Option Token) := do
  match ← Decoder.opcode with
  | .call => some <$> Token.decoder
  | .nop => do
    nops (Opcode.call.length - 1)
    pure none
  | o => throw (.unknownOpcode entryOffset o.byte)

/-- Reads a header. -/
def decoder : Decoder Header := do
  let found ← Decoder.u8
  if found ≠ version then throw (.unsupportedVersion found)
  let features ← Decoder.u8
  let moduleCount ← Decoder.u8
  let importCount ← Decoder.u8
  let entry ← entryDecoder
  pure ⟨⟨features⟩, moduleCount, importCount, entry⟩

/-- The header at the start of an image. -/
def decode (image : List UInt8) : Except DecodeError Header :=
  decoder.value (.start image)

/-- The offset of the first function. -/
def codeStart (h : Header) : Nat := importOffset h.importCount.toNat

/-- Reads a fingerprint. -/
def fingerprintDecoder : Decoder Fingerprint := do
  let bytes ← Decoder.take Fingerprint.size
  match Fingerprint.ofBytes? bytes with
  | some f => pure f
  | none => throw .unexpectedEnd

/-- Import slot `index` of an image. -/
def importAt (image : List UInt8) (index : Nat) : Except DecodeError Fingerprint := do
  let c ← Cursor.at? image (importOffset index)
  fingerprintDecoder.value c

end Header

end StackCode
