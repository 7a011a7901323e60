import StackCode.Bytes.Hex
import StackCode.Digest.Sha256

/-!
# Fingerprints

A linked module is named by the content of its image: its fingerprint is the first twelve bytes of
the digest of the image.  Import tables hold fingerprints, so an image names everything it imports
by content too.

## Main definitions

* `Fingerprint`: twelve bytes.
* `Fingerprint.ofImage`: the fingerprint of an image.
-/

namespace StackCode

/-- The content address of an image. -/
@[ext] structure Fingerprint where
  /-- The bytes as written to an import slot. -/
  bytes : List UInt8
  length_eq : bytes.length = 12
deriving DecidableEq, Repr

namespace Fingerprint

/-- The number of bytes of a fingerprint. -/
def size : Nat := 12

/-- Twelve bytes as a fingerprint. -/
def ofBytes? (bytes : List UInt8) : Option Fingerprint :=
  if h : bytes.length = 12 then some ⟨bytes, h⟩ else none

/-- The fingerprint of an image: the first twelve bytes of its digest. -/
def ofImage (image : List UInt8) : Fingerprint :=
  ⟨(Sha256.digest image).take 12, by simp [Sha256.length_digest]⟩

/-- The fingerprint of which every byte is zero, as found in an import table before linking. -/
def zero : Fingerprint := ⟨List.replicate 12 0, rfl⟩

instance : Inhabited Fingerprint := ⟨zero⟩

/-- Fingerprints are ordered as byte strings. -/
instance : Ord Fingerprint := ⟨fun a b => compare a.bytes b.bytes⟩

/-- The printed form, which is also the stem of the file a module is stored in. -/
def toText (f : Fingerprint) : String := Hex.ofBytes f.bytes

@[simp] theorem ofBytes?_bytes (f : Fingerprint) : ofBytes? f.bytes = some f := by
  simp [ofBytes?, f.length_eq]

end Fingerprint

end StackCode
