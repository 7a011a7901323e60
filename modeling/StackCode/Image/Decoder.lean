import StackCode.Bytes.Hex
import StackCode.Bytes.LittleEndian
import StackCode.Opcode.Encoding

/-!
# Decoding bytes

A decoder reads from a cursor: the bytes still to come and the offset they start at.  A failed read
reports its cause and leaves the cursor where the failing part began, so a compound read that fails
midway has consumed the parts before.

## Main definitions

* `DecodeError`: why decoding stopped.
* `Cursor`: a position in a byte string.
* `Decoder`: computations that read from a cursor.
* `Decoder.take`, `Decoder.nat`, `Decoder.int`, `Decoder.opcode`: the basic reads.
-/

namespace StackCode

/-- Why decoding stopped. -/
inductive DecodeError where
  /-- The bytes ran out. -/
  | unexpectedEnd
  /-- An offset or length lies outside the image. -/
  | outOfBounds
  /-- The image is of another format version. -/
  | unsupportedVersion (version : UInt8)
  /-- A byte in the place of an opcode stands for none. -/
  | unknownOpcode (offset : Nat) (byte : UInt8)
deriving DecidableEq, Repr

/-- The printed message. -/
def DecodeError.message : DecodeError → String
  | unexpectedEnd => "unexpected end of input"
  | outOfBounds => "out of bounds"
  | unsupportedVersion version => s!"unsupported version {version.toNat}"
  | unknownOpcode offset byte =>
    "unknown opcode 0x" ++ Hex.ofNat 2 byte.toNat ++ s!" at offset {offset}"

/-- A position in a byte string. -/
structure Cursor where
  /-- The bytes still to be read. -/
  rest : List UInt8
  /-- The offset of the next byte. -/
  offset : Nat
deriving DecidableEq, Repr

namespace Cursor

/-- The cursor at the start of a byte string. -/
def start (bytes : List UInt8) : Cursor := ⟨bytes, 0⟩

/-- The cursor at an offset, which may be the end but not past it. -/
def at? (bytes : List UInt8) (offset : Nat) : Except DecodeError Cursor :=
  if offset ≤ bytes.length then .ok ⟨bytes.drop offset, offset⟩ else .error .outOfBounds

/-- Whether every byte has been read. -/
def atEnd (c : Cursor) : Bool := c.rest.isEmpty

end Cursor

/-- A computation that reads from a cursor. -/
abbrev Decoder := EStateM DecodeError Cursor

/-- Splits off exactly `n` elements, if there are as many. -/
def splitExact? {α : Type} : Nat → List α → Option (List α × List α)
  | 0, xs => some ([], xs)
  | _ + 1, [] => none
  | n + 1, x :: xs =>
    match splitExact? n xs with
    | some (front, back) => some (x :: front, back)
    | none => none

@[simp] theorem splitExact?_append {α : Type} (front back : List α) :
    splitExact? front.length (front ++ back) = some (front, back) := by
  induction front with
  | nil => rfl
  | cons x front ih => simp [splitExact?, ih]

theorem eq_append_of_splitExact? {α : Type} {n : Nat} {xs front back : List α}
    (h : splitExact? n xs = some (front, back)) : xs = front ++ back ∧ front.length = n := by
  induction n generalizing xs front with
  | zero => simp_all [splitExact?]
  | succ n ih =>
    cases xs with
    | nil => simp [splitExact?] at h
    | cons x xs =>
      simp only [splitExact?] at h
      split at h
      next front' back' hs =>
        obtain ⟨rfl, rfl⟩ : x :: front' = front ∧ back' = back := by simpa using h
        obtain ⟨rfl, rfl⟩ := ih hs
        simp
      next => simp at h

namespace Decoder

/-- The next `n` bytes. -/
def take (n : Nat) : Decoder (List UInt8) := fun c =>
  match splitExact? n c.rest with
  | some (front, back) => .ok front ⟨back, c.offset + n⟩
  | none => .error .unexpectedEnd c

/-- The next `n` bytes, for any length a caller may ask for: a range that ends past the last 64-bit
offset is out of bounds before it is too long. -/
def bytes (n : Nat) : Decoder (List UInt8) := fun c =>
  if c.offset + n < 18446744073709551616 then take n c else .error .outOfBounds c

/-- An unsigned word of `width` bytes. -/
def nat (width : Nat) : Decoder Nat := LittleEndian.decode <$> take width

/-- A signed word of `width` bytes. -/
def int (width : Nat) : Decoder Int := LittleEndian.decodeInt <$> take width

/-- One byte. -/
def u8 : Decoder UInt8 := UInt8.ofNat <$> nat 1

/-- A 16-bit word. -/
def u16 : Decoder UInt16 := UInt16.ofNat <$> nat 2

/-- An opcode byte. -/
def opcode : Decoder Opcode := do
  let offset := (← get).offset
  let byte ← u8
  match Opcode.ofByte? byte with
  | some o => pure o
  | none => throw (.unknownOpcode offset byte)

/-- Runs a decoder and forgets where it ended. -/
def value {α : Type} (d : Decoder α) (c : Cursor) : Except DecodeError α :=
  match d c with
  | .ok a _ => .ok a
  | .error e _ => .error e

end Decoder

end StackCode
