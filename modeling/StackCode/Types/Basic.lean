import StackCode.Diagnostic

/-!
# Types

A type is known by its id in a type table.  The kind of a type gives its shape; the components of a
kind are ids again.  Sizes and alignments are counted in bytes and fit in 32 bits, and frames count
in slots of four bytes.

## Main definitions

* `TypeId`, `Primitive`, `TypeKind`: what a type is.
* `Layout`: the size and alignment of a type, with `Layout.slots`.
* `StructDecl`: a declared structure.
* `TypeError`: why a type was refused.
-/

namespace StackCode

/-- The number of a type in its table. -/
structure TypeId where
  index : Nat
deriving DecidableEq, Repr

/-- The types every table starts with. -/
inductive Primitive where
  | void
  | bool
  | int8
  | int16
  | int32
  | int64
  | uint8
  | uint16
  | uint32
  | uint64
  | float32
  | float64
  /-- The type of the null reference. -/
  | null
deriving DecidableEq, Repr

namespace Primitive

/-- The primitives in the order of their ids. -/
def all : List Primitive :=
  [void, bool, int8, int16, int32, int64, uint8, uint16, uint32, uint64, float32, float64, null]

/-- The position of a primitive, which is its id in every table. -/
def index : Primitive → Nat
  | void => 0
  | bool => 1
  | int8 => 2
  | int16 => 3
  | int32 => 4
  | int64 => 5
  | uint8 => 6
  | uint16 => 7
  | uint32 => 8
  | uint64 => 9
  | float32 => 10
  | float64 => 11
  | null => 12

/-- The id of a primitive. -/
def id (p : Primitive) : TypeId := ⟨p.index⟩

/-- The printed name. -/
def name : Primitive → String
  | void => "void"
  | bool => "bool"
  | int8 => "int8"
  | int16 => "int16"
  | int32 => "int32"
  | int64 => "int64"
  | uint8 => "uint8"
  | uint16 => "uint16"
  | uint32 => "uint32"
  | uint64 => "uint64"
  | float32 => "float32"
  | float64 => "float64"
  | null => "null"

/-- The class verification puts a primitive in: integers of one width are not told apart. -/
def verification : Primitive → Primitive
  | bool | int8 | uint8 => int8
  | int16 | uint16 => int16
  | int32 | uint32 => int32
  | int64 | uint64 => int64
  | p => p

/-- The class of a primitive on the operand stack, where integers are at least 32 bits wide. -/
def stack (p : Primitive) : Primitive :=
  match p.verification with
  | int8 | int16 => int32
  | q => q

end Primitive

namespace TypeId

/-- No value. -/
def void : TypeId := ⟨0⟩

/-- Truth values. -/
def bool : TypeId := ⟨1⟩

/-- Signed 8-bit integers. -/
def int8 : TypeId := ⟨2⟩

/-- Signed 16-bit integers. -/
def int16 : TypeId := ⟨3⟩

/-- Signed 32-bit integers. -/
def int32 : TypeId := ⟨4⟩

/-- Signed 64-bit integers. -/
def int64 : TypeId := ⟨5⟩

/-- Unsigned 8-bit integers. -/
def uint8 : TypeId := ⟨6⟩

/-- Unsigned 16-bit integers. -/
def uint16 : TypeId := ⟨7⟩

/-- Unsigned 32-bit integers. -/
def uint32 : TypeId := ⟨8⟩

/-- Unsigned 64-bit integers. -/
def uint64 : TypeId := ⟨9⟩

/-- Single precision numbers. -/
def float32 : TypeId := ⟨10⟩

/-- Double precision numbers. -/
def float64 : TypeId := ⟨11⟩

/-- The null reference. -/
def null : TypeId := ⟨12⟩

/-- The printed form of an id. -/
def toText (t : TypeId) : String := s!"t{t.index}"

end TypeId

/-- The shape of a type. -/
inductive TypeKind where
  | primitive (p : Primitive)
  /-- A reference to a value of the target type. -/
  | reference (target : TypeId)
  /-- A fixed number of elements. -/
  | array (element : TypeId) (length : Nat)
  /-- A view of elements: an address and a count. -/
  | span (element : TypeId)
  | function (params : List TypeId) (result : TypeId)
  /-- The declared structure of this number. -/
  | struct (decl : Nat)
deriving DecidableEq, Repr

namespace TypeKind

/-- The target of a reference kind. -/
def referent? : TypeKind → Option TypeId
  | reference target => some target
  | _ => none

/-- Whether values of the kind are references. -/
def isReference : TypeKind → Bool
  | reference _ => true
  | _ => false

/-- Whether values of the kind hold an address: references and spans. -/
def carriesAddress : TypeKind → Bool
  | reference _ | span _ => true
  | _ => false

end TypeKind

/-- Sizes, offsets and sums of them are 32-bit words; this is the first number past them. -/
def wordLimit : Nat := 4294967296

/-- The number of the thing at a position.  Numbers are words; all things past the last number share
it. -/
def wordIndex (position : Nat) : Nat := min position (wordLimit - 1)

/-- The size and alignment of a type, in bytes. -/
structure Layout where
  size : Nat
  align : Nat
deriving DecidableEq, Repr

namespace Layout

/-- One slot: references, functions and 32-bit numbers. -/
def word : Layout := ⟨4, 4⟩

/-- The slots a value takes. -/
def slots (l : Layout) : Nat := (l.size + 3) / 4

/-- The least multiple of `align` that is not below `value`, if the rounding stays below the word
limit. -/
def alignUp? (value align : Nat) : Option Nat :=
  if value + (align - 1) < wordLimit then some ((value + (align - 1)) / align * align) else none

end Layout

/-- The layout of a primitive. -/
def Primitive.layout : Primitive → Layout
  | void => ⟨0, 1⟩
  | bool | int8 | uint8 => ⟨1, 1⟩
  | int16 | uint16 => ⟨2, 2⟩
  | int64 | uint64 | float64 => ⟨8, 8⟩
  | int32 | uint32 | float32 | null => ⟨4, 4⟩

/-- A field of a structure. -/
structure Field where
  name : String
  type : TypeId
  /-- The offset from the start of the structure, in bytes. -/
  offset : Nat
deriving DecidableEq, Repr

/-- A declared structure. -/
structure StructDecl where
  name : String
  fields : List Field
deriving DecidableEq, Repr

/-- Why a type was refused. -/
inductive TypeError where
  /-- The name of a structure is taken. -/
  | duplicateStruct (name : String)
  /-- An id is outside the table. -/
  | unknownType (type : TypeId)
  /-- `void` or `null` in the place of a value type. -/
  | invalidElement (type : TypeId)
  /-- A size or offset does not fit in 32 bits. -/
  | layoutOverflow
deriving DecidableEq, Repr

namespace TypeError

/-- The printed message. -/
def message : TypeError → String
  | duplicateStruct name => "struct `" ++ name ++ "` declared twice"
  | unknownType type => s!"unknown type id {type.index}"
  | invalidElement type => s!"type id {type.index} cannot be used as a value type"
  | layoutOverflow => "type layout overflows 32 bits"

/-- The number of the diagnostic. -/
def code : TypeError → Nat
  | duplicateStruct _ => 5001
  | unknownType _ => 5002
  | invalidElement _ => 5003
  | layoutOverflow => 5004

/-- The error as a diagnostic. -/
def toDiagnostic (e : TypeError) : Diagnostic := .error .types e.code e.message

end TypeError

end StackCode
