import StackCode.Features
import StackCode.Operator

/-!
# Opcodes

The target instruction set.  Opcodes come in regular families: an operator together with the class
or width of its operands, a memory access together with the kind of place and the form of the cell,
a branch condition together with a width and a branch form.  The families are the constructors;
their parameters are the variants.

## Main definitions

* `Opcode`: the opcodes.
* `Shape`: what follows an opcode byte, with its length.
* `Opcode.shape`, `Opcode.features`, `Opcode.length`: the properties of an opcode.
* `Opcode.longForm?`, `Opcode.shortForm?`: the two forms of a branch.
-/

namespace StackCode

/-- The classes of numbers an operator works on. -/
inductive Numeric where
  | i32
  | i64
  | f32
  | f64
deriving DecidableEq, Repr

namespace Numeric

/-- The classes in encoding order. -/
def all : List Numeric := [i32, i64, f32, f64]

/-- The position in encoding order. -/
def index : Numeric → Nat
  | i32 => 0
  | i64 => 1
  | f32 => 2
  | f64 => 3

/-- The printed name. -/
def name : Numeric → String
  | i32 => "i32"
  | i64 => "i64"
  | f32 => "f32"
  | f64 => "f64"

/-- The capability a class needs. -/
def features : Numeric → Features
  | i32 => .none
  | i64 => .int64
  | f32 => .float32
  | f64 => .float64

end Numeric

/-- The two integer widths. -/
inductive IntWidth where
  | w32
  | w64
deriving DecidableEq, Repr

namespace IntWidth

/-- The widths in encoding order. -/
def all : List IntWidth := [w32, w64]

/-- The position in encoding order. -/
def index : IntWidth → Nat
  | w32 => 0
  | w64 => 1

/-- The printed name of the width as an integer class. -/
def className : IntWidth → String
  | w32 => "i32"
  | w64 => "i64"

/-- The printed name of the width alone. -/
def name : IntWidth → String
  | w32 => "w32"
  | w64 => "w64"

/-- The capability a width needs. -/
def features : IntWidth → Features
  | w32 => .none
  | w64 => .int64

end IntWidth

/-- How many slots an operation moves: one, two, or a stated number. -/
inductive MoveWidth where
  | w32
  | w64
  | block
deriving DecidableEq, Repr

namespace MoveWidth

/-- The widths in encoding order. -/
def all : List MoveWidth := [w32, w64, block]

/-- The position in encoding order. -/
def index : MoveWidth → Nat
  | w32 => 0
  | w64 => 1
  | block => 2

/-- The printed name. -/
def name : MoveWidth → String
  | w32 => "w32"
  | w64 => "w64"
  | block => "blk"

end MoveWidth

/-- How a cell narrower or wider than a slot becomes slots: sign extended, zero extended, moved as
it is, or copied as a block. -/
inductive Cell where
  | i8
  | u8
  | i16
  | u16
  | w32
  | w64
  | block
deriving DecidableEq, Repr

namespace Cell

/-- The forms in encoding order. -/
def all : List Cell := [i8, u8, i16, u16, w32, w64, block]

/-- The position in encoding order. -/
def index : Cell → Nat
  | i8 => 0
  | u8 => 1
  | i16 => 2
  | u16 => 3
  | w32 => 4
  | w64 => 5
  | block => 6

/-- The printed name. -/
def name : Cell → String
  | i8 => "i8"
  | u8 => "u8"
  | i16 => "i16"
  | u16 => "u16"
  | w32 => "w32"
  | w64 => "w64"
  | block => "blk"

end Cell

/-- How many bytes a store writes. -/
inductive StoreWidth where
  | w8
  | w16
  | w32
  | w64
  | block
deriving DecidableEq, Repr

namespace StoreWidth

/-- The widths in encoding order. -/
def all : List StoreWidth := [w8, w16, w32, w64, block]

/-- The position in encoding order. -/
def index : StoreWidth → Nat
  | w8 => 0
  | w16 => 1
  | w32 => 2
  | w64 => 3
  | block => 4

/-- The printed name. -/
def name : StoreWidth → String
  | w8 => "w8"
  | w16 => "w16"
  | w32 => "w32"
  | w64 => "w64"
  | block => "blk"

end StoreWidth

/-- The part of an object a memory operation names. -/
inductive Part where
  /-- A field at a byte offset. -/
  | field
  /-- An element of an array behind a reference. -/
  | element
  /-- An element of a span. -/
  | spanElement
deriving DecidableEq, Repr

namespace Part

/-- The parts in encoding order. -/
def all : List Part := [field, element, spanElement]

/-- The position in encoding order. -/
def index : Part → Nat
  | field => 0
  | element => 1
  | spanElement => 2

/-- The printed name. -/
def name : Part → String
  | field => "fld"
  | element => "elem"
  | spanElement => "span"

end Part

/-- Where a memory operation reads or writes. -/
inductive Place where
  /-- Straight through a reference. -/
  | target
  /-- At a part of the object behind the operand. -/
  | part (p : Part)
deriving DecidableEq, Repr

namespace Place

/-- The places in encoding order. -/
def all : List Place := target :: Part.all.map part

/-- The position in encoding order. -/
def index : Place → Nat
  | target => 0
  | part p => 1 + p.index

/-- The printed name. -/
def name : Place → String
  | target => "ind"
  | part p => p.name

end Place

/-- Conversions between numeric classes. -/
inductive Conversion where
  | i32ToI8
  | i32ToU8
  | i32ToI16
  | i32ToU16
  | i32ToI64
  | u32ToI64
  | i64ToI32
  | i32ToF32
  | i32ToF64
  | i64ToF32
  | i64ToF64
  | f32ToI32
  | f32ToI64
  | f64ToI32
  | f64ToI64
  | f32ToF64
  | f64ToF32
deriving DecidableEq, Repr

namespace Conversion

/-- The conversions in encoding order. -/
def all : List Conversion :=
  [i32ToI8, i32ToU8, i32ToI16, i32ToU16, i32ToI64, u32ToI64, i64ToI32, i32ToF32, i32ToF64, i64ToF32,
    i64ToF64, f32ToI32, f32ToI64, f64ToI32, f64ToI64, f32ToF64, f64ToF32]

/-- The position in encoding order. -/
def index : Conversion → Nat
  | i32ToI8 => 0
  | i32ToU8 => 1
  | i32ToI16 => 2
  | i32ToU16 => 3
  | i32ToI64 => 4
  | u32ToI64 => 5
  | i64ToI32 => 6
  | i32ToF32 => 7
  | i32ToF64 => 8
  | i64ToF32 => 9
  | i64ToF64 => 10
  | f32ToI32 => 11
  | f32ToI64 => 12
  | f64ToI32 => 13
  | f64ToI64 => 14
  | f32ToF64 => 15
  | f64ToF32 => 16

/-- The printed names of the class before and the class after. -/
def name : Conversion → String
  | i32ToI8 => "i32.i8"
  | i32ToU8 => "i32.u8"
  | i32ToI16 => "i32.i16"
  | i32ToU16 => "i32.u16"
  | i32ToI64 => "i32.i64"
  | u32ToI64 => "u32.i64"
  | i64ToI32 => "i64.i32"
  | i32ToF32 => "i32.f32"
  | i32ToF64 => "i32.f64"
  | i64ToF32 => "i64.f32"
  | i64ToF64 => "i64.f64"
  | f32ToI32 => "f32.i32"
  | f32ToI64 => "f32.i64"
  | f64ToI32 => "f64.i32"
  | f64ToI64 => "f64.i64"
  | f32ToF64 => "f32.f64"
  | f64ToF32 => "f64.f32"

/-- The class a conversion takes. -/
def source : Conversion → Numeric
  | i32ToI8 | i32ToU8 | i32ToI16 | i32ToU16 | i32ToI64 | u32ToI64 | i32ToF32 | i32ToF64 => .i32
  | i64ToI32 | i64ToF32 | i64ToF64 => .i64
  | f32ToI32 | f32ToI64 | f32ToF64 => .f32
  | f64ToI32 | f64ToI64 | f64ToF32 => .f64

/-- The class a conversion leaves; results narrower than a slot are 32-bit integers. -/
def result : Conversion → Numeric
  | i32ToI8 | i32ToU8 | i32ToI16 | i32ToU16 | i64ToI32 | f32ToI32 | f64ToI32 => .i32
  | i32ToI64 | u32ToI64 | f32ToI64 | f64ToI64 => .i64
  | i32ToF32 | i64ToF32 | f64ToF32 => .f32
  | i32ToF64 | i64ToF64 | f32ToF64 => .f64

/-- A conversion needs the capabilities of both of its classes. -/
def features (c : Conversion) : Features := c.source.features.union c.result.features

end Conversion

/-- Whether a branch displacement takes one byte or two. -/
inductive BranchForm where
  | short
  | long
deriving DecidableEq, Repr

/-- The opcodes. -/
inductive Opcode where
  | nop
  /-- Return without a value. -/
  | ret
  /-- Return with a value of this many slots. -/
  | retValue (w : MoveWidth)
  | dup (w : MoveWidth)
  | pop (w : MoveWidth)
  | ldnull
  | syscall
  | call
  | newobj
  | ldftn
  | calli
  /-- Push a constant. -/
  | ldc (n : Numeric)
  /-- Push a frame slot. -/
  | ldslot (w : MoveWidth)
  /-- Store to a frame slot, narrowing to the cell. -/
  | stslot (c : Cell)
  /-- Push the address of a frame slot. -/
  | ldslota
  | arith (op : ArithOp) (n : Numeric)
  | integer (op : IntegerOp) (w : IntWidth)
  | neg (n : Numeric)
  | not (w : IntWidth)
  | compare (op : Comparison) (n : Numeric)
  | compareUn (op : UnsignedComparison) (w : IntWidth)
  | conv (c : Conversion)
  /-- Push a cell of memory. -/
  | load (p : Place) (c : Cell)
  /-- Store to a cell of memory. -/
  | store (p : Place) (w : StoreWidth)
  /-- Push the address of a part of an object. -/
  | address (p : Part)
  | jump (f : BranchForm)
  | branch (c : Condition) (w : IntWidth) (f : BranchForm)
deriving DecidableEq, Repr

/-- What follows an opcode byte. -/
inductive Shape where
  | none
  | u8
  | u16
  | token
  | tokenU8
  | i32
  | i64
  | f32
  | f64
  | slot
  | slotCount
  | offset
  | offsetSize
  | size
  | rel8
  | rel16
deriving DecidableEq, Repr

/-- The number of bytes an operand of this shape takes. -/
def Shape.length : Shape → Nat
  | none => 0
  | u8 | slot | rel8 => 1
  | u16 | slotCount | offset | size | rel16 => 2
  | token => 3
  | tokenU8 | i32 | f32 | offsetSize => 4
  | i64 | f64 => 8

namespace Opcode

/-- What follows the opcode byte. -/
def shape : Opcode → Shape
  | retValue .block | dup .block | pop .block => .u8
  | syscall => .u16
  | call | ldftn => .token
  | newobj => .tokenU8
  | ldc .i32 => .i32
  | ldc .i64 => .i64
  | ldc .f32 => .f32
  | ldc .f64 => .f64
  | ldslot .block | stslot .block => .slotCount
  | ldslot _ | stslot _ | ldslota => .slot
  | load .target .block | store .target .block => .size
  | load .target _ | store .target _ => .none
  | load (.part .field) .block | store (.part .field) .block => .offsetSize
  | load (.part .field) _ | store (.part .field) _ | address .field => .offset
  | load _ _ | store _ _ | address _ => .size
  | jump .short | branch _ _ .short => .rel8
  | jump .long | branch _ _ .long => .rel16
  | _ => .none

/-- The capabilities a machine needs to run the opcode. -/
def features : Opcode → Features
  | ldnull | newobj | ldslota | load .. | store .. | address _ => .memory
  | syscall => .syscall
  | ldftn | calli => .indirectCall
  | ldc n | arith _ n | neg n | compare _ n => n.features
  | integer _ w | not w | compareUn _ w | branch _ w _ => w.features
  | conv c => c.features
  | _ => .none

/-- The encoded length, the opcode byte included. -/
def length (o : Opcode) : Nat := 1 + o.shape.length

/-- Whether the opcode is a branch of either form. -/
def isBranch : Opcode → Bool
  | jump _ | branch .. => true
  | _ => false

/-- The long form of a short branch. -/
def longForm? : Opcode → Option Opcode
  | jump .short => some (jump .long)
  | branch c w .short => some (branch c w .long)
  | _ => none

/-- The short form of a long branch. -/
def shortForm? : Opcode → Option Opcode
  | jump .long => some (jump .short)
  | branch c w .long => some (branch c w .short)
  | _ => none

/-- Whether control never passes to the next instruction. -/
def isTerminator : Opcode → Bool
  | ret | retValue _ | jump _ => true
  | _ => false

end Opcode

end StackCode
