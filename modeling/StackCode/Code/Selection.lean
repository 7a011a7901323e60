import StackCode.Code.Frame
import StackCode.Code.Operation

/-!
# Selection

Every typed instruction becomes a short list of operations.  The types it takes choose the class,
width and signedness of the opcodes.  Branches are selected in their short form; placement decides
which of them stay short.

Numbers of 32 bits, null and references are one class: they all take one slot.

## Main definitions

* `SelectedOp`: operations that name functions and labels.
* `SelectionError`: why there are no operations for an instruction.
* `conversions?`: the operations between two numeric types.
* `SelectionContext.select`: the operations for an instruction.
-/

namespace StackCode

/-- Operations that name functions and labels. -/
abbrev SelectedOp := Operation FuncRef Label

/-- Why there are no operations for an instruction. -/
inductive SelectionError where
  | unbound
  /-- No opcode takes this type. -/
  | unsupportedOperand (type : TypeId)
  /-- A value does not fit its operand field. -/
  | valueTooLarge (value : Nat)
deriving DecidableEq, Repr

/-- The error at an instruction of a function. -/
def SelectionError.located (func : FuncRef) (index : Nat) : SelectionError → EncodeError
  | unbound => .unbound func index
  | unsupportedOperand type => .unsupportedOperand func index type
  | valueTooLarge value => .valueTooLarge func index value

/-- A byte operand. -/
def byteOperand (value : Nat) : Checked SelectionError UInt8 :=
  if value < 256 then .ok (UInt8.ofNat value) else .refuse (.valueTooLarge value)

/-- A 16-bit operand. -/
def wordOperand (value : Nat) : Checked SelectionError UInt16 :=
  if value < 65536 then .ok (UInt16.ofNat value) else .refuse (.valueTooLarge value)

/-- The integer width of a class. -/
def Numeric.intWidth? : Numeric → Option IntWidth
  | i32 => some .w32
  | i64 => some .w64
  | f32 | f64 => none

/-- The width that moves this many slots, and the number of slots. -/
def moveWidth (slots : Nat) : Checked SelectionError (MoveWidth × UInt8) :=
  match slots with
  | 1 => .ok (.w32, 1)
  | 2 => .ok (.w64, 2)
  | n => do return (.block, ← byteOperand n)

/-- The operation that moves slots on the stack: blocks state their size. -/
def moveOp (opcode : MoveWidth → Opcode) : MoveWidth × UInt8 → SelectedOp
  | (.block, count) => ⟨opcode .block, .u8 count⟩
  | (w, _) => .bare (opcode w)

/-- The operand of a move from or to a frame slot: blocks state their size. -/
def slotOperand (slot : UInt8) : MoveWidth × UInt8 → Operand FuncRef Label
  | (.block, count) => .slotCount slot count
  | _ => .slot slot

/-- The conversion to a type narrower than a slot. -/
def narrowing? (target : TypeId) : Option Conversion :=
  if target = .int8 then some .i32ToI8
  else if target = .uint8 then some .i32ToU8
  else if target = .int16 then some .i32ToI16
  else if target = .uint16 then some .i32ToU16
  else none

/-- The numeric class of a stack type that is a number. -/
def TypeId.numeric? (type : TypeId) : Option Numeric :=
  if type = .int32 then some .i32
  else if type = .int64 then some .i64
  else if type = .float32 then some .f32
  else if type = .float64 then some .f64
  else none

/-- The conversions from a class to a type of at least a slot. -/
def wideConversions? (source : Numeric) (target : TypeId) : Option (List Conversion) :=
  if target = .int32 then
    match source with
    | .i32 => some []
    | .i64 => some [.i64ToI32]
    | .f32 => some [.f32ToI32]
    | .f64 => some [.f64ToI32]
  else if target = .uint32 then
    match source with
    | .i32 => some []
    | .i64 => some [.i64ToI32]
    | .f32 => some [.f32ToI64, .i64ToI32]
    | .f64 => some [.f64ToI64, .i64ToI32]
  else if target = .int64 then
    match source with
    | .i32 => some [.i32ToI64]
    | .i64 => some []
    | .f32 => some [.f32ToI64]
    | .f64 => some [.f64ToI64]
  else if target = .uint64 then
    match source with
    | .i32 => some [.u32ToI64]
    | .i64 => some []
    | .f32 => some [.f32ToI64]
    | .f64 => some [.f64ToI64]
  else if target = .float32 then
    match source with
    | .i32 => some [.i32ToF32]
    | .i64 => some [.i64ToF32]
    | .f32 => some []
    | .f64 => some [.f64ToF32]
  else if target = .float64 then
    match source with
    | .i32 => some [.i32ToF64]
    | .i64 => some [.i64ToF64]
    | .f32 => some [.f32ToF64]
    | .f64 => some []
  else none

/-- The conversions from a stack type to a type; narrow types are reached through 32 bits. -/
def conversions? (source target : TypeId) : Option (List Conversion) := do
  let sourceClass ← source.numeric?
  match narrowing? target with
  | some narrow => return (← wideConversions? sourceClass .int32) ++ [narrow]
  | none => wideConversions? sourceClass target

namespace TypeTable

variable (t : TypeTable)

/-- The numeric class opcodes see a stack type as. -/
def operandClass (type : TypeId) : Checked SelectionError Numeric := do
  match type.numeric? with
  | some n => return n
  | none =>
    if type = .null then return .i32
    if ← t.isReference type then return .i32
    .refuse (.unsupportedOperand type)

/-- The integer width opcodes see a stack type as. -/
def operandWidth (type : TypeId) : Checked SelectionError IntWidth := do
  match (← t.operandClass type).intWidth? with
  | some w => return w
  | none => .refuse (.unsupportedOperand type)

/-- The width that moves a value of a type. -/
def typeWidth (type : TypeId) : Checked SelectionError (MoveWidth × UInt8) := do
  moveWidth (← t.slots type)

/-- How a cell of a type is loaded, and its size if it is a block. -/
def loadCell (type : TypeId) : Checked SelectionError (Cell × UInt16) := do
  let size := (← t.layout type).size
  match ← t.kind type, size with
  | .primitive .int8, _ => return (.i8, 1)
  | .primitive .int16, _ => return (.i16, 2)
  | _, 1 => return (.u8, 1)
  | _, 2 => return (.u16, 2)
  | _, 4 => return (.w32, 4)
  | _, 8 => return (.w64, 8)
  | _, size => return (.block, ← wordOperand size)

/-- How a cell of a type is stored, and its size if it is a block. -/
def storeWidth (type : TypeId) : Checked SelectionError (StoreWidth × UInt16) := do
  match (← t.layout type).size with
  | 1 => return (.w8, 1)
  | 2 => return (.w16, 2)
  | 4 => return (.w32, 4)
  | 8 => return (.w64, 8)
  | size => return (.block, ← wordOperand size)

/-- How a variable of a type is stored: narrow types are cut to their width. -/
def slotCell (type : TypeId) : Checked SelectionError (Cell × MoveWidth × UInt8) := do
  let kind ← t.kind type
  let width ← t.typeWidth type
  match kind, width.1 with
  | .primitive .int8, _ => return (.i8, width)
  | .primitive .uint8, _ | .primitive .bool, _ => return (.u8, width)
  | .primitive .int16, _ => return (.i16, width)
  | .primitive .uint16, _ => return (.u16, width)
  | _, .w32 => return (.w32, width)
  | _, .w64 => return (.w64, width)
  | _, .block => return (.block, width)

/-- The element type of a container, and which part of it an element is. -/
def containerPart (container : TypeId) : Checked SelectionError (TypeId × Part) := do
  match ← t.kind container with
  | .span element => return (element, .spanElement)
  | .reference target =>
    match ← t.kind target with
    | .array element _ => return (element, .element)
    | _ => .refuse (.unsupportedOperand container)
  | _ => .refuse (.unsupportedOperand container)

/-- The return of a function with this result; nothing if the result is too large to return. -/
def returnOp? {ε : Type} (result : TypeId) : Checked ε (Option SelectedOp) := do
  if result = .void then return some (.bare .ret)
  match ← t.slots (← t.stackType result) with
  | 1 => return some (.bare (.retValue .w32))
  | 2 => return some (.bare (.retValue .w64))
  | n => return if n < 256 then some ⟨.retValue .block, .u8 (UInt8.ofNat n)⟩ else none

end TypeTable

/-- What the operations of a function depend on. -/
structure SelectionContext where
  program : Program
  decl : FunctionDecl
  frame : Frame

namespace SelectionContext

variable (c : SelectionContext)

/-- The type table of the program. -/
def types : TypeTable := c.program.types

/-- Operators at the type of their lowest operand. -/
def plain (operand : TypeId) : PlainOp → Checked SelectionError SelectedOp
  | .nop => return .bare .nop
  | .null => return .bare .ldnull
  | .arith op => return .bare (.arith op (← c.types.operandClass operand))
  | .integer op => return .bare (.integer op (← c.types.operandWidth operand))
  | .neg => return .bare (.neg (← c.types.operandClass operand))
  | .not => return .bare (.not (← c.types.operandWidth operand))
  | .compare op => return .bare (.compare op (← c.types.operandClass operand))
  | .compareUn op => return .bare (.compareUn op (← c.types.operandWidth operand))
  | .dup => return moveOp .dup (← c.types.typeWidth operand)
  | .pop => return moveOp .pop (← c.types.typeWidth operand)
  | .ret => do
    match ← c.types.returnOp? c.decl.result with
    | some op => return op
    | none => .refuse (.valueTooLarge (← c.types.slots c.decl.result))

/-- Constants. -/
def constant : Constant → SelectedOp
  | .int32 value => ⟨.ldc .i32, .i32 value⟩
  | .int64 value => ⟨.ldc .i64, .i64 value⟩
  | .float32 bits => ⟨.ldc .f32, .f32 bits⟩
  | .float64 bits => ⟨.ldc .f64, .f64 bits⟩

/-- Accesses to a variable of a type at its slot. -/
def slotAccess (slot : UInt8) (type : TypeId) : Access → Checked SelectionError SelectedOp
  | .address => return ⟨.ldslota, .slot slot⟩
  | .load => do
    let width ← c.types.typeWidth type
    return ⟨.ldslot width.1, slotOperand slot width⟩
  | .store => do
    let (cell, width) ← c.types.slotCell type
    return ⟨.stslot cell, slotOperand slot (if cell = .block then width else (.w32, 1))⟩

/-- Accesses to one of the variables of the function. -/
def variableAccess (vars : List Variable) (slot? : Option UInt8) (index : Nat) (a : Access) :
    Checked SelectionError SelectedOp :=
  match slot?, vars[index]? with
  | some slot, some v => c.slotAccess slot v.type a
  | _, _ => .refuse .unbound

/-- Accesses to a field. -/
def fieldAccess (ref : FieldRef) (a : Access) : Checked SelectionError SelectedOp :=
  match c.types.field? ref.owner ref.index with
  | none => .refuse .unbound
  | some field => do
    let offset ← wordOperand field.offset
    match a with
    | .address => return ⟨.address .field, .offset offset⟩
    | .load =>
      match ← c.types.loadCell field.type with
      | (.block, size) => return ⟨.load (.part .field) .block, .offsetSize offset size⟩
      | (cell, _) => return ⟨.load (.part .field) cell, .offset offset⟩
    | .store =>
      match ← c.types.storeWidth field.type with
      | (.block, size) => return ⟨.store (.part .field) .block, .offsetSize offset size⟩
      | (width, _) => return ⟨.store (.part .field) width, .offset offset⟩

/-- The type of the objects made by a constructor. -/
def objectType? (func : FuncRef) : Checked SelectionError (Option TypeId) :=
  match c.program.function? func with
  | none => return none
  | some ctor =>
    match ctor.params with
    | [] => return none
    | this :: _ => c.types.referent? this.type

/-- Calls, constructions and function values. -/
def funcOp (func : FuncRef) : FuncOp → Checked SelectionError SelectedOp
  | .call => return ⟨.call, .func func⟩
  | .loadFunction => return ⟨.ldftn, .func func⟩
  | .newObject => do
    match ← c.objectType? func with
    | none => .refuse .unbound
    | some object => return ⟨.newobj, .funcSlots func (← byteOperand (← c.types.slots object))⟩

/-- Accesses to an element of a container, as a value of a type. -/
def elementAccess (container type : TypeId) (a : Access) : Checked SelectionError SelectedOp := do
  let (element, part) ← c.types.containerPart container
  let stride ← wordOperand (← c.types.layout element).size
  match a with
  | .address => return ⟨.address part, .size stride⟩
  | .load => return ⟨.load (.part part) (← c.types.loadCell type).1, .size stride⟩
  | .store => return ⟨.store (.part part) (← c.types.storeWidth type).1, .size stride⟩

/-- Instructions at a type; `operand` is their lowest operand. -/
def typeOp (operand type : TypeId) : TypeOp → Checked SelectionError (List SelectedOp)
  | .convert =>
    match conversions? operand type with
    | some ops => return ops.map fun conversion => .bare (.conv conversion)
    | none => .refuse (.unsupportedOperand operand)
  | .loadIndirect => do
    match ← c.types.loadCell type with
    | (.block, size) => return [⟨.load .target .block, .size size⟩]
    | (cell, _) => return [.bare (.load .target cell)]
  | .storeIndirect => do
    match ← c.types.storeWidth type with
    | (.block, size) => return [⟨.store .target .block, .size size⟩]
    | (width, _) => return [.bare (.store .target width)]
  | .loadElement => return [← c.elementAccess operand type .load]
  | .storeElement => return [← c.elementAccess operand type .store]
  | .elementAddress => return [← c.elementAccess operand type .address]
  | .callIndirect => return [.bare .calli]

/-- The comparison of floating point numbers a branch starts with, and the branch on its outcome.
There is none for the orders that hold of equal numbers: the negation of the opposite strict order
would also hold of numbers that cannot be compared. -/
def floatTest? : Condition → Option (Comparison × Condition)
  | .equal => some (.equal, .isTrue)
  | .notEqual => some (.equal, .isFalse)
  | .ordered .gt => some (.greater, .isTrue)
  | .ordered .lt => some (.less, .isTrue)
  | _ => none

/-- Conditional branches; `operand` is the lowest operand of the test. -/
def branch (operand : TypeId) (condition : Condition) (target : Label) :
    Checked SelectionError (List SelectedOp) := do
  let operandClass ← c.types.operandClass operand
  match operandClass.intWidth? with
  | some w => return [⟨.branch condition w .short, .target target⟩]
  | none =>
    match floatTest? condition with
    | some (comparison, outcome) =>
      return [.bare (.compare comparison operandClass),
        ⟨.branch outcome .w32 .short, .target target⟩]
    | none => .refuse (.unsupportedOperand operand)

/-- The operations for a typed instruction. -/
def select (i : TypedInstr) : Checked SelectionError (List SelectedOp) :=
  let operand := i.operands.headD .void
  match i.instr with
  | .plain op => return [← c.plain operand op]
  | .constant value => return [constant value]
  | .argument a index =>
    return [← c.variableAccess c.decl.params (c.frame.paramSlot? index) index a]
  | .localVar a index =>
    return [← c.variableAccess c.decl.locals (c.frame.localSlot? index) index a]
  | .field a ref => return [← c.fieldAccess ref a]
  | .function op func => return [← c.funcOp func op]
  | .typed op type => c.typeOp operand type op
  | .jump target => return [⟨.jump .short, .target target⟩]
  | .branch condition target => c.branch operand condition target

end SelectionContext

end StackCode
