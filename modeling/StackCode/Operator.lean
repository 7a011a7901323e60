/-!
# Operators

The operators that source instructions and target opcodes have in common, grouped by the operands
they take: arithmetic on any numeric class, operations on integers only, comparisons that leave a
truth value, and the conditions a branch can test.

## Main definitions

* `ArithOp`, `IntegerOp`: binary operators.
* `Comparison`, `UnsignedComparison`: comparisons.
* `Condition`: branch conditions.
-/

namespace StackCode

/-- Binary operators on two operands of one numeric class. -/
inductive ArithOp where
  | add
  | sub
  | mul
  | div
  | rem
deriving DecidableEq, Repr

namespace ArithOp

/-- The operators in encoding order. -/
def all : List ArithOp := [add, sub, mul, div, rem]

/-- The position in encoding order. -/
def index : ArithOp → Nat
  | add => 0
  | sub => 1
  | mul => 2
  | div => 3
  | rem => 4

/-- The printed name. -/
def name : ArithOp → String
  | add => "add"
  | sub => "sub"
  | mul => "mul"
  | div => "div"
  | rem => "rem"

end ArithOp

/-- Binary operators on two integers of one width. -/
inductive IntegerOp where
  | divUn
  | remUn
  | and
  | or
  | xor
  | shl
  | shr
  | shrUn
deriving DecidableEq, Repr

namespace IntegerOp

/-- The operators in encoding order. -/
def all : List IntegerOp := [divUn, remUn, and, or, xor, shl, shr, shrUn]

/-- The position in encoding order. -/
def index : IntegerOp → Nat
  | divUn => 0
  | remUn => 1
  | and => 2
  | or => 3
  | xor => 4
  | shl => 5
  | shr => 6
  | shrUn => 7

/-- The printed name. -/
def name : IntegerOp → String
  | divUn => "div.un"
  | remUn => "rem.un"
  | and => "and"
  | or => "or"
  | xor => "xor"
  | shl => "shl"
  | shr => "shr"
  | shrUn => "shr.un"

end IntegerOp

/-- Comparisons of two operands of one numeric class. -/
inductive Comparison where
  | equal
  | greater
  | less
deriving DecidableEq, Repr

namespace Comparison

/-- All comparisons. -/
def all : List Comparison := [equal, greater, less]

/-- The printed name. -/
def name : Comparison → String
  | equal => "ceq"
  | greater => "cgt"
  | less => "clt"

end Comparison

/-- Comparisons of two integers read as unsigned. -/
inductive UnsignedComparison where
  | greater
  | less
deriving DecidableEq, Repr

namespace UnsignedComparison

/-- All unsigned comparisons. -/
def all : List UnsignedComparison := [greater, less]

/-- The printed name. -/
def name : UnsignedComparison → String
  | greater => "cgt.un"
  | less => "clt.un"

end UnsignedComparison

/-- The order relations a branch can test. -/
inductive Order where
  | ge
  | gt
  | le
  | lt
deriving DecidableEq, Repr

namespace Order

/-- The relations in encoding order. -/
def all : List Order := [ge, gt, le, lt]

/-- The position in encoding order. -/
def index : Order → Nat
  | ge => 0
  | gt => 1
  | le => 2
  | lt => 3

/-- The printed name. -/
def name : Order → String
  | ge => "bge"
  | gt => "bgt"
  | le => "ble"
  | lt => "blt"

end Order

/-- What a conditional branch tests. -/
inductive Condition where
  /-- The operand is not zero and not null. -/
  | isTrue
  /-- The operand is zero or null. -/
  | isFalse
  /-- The two operands are equal. -/
  | equal
  /-- The two operands differ. -/
  | notEqual
  /-- The two operands are in this order, as signed numbers. -/
  | ordered (order : Order)
  /-- The two operands are in this order, as unsigned integers. -/
  | orderedUn (order : Order)
deriving DecidableEq, Repr

namespace Condition

/-- The conditions in encoding order. -/
def all : List Condition :=
  [isTrue, isFalse, equal, notEqual] ++ Order.all.flatMap fun o => [ordered o, orderedUn o]

/-- The position in encoding order. -/
def index : Condition → Nat
  | isTrue => 0
  | isFalse => 1
  | equal => 2
  | notEqual => 3
  | ordered o => 4 + 2 * o.index
  | orderedUn o => 5 + 2 * o.index

/-- The printed name. -/
def name : Condition → String
  | isTrue => "brtrue"
  | isFalse => "brfalse"
  | equal => "beq"
  | notEqual => "bne"
  | ordered o => o.name
  | orderedUn o => o.name ++ ".un"

/-- How many values the test takes off the stack. -/
def operandCount : Condition → Nat
  | isTrue | isFalse => 1
  | _ => 2

/-- Whether the operands are compared as unsigned integers. -/
def isUnsigned : Condition → Bool
  | orderedUn _ => true
  | _ => false

/-- Whether the test is for equality or its negation. -/
def isEquality : Condition → Bool
  | equal | notEqual => true
  | _ => false

end Condition

end StackCode
