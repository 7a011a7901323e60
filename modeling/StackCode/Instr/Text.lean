import StackCode.Decimal.Notation
import StackCode.Instr.Basic

/-!
# Printed instructions

An instruction is printed as its mnemonic followed by what it names.

## Main definitions

* `Instr.mnemonic`: the mnemonic alone.
* `Instr.toText`: the printed form.
-/

namespace StackCode

/-- The mnemonic. -/
def PlainOp.mnemonic : PlainOp → String
  | nop => "nop"
  | arith op => op.name
  | integer op => op.name
  | neg => "neg"
  | not => "not"
  | compare op => op.name
  | compareUn op => op.name
  | dup => "dup"
  | pop => "pop"
  | ret => "ret"
  | null => "ldnull"

/-- The mnemonic of the instruction that pushes a constant. -/
def Constant.mnemonic : Constant → String
  | int32 _ => "ldc.i4"
  | int64 _ => "ldc.i8"
  | float32 _ => "ldc.r4"
  | float64 _ => "ldc.r8"

/-- The printed value of a constant. -/
def Constant.toText : Constant → String
  | int32 value => toString value.toInt
  | int64 value => toString value.toInt
  | float32 bits => FloatLayout.plain.print .single bits.toNat
  | float64 bits => FloatLayout.plain.print .double bits.toNat

/-- The mnemonic of an access to a kind of variable. -/
def Access.mnemonic (access : Access) (place : String) : String :=
  match access with
  | load => "ld" ++ place
  | store => "st" ++ place
  | address => "ld" ++ place ++ "a"

/-- The mnemonic. -/
def FuncOp.mnemonic : FuncOp → String
  | call => "call"
  | newObject => "newobj"
  | loadFunction => "ldftn"

/-- The mnemonic. -/
def TypeOp.mnemonic : TypeOp → String
  | convert => "conv"
  | loadIndirect => "ldind"
  | storeIndirect => "stind"
  | loadElement => "ldelem"
  | storeElement => "stelem"
  | elementAddress => "ldelema"
  | callIndirect => "calli"

namespace Instr

/-- The mnemonic. -/
def mnemonic : Instr → String
  | plain op => op.mnemonic
  | constant c => c.mnemonic
  | argument access _ => access.mnemonic "arg"
  | localVar access _ => access.mnemonic "loc"
  | field access _ => access.mnemonic "fld"
  | function op _ => op.mnemonic
  | typed op _ => op.mnemonic
  | jump _ => "br"
  | branch condition _ => condition.name

/-- What an instruction names, printed. -/
def operandText? : Instr → Option String
  | plain _ => none
  | constant c => some c.toText
  | argument _ index | localVar _ index => some (toString index)
  | field _ f => some (f.owner.toText ++ s!".{f.index}")
  | function _ func => some func.toText
  | typed _ type => some type.toText
  | jump target | branch _ target => some target.toText

/-- The mnemonic and what the instruction names. -/
def toText (i : Instr) : String :=
  match i.operandText? with
  | none => i.mnemonic
  | some operand => i.mnemonic ++ " " ++ operand

end Instr

end StackCode
