import StackCode.Instr.Text
import StackCode.Opcode.Basic

/-!
# Forms of instructions

The form of an instruction is the instruction without what it names.  Forms and mnemonics correspond
one to one, so a reader of instructions finds the form first and then knows which operand to expect.

## Main definitions

* `InstrForm`: the forms.
* `InstrForm.mnemonic`, `InstrForm.ofMnemonic?`: the correspondence with mnemonics.
* `Instr.form`: the form of an instruction.

## Main results

* `InstrForm.ofMnemonic?_mnemonic`: a mnemonic determines its form.
-/

namespace StackCode

/-- The forms of instructions. -/
inductive InstrForm where
  | plain (op : PlainOp)
  | constant (n : Numeric)
  | argument (access : Access)
  | localVar (access : Access)
  | field (access : Access)
  | function (op : FuncOp)
  | typed (op : TypeOp)
  | jump
  | branch (condition : Condition)
deriving DecidableEq, Repr

/-- The operators without a name attached. -/
def PlainOp.all : List PlainOp :=
  [nop, neg, not, dup, pop, ret, null] ++ ArithOp.all.map arith ++ IntegerOp.all.map integer ++
    Comparison.all.map compare ++ UnsignedComparison.all.map compareUn

/-- The ways to access a variable or field. -/
def Access.all : List Access := [load, store, address]

/-- What can be done with a function. -/
def FuncOp.all : List FuncOp := [call, newObject, loadFunction]

/-- What can be done at a type. -/
def TypeOp.all : List TypeOp :=
  [convert, loadIndirect, storeIndirect, loadElement, storeElement, elementAddress, callIndirect]

namespace InstrForm

/-- The mnemonic. -/
def mnemonic : InstrForm → String
  | plain op => op.mnemonic
  | constant .i32 => "ldc.i4"
  | constant .i64 => "ldc.i8"
  | constant .f32 => "ldc.r4"
  | constant .f64 => "ldc.r8"
  | argument access => access.mnemonic "arg"
  | localVar access => access.mnemonic "loc"
  | field access => access.mnemonic "fld"
  | function op => op.mnemonic
  | typed op => op.mnemonic
  | jump => "br"
  | branch condition => condition.name

/-- All forms. -/
def all : List InstrForm :=
  PlainOp.all.map plain ++ Numeric.all.map constant ++ Access.all.map argument ++
    Access.all.map localVar ++ Access.all.map field ++ FuncOp.all.map function ++
    TypeOp.all.map typed ++ [jump] ++ Condition.all.map branch

/-- The form of a mnemonic. -/
def ofMnemonic? (text : String) : Option InstrForm := all.find? fun f => f.mnemonic = text

theorem mem_all (f : InstrForm) : f ∈ all := by
  cases f with
  | plain op =>
    cases op with
    | arith op => cases op <;> decide
    | integer op => cases op <;> decide
    | compare op => cases op <;> decide
    | compareUn op => cases op <;> decide
    | _ => decide
  | constant n => cases n <;> decide
  | argument a => cases a <;> decide
  | localVar a => cases a <;> decide
  | field a => cases a <;> decide
  | function op => cases op <;> decide
  | typed op => cases op <;> decide
  | jump => decide
  | branch c =>
    cases c with
    | ordered o => cases o <;> decide
    | orderedUn o => cases o <;> decide
    | _ => decide

/-- A mnemonic determines its form. -/
theorem ofMnemonic?_mnemonic (f : InstrForm) : ofMnemonic? f.mnemonic = some f := by
  have h : ∀ g ∈ all, ofMnemonic? g.mnemonic = some g := by decide +kernel
  exact h f (mem_all f)

end InstrForm

/-- The numeric class of a constant. -/
def Constant.numeric : Constant → Numeric
  | int32 _ => .i32
  | int64 _ => .i64
  | float32 _ => .f32
  | float64 _ => .f64

namespace Instr

/-- The form of an instruction. -/
def form : Instr → InstrForm
  | plain op => .plain op
  | constant c => .constant c.numeric
  | argument access _ => .argument access
  | localVar access _ => .localVar access
  | field access _ => .field access
  | function op _ => .function op
  | typed op _ => .typed op
  | jump _ => .jump
  | branch condition _ => .branch condition

end Instr

end StackCode
