import StackCode.Instr.Basic

/-!
# Typing errors

Why a function body is refused.  A violation is the rule an instruction breaks; a typing error
places a violation in a function and, where it concerns one instruction, at that instruction.

## Main definitions

* `Expectation`: what an instruction asks of an operand.
* `Violation`: the rules that can be broken.
* `VerifyError`: a violation with its place.
-/

namespace StackCode

/-- What an instruction asks of an operand. -/
inductive Expectation where
  /-- A value that may be stored in a location of this type. -/
  | type (t : TypeId)
  /-- A number on the stack. -/
  | numeric
  /-- An integer on the stack. -/
  | integer
  /-- A number, a reference or null. -/
  | numericOrReference
  /-- An integer, a reference or null. -/
  | condition
  /-- A reference to an array, or a span. -/
  | container
  | function
  | reference
deriving DecidableEq, Repr

/-- The printed form, as the object of "expected". -/
def Expectation.toText : Expectation → String
  | type t => "a value assignable to " ++ t.toText
  | numeric => "a numeric value"
  | integer => "an integer value"
  | numericOrReference => "a numeric or reference value"
  | condition => "an integer or reference condition"
  | container => "an array reference or span"
  | function => "a function type"
  | reference => "a reference"

/-- Uses of addresses that would need to know how long the place they point to lives. -/
inductive AddressUse where
  /-- An address is returned. -/
  | returned
  /-- An address is stored in memory. -/
  | stored
  /-- The address of an address is taken. -/
  | taken
deriving DecidableEq, Repr

/-- The printed form. -/
def AddressUse.toText : AddressUse → String
  | returned => "returning a reference or span"
  | stored => "storing a reference or span through memory"
  | taken => "taking the address of a reference or span location"

/-- The rules a body can break. -/
inductive Violation where
  /-- The body is longer than allowed. -/
  | tooManyInstructions (length : Nat)
  /-- An operand is taken from the empty stack. -/
  | stackUnderflow
  | typeMismatch (expected : Expectation) (found : TypeId)
  /-- A call finds fewer operands than the callee has parameters. -/
  | arityMismatch (expected found : Nat)
  /-- An object is made by a function that is no constructor. -/
  | notConstructor (callee : FuncRef)
  /-- A return leaves operands behind. -/
  | stackNotEmpty (depth : Nat)
  /-- Two paths meet with stacks of different heights. -/
  | stackHeightMismatch (recorded incoming : Nat)
  /-- Two paths meet with operands that have no common type. -/
  | incompatibleJoin (recorded incoming : TypeId)
  /-- Control passes the last instruction. -/
  | fallsOffEnd
  /-- A label stands at no instruction. -/
  | badBranchTarget (label : Label)
  | unsupported (use : AddressUse)
  /-- An instruction names something that does not exist. -/
  | unbound
deriving DecidableEq, Repr

namespace Violation

/-- The printed message, without the place. -/
def message : Violation → String
  | tooManyInstructions length => s!"body has too many instructions ({length})"
  | stackUnderflow => "stack underflow"
  | typeMismatch expected found => "expected " ++ expected.toText ++ ", found " ++ found.toText
  | arityMismatch expected found => s!"call needs {expected} arguments, stack holds {found}"
  | notConstructor callee => callee.toText ++ " is not a constructor"
  | stackNotEmpty depth => s!"{depth} values left on the stack at return"
  | stackHeightMismatch recorded incoming =>
    s!"stack height {incoming} does not match {recorded} at join"
  | incompatibleJoin recorded incoming =>
    "incompatible operand types at control-flow join (" ++ recorded.toText ++ " vs " ++
      incoming.toText ++ ")"
  | fallsOffEnd => "control falls off the end of the body"
  | badBranchTarget label => "unresolved branch target " ++ label.toText
  | unsupported use => "unsupported: " ++ use.toText
  | unbound => "unbound symbol"

/-- The number of the diagnostic. -/
def code : Violation → Nat
  | tooManyInstructions _ => 2001
  | stackUnderflow => 2002
  | typeMismatch .. => 2003
  | arityMismatch .. => 2004
  | notConstructor _ => 2005
  | stackNotEmpty _ => 2006
  | stackHeightMismatch .. => 2007
  | incompatibleJoin .. => 2008
  | fallsOffEnd => 2009
  | badBranchTarget _ => 2010
  | unsupported _ => 2011
  | unbound => 2012

end Violation

/-- A violation and its place. -/
structure VerifyError where
  func : FuncRef
  /-- The instruction, for violations that concern one. -/
  index : Option Nat
  violation : Violation
deriving DecidableEq, Repr

namespace VerifyError

/-- A violation at an instruction. -/
def located (func : FuncRef) (index : Nat) (violation : Violation) : VerifyError :=
  ⟨func, some index, violation⟩

/-- `function@index: message`; the index is left out where there is none. -/
def message (e : VerifyError) : String :=
  let place :=
    match e.index with
    | some index => e.func.toText ++ s!"@{index}"
    | none => e.func.toText
  place ++ ": " ++ e.violation.message

/-- The error as a diagnostic. -/
def toDiagnostic (e : VerifyError) : Diagnostic :=
  .error .verification e.violation.code e.message

end VerifyError

end StackCode
