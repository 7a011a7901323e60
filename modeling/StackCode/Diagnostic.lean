/-!
# Coded diagnostics

Every failure of the library can be printed as a diagnostic: a severity, a stable number, the part
of the library that reported it, and a message.  Numbers are grouped by part: `1xxx` binding, `2xxx`
verification, `3xxx` encoding, `4xxx` linking, `5xxx` types.

## Main definitions

* `Severity`, `Category`, `Diagnostic`.
* `Diagnostic.toText`: the printed form.
-/

namespace StackCode

/-- How serious a diagnostic is. -/
inductive Severity where
  | hidden
  | info
  | warning
  | error
deriving DecidableEq, Repr

namespace Severity

/-- The severities in order. -/
def all : List Severity := [hidden, info, warning, error]

/-- The printed name. -/
def toText : Severity → String
  | hidden => "hidden"
  | info => "info"
  | warning => "warning"
  | error => "error"

/-- The position in the order from `hidden` to `error`. -/
def rank : Severity → Nat
  | hidden => 0
  | info => 1
  | warning => 2
  | error => 3

/-- Whether `s` is as serious as `t`, or more. -/
def atLeast (s t : Severity) : Bool := t.rank ≤ s.rank

end Severity

/-- The part of the library a diagnostic comes from. -/
inductive Category where
  | binding
  | verification
  | encoding
  | linking
  | types
deriving DecidableEq, Repr

namespace Category

/-- The parts in the order of the stages. -/
def all : List Category := [binding, verification, encoding, linking, types]

/-- The printed name. -/
def toText : Category → String
  | binding => "binding"
  | verification => "verification"
  | encoding => "encoding"
  | linking => "linking"
  | types => "types"

end Category

/-- A coded message. -/
structure Diagnostic where
  severity : Severity
  code : Nat
  category : Category
  message : String
deriving DecidableEq, Repr

namespace Diagnostic

/-- A diagnostic of a fatal failure. -/
def error (category : Category) (code : Nat) (message : String) : Diagnostic :=
  ⟨.error, code, category, message⟩

/-- A diagnostic of a finding that does not stop the work. -/
def warning (category : Category) (code : Nat) (message : String) : Diagnostic :=
  ⟨.warning, code, category, message⟩

/-- Whether the diagnostic reports a failure. -/
def isError (d : Diagnostic) : Bool := d.severity = .error

/-- A code is printed with at least four digits. -/
def codeText (code : Nat) : String :=
  let digits := Nat.toDigits 10 code
  String.ofList (List.replicate (4 - digits.length) '0' ++ digits)

/-- `severity[SFcode] category: message`. -/
def toText (d : Diagnostic) : String :=
  d.severity.toText ++ "[SF" ++ codeText d.code ++ "] " ++ d.category.toText ++ ": " ++ d.message

end Diagnostic

end StackCode
