import StackCode.Dataflow.Solver

/-!
# Marks

A small analysis that follows where operands come from.  An operand carries a set of marks, the bits
of a 32-bit mask: reading a variable gives the mark of the variable, a constant gives its own bits,
and a sum has the marks of both summands.  Where paths meet, marks are united.  Every visit leaves a
remark with the depth of the stack, so the remarks show the order of the visits.

Marks are followed through variables, sums and branches only.  A branch on inequality discards the
stack of the path it takes, and a branch on falsehood lists its fall through first.

## Main definitions

* `MarkError`: why marks cannot be followed.
* `Marks.analysis`: the analysis.
-/

namespace StackCode

/-- Why marks cannot be followed; each cause names the instruction. -/
inductive MarkError where
  | unsupported (index : Nat)
  | constant (index : Nat)
  | address (index : Nat)
  | field (index : Nat)
  | function (index : Nat)
  | type (index : Nat)
  | underflow (index : Nat)
  | height (target recorded incoming : Nat)
  | endAfter (index : Nat)
  | badLabel (label : Label) (index : Nat)
deriving DecidableEq, Repr

/-- The printed message. -/
def MarkError.message : MarkError → String
  | unsupported index => s!"unsupported at {index}"
  | constant index => s!"constant at {index}"
  | address index => s!"address at {index}"
  | field index => s!"field at {index}"
  | function index => s!"function at {index}"
  | type index => s!"type at {index}"
  | underflow index => s!"underflow at {index}"
  | height target recorded incoming => s!"height at {target}: {recorded} vs {incoming}"
  | endAfter index => s!"end after {index}"
  | badLabel label index => s!"label {label.index} at {index}"

namespace Marks

/-- Takes `count` values off the stack of the instruction at `index`, top first. -/
def take (index : Nat) : Nat → OperandStack UInt32 →
    Except MarkError (List UInt32 × OperandStack UInt32)
  | 0, s => .ok ([], s)
  | count + 1, s =>
    match s.pop? with
    | none => .error (.underflow index)
    | some (value, below) => do
      let (values, below) ← take index count below
      return (value :: values, below)

/-- The mark of a variable. -/
def mark (index : Nat) : UInt32 := 1 <<< UInt32.ofNat (index % 32)

/-- How many values an instruction takes, and what it leaves for the values taken, top first. -/
def action (index : Nat) : Instr → Except MarkError (Nat × (List UInt32 → List UInt32))
  | .plain op =>
    match op with
    | .nop | .ret => .ok (0, fun _ => [])
    | .null => .ok (0, fun _ => [0])
    | .pop => .ok (1, fun _ => [])
    | .dup => .ok (1, fun values => values ++ values)
    | .arith .add => .ok (2, fun values => [values.foldl (· ||| ·) 0])
    | _ => .error (.unsupported index)
  | .constant c =>
    match c with
    | .int32 value => .ok (0, fun _ => [value.toUInt32])
    | _ => .error (.constant index)
  | .argument access variableIndex | .localVar access variableIndex =>
    match access with
    | .load => .ok (0, fun _ => [mark variableIndex])
    | .store => .ok (1, fun _ => [])
    | .address => .error (.address index)
  | .field .. => .error (.field index)
  | .function .. => .error (.function index)
  | .typed .. => .error (.type index)
  | .jump _ => .ok (0, fun _ => [])
  | .branch condition _ => .ok (condition.operandCount, fun _ => [])

/-- The ways out of an instruction that leaves the stack `s`. -/
def successors (instr : Instr) (s : OperandStack UInt32) : List (Exit × OperandStack UInt32) :=
  match instr with
  | .branch .notEqual target => [(.label target, .empty), (.next, s)]
  | .branch .isFalse target => [(.next, s), (.label target, s)]
  | instr => instr.exits.map fun exit => (exit, s)

/-- The remark on a visit with a stack of this depth. -/
def remark (index depth : Nat) : Finding := ⟨index, .warning .verification 1 s!"depth {depth}"⟩

/-- Runs an instruction on a stack of marks. -/
def transfer (index : Nat) (instr : Instr) (s : OperandStack UInt32) :
    Except MarkError (Visit UInt32) := do
  let (count, results) ← action index instr
  let (popped, below) ← take index count s
  let pushed := results popped
  return ⟨⟨popped, pushed⟩, successors instr (below.pushAll pushed), [remark index s.size]⟩

/-- Unites the marks of two stacks of one height. -/
def merge (target : Nat) (recorded incoming : OperandStack UInt32) :
    Except MarkError (OperandStack UInt32) :=
  if recorded.size = incoming.size then
    .ok ⟨List.zipWith (· ||| ·) recorded.topDown incoming.topDown⟩
  else .error (.height target recorded.size incoming.size)

/-- How many marks, weighted by their bit, can still be added to these masks. -/
def room : List UInt32 → Nat
  | [] => 0
  | m :: rest => room rest + (4294967296 - m.toNat)

theorem room_zipWith_or_le {recorded incoming : List UInt32}
    (h : recorded.length = incoming.length) :
    room (List.zipWith (· ||| ·) recorded incoming) ≤ room recorded := by
  induction recorded generalizing incoming with
  | nil => simp [room]
  | cons a rest ih =>
    cases incoming with
    | nil => simp at h
    | cons b rest' =>
      have hrest := ih (by simpa using h)
      have hle : a.toNat ≤ (a ||| b).toNat := by simpa using Nat.left_le_or
      simp only [List.zipWith_cons_cons, room]
      omega

/-- Uniting marks leaves the masks alone or less room. -/
theorem room_zipWith_or_lt {recorded incoming : List UInt32}
    (h : recorded.length = incoming.length)
    (hne : List.zipWith (· ||| ·) recorded incoming ≠ recorded) :
    room (List.zipWith (· ||| ·) recorded incoming) < room recorded := by
  induction recorded generalizing incoming with
  | nil => simp at hne
  | cons a rest ih =>
    cases incoming with
    | nil => simp at h
    | cons b rest' =>
      have hlength : rest.length = rest'.length := by simpa using h
      have hle : a.toNat ≤ (a ||| b).toNat := by simpa using Nat.left_le_or
      have hbound := (a ||| b).toNat_lt
      simp only [List.zipWith_cons_cons, room]
      by_cases hhead : a ||| b = a
      · have hrest : List.zipWith (· ||| ·) rest rest' ≠ rest := by
          intro heq
          exact hne (by simp [hhead, heq])
        have := ih hlength hrest
        omega
      · have hdiff : a.toNat ≠ (a ||| b).toNat := fun heq => hhead (UInt32.toNat_inj.1 heq.symm)
        have := room_zipWith_or_le hlength
        omega

/-- The analysis of marks. -/
def analysis : Analysis UInt32 MarkError where
  transfer := transfer
  merge := merge
  unresolved
    | index, .next => .endAfter index
    | index, .label l => .badLabel l index
  rank s := room s.topDown
  rank_merge := by
    intro target recorded incoming merged h hne
    unfold merge at h
    split at h
    · rename_i hsize
      have heq := Except.ok.inj h
      subst heq
      exact room_zipWith_or_lt hsize fun heq => hne (OperandStack.ext heq)
    · cases h

end Marks

end StackCode
