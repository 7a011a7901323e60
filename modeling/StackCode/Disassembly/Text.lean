import StackCode.Decimal.Notation
import StackCode.Disassembly.Basic

/-!
# Listings

The text of a disassembly: comments with what the header says, the imports, and for each function
its frame and its operations.  An operation that is the target of a branch of its function has a
label line before it.

## Main definitions

* `FunctionListing.labels`: the targets of the branches of a function.
* `Disassembly.toText`: the listing of an image.
-/

namespace StackCode

/-- An offset in a listing. -/
def offsetText (offset : Nat) : String := Hex.ofNat 4 offset

/-- The text of an operand, with the blank before it. -/
def operandText : Operand Token Nat → String
  | .none => ""
  | .u8 value | .slot value => s!" {value.toNat}"
  | .u16 value | .size value => s!" {value.toNat}"
  | .offset value => s!" +{value.toNat}"
  | .func token => " " ++ token.toText
  | .funcSlots token slots => " " ++ token.toText ++ s!", {slots.toNat}"
  | .i32 value => s!" {value.toInt}"
  | .i64 value => s!" {value.toInt}"
  | .f32 bits => " " ++ FloatLayout.tagged.print .single bits.toNat
  | .f64 bits => " " ++ FloatLayout.tagged.print .double bits.toNat
  | .slotCount index count => s!" {index.toNat}, {count.toNat}"
  | .offsetSize offset size => s!" +{offset.toNat}, {size.toNat}"
  | .target offset => " @L" ++ offsetText offset

/-- The text of an operation. -/
def PlacedOp.toText (p : PlacedOp) : String :=
  offsetText p.offset ++ ": " ++ p.op.opcode.mnemonic ++ operandText p.op.operand

/-- Leaves out elements equal to the one before. -/
def dropRepeats : List Nat → List Nat
  | [] => []
  | [n] => [n]
  | n :: m :: rest => if n = m then dropRepeats (m :: rest) else n :: dropRepeats (m :: rest)

namespace FunctionListing

/-- The targets of the branches, in order and each once. -/
def labels (f : FunctionListing) : List Nat :=
  let targets := f.ops.filterMap fun p =>
    match p.op.operand with
    | .target offset => some offset
    | _ => none
  dropRepeats targets.mergeSort

/-- Adds the lines of an operation to a listing; `labels` are the targets not passed yet. -/
def addLines (labels : List Nat) (p : PlacedOp) (lines : Array String) :
    List Nat × Array String :=
  let labels := labels.dropWhile (· < p.offset)
  let lines :=
    if labels.head? = some p.offset then lines.push ("  @L" ++ offsetText p.offset ++ ":\n")
    else lines
  (labels, lines.push ("    " ++ p.toText ++ "\n"))

/-- The line with the offset and frame of a function. -/
def headLine (f : FunctionListing) : String :=
  let d := f.descriptor
  "func @" ++ offsetText f.offset ++
    s!": ; args={d.argSlots.toNat} locals={d.localSlots.toNat} max_stack={d.maxStack.toNat}" ++
    (if d.zeroInit then " zero_init" else "") ++ "\n"

/-- The lines of a function, after a blank line. -/
def lines (f : FunctionListing) : List String :=
  let (_, lines) := f.ops.foldl (fun (labels, lines) p => addLines labels p lines)
    (f.labels, #["\n", f.headLine])
  lines.toList

end FunctionListing

/-- The listing of an image. -/
def Disassembly.toText (d : Disassembly) : String :=
  let h := d.header
  let head := "; features=" ++ h.features.toText ++
    s!" modules={h.moduleCount.toNat} imports={h.importCount.toNat}\n"
  let entry :=
    match h.entry with
    | some token => ["; entry=" ++ token.toText ++ "\n"]
    | none => []
  let imports := d.imports.zipIdx.map fun (f, i) => s!"import{i} " ++ f.toText ++ "\n"
  String.join (head :: entry ++ imports ++ d.functions.flatMap FunctionListing.lines)

end StackCode
