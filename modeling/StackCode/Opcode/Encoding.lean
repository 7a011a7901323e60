import StackCode.Opcode.Basic

/-!
# Opcode bytes and mnemonics

Each family of opcodes occupies a run of bytes, its variants in the order of their parameters.  The
byte of an opcode is the start of its family's run plus the position of the variant, and the opcode
of a byte is found by its run.

## Main definitions

* `Opcode.byte`, `Opcode.ofByte?`: the encoding.
* `Opcode.all`: every opcode, in byte order.
* `Opcode.mnemonic`: the printed name.

## Main results

* `Opcode.mem_all`: `Opcode.all` leaves no opcode out.
* `Opcode.ofByte?_byte`: looking up the byte of an opcode gives the opcode.
-/

namespace StackCode

namespace Opcode

/-- The position of the opcode among the 256 bytes. -/
def code : Opcode → Nat
  | nop => 0x00
  | ret => 0x01
  | retValue w => 0x02 + w.index
  | dup w => 0x05 + w.index
  | pop w => 0x08 + w.index
  | ldnull => 0x0B
  | syscall => 0x0C
  | call => 0x0D
  | newobj => 0x0E
  | ldftn => 0x0F
  | calli => 0x10
  | ldc n => 0x11 + n.index
  | ldslot w => 0x18 + w.index
  | stslot c => 0x1B + c.index
  | ldslota => 0x22
  | arith op n => 0x30 + 4 * op.index + n.index
  | integer op w => 0x44 + 2 * op.index + w.index
  | neg n => 0x54 + n.index
  | not w => 0x58 + w.index
  | compare .equal n => 0x60 + n.index
  | compare .greater n => 0x64 + n.index
  | compareUn .greater w => 0x68 + w.index
  | compare .less n => 0x6A + n.index
  | compareUn .less w => 0x6E + w.index
  | conv c => 0x70 + c.index
  | load p c => 0x88 + 16 * p.index + c.index
  | store p w => 0x90 + 16 * p.index + w.index
  | address p => 0xA5 + 16 * p.index
  | jump .short => 0xC8
  | branch c w .short => 0xC9 + 2 * c.index + w.index
  | jump .long => 0xE1
  | branch c w .long => 0xE2 + 2 * c.index + w.index

/-- The opcode byte. -/
def byte (o : Opcode) : UInt8 := UInt8.ofNat o.code

/-- The memory opcode at a position within the runs of memory opcodes: sixteen positions for each
place, with the loads first, then the stores, then the address of a part. -/
def memoryOfPosition? (n : Nat) : Option Opcode := do
  let p ← Place.all[n / 16]?
  let k := n % 16
  if k < 8 then Cell.all[k]?.map (load p)
  else if k < 13 then StoreWidth.all[k - 8]?.map (store p)
  else if k = 13 then
    match p with
    | .target => none
    | .part q => some (address q)
  else none

/-- The branch opcode at a position within the run of one form. -/
def branchOfPosition? (f : BranchForm) (n : Nat) : Option Opcode :=
  if n = 0 then some (jump f)
  else do
    let c ← Condition.all[(n - 1) / 2]?
    let w ← IntWidth.all[(n - 1) % 2]?
    some (branch c w f)

/-- The opcode at a position among the 256 bytes, if there is one. -/
def ofCode? (n : Nat) : Option Opcode :=
  if n < 0x02 then [nop, ret][n]?
  else if n < 0x05 then MoveWidth.all[n - 0x02]?.map retValue
  else if n < 0x08 then MoveWidth.all[n - 0x05]?.map dup
  else if n < 0x0B then MoveWidth.all[n - 0x08]?.map pop
  else if n < 0x11 then [ldnull, syscall, call, newobj, ldftn, calli][n - 0x0B]?
  else if n < 0x18 then Numeric.all[n - 0x11]?.map ldc
  else if n < 0x1B then MoveWidth.all[n - 0x18]?.map ldslot
  else if n < 0x22 then Cell.all[n - 0x1B]?.map stslot
  else if n < 0x30 then [ldslota][n - 0x22]?
  else if n < 0x44 then do
    let op ← ArithOp.all[(n - 0x30) / 4]?
    let c ← Numeric.all[(n - 0x30) % 4]?
    some (arith op c)
  else if n < 0x54 then do
    let op ← IntegerOp.all[(n - 0x44) / 2]?
    let w ← IntWidth.all[(n - 0x44) % 2]?
    some (integer op w)
  else if n < 0x58 then Numeric.all[n - 0x54]?.map neg
  else if n < 0x60 then IntWidth.all[n - 0x58]?.map not
  else if n < 0x64 then Numeric.all[n - 0x60]?.map (compare .equal)
  else if n < 0x68 then Numeric.all[n - 0x64]?.map (compare .greater)
  else if n < 0x6A then IntWidth.all[n - 0x68]?.map (compareUn .greater)
  else if n < 0x6E then Numeric.all[n - 0x6A]?.map (compare .less)
  else if n < 0x70 then IntWidth.all[n - 0x6E]?.map (compareUn .less)
  else if n < 0x88 then Conversion.all[n - 0x70]?.map conv
  else if n < 0xC8 then memoryOfPosition? (n - 0x88)
  else if n < 0xE1 then branchOfPosition? .short (n - 0xC8)
  else branchOfPosition? .long (n - 0xE1)

/-- The opcode a byte stands for, if it stands for one. -/
def ofByte? (b : UInt8) : Option Opcode := ofCode? b.toNat

/-- Every opcode, in byte order. -/
def all : List Opcode := (List.range 256).filterMap ofCode?

/-- The printed name of a conditional branch in its long form: equality and truth tests name the
width alone, order tests name it as an integer class. -/
def branchName (c : Condition) (w : IntWidth) : String :=
  match c with
  | .ordered _ | .orderedUn _ => c.name ++ "." ++ w.className
  | _ => c.name ++ "." ++ w.name

/-- The printed name. -/
def mnemonic : Opcode → String
  | nop => "nop"
  | ret => "ret"
  | retValue w => "ret." ++ w.name
  | dup w => "dup." ++ w.name
  | pop w => "pop." ++ w.name
  | ldnull => "ldnull"
  | syscall => "syscall"
  | call => "call"
  | newobj => "newobj"
  | ldftn => "ldftn"
  | calli => "calli"
  | ldc n => "ldc." ++ n.name
  | ldslot w => "ldslot." ++ w.name
  | stslot c => "stslot." ++ c.name
  | ldslota => "ldslota"
  | arith op n => op.name ++ "." ++ n.name
  | integer op w => op.name ++ "." ++ w.className
  | neg n => "neg." ++ n.name
  | not w => "not." ++ w.className
  | compare op n => op.name ++ "." ++ n.name
  | compareUn op w => op.name ++ "." ++ w.className
  | conv c => "conv." ++ c.name
  | load p c => "ld" ++ p.name ++ "." ++ c.name
  | store p w => "st" ++ p.name ++ "." ++ w.name
  | address p => "ld" ++ p.name ++ "a"
  | jump .short => "br.s"
  | jump .long => "br"
  | branch c w .short => branchName c w ++ ".s"
  | branch c w .long => branchName c w

/-- An opcode byte is a byte: positions stay below 256. -/
theorem code_lt (o : Opcode) : o.code < 256 := by
  cases o with
  | retValue w | dup w | pop w | ldslot w | not w => cases w <;> decide
  | ldc n | neg n => cases n <;> decide
  | stslot c => cases c <;> decide
  | arith op n | compare op n => cases op <;> cases n <;> decide
  | integer op w | compareUn op w => cases op <;> cases w <;> decide
  | conv c => cases c <;> decide
  | load p c =>
    cases p with
    | target => cases c <;> decide
    | part p => cases p <;> cases c <;> decide
  | store p w =>
    cases p with
    | target => cases w <;> decide
    | part p => cases p <;> cases w <;> decide
  | address p => cases p <;> decide
  | jump f => cases f <;> decide
  | branch c w f =>
    cases c with
    | ordered o | orderedUn o => cases o <;> cases w <;> cases f <;> decide
    | _ => cases w <;> cases f <;> decide
  | _ => decide

/-- Looking up the position of an opcode gives the opcode. -/
theorem ofCode?_code (o : Opcode) : ofCode? o.code = some o := by
  cases o with
  | retValue w | dup w | pop w | ldslot w | not w => cases w <;> rfl
  | ldc n | neg n => cases n <;> rfl
  | stslot c => cases c <;> rfl
  | arith op n | compare op n => cases op <;> cases n <;> rfl
  | integer op w | compareUn op w => cases op <;> cases w <;> rfl
  | conv c => cases c <;> rfl
  | load p c =>
    cases p with
    | target => cases c <;> rfl
    | part p => cases p <;> cases c <;> rfl
  | store p w =>
    cases p with
    | target => cases w <;> rfl
    | part p => cases p <;> cases w <;> rfl
  | address p => cases p <;> rfl
  | jump f => cases f <;> rfl
  | branch c w f =>
    cases c with
    | ordered o | orderedUn o => cases o <;> cases w <;> cases f <;> rfl
    | _ => cases w <;> cases f <;> rfl
  | _ => rfl

/-- Looking up the byte of an opcode gives the opcode. -/
@[simp] theorem ofByte?_byte (o : Opcode) : ofByte? o.byte = some o := by
  rw [ofByte?, byte, UInt8.toNat_ofNat', Nat.mod_eq_of_lt (code_lt o), ofCode?_code]

/-- Every opcode is listed. -/
theorem mem_all (o : Opcode) : o ∈ all :=
  List.mem_filterMap.mpr ⟨o.code, List.mem_range.mpr (code_lt o), ofCode?_code o⟩

end Opcode

end StackCode
