import StackCode.Proofs.Code.Accesses
import StackCode.Proofs.Code.Returns

/-!
# The slots that operations take and leave

An operation takes slots off the operand stack of the machine and leaves slots there.  How many is
fixed by its opcode and operand; only calls depend on the function they call.  For most instructions
one operation is selected, and it takes the slots of the operands of the instruction and leaves the
slots of its results.

## Main definitions

* `Operation.slotEffect?`, `Program.slotEffect?`: the slots an operation takes and leaves.
* `TypeTable.Accounts`: the slots of operands and results.

## Main results

* `SelectionContext.plain_accounts` and its companions: a selected operation takes the operands of
  its instruction and leaves the results.
-/

namespace StackCode

/-! ### Effects -/

/-- The slots that hold this many bytes. -/
def slotsOfBytes (n : Nat) : Nat := (n + 3) / 4

/-- The slots of a number. -/
def Numeric.slots : Numeric → Nat
  | i32 | f32 => 1
  | i64 | f64 => 2

/-- The slots of an integer. -/
def IntWidth.slots : IntWidth → Nat
  | w32 => 1
  | w64 => 2

/-- The slots that lead to a part of an object: the reference or span, and the index of an
element. -/
def Part.slots : Part → Nat
  | field => 1
  | element => 2
  | spanElement => 3

/-- The slots that lead to a place. -/
def Place.slots : Place → Nat
  | target => 1
  | part p => p.slots

/-- The number of slots an operand states. -/
def Operand.count? {φ τ : Type} : Operand φ τ → Option Nat
  | u8 n | slotCount _ n => some n.toNat
  | _ => Option.none

/-- The slots of a move; a block states them. -/
def MoveWidth.slots? {φ τ : Type} (operand : Operand φ τ) : MoveWidth → Option Nat
  | w32 => some 1
  | w64 => some 2
  | block => operand.count?

/-- The slots of a variable that is stored; a block states them. -/
def Cell.slots? {φ τ : Type} (operand : Operand φ τ) : Cell → Option Nat
  | i8 | u8 | i16 | u16 | w32 => some 1
  | w64 => some 2
  | block => operand.count?

/-- The slots an operation takes and the slots it leaves, for operations whose effect is fixed. -/
def Operation.slotEffect? {φ τ : Type} (op : Operation φ τ) : Option (Nat × Nat) :=
  match op.opcode with
  | .nop | .jump _ => some (0, 0)
  | .ldnull | .ldftn | .ldslota => some (0, 1)
  | .ldc n => some (0, n.slots)
  | .ret | .retValue _ => op.returnWidth?.map fun n => (n, 0)
  | .dup w => (w.slots? op.operand).map fun n => (n, n + n)
  | .pop w => (w.slots? op.operand).map fun n => (n, 0)
  | .ldslot w => (w.slots? op.operand).map fun n => (0, n)
  | .stslot c => (c.slots? op.operand).map fun n => (n, 0)
  | .arith _ n => some (n.slots + n.slots, n.slots)
  | .integer _ w => some (w.slots + w.slots, w.slots)
  | .neg n => some (n.slots, n.slots)
  | .not w => some (w.slots, w.slots)
  | .compare _ n => some (n.slots + n.slots, 1)
  | .compareUn _ w => some (w.slots + w.slots, 1)
  | .conv c => some (c.source.slots, c.result.slots)
  | .load place _ => op.bytes?.map fun n => (place.slots, slotsOfBytes n)
  | .store place _ => op.bytes?.map fun n => (place.slots + slotsOfBytes n, 0)
  | .address part => some (part.slots, 1)
  | .branch condition w _ => some (condition.operandCount * w.slots, 0)
  | .syscall | .call | .newobj | .calli => none

namespace TypeTable

variable {t : TypeTable} {type : TypeId}

/-- The slots of a type. -/
def slots? (t : TypeTable) (type : TypeId) : Option Nat :=
  (t.entry? type).map fun e => e.layout.slots

/-- The slots of several types together. -/
def totalSlots? (t : TypeTable) : List TypeId → Option Nat
  | [] => some 0
  | type :: types => do return (← t.slots? type) + (← t.totalSlots? types)

theorem slots?_eq_some {n : Nat} : t.slots? type = some n ↔ t.HasSlots type n := by
  simp [slots?, HasSlots, HasLayout]

theorem totalSlots?_eq_some {types : List TypeId} {n : Nat} :
    t.totalSlots? types = some n ↔ t.HasTotalSlots types n := by
  induction types generalizing n with
  | nil =>
    constructor
    · rintro ⟨⟩
      exact hasTotalSlots_nil
    · rintro ⟨_, ⟨⟩, rfl⟩
      rfl
  | cons type types ih =>
    rw [hasTotalSlots_cons]
    simp [totalSlots?, Option.bind_eq_some_iff, slots?_eq_some, ih]

end TypeTable

/-- The slots an operation takes and leaves in a program; `instr` is the instruction it is selected
for, which has the type of the function for an indirect call. -/
def Program.slotEffect? (p : Program) (instr : Instr) (op : SelectedOp) : Option (Nat × Nat) :=
  match op.opcode, op.operand with
  | .call, .func f => do
    let callee ← p.function? f
    return (← p.types.totalSlots? callee.paramTypes, ← p.types.slots? callee.result)
  | .newobj, .funcSlots f slots => do
    let ctor ← p.function? f
    return ((← p.types.totalSlots? ctor.paramTypes) - 1, slots.toNat)
  | .calli, _ => do
    let .typed .callIndirect type := instr | none
    let .function params result := (← p.types.entry? type).kind | none
    return (1 + (← p.types.totalSlots? params), ← p.types.slots? result)
  | _, _ => op.slotEffect?

/-- Most operations take and leave slots whatever the program. -/
theorem Program.slotEffect?_of_fixed {p : Program} {instr : Instr} {op : SelectedOp}
    {effect : Nat × Nat} (h : op.slotEffect? = some effect) :
    p.slotEffect? instr op = some effect := by
  unfold slotEffect?
  split
  · rename_i hcall _
    rw [Operation.slotEffect?, hcall] at h
    cases h
  · rename_i hnewobj _
    rw [Operation.slotEffect?, hnewobj] at h
    cases h
  · rename_i hcalli
    rw [Operation.slotEffect?, hcalli] at h
    cases h
  · exact h

section Calls

variable {p : Program} {instr : Instr} {f : FuncRef} {callee : FunctionDecl} {args slots : Nat}

/-- A call takes the slots of its parameters and leaves those of its result. -/
theorem Program.slotEffect?_call (hf : p.function? f = some callee)
    (hargs : p.types.HasTotalSlots callee.paramTypes args)
    (hslots : p.types.HasSlots callee.result slots) :
    p.slotEffect? instr ⟨.call, .func f⟩ = some (args, slots) := by
  simp [slotEffect?, hf, TypeTable.totalSlots?_eq_some.mpr hargs,
    TypeTable.slots?_eq_some.mpr hslots]

/-- A construction takes one slot less than the constructor has: that of the new object. -/
theorem Program.slotEffect?_newobj {count : UInt8} (hf : p.function? f = some callee)
    (hargs : p.types.HasTotalSlots callee.paramTypes (args + 1)) :
    p.slotEffect? instr ⟨.newobj, .funcSlots f count⟩ = some (args, count.toNat) := by
  simp [slotEffect?, hf, TypeTable.totalSlots?_eq_some.mpr hargs]

/-- An indirect call takes the function value as well. -/
theorem Program.slotEffect?_calli {type result : TypeId} {params : List TypeId}
    (htype : p.types.HasKind type (.function params result))
    (hargs : p.types.HasTotalSlots params args) (hslots : p.types.HasSlots result slots) :
    p.slotEffect? (.typed .callIndirect type) (.bare .calli) = some (1 + args, slots) := by
  obtain ⟨e, he, hkind⟩ := htype
  simp [slotEffect?, Operation.bare, he, hkind, TypeTable.totalSlots?_eq_some.mpr hargs,
    TypeTable.slots?_eq_some.mpr hslots]

end Calls

/-! ### Slots of operands -/

theorem byteOperand_eq_ok {value : Nat} {byte : UInt8} (h : byteOperand value = .ok byte) :
    byte.toNat = value := by
  unfold byteOperand at h
  split at h
  · rename_i hlt
    cases h
    rw [UInt8.toNat_ofNat', Nat.mod_eq_of_lt hlt]
  · cases h

/-- A width that moves this many slots is one of two, or a block. -/
theorem moveWidth_eq_ok {slots : Nat} {width : MoveWidth × UInt8}
    (h : moveWidth slots = .ok width) :
    slots = 1 ∧ width = (.w32, 1) ∨ slots = 2 ∧ width = (.w64, 2) ∨
      ∃ count, count.toNat = slots ∧ width = (.block, count) := by
  unfold moveWidth at h
  split at h
  · cases h
    exact .inl ⟨rfl, rfl⟩
  · cases h
    exact .inr (.inl ⟨rfl, rfl⟩)
  · obtain ⟨count, hcount, h⟩ := bind_eq_ok.mp h
    cases pure_eq_ok.mp h
    exact .inr (.inr ⟨count, byteOperand_eq_ok hcount, rfl⟩)

/-- An operation that moves slots on the stack moves as many as asked for. -/
theorem moveOp_slots {slots : Nat} {width : MoveWidth × UInt8} (h : moveWidth slots = .ok width)
    (opcode : MoveWidth → Opcode) :
    ∃ w, (moveOp opcode width).opcode = opcode w ∧
      w.slots? (moveOp opcode width).operand = some slots := by
  rcases moveWidth_eq_ok h with ⟨rfl, rfl⟩ | ⟨rfl, rfl⟩ | ⟨count, rfl, rfl⟩
  · exact ⟨.w32, rfl, rfl⟩
  · exact ⟨.w64, rfl, rfl⟩
  · exact ⟨.block, rfl, rfl⟩

/-- A move of slots moves as many as it was made for. -/
theorem slotOperand_slots {slots : Nat} {width : MoveWidth × UInt8}
    (h : moveWidth slots = .ok width) (slot : UInt8) :
    width.1.slots? (slotOperand slot width) = some slots := by
  rcases moveWidth_eq_ok h with ⟨rfl, rfl⟩ | ⟨rfl, rfl⟩ | ⟨count, rfl, rfl⟩ <;> rfl

namespace TypeTable

variable {t : TypeTable} {type : TypeId} {operands results : List TypeId}
  {effect? : Option (Nat × Nat)}

/-- The effect is to take the slots of the operands and leave the slots of the results. -/
def Accounts (t : TypeTable) (operands results : List TypeId) (effect? : Option (Nat × Nat)) :
    Prop :=
  ∃ takes leaves, t.HasTotalSlots operands takes ∧ t.HasTotalSlots results leaves ∧
    effect? = some (takes, leaves)

theorem hasTotalSlots_pair {a b : TypeId} {m n : Nat} (ha : t.HasSlots a m) (hb : t.HasSlots b n) :
    t.HasTotalSlots [a, b] (m + n) :=
  hasTotalSlots_cons.mpr ⟨m, n, ha, hasTotalSlots_singleton.mpr hb, rfl⟩

theorem Accounts.nothing : t.Accounts [] [] (some (0, 0)) :=
  ⟨0, 0, hasTotalSlots_nil, hasTotalSlots_nil, rfl⟩

theorem Accounts.leave {n : Nat} (h : t.HasSlots type n) : t.Accounts [] [type] (some (0, n)) :=
  ⟨0, n, hasTotalSlots_nil, hasTotalSlots_singleton.mpr h, rfl⟩

theorem Accounts.take {n : Nat} (h : t.HasSlots type n) : t.Accounts [type] [] (some (n, 0)) :=
  ⟨n, 0, hasTotalSlots_singleton.mpr h, hasTotalSlots_nil, rfl⟩

theorem Accounts.unary {n : Nat} (h : t.HasSlots type n) :
    t.Accounts [type] [type] (some (n, n)) :=
  ⟨n, n, hasTotalSlots_singleton.mpr h, hasTotalSlots_singleton.mpr h, rfl⟩

theorem Accounts.binary {a b : TypeId} {m n : Nat} (ha : t.HasSlots a n) (hb : t.HasSlots b n)
    (h : t.HasSlots type m) : t.Accounts [a, b] [type] (some (n + n, m)) :=
  ⟨n + n, m, hasTotalSlots_pair ha hb, hasTotalSlots_singleton.mpr h, rfl⟩

theorem HasSize.hasSlots {n : Nat} (h : t.HasSize type n) : t.HasSlots type (slotsOfBytes n) := by
  obtain ⟨layout, hlayout, rfl⟩ := h
  exact ⟨layout, hlayout, rfl⟩

theorem slotEffect?_valueReturn {slots : Nat} (h : slots < 256) :
    (valueReturn slots).slotEffect? = some (slots, 0) := by
  unfold valueReturn
  split
  · rfl
  · rfl
  · show some ((UInt8.ofNat slots).toNat, 0) = some (slots, 0)
    rw [UInt8.toNat_ofNat', Nat.mod_eq_of_lt h]

theorem Assignable.lt_size {value : TypeId} (h : t.Assignable value type) :
    type.index < t.size := by
  obtain ⟨standIn, hclass, -⟩ := h
  exact hclass.lt_size

theorem Leaves.lt_size (htypes : t.Coherent) (h : t.Leaves type results) :
    type.index < t.size := by
  rcases h with ⟨rfl, -⟩ | ⟨-, stack, hstack, -⟩
  · exact HasKind.lt_size (htypes.primitives .void)
  · exact hstack.lt_size

namespace Coherent

variable (h : t.Coherent)
include h

theorem hasSlots_primitive (p : Primitive) : t.HasSlots p.id p.layout.slots :=
  ⟨_, h.hasLayout_primitive p, rfl⟩

theorem hasSlots_numeric {n : Numeric} (hn : type.numeric? = some n) :
    t.HasSlots type n.slots := by
  unfold TypeId.numeric? at hn
  split_ifs at hn with h1 h2 h3 h4 <;> cases hn
  · exact h1 ▸ h.hasSlots_primitive .int32
  · exact h2 ▸ h.hasSlots_primitive .int64
  · exact h3 ▸ h.hasSlots_primitive .float32
  · exact h4 ▸ h.hasSlots_primitive .float64

/-- Null and references take one slot. -/
theorem hasSlots_nullable (hnullable : t.Nullable type) : t.HasSlots type 1 := by
  rcases hnullable with rfl | href
  · exact h.hasSlots_primitive .null
  · exact h.hasSlots_reference href

/-- Operands have the slots of their class. -/
theorem hasSlots_operandClass {n : Numeric} (hn : t.operandClass type = .ok n) :
    t.HasSlots type n.slots := by
  unfold operandClass at hn
  split at hn
  · rename_i hnumeric
    cases pure_eq_ok.mp hn
    exact h.hasSlots_numeric hnumeric
  · split at hn
    · rename_i hnull
      cases pure_eq_ok.mp hn
      exact h.hasSlots_nullable (.inl hnull)
    · obtain ⟨isReference, href, hn⟩ := bind_eq_ok.mp hn
      cases isReference with
      | false => cases hn
      | true =>
        cases pure_eq_ok.mp hn
        exact h.hasSlots_reference (isReference_eq_true.mp href)

/-- Operands of an operation on integers have the slots of its width. -/
theorem hasSlots_operandWidth {w : IntWidth} (hw : t.operandWidth type = .ok w) :
    t.HasSlots type w.slots := by
  obtain ⟨n, hn, hw⟩ := bind_eq_ok.mp hw
  have hslots := h.hasSlots_operandClass hn
  cases n <;> cases hw <;> exact hslots

/-- Operands that can be tested for equality take the same slots. -/
theorem hasSlots_of_comparable {a b : TypeId} (hab : t.Comparable a b) {n : Nat}
    (ha : t.HasSlots a n) : t.HasSlots b n := by
  cases hab with
  | number => exact ha
  | nullable => exact ha
  | nullLeft hb =>
    rw [ha.unique (h.hasSlots_nullable (.inl rfl))]
    exact h.hasSlots_nullable hb
  | nullRight ha' =>
    rw [ha.unique (h.hasSlots_nullable ha')]
    exact h.hasSlots_nullable (.inl rfl)

/-- The address of a location takes one slot. -/
theorem hasSlots_addressOf {address : TypeId} (haddress : t.AddressOf type address) :
    t.HasSlots address 1 :=
  h.hasSlots_reference ⟨_, h.hasKind_addressOf haddress⟩

/-- A variable is stored from the slots of its type.  A narrow type is known by its kind, any other
by its slots. -/
theorem hasSlots_slotCell {cell : Cell} {width : MoveWidth × UInt8}
    (hcell : t.slotCell type = .ok (cell, width)) (slot : UInt8) :
    ∃ slots, t.HasSlots type slots ∧
      cell.slots? (slotOperand slot (if cell = .block then width else (.w32, 1))) = some slots := by
  obtain ⟨kind, hkind, hcell⟩ := bind_eq_ok.mp hcell
  obtain ⟨width', hwidth, hcell⟩ := bind_eq_ok.mp hcell
  obtain ⟨slots, hslots, hwidth⟩ := bind_eq_ok.mp hwidth
  rw [kind_eq_ok] at hkind
  rw [slots_eq_ok] at hslots
  refine ⟨slots, hslots, ?_⟩
  have hnarrow {p : Primitive} (hp : kind = .primitive p) : slots = p.layout.slots := by
    subst hp
    obtain ⟨layout, hlayout, rfl⟩ := hslots
    rw [← Except.ok.inj (h.kindLayout_eq hkind hlayout)]
  have hmoved := slotOperand_slots hwidth slot
  split at hcell
  case h_1 | h_2 | h_3 | h_4 | h_5 =>
    cases pure_eq_ok.mp hcell
    exact congrArg some (hnarrow rfl).symm
  case h_6 =>
    cases pure_eq_ok.mp hcell
    rwa [‹width.1 = .w32›] at hmoved
  case h_7 =>
    cases pure_eq_ok.mp hcell
    rwa [‹width.1 = .w64›] at hmoved
  case h_8 =>
    cases pure_eq_ok.mp hcell
    rwa [‹width.1 = .block›] at hmoved

/-- An element is found by its container and an index. -/
theorem hasTotalSlots_container {container element : TypeId} {part : Part}
    (hpart : part = .spanElement ∧ t.HasKind container (.span element) ∨
      part = .element ∧ t.IsReference container) :
    t.HasTotalSlots [container, .int32] part.slots := by
  have hindex := h.hasSlots_primitive .int32
  rcases hpart with ⟨rfl, hkind⟩ | ⟨rfl, href⟩
  · obtain ⟨layout, hlayout⟩ := exists_hasLayout hkind.lt_size
    cases h.kindLayout_eq hkind hlayout
    exact hasTotalSlots_pair ⟨_, hlayout, rfl⟩ hindex
  · exact hasTotalSlots_pair (h.hasSlots_reference href) hindex

/-- Arguments take the slots of the parameters they fit. -/
theorem exists_slots_of_fit {values params : List TypeId}
    (hfit : List.Forall₂ t.Assignable values params) :
    ∃ slots, t.HasTotalSlots params slots ∧ t.HasTotalSlots values slots := by
  induction hfit with
  | nil => exact ⟨0, hasTotalSlots_nil, hasTotalSlots_nil⟩
  | cons hvalue _ ih =>
    obtain ⟨rest, hparams, hvalues⟩ := ih
    obtain ⟨first, hfirst⟩ := exists_hasSlots hvalue.lt_size
    have hfirst' := h.hasSlots_of_assignable hvalue hfirst
    exact ⟨first + rest, hasTotalSlots_cons.mpr ⟨first, rest, hfirst, hparams, rfl⟩,
      hasTotalSlots_cons.mpr ⟨first, rest, hfirst', hvalues, rfl⟩⟩

/-- A function takes one slot. -/
theorem hasSlots_function {params : List TypeId} {result : TypeId}
    (hkind : t.HasKind type (.function params result)) : t.HasSlots type 1 := by
  obtain ⟨layout, hlayout⟩ := exists_hasLayout hkind.lt_size
  cases h.kindLayout_eq hkind hlayout
  exact ⟨_, hlayout, rfl⟩

/-- What may stand for a reference to a type takes one slot. -/
theorem hasSlots_object {owner object reference : TypeId}
    (howner : t.referenceTo? owner = some reference) (hobject : t.Assignable object reference) :
    t.HasSlots object 1 := by
  obtain ⟨e, he, href⟩ := Option.bind_eq_some_iff.mp howner
  have hreference : t.IsReference reference := ⟨owner, (h.sound he).reference reference href⟩
  exact h.hasSlots_of_assignable hobject (h.hasSlots_reference hreference)

end Coherent

/-- The effect of an operation that accesses a value of a type. -/
theorem Accesses.slotEffect? {a : Access} {place : Place} {op : SelectedOp}
    (h : t.Accesses a place type op) :
    match a with
    | .load => ∃ n, t.HasSlots type n ∧ op.slotEffect? = some (place.slots, n)
    | .store => ∃ n, t.HasSlots type n ∧ op.slotEffect? = some (place.slots + n, 0)
    | .address => op.slotEffect? = some (place.slots, 1) := by
  obtain ⟨opcode, operand⟩ := op
  obtain ⟨haccess, hbytes⟩ := h
  cases opcode with
  | load found cell =>
    cases haccess
    obtain ⟨n, hn, hsize⟩ := hbytes (by decide)
    refine ⟨slotsOfBytes n, hsize.hasSlots, ?_⟩
    rw [Operation.slotEffect?, hn]
    rfl
  | store found width =>
    cases haccess
    obtain ⟨n, hn, hsize⟩ := hbytes (by decide)
    refine ⟨slotsOfBytes n, hsize.hasSlots, ?_⟩
    rw [Operation.slotEffect?, hn]
    rfl
  | address part =>
    cases haccess
    rfl
  | _ => cases haccess

end TypeTable

/-! ### Selected operations -/

namespace SelectionContext

variable {c : SelectionContext} {operands results : List TypeId} {op : SelectedOp}

open TypeTable

section

variable (htypes : c.types.Coherent)
include htypes

/-- What is selected for an instruction without operands moves their slots.  The class is that of
the first operand, which may be null. -/
theorem plain_accounts {plainOp : PlainOp}
    (hrule : c.types.PlainRule c.decl.result plainOp operands results)
    (h : c.plain (operands.headD .void) plainOp = .ok op) :
    c.types.Accounts operands results op.slotEffect? := by
  have hint := htypes.hasSlots_primitive .int32
  cases hrule with
  | nop =>
    cases pure_eq_ok.mp h
    exact .nothing
  | arith _ =>
    obtain ⟨n, hn, h⟩ := bind_eq_ok.mp h
    cases pure_eq_ok.mp h
    have ha := htypes.hasSlots_operandClass hn
    exact .binary ha ha ha
  | integer _ =>
    obtain ⟨w, hw, h⟩ := bind_eq_ok.mp h
    cases pure_eq_ok.mp h
    have ha := htypes.hasSlots_operandWidth hw
    exact .binary ha ha ha
  | neg _ =>
    obtain ⟨n, hn, h⟩ := bind_eq_ok.mp h
    cases pure_eq_ok.mp h
    exact .unary (htypes.hasSlots_operandClass hn)
  | not _ =>
    obtain ⟨w, hw, h⟩ := bind_eq_ok.mp h
    cases pure_eq_ok.mp h
    exact .unary (htypes.hasSlots_operandWidth hw)
  | equal hab =>
    obtain ⟨n, hn, h⟩ := bind_eq_ok.mp h
    cases pure_eq_ok.mp h
    have ha := htypes.hasSlots_operandClass hn
    exact .binary ha (htypes.hasSlots_of_comparable hab ha) hint
  | compare _ =>
    obtain ⟨n, hn, h⟩ := bind_eq_ok.mp h
    cases pure_eq_ok.mp h
    have ha := htypes.hasSlots_operandClass hn
    exact .binary ha ha hint
  | compareUn _ =>
    obtain ⟨w, hw, h⟩ := bind_eq_ok.mp h
    cases pure_eq_ok.mp h
    have ha := htypes.hasSlots_operandWidth hw
    exact .binary ha ha hint
  | dup =>
    obtain ⟨width, hwidth, h⟩ := bind_eq_ok.mp h
    cases pure_eq_ok.mp h
    obtain ⟨slots, hslots, hwidth⟩ := bind_eq_ok.mp hwidth
    rw [slots_eq_ok] at hslots
    obtain ⟨w, hopcode, hw⟩ := moveOp_slots hwidth .dup
    refine ⟨slots, slots + slots, hasTotalSlots_singleton.mpr hslots,
      hasTotalSlots_pair hslots hslots, ?_⟩
    rw [Operation.slotEffect?, hopcode]
    exact congrArg (Option.map _) hw
  | pop =>
    obtain ⟨width, hwidth, h⟩ := bind_eq_ok.mp h
    cases pure_eq_ok.mp h
    obtain ⟨slots, hslots, hwidth⟩ := bind_eq_ok.mp hwidth
    rw [slots_eq_ok] at hslots
    obtain ⟨w, hopcode, hw⟩ := moveOp_slots hwidth .pop
    refine ⟨slots, 0, hasTotalSlots_singleton.mpr hslots, hasTotalSlots_nil, ?_⟩
    rw [Operation.slotEffect?, hopcode]
    exact congrArg (Option.map _) hw
  | null =>
    cases pure_eq_ok.mp h
    exact .leave (htypes.hasSlots_primitive .null)
  | ret hvoid =>
    rcases returnOp?_eq_ok.mp (returnOp?_of_plain_ret h) with ⟨-, rfl⟩ | ⟨hne, -⟩
    · exact .nothing
    · exact absurd hvoid hne
  | retValue hresult _ ha =>
    rcases returnOp?_eq_ok.mp (returnOp?_of_plain_ret h) with
      ⟨hvoid, -⟩ | ⟨-, stack, slots, hstack, hslots, hlt, rfl⟩
    · exact absurd hvoid hresult
    · obtain ⟨n, hn⟩ := exists_hasSlots hstack.lt_size
      cases hslots.unique (htypes.hasSlots_stack hstack hn)
      rw [slotEffect?_valueReturn hlt]
      exact .take (htypes.hasSlots_of_assignable ha hn)

theorem constant_accounts (value : Constant) :
    c.types.Accounts [] [value.type] (constant value).slotEffect? := by
  cases value with
  | int32 value => exact .leave (htypes.hasSlots_primitive .int32)
  | int64 value => exact .leave (htypes.hasSlots_primitive .int64)
  | float32 bits => exact .leave (htypes.hasSlots_primitive .float32)
  | float64 bits => exact .leave (htypes.hasSlots_primitive .float64)

theorem slotAccess_accounts {slot : UInt8} {type : TypeId} {a : Access}
    (hrule : c.types.VariableRule type a operands results)
    (h : c.slotAccess slot type a = .ok op) :
    c.types.Accounts operands results op.slotEffect? := by
  cases hrule with
  | load hleaves =>
    obtain ⟨width, hwidth, h⟩ := bind_eq_ok.mp h
    cases pure_eq_ok.mp h
    obtain ⟨slots, hslots, hwidth⟩ := bind_eq_ok.mp hwidth
    rw [slots_eq_ok] at hslots
    refine ⟨0, slots, hasTotalSlots_nil, htypes.hasTotalSlots_leaves hleaves hslots, ?_⟩
    exact congrArg (Option.map _) (slotOperand_slots hwidth slot)
  | store hvalue =>
    obtain ⟨⟨cell, width⟩, hcell, h⟩ := bind_eq_ok.mp h
    cases pure_eq_ok.mp h
    obtain ⟨slots, hslots, hcount⟩ := htypes.hasSlots_slotCell hcell slot
    refine ⟨slots, 0, hasTotalSlots_singleton.mpr (htypes.hasSlots_of_assignable hvalue hslots),
      hasTotalSlots_nil, ?_⟩
    exact congrArg (Option.map _) hcount
  | address haddress =>
    cases pure_eq_ok.mp h
    exact .leave (htypes.hasSlots_addressOf haddress)

theorem variableAccess_accounts {vars : List Variable} {slot? : Option UInt8} {index : Nat}
    {v : Variable} {a : Access} (hv : vars[index]? = some v)
    (hrule : c.types.VariableRule v.type a operands results)
    (h : c.variableAccess vars slot? index a = .ok op) :
    c.types.Accounts operands results op.slotEffect? := by
  unfold variableAccess at h
  split at h
  · rename_i hv'
    cases hv.symm.trans hv'
    exact slotAccess_accounts htypes hrule h
  · cases h

/-- An access to a field takes the object, and moves the slots of the field. -/
theorem fieldAccess_accounts {ref : FieldRef} {field : Field} {owner : TypeId} {a : Access}
    (hfield : c.types.field? ref.owner ref.index = some field)
    (howner : c.types.referenceTo? ref.owner = some owner)
    (hrule : c.types.FieldRule owner field.type a operands results)
    (h : c.fieldAccess ref a = .ok op) : c.types.Accounts operands results op.slotEffect? := by
  obtain ⟨field', hfield', haccess, -⟩ := fieldAccess_accesses htypes h
  cases hfield.symm.trans hfield'
  cases hrule with
  | load hobject hleaves =>
    obtain ⟨n, hn, heffect⟩ := haccess.slotEffect?
    exact ⟨1, n, hasTotalSlots_singleton.mpr (htypes.hasSlots_object howner hobject),
      htypes.hasTotalSlots_leaves hleaves hn, heffect⟩
  | store hobject _ hvalue =>
    obtain ⟨n, hn, heffect⟩ := haccess.slotEffect?
    exact ⟨1 + n, 0, hasTotalSlots_pair (htypes.hasSlots_object howner hobject)
      (htypes.hasSlots_of_assignable hvalue hn), hasTotalSlots_nil, heffect⟩
  | address hobject haddress =>
    exact ⟨1, 1, hasTotalSlots_singleton.mpr (htypes.hasSlots_object howner hobject),
      hasTotalSlots_singleton.mpr (htypes.hasSlots_addressOf haddress), haccess.slotEffect?⟩

/-- Accesses through a reference and to elements. -/
theorem memory_accounts {typeOp : TypeOp} {type : TypeId} {ops : List SelectedOp}
    (hrule : c.types.TypeRule type typeOp operands results)
    (hconvert : typeOp ≠ .convert) (hcall : typeOp ≠ .callIndirect)
    (h : c.typeOp (operands.headD .void) type typeOp = .ok ops) :
    ∃ op, ops = [op] ∧ c.types.Accounts operands results op.slotEffect? := by
  cases hrule with
  | convert => exact absurd rfl hconvert
  | callIndirect => exact absurd rfl hcall
  | loadIndirect haddress _ hleaves =>
    obtain ⟨op, hop, haccess⟩ := loadIndirect_accesses htypes h
    obtain ⟨n, hn, heffect⟩ := haccess.slotEffect?
    exact ⟨op, hop, 1, n, hasTotalSlots_singleton.mpr (htypes.hasSlots_reference ⟨_, haddress⟩),
      htypes.hasTotalSlots_leaves hleaves hn, heffect⟩
  | storeIndirect _ haddress _ hvalue =>
    obtain ⟨op, hop, haccess⟩ := storeIndirect_accesses h
    obtain ⟨n, hn, heffect⟩ := haccess.slotEffect?
    exact ⟨op, hop, 1 + n, 0, hasTotalSlots_pair (htypes.hasSlots_reference ⟨_, haddress⟩)
      (htypes.hasSlots_of_assignable hvalue hn), hasTotalSlots_nil, heffect⟩
  | loadElement hcontainer helement hleaves =>
    obtain ⟨op, part, hop, haccess, -, hpart⟩ :=
      elementOps_accesses htypes hcontainer helement h
    obtain ⟨n, hn, heffect⟩ := haccess.slotEffect?
    exact ⟨op, hop, part.slots, n, htypes.hasTotalSlots_container hpart,
      htypes.hasTotalSlots_leaves hleaves hn, heffect⟩
  | storeElement _ hcontainer helement hvalue =>
    obtain ⟨op, part, hop, haccess, -, hpart⟩ :=
      elementOps_accesses htypes hcontainer helement h
    obtain ⟨n, hn, heffect⟩ := haccess.slotEffect?
    have hvalue := hasTotalSlots_singleton.mpr (htypes.hasSlots_of_assignable hvalue hn)
    have htotal := hasTotalSlots_append.mpr
      ⟨part.slots, n, htypes.hasTotalSlots_container hpart, hvalue, rfl⟩
    exact ⟨op, hop, part.slots + n, 0, htotal, hasTotalSlots_nil, heffect⟩
  | elementAddress hcontainer helement haddress =>
    obtain ⟨op, part, hop, haccess, -, hpart⟩ :=
      elementOps_accesses htypes hcontainer helement h
    exact ⟨op, hop, part.slots, 1, htypes.hasTotalSlots_container hpart,
      hasTotalSlots_singleton.mpr (htypes.hasSlots_addressOf haddress), haccess.slotEffect?⟩

/-- Calls, constructions and function values; binding makes the signature of a function a function
type.  The constructor has one parameter more than there are operands: the new object. -/
theorem funcOp_accounts {func : FuncRef} {funcOp : FuncOp} {callee : FunctionDecl} {instr : Instr}
    (hf : c.program.function? func = some callee)
    (hsignature : c.types.HasKind callee.signature (.function callee.paramTypes callee.result))
    (hrule : c.types.FuncRule callee funcOp operands results) (h : c.funcOp func funcOp = .ok op) :
    c.types.Accounts operands results (c.program.slotEffect? instr op) := by
  cases hrule with
  | call hoperands hleaves =>
    cases pure_eq_ok.mp h
    obtain ⟨args, hparams, hargs⟩ := htypes.exists_slots_of_fit hoperands
    obtain ⟨slots, hslots⟩ := exists_hasSlots (hleaves.lt_size htypes)
    exact ⟨args, slots, hargs, htypes.hasTotalSlots_leaves hleaves hslots,
      Program.slotEffect?_call hf hparams hslots⟩
  | newObject hparams hthis hoperands hleaves =>
    simp only [funcOp, objectType?, hf, hparams] at h
    obtain ⟨object?, hobject, h⟩ := bind_eq_ok.mp h
    obtain ⟨kind, hkind, rfl⟩ := referent?_eq_ok.mp hobject
    cases hkind.unique hthis
    obtain ⟨slots, hslots, h⟩ := bind_eq_ok.mp h
    obtain ⟨count, hcount, h⟩ := bind_eq_ok.mp h
    cases pure_eq_ok.mp h
    rw [slots_eq_ok, ← byteOperand_eq_ok hcount] at hslots
    obtain ⟨args, hothers, hargs⟩ := htypes.exists_slots_of_fit hoperands
    have htotal : c.types.HasTotalSlots callee.paramTypes (args + 1) := by
      rw [FunctionDecl.paramTypes, hparams, List.map_cons, hasTotalSlots_cons]
      exact ⟨1, args, htypes.hasSlots_reference ⟨_, hthis⟩, hothers, Nat.add_comm _ _⟩
    exact ⟨args, count.toNat, hargs, htypes.hasTotalSlots_leaves hleaves hslots,
      Program.slotEffect?_newobj hf htotal⟩
  | loadFunction hfunction =>
    cases pure_eq_ok.mp h
    refine ⟨0, 1, hasTotalSlots_nil, hasTotalSlots_singleton.mpr ?_, rfl⟩
    exact htypes.hasSlots_stack hfunction (htypes.hasSlots_function hsignature)

/-- An indirect call moves the slots of its function type. -/
theorem calli_accounts {type : TypeId}
    (hrule : c.types.TypeRule type .callIndirect operands results) :
    c.types.Accounts operands results
      (c.program.slotEffect? (.typed .callIndirect type) (.bare .calli)) := by
  cases hrule with
  | callIndirect htype hfunction hvalues hleaves =>
    obtain ⟨args, hparams, hargs⟩ := htypes.exists_slots_of_fit hvalues
    obtain ⟨slots, hslots⟩ := exists_hasSlots (hleaves.lt_size htypes)
    have hone := htypes.hasSlots_of_assignable hfunction (htypes.hasSlots_function htype)
    refine ⟨1 + args, slots, hasTotalSlots_append.mpr ?_,
      htypes.hasTotalSlots_leaves hleaves hslots, Program.slotEffect?_calli htype hparams hslots⟩
    exact ⟨args, 1, hargs, hasTotalSlots_singleton.mpr hone, Nat.add_comm _ _⟩

end

end SelectionContext

end StackCode
