import StackCode.Proofs.Code.Compiled
import StackCode.Proofs.Types.Containment
import StackCode.Proofs.Typing.Rules

/-!
# Memory accesses

The operation of a memory access is put together from three types.  The type the instruction names
gives the number of bytes, the type behind the operand on the stack gives the stride, and the
declared type of a field gives its offset.  Verification has compared the first two by their classes
only, which lets a 32-bit location be accessed as a narrower integer.  Still they fit: no operation
reaches past the location it is selected for.

## Main definitions

* `Operation.bytes?`: the number of bytes a load or store moves.
* `TypeTable.Fits`: a type that takes no more room than another.
* `TypeTable.Accesses`: an operation accesses a value of a type.
* `Program.StaysInside`: the operations of a typed instruction stay inside its location.

## Main results

* `TypeTable.Coherent.fits_of_accessibleAs`: a type fits the locations that can be accessed as it.
* `Program.accesses_stay_inside`: the memory accesses of a verified body stay inside.
-/

namespace StackCode

/-- The bytes of a cell; a block states its size. -/
def Cell.bytes? : Cell → Option Nat
  | i8 | u8 => some 1
  | i16 | u16 => some 2
  | w32 => some 4
  | w64 => some 8
  | block => none

/-- The bytes of a store; a block states its size. -/
def StoreWidth.bytes? : StoreWidth → Option Nat
  | w8 => some 1
  | w16 => some 2
  | w32 => some 4
  | w64 => some 8
  | block => none

theorem Cell.bytes?_eq_none {cell : Cell} : cell.bytes? = none ↔ cell = .block := by
  cases cell <;> simp [bytes?]

theorem StoreWidth.bytes?_eq_none {width : StoreWidth} : width.bytes? = none ↔ width = .block := by
  cases width <;> simp [bytes?]

/-- What an opcode does with memory, and where. -/
def Opcode.access? : Opcode → Option (Access × Place)
  | load place _ => some (.load, place)
  | store place _ => some (.store, place)
  | address part => some (.address, .part part)
  | _ => none

/-- Whether a load or store moves a block. -/
def Opcode.isBlock : Opcode → Bool
  | load _ .block | store _ .block => true
  | _ => false

/-- A load moves a block if its cell has no size of its own. -/
theorem Opcode.isBlock_load {place : Place} {cell : Cell} :
    (load place cell).isBlock = true ↔ cell.bytes? = none := by
  cases cell <;> simp [isBlock, Cell.bytes?]

theorem Opcode.isBlock_store {place : Place} {width : StoreWidth} :
    (store place width).isBlock = true ↔ width.bytes? = none := by
  cases width <;> simp [isBlock, StoreWidth.bytes?]

namespace Operand

variable {φ τ : Type}

/-- The size an operand states. -/
def size? : Operand φ τ → Option Nat
  | size n | offsetSize _ n => some n.toNat
  | _ => Option.none

/-- The offset of a field an operand states. -/
def offset? : Operand φ τ → Option Nat
  | offset n | offsetSize n _ => some n.toNat
  | _ => Option.none

end Operand

/-- The number of bytes a load or store moves. -/
def Operation.bytes? {φ τ : Type} (op : Operation φ τ) : Option Nat :=
  match op.opcode with
  | .load _ cell => cell.bytes?.or op.operand.size?
  | .store _ width => width.bytes?.or op.operand.size?
  | _ => none

theorem wordOperand_eq_ok {value : Nat} {word : UInt16} (h : wordOperand value = .ok word) :
    word.toNat = value := by
  unfold wordOperand at h
  split at h
  · rename_i hlt
    cases h
    rw [UInt16.toNat_ofNat', Nat.mod_eq_of_lt hlt]
  · cases h

namespace TypeTable

variable {t : TypeTable} {type : TypeId}

/-- Values of the first type take no more room than values of the second, and need no stricter
alignment. -/
def Fits (t : TypeTable) (type location : TypeId) : Prop :=
  ∃ inner outer, t.HasLayout type inner ∧ t.HasLayout location outer ∧
    inner.size ≤ outer.size ∧ inner.align ≤ outer.align

/-- What moves these bytes, or a block of this size where it names none, moves values of the type.
It names the bytes of narrow integers. -/
structure Moves (t : TypeTable) (type : TypeId) (bytes? : Option Nat) (size : UInt16) : Prop where
  hasSize : t.HasSize type size.toNat
  named : bytes? = some size.toNat ∨ bytes? = none ∧ size.toNat ≠ 1 ∧ size.toNat ≠ 2

/-- The operation accesses a value of a type at this kind of place: it takes an address, or it moves
as many bytes as the value has. -/
structure Accesses (t : TypeTable) (a : Access) (place : Place) (type : TypeId) (op : SelectedOp) :
    Prop where
  access : op.opcode.access? = some (a, place)
  bytes : a ≠ .address → ∃ n, op.bytes? = some n ∧ t.HasSize type n

/-- The operation steps over elements of the container, and what it moves fits one of them. -/
def StepsOver (t : TypeTable) (container type : TypeId) (op : SelectedOp) : Prop :=
  ∃ element stride, t.HasElement container element ∧ t.Fits type element ∧
    op.operand = .size stride ∧ t.HasSize element stride.toNat ∧
    (op.opcode.isBlock = true → t.HasSize type stride.toNat)

/-- The operation finds the field at its offset, and the field lies inside its structure. -/
def FindsField (t : TypeTable) (owner : TypeId) (field : Field) (op : SelectedOp) : Prop :=
  op.operand.offset? = some field.offset ∧
    ∃ inner outer, t.HasSize field.type inner ∧ t.HasSize owner outer ∧
      field.offset + inner ≤ outer

theorem HasSize.unique {m n : Nat} (hm : t.HasSize type m) (hn : t.HasSize type n) : m = n := by
  obtain ⟨l, hl, rfl⟩ := hm
  obtain ⟨l', hl', rfl⟩ := hn
  rw [hl.unique hl']

theorem HasElement.unique {container a b : TypeId} (ha : t.HasElement container a)
    (hb : t.HasElement container b) : a = b := by
  cases ha with
  | span ha =>
    cases hb with
    | span hb =>
      cases ha.unique hb
      rfl
    | array hb _ => cases ha.unique hb
  | array ha ha' =>
    cases hb with
    | span hb => cases ha.unique hb
    | array hb hb' =>
      cases ha.unique hb
      cases ha'.unique hb'
      rfl

/-- An access goes to an element of a span, or to one behind a reference. -/
theorem containerPart_eq_ok {container element : TypeId} {part : Part}
    (h : t.containerPart container = .ok (element, part)) :
    t.HasElement container element ∧
      (part = .spanElement ∧ t.HasKind container (.span element) ∨
        part = .element ∧ t.IsReference container) := by
  obtain ⟨kind, hkind, h⟩ := bind_eq_ok.mp h
  rw [kind_eq_ok] at hkind
  cases kind with
  | span found =>
    cases pure_eq_ok.mp h
    exact ⟨.span hkind, .inl ⟨rfl, hkind⟩⟩
  | reference target =>
    obtain ⟨targetKind, htarget, h⟩ := bind_eq_ok.mp h
    rw [kind_eq_ok] at htarget
    cases targetKind with
    | array found length =>
      cases pure_eq_ok.mp h
      exact ⟨.array hkind htarget, .inr ⟨rfl, target, hkind⟩⟩
    | _ => cases h
  | _ => cases h

theorem Moves.of_found {α : Type} {f : α → Option Nat} {found answer : α} {n size : UInt16}
    {layout : Layout} (hlayout : t.HasLayout type layout)
    (h : (pure (found, n) : Checked SelectionError _) = .ok (answer, size))
    (hsize : layout.size = n.toNat) (hbytes : f found = some n.toNat) :
    t.Moves type (f answer) size := by
  cases pure_eq_ok.mp h
  exact ⟨⟨layout, hlayout, hsize⟩, .inl hbytes⟩

/-- A move of a block states the size of the type. -/
theorem Moves.block {layout : Layout} {size : UInt16} (hlayout : t.HasLayout type layout)
    (hsize : wordOperand layout.size = .ok size) (hone : layout.size ≠ 1) (htwo : layout.size ≠ 2) :
    t.Moves type none size := by
  have hsize := wordOperand_eq_ok hsize
  exact ⟨⟨layout, hlayout, hsize.symm⟩, .inr ⟨rfl, hsize ▸ hone, hsize ▸ htwo⟩⟩

/-- A store moves values of its type. -/
theorem moves_of_storeWidth {width : StoreWidth} {size : UInt16}
    (h : t.storeWidth type = .ok (width, size)) : t.Moves type width.bytes? size := by
  obtain ⟨layout, hlayout, h⟩ := bind_eq_ok.mp h
  rw [layout_eq_ok] at hlayout
  split at h
  · exact .of_found hlayout h ‹_› rfl
  · exact .of_found hlayout h ‹_› rfl
  · exact .of_found hlayout h ‹_› rfl
  · exact .of_found hlayout h ‹_› rfl
  · obtain ⟨word, hword, h⟩ := bind_eq_ok.mp h
    cases pure_eq_ok.mp h
    exact .block hlayout hword ‹_› ‹_›

namespace Coherent

/-- **A type fits the locations that can be accessed as it.**  It takes up all of them, or it is a
narrow integer. -/
theorem fits_of_accessibleAs (h : t.Coherent) {location : TypeId}
    (haccess : t.AccessibleAs location type) :
    ∃ inner outer, t.HasLayout type inner ∧ t.HasLayout location outer ∧
      inner.size ≤ outer.size ∧ inner.align ≤ outer.align ∧
      (inner.size = outer.size ∨ inner.size = 1 ∨ inner.size = 2) := by
  obtain ⟨standIn, hlocation, standIn', htype, hcases⟩ := haccess
  obtain ⟨inner, hinner⟩ := exists_hasLayout htype.lt_size
  obtain ⟨outer, houter⟩ := exists_hasLayout hlocation.lt_size
  have hinner' := h.hasLayout_class htype hinner
  have houter' := h.hasLayout_class hlocation houter
  refine ⟨inner, outer, hinner, houter, ?_⟩
  -- the location is of the same class, or it is null, or a 32-bit integer read as a narrow one
  rcases hcases with rfl | ⟨rfl, target, href⟩ | ⟨rfl, rfl | rfl⟩
  · rw [hinner'.unique houter']
    exact ⟨Nat.le_refl _, Nat.le_refl _, .inl rfl⟩
  · cases h.kindLayout_eq href hinner'
    rw [houter'.unique (h.hasLayout_primitive .null)]
    exact ⟨Nat.le_refl _, Nat.le_refl _, .inl rfl⟩
  · rw [houter'.unique (h.hasLayout_primitive .int32),
      hinner'.unique (h.hasLayout_primitive .int8)]
    decide
  · rw [houter'.unique (h.hasLayout_primitive .int32),
      hinner'.unique (h.hasLayout_primitive .int16)]
    decide

/-- A type fits the locations that can be accessed as it. -/
theorem fits (h : t.Coherent) {location : TypeId} (haccess : t.AccessibleAs location type) :
    t.Fits type location := by
  obtain ⟨inner, outer, hinner, houter, hle, halign, -⟩ := h.fits_of_accessibleAs haccess
  exact ⟨inner, outer, hinner, houter, hle, halign⟩

/-- A load moves values of its type.  Signed integers are recognized by their kind, all other cells
by their size. -/
theorem moves_of_loadCell (h : t.Coherent) {cell : Cell} {size : UInt16}
    (hcell : t.loadCell type = .ok (cell, size)) : t.Moves type cell.bytes? size := by
  obtain ⟨layout, hlayout, hcell⟩ := bind_eq_ok.mp hcell
  obtain ⟨kind, hkind, hcell⟩ := bind_eq_ok.mp hcell
  rw [layout_eq_ok] at hlayout
  rw [kind_eq_ok] at hkind
  have hsigned {p : Primitive} (hp : kind = .primitive p) : layout.size = p.layout.size := by
    subst hp
    rw [← Except.ok.inj (h.kindLayout_eq hkind hlayout)]
  split at hcell
  · exact .of_found hlayout hcell (hsigned rfl) rfl
  · exact .of_found hlayout hcell (hsigned rfl) rfl
  · exact .of_found hlayout hcell ‹_› rfl
  · exact .of_found hlayout hcell ‹_› rfl
  · exact .of_found hlayout hcell ‹_› rfl
  · exact .of_found hlayout hcell ‹_› rfl
  · obtain ⟨word, hword, hcell⟩ := bind_eq_ok.mp hcell
    cases pure_eq_ok.mp hcell
    exact .block hlayout hword ‹_› ‹_›

/-- What is moved as a block takes up its location.  Narrow integers are never moved as a block. -/
theorem eq_stride_of_block (h : t.Coherent) {location : TypeId}
    (haccess : t.AccessibleAs location type) {bytes? : Option Nat} {size stride : UInt16}
    (hmoves : t.Moves type bytes? size) (hstride : t.HasSize location stride.toNat)
    (hblock : bytes? = none) : stride.toNat = size.toNat := by
  obtain ⟨inner, outer, hinner, houter, -, -, hsizes⟩ := h.fits_of_accessibleAs haccess
  obtain ⟨hsize, hnamed | ⟨-, hone, htwo⟩⟩ := hmoves
  · cases hnamed.symm.trans hblock
  · rw [hstride.unique ⟨outer, houter, rfl⟩, hsize.unique ⟨inner, hinner, rfl⟩]
    rw [hsize.unique ⟨inner, hinner, rfl⟩] at hone htwo
    rcases hsizes with hsame | hsame | hsame
    · exact hsame.symm
    · exact absurd hsame hone
    · exact absurd hsame htwo

end Coherent

theorem Moves.or_eq_some {bytes? stated : Option Nat} {size : UInt16}
    (h : t.Moves type bytes? size) (hstated : bytes? = none → stated = some size.toNat) :
    bytes?.or stated = some size.toNat := by
  rcases h.named with hnamed | ⟨hnone, -⟩
  · rw [hnamed, Option.some_or]
  · rw [hnone, Option.none_or, hstated hnone]

/-- A load of the cell, or of the stated block, is an access. -/
theorem Accesses.load {place : Place} {cell : Cell} {size : UInt16}
    {operand : Operand FuncRef Label} (hmoves : t.Moves type cell.bytes? size)
    (hoperand : cell.bytes? = none → operand.size? = some size.toNat) :
    t.Accesses .load place type ⟨.load place cell, operand⟩ :=
  ⟨rfl, fun _ => ⟨size.toNat, hmoves.or_eq_some hoperand, hmoves.hasSize⟩⟩

theorem Accesses.store {place : Place} {width : StoreWidth} {size : UInt16}
    {operand : Operand FuncRef Label} (hmoves : t.Moves type width.bytes? size)
    (hoperand : width.bytes? = none → operand.size? = some size.toNat) :
    t.Accesses .store place type ⟨.store place width, operand⟩ :=
  ⟨rfl, fun _ => ⟨size.toNat, hmoves.or_eq_some hoperand, hmoves.hasSize⟩⟩

end TypeTable

namespace SelectionContext

variable {c : SelectionContext} (htypes : c.types.Coherent) {op : SelectedOp} {type : TypeId}

include htypes

/-- The operation of an access to a field.  The operand states the size of a block, and only of a
block. -/
theorem fieldAccess_accesses {ref : FieldRef} {a : Access} (h : c.fieldAccess ref a = .ok op) :
    ∃ field, c.types.field? ref.owner ref.index = some field ∧
      c.types.Accesses a (.part .field) field.type op ∧ op.operand.offset? = some field.offset := by
  unfold fieldAccess at h
  split at h
  · cases h
  rename_i field hfield
  refine ⟨field, hfield, ?_⟩
  obtain ⟨offset, hoffset, h⟩ := bind_eq_ok.mp h
  rw [← wordOperand_eq_ok hoffset]
  cases a with
  | address =>
    cases pure_eq_ok.mp h
    exact ⟨⟨rfl, fun hne => absurd rfl hne⟩, rfl⟩
  | load =>
    obtain ⟨found, hcell, h⟩ := bind_eq_ok.mp h
    split at h
    · cases pure_eq_ok.mp h
      exact ⟨.load (htypes.moves_of_loadCell hcell) fun _ => rfl, rfl⟩
    · rename_i cell size hnotBlock
      cases pure_eq_ok.mp h
      exact ⟨.load (htypes.moves_of_loadCell hcell) fun hnone =>
        absurd (Cell.bytes?_eq_none.mp hnone) hnotBlock, rfl⟩
  | store =>
    obtain ⟨found, hwidth, h⟩ := bind_eq_ok.mp h
    split at h
    · cases pure_eq_ok.mp h
      exact ⟨.store (TypeTable.moves_of_storeWidth hwidth) fun _ => rfl, rfl⟩
    · rename_i width size hnotBlock
      cases pure_eq_ok.mp h
      exact ⟨.store (TypeTable.moves_of_storeWidth hwidth) fun hnone =>
        absurd (StoreWidth.bytes?_eq_none.mp hnone) hnotBlock, rfl⟩

/-- The operation of an access through a reference. -/
theorem loadIndirect_accesses {operand : TypeId} {ops : List SelectedOp}
    (h : c.typeOp operand type .loadIndirect = .ok ops) :
    ∃ op, ops = [op] ∧ c.types.Accesses .load .target type op := by
  obtain ⟨found, hcell, h⟩ := bind_eq_ok.mp h
  split at h
  · cases pure_eq_ok.mp h
    exact ⟨_, rfl, .load (htypes.moves_of_loadCell hcell) fun _ => rfl⟩
  · rename_i cell size hnotBlock
    cases pure_eq_ok.mp h
    exact ⟨_, rfl, .load (htypes.moves_of_loadCell hcell) fun hnone =>
      absurd (Cell.bytes?_eq_none.mp hnone) hnotBlock⟩

omit htypes in
theorem storeIndirect_accesses {operand : TypeId} {ops : List SelectedOp}
    (h : c.typeOp operand type .storeIndirect = .ok ops) :
    ∃ op, ops = [op] ∧ c.types.Accesses .store .target type op := by
  obtain ⟨found, hwidth, h⟩ := bind_eq_ok.mp h
  split at h
  · cases pure_eq_ok.mp h
    exact ⟨_, rfl, .store (TypeTable.moves_of_storeWidth hwidth) fun _ => rfl⟩
  · rename_i width size hnotBlock
    cases pure_eq_ok.mp h
    exact ⟨_, rfl, .store (TypeTable.moves_of_storeWidth hwidth) fun hnone =>
      absurd (StoreWidth.bytes?_eq_none.mp hnone) hnotBlock⟩

/-- The operation of an access to an element.  The stride is that of the element, and a block is as
long as the stride. -/
theorem elementAccess_accesses {container element : TypeId} {a : Access}
    (hcontainer : c.types.HasElement container element)
    (helement : c.types.AccessibleAs element type) (h : c.elementAccess container type a = .ok op) :
    ∃ part, c.types.Accesses a (.part part) type op ∧ c.types.StepsOver container type op ∧
      (part = .spanElement ∧ c.types.HasKind container (.span element) ∨
        part = .element ∧ c.types.IsReference container) := by
  obtain ⟨⟨found, part⟩, hpart, hlayouts⟩ := bind_eq_ok.mp h
  obtain ⟨layout, hlayout, hstrides⟩ := bind_eq_ok.mp hlayouts
  obtain ⟨stride, hstride, hop⟩ := bind_eq_ok.mp hstrides
  obtain ⟨hfound, hpart⟩ := TypeTable.containerPart_eq_ok hpart
  obtain rfl := hcontainer.unique hfound
  have hsize : c.types.HasSize element stride.toNat :=
    ⟨layout, TypeTable.layout_eq_ok.mp hlayout, (wordOperand_eq_ok hstride).symm⟩
  have hfits := htypes.fits helement
  cases a with
  | address =>
    cases pure_eq_ok.mp hop
    refine ⟨part, ⟨rfl, fun hne => absurd rfl hne⟩, ?_, hpart⟩
    exact ⟨element, stride, hcontainer, hfits, rfl, hsize, fun hblock => (nomatch hblock)⟩
  | load =>
    obtain ⟨⟨cell, size⟩, hcell, hop⟩ := bind_eq_ok.mp hop
    cases pure_eq_ok.mp hop
    have hmoves := htypes.moves_of_loadCell hcell
    have hblock := htypes.eq_stride_of_block helement hmoves hsize
    refine ⟨part, .load hmoves fun hnone => congrArg some (hblock hnone), ?_, hpart⟩
    refine ⟨element, stride, hcontainer, hfits, rfl, hsize, fun hopcode => ?_⟩
    rw [hblock (Opcode.isBlock_load.mp hopcode)]
    exact hmoves.hasSize
  | store =>
    obtain ⟨⟨width, size⟩, hwidth, hop⟩ := bind_eq_ok.mp hop
    cases pure_eq_ok.mp hop
    have hmoves := TypeTable.moves_of_storeWidth hwidth
    have hblock := htypes.eq_stride_of_block helement hmoves hsize
    refine ⟨part, .store hmoves fun hnone => congrArg some (hblock hnone), ?_, hpart⟩
    refine ⟨element, stride, hcontainer, hfits, rfl, hsize, fun hopcode => ?_⟩
    rw [hblock (Opcode.isBlock_store.mp hopcode)]
    exact hmoves.hasSize

/-- The operations of an access to an element are that access. -/
theorem elementOps_accesses {container element : TypeId} {a : Access} {ops : List SelectedOp}
    (hcontainer : c.types.HasElement container element)
    (helement : c.types.AccessibleAs element type)
    (h : (do return [← c.elementAccess container type a]) = Except.ok ops) :
    ∃ op part, ops = [op] ∧ c.types.Accesses a (.part part) type op ∧
      c.types.StepsOver container type op ∧
      (part = .spanElement ∧ c.types.HasKind container (.span element) ∨
        part = .element ∧ c.types.IsReference container) := by
  obtain ⟨op, hop, hops⟩ := bind_eq_ok.mp h
  cases pure_eq_ok.mp hops
  obtain ⟨part, haccess, hsteps, hpart⟩ := elementAccess_accesses htypes hcontainer helement hop
  exact ⟨op, part, rfl, haccess, hsteps, hpart⟩

end SelectionContext

namespace Program

variable {p : Program}

/-- The operations selected for a typed instruction that accesses memory are one access, which stays
inside the location behind its operand. -/
def StaysInside (p : Program) (typed : TypedInstr) (ops : List SelectedOp) : Prop :=
  match typed.instr with
  | .typed .loadIndirect type => ∃ address location op, typed.operands = [address] ∧
      p.types.HasKind address (.reference location) ∧ p.types.Fits type location ∧ ops = [op] ∧
      p.types.Accesses .load .target type op
  | .typed .storeIndirect type => ∃ address value location op, typed.operands = [address, value] ∧
      p.types.HasKind address (.reference location) ∧ p.types.Fits type location ∧ ops = [op] ∧
      p.types.Accesses .store .target type op
  | .typed .loadElement type => ∃ container index part op, typed.operands = [container, index] ∧
      ops = [op] ∧ p.types.Accesses .load (.part part) type op ∧
      p.types.StepsOver container type op
  | .typed .storeElement type => ∃ container index value part op,
      typed.operands = [container, index, value] ∧ ops = [op] ∧
      p.types.Accesses .store (.part part) type op ∧ p.types.StepsOver container type op
  | .typed .elementAddress type => ∃ container index part op, typed.operands = [container, index] ∧
      ops = [op] ∧ p.types.Accesses .address (.part part) type op ∧
      p.types.StepsOver container type op
  | .field a ref => ∃ field op, p.types.field? ref.owner ref.index = some field ∧ ops = [op] ∧
      p.types.Accesses a (.part .field) field.type op ∧ p.types.FindsField ref.owner field op
  | _ => True

section

variable {decl : FunctionDecl} {frame : Frame} {operands results : List TypeId}
  {ops : List SelectedOp}

/-- Instructions with a type access their locations only. -/
theorem staysInside_typed {typeOp : TypeOp} {type : TypeId} (htypes : p.types.Coherent)
    (h : p.types.TypeRule type typeOp operands results)
    (hselect : (SelectionContext.mk p decl frame).typeOp (operands.headD .void) type typeOp =
      .ok ops) : p.StaysInside ⟨.typed typeOp type, operands, results⟩ ops := by
  let c : SelectionContext := ⟨p, decl, frame⟩
  cases h with
  | loadIndirect haddress hlocation h =>
    obtain ⟨op, hop, haccess⟩ := SelectionContext.loadIndirect_accesses (c := c) htypes hselect
    exact ⟨_, _, op, rfl, haddress, htypes.fits hlocation, hop, haccess⟩
  | storeIndirect hfree haddress hlocation h =>
    obtain ⟨op, hop, haccess⟩ := SelectionContext.storeIndirect_accesses hselect
    exact ⟨_, _, _, op, rfl, haddress, htypes.fits hlocation, hop, haccess⟩
  | loadElement hcontainer helement h =>
    obtain ⟨op, part, hop, haccess, hsteps, -⟩ :=
      SelectionContext.elementOps_accesses (c := c) htypes hcontainer helement hselect
    exact ⟨_, _, part, op, rfl, hop, haccess, hsteps⟩
  | storeElement hfree hcontainer helement h =>
    obtain ⟨op, part, hop, haccess, hsteps, -⟩ :=
      SelectionContext.elementOps_accesses (c := c) htypes hcontainer helement hselect
    exact ⟨_, _, _, part, op, rfl, hop, haccess, hsteps⟩
  | elementAddress hcontainer helement h =>
    obtain ⟨op, part, hop, haccess, hsteps, -⟩ :=
      SelectionContext.elementOps_accesses (c := c) htypes hcontainer helement hselect
    exact ⟨_, _, part, op, rfl, hop, haccess, hsteps⟩
  | _ => trivial

end

/-- **The memory accesses of a verified body stay inside.** -/
theorem accesses_stay_inside {config : VerifyConfig} {func : FuncRef} {decl : FunctionDecl}
    {typed : TypedFunction} {code : FunctionCode} {i : Nat} (htypes : p.types.Built)
    (hf : p.function? func = some decl) (hcode : decl.implementation = .code)
    (hverify : p.verifyFunction config func = .ok typed)
    (hlower : p.bodyCode func decl typed = .ok code) (hreachable : typed.isReachable i = true) :
    ∃ instr ops, decl.body[i]? = some instr.instr ∧ typed.instrs[i]? = some (some instr) ∧
      code.instrs[i]? = some ops ∧ p.StaysInside instr ops := by
  have hcovers := verifyFunction_covers hf hcode hverify
  obtain ⟨frame, -, -, -, hselects, -⟩ := bodyCode_eq_ok hcovers hlower
  obtain ⟨s, hs⟩ := TypedFunction.isReachable_eq_true.mp hreachable
  obtain ⟨⟨instr, operands, results⟩, -, -, -, hinstr, hrecorded, hrule, -⟩ :=
    hcovers.exists_rule htypes.hasPrimitives hs
  obtain ⟨operands', results', ops, hrecorded', hselect, hops⟩ := hselects.reached hinstr hreachable
  cases hrecorded.symm.trans hrecorded'
  refine ⟨_, ops, hinstr, hrecorded, hops, ?_⟩
  cases hrule with
  | field hfield howner h =>
    obtain ⟨op, hop, hlist⟩ := bind_eq_ok.mp hselect
    cases pure_eq_ok.mp hlist
    obtain ⟨field, hfield, haccess, hoffset⟩ :=
      SelectionContext.fieldAccess_accesses (c := ⟨p, decl, frame⟩) htypes.coherent hop
    exact ⟨field, op, hfield, rfl, haccess, hoffset, htypes.field_contained hfield⟩
  | typed h => exact staysInside_typed htypes.coherent h hselect
  | _ => trivial

/-- A body that stores to a 32-bit local as an 8-bit integer and reads it back as a 16-bit one,
copies a structure of 24 bytes from one element of an array to another, and reads the last field of
a third one. -/
def sampleMain : FunctionDecl where
  name := "main"
  params := []
  locals := [⟨"word", .int32⟩, ⟨"samples", ⟨26⟩⟩]
  result := .void
  signature := ⟨28⟩
  labels := #[]
  body := #[.localVar .address 0, .constant (.int32 7), .typed .storeIndirect .int8,
    .localVar .address 0, .typed .loadIndirect .uint16, .plain .pop, .localVar .address 1,
    .constant (.int32 1), .localVar .address 1, .constant (.int32 0), .typed .loadElement ⟨24⟩,
    .typed .storeElement ⟨24⟩, .localVar .address 1, .constant (.int32 2),
    .typed .elementAddress ⟨24⟩, .field .load ⟨⟨24⟩, 2⟩, .plain .pop, .plain .ret]
  implementation := .code
  zeroInit := false

def samples : Program where
  types :=
    let structs := (TypeTable.initial.declareStruct "Sample"
      [("tag", .uint8), ("time", .int64), ("level", .int16)]).1
    ((structs.array ⟨24⟩ 3).1.function [] .void).1
  modules := #[⟨"samples", [], #[sampleMain], none⟩]

theorem samples_built : samples.types.Built := by
  simp only [samples]
  apply_rules [TypeTable.Built.function, TypeTable.Built.array, TypeTable.Built.declareStruct,
    TypeTable.Built.initial]

/-- The six accesses of the body stay inside. -/
theorem samples_stay_inside : ∃ typed code, samples.types.Built ∧
    samples.function? ⟨⟨0⟩, 0⟩ = some sampleMain ∧
    samples.verifyFunction {} ⟨⟨0⟩, 0⟩ = .ok typed ∧
    samples.bodyCode ⟨⟨0⟩, 0⟩ sampleMain typed = .ok code ∧
    ∀ i ∈ [2, 4, 10, 11, 14, 15], typed.isReachable i = true ∧
      ∃ instr ops, sampleMain.body[i]? = some instr.instr ∧ typed.instrs[i]? = some (some instr) ∧
        code.instrs[i]? = some ops ∧ samples.StaysInside instr ops := by
  have hrun : ((samples.verifyFunction {} ⟨⟨0⟩, 0⟩).toOption.any fun typed =>
      (samples.bodyCode ⟨⟨0⟩, 0⟩ sampleMain typed).toOption.any fun _ =>
        [2, 4, 10, 11, 14, 15].all typed.isReachable) = true := by
    cbv
  obtain ⟨typed, hverify, hrun⟩ := (Option.any_eq_true _ _).mp hrun
  obtain ⟨code, hlower, hreachable⟩ := (Option.any_eq_true _ _).mp hrun
  have hverify := toOption_eq_some.mp hverify
  have hlower := toOption_eq_some.mp hlower
  refine ⟨typed, code, samples_built, rfl, hverify, hlower, fun i hi => ?_⟩
  have hi := List.all_eq_true.mp hreachable i hi
  exact ⟨hi, accesses_stay_inside samples_built rfl rfl hverify hlower hi⟩

end Program

end StackCode
