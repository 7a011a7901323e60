import StackCode.Code.Emission
import StackCode.Proofs.Code.Placed
import StackCode.Proofs.Disassembly.Written

/-!
# What emission writes

The operations of a function are written one after the other, each with tokens and offsets in the
place of names.  What emission appends to an image holds a listing of the function, and the fixups
it adds are those of the operations that name functions of imported modules.

## Main definitions

* `Operand.Renames`: the same operand over other names.
* `ModuleScope.Names`: a token names a function before linking.
* `Contiguous`: operations that follow each other.
* `ListsCode`: the listing of placed code.
* `ModuleScope.fixupsFrom`: the fixups of operations.

## Main results

* `Emission.code_written`: what is written for a function.
* `Emission.codes_written`: what is written for the functions of a module.
-/

namespace StackCode

/-- The same operand over other names: functions correspond by `F` and branch targets by `T`. -/
inductive Operand.Renames {φ φ' τ τ' : Type} (F : φ → φ' → Prop) (T : τ → τ' → Prop) :
    Operand φ τ → Operand φ' τ' → Prop
  | none : Renames F T .none .none
  | u8 (value : UInt8) : Renames F T (.u8 value) (.u8 value)
  | u16 (value : UInt16) : Renames F T (.u16 value) (.u16 value)
  | func {f : φ} {f' : φ'} (h : F f f') : Renames F T (.func f) (.func f')
  | funcSlots {f : φ} {f' : φ'} (h : F f f') (slots : UInt8) :
      Renames F T (.funcSlots f slots) (.funcSlots f' slots)
  | i32 (value : Int32) : Renames F T (.i32 value) (.i32 value)
  | i64 (value : Int64) : Renames F T (.i64 value) (.i64 value)
  | f32 (bits : UInt32) : Renames F T (.f32 bits) (.f32 bits)
  | f64 (bits : UInt64) : Renames F T (.f64 bits) (.f64 bits)
  | slot (index : UInt8) : Renames F T (.slot index) (.slot index)
  | slotCount (index count : UInt8) : Renames F T (.slotCount index count) (.slotCount index count)
  | offset (value : UInt16) : Renames F T (.offset value) (.offset value)
  | offsetSize (offset size : UInt16) :
      Renames F T (.offsetSize offset size) (.offsetSize offset size)
  | size (value : UInt16) : Renames F T (.size value) (.size value)
  | target {t : τ} {t' : τ'} (h : T t t') : Renames F T (.target t) (.target t')

namespace Operand.Renames

variable {φ φ' τ τ' : Type} {F G : φ → φ' → Prop} {T S : τ → τ' → Prop} {a : Operand φ τ}
  {b : Operand φ' τ'}

/-- Resolved operands fit the shapes that they fitted before. -/
theorem fits_eq (h : a.Renames F T b) (shape : Shape) : b.fits shape = a.fits shape := by
  cases h <;> cases shape <;> rfl

theorem imp (h : a.Renames F T b) (hF : ∀ f f', F f f' → G f f')
    (hT : ∀ t t', a = .target t → T t t' → S t t') : a.Renames G S b := by
  cases h with
  | func h => exact .func (hF _ _ h)
  | funcSlots h slots => exact .funcSlots (hF _ _ h) slots
  | target h => exact .target (hT _ _ rfl h)
  | _ => constructor

end Operand.Renames

namespace ModuleScope

variable {s : ModuleScope}

/-- The token names the function before linking: a function of the module by its offset, any other
by the position of its module in the import table alone. -/
def Names (s : ModuleScope) (func : FuncRef) (token : Token) : Prop :=
  func.module = s.module ∧ token.module = Token.thisModule ∧
      s.functionOffsets[func.index]? = some token.offset.toNat ∨
    func.module ≠ s.module ∧ s.imports.findIdx? (· = func.module) = some token.module.toNat ∧
      token.offset = 0

theorem importSlot?_eq_some {m : ModuleId} {slot : UInt8} (h : s.importSlot? m = some slot) :
    s.imports.findIdx? (· = m) = some slot.toNat := by
  unfold importSlot? at h
  split at h
  · rename_i i hi
    split at h
    · rename_i hlt
      cases h
      rw [hi, UInt8.toNat_ofNat', Nat.mod_eq_of_lt hlt]
    · cases h
  · cases h

theorem functionOffset?_eq_some {index : Nat} {offset : UInt16}
    (h : s.functionOffset? index = some offset) :
    s.functionOffsets[index]? = some offset.toNat := by
  unfold functionOffset? at h
  split at h
  · rename_i i hi
    split at h
    · rename_i hlt
      cases h
      rw [hi, UInt16.toNat_ofNat', Nat.mod_eq_of_lt hlt]
    · cases h
  · cases h

/-- The token of a function names it. -/
theorem token_names {func callee : FuncRef} {index : Nat} {token : Token}
    (h : s.token func index callee = .ok token) : s.Names callee token := by
  unfold ModuleScope.token at h
  split at h
  · rename_i hmodule
    split at h
    · rename_i offset hoffset
      cases h
      exact .inl ⟨hmodule, rfl, functionOffset?_eq_some hoffset⟩
    · cases h
  · rename_i hmodule
    split at h
    · rename_i slot hslot
      cases h
      exact .inr ⟨hmodule, importSlot?_eq_some hslot, rfl⟩
    · cases h

end ModuleScope

/-- The offset a label of placed code gets, if its operations start at `base`. -/
def PlacedCode.TargetAt (code : PlacedCode) (base : Nat) (l : Label) (offset : Nat) : Prop :=
  ∃ relative, code.targetOffset? l = some relative ∧ offset = base + relative

/-- A resolved operand names what it named before. -/
theorem ModuleScope.operand_renames {s : ModuleScope} {code : PlacedCode} {base index : Nat}
    {operand : Operand FuncRef Label} {resolved : Operand Token Nat}
    (h : s.operand code base index operand = .ok resolved) :
    operand.Renames s.Names (code.TargetAt base) resolved := by
  cases operand with
  | func f =>
    obtain ⟨token, htoken, h⟩ := bind_eq_ok.mp h
    cases pure_eq_ok.mp h
    exact .func (token_names htoken)
  | funcSlots f slots =>
    obtain ⟨token, htoken, h⟩ := bind_eq_ok.mp h
    cases pure_eq_ok.mp h
    exact .funcSlots (token_names htoken) slots
  | target l =>
    simp only [ModuleScope.operand] at h
    split at h
    · rename_i relative hrelative
      cases h
      exact .target ⟨relative, hrelative, rfl⟩
    · cases h
  | _ =>
    cases h
    constructor

/-! ### Operations in sequence -/

/-- Operations that follow each other without a gap from `start` to `finish`. -/
inductive Contiguous : Nat → List PlacedOp → Nat → Prop
  | nil (start : Nat) : Contiguous start [] start
  | cons {start finish : Nat} {op : Operation Token Nat} {ops : List PlacedOp}
      (hrest : Contiguous (start + op.length) ops finish) :
      Contiguous start (⟨start, op⟩ :: ops) finish

namespace OpsWritten

variable {start : Nat} {ops ops' : List PlacedOp} {bytes bytes' : List UInt8}

/-- Operations are written one after the other. -/
theorem contiguous (h : OpsWritten start ops bytes) :
    Contiguous start ops (start + bytes.length) := by
  induction h with
  | nil start => exact .nil start
  | @cons start op bytes rest ops hshape hop hrest ih =>
    refine .cons ?_
    rwa [List.length_append, (Operation.reads_encode hshape hop).2, ← Nat.add_assoc]

theorem append (h : OpsWritten start ops bytes)
    (h' : OpsWritten (start + bytes.length) ops' bytes') :
    OpsWritten start (ops ++ ops') (bytes ++ bytes') := by
  induction h with
  | nil start => exact h'
  | @cons start op bytes rest ops hshape hop hrest ih =>
    rw [List.length_append, (Operation.reads_encode hshape hop).2, ← Nat.add_assoc] at h'
    rw [List.append_assoc]
    exact .cons hshape hop (ih h')

end OpsWritten

namespace ModuleScope

/-- The fixups of operations that follow each other from `start` on. -/
def fixupsFrom (s : ModuleScope) (start : Nat) : List SelectedOp → List Fixup
  | [] => []
  | op :: ops => (s.fixup? start op).toList ++ s.fixupsFrom (start + op.length) ops

theorem fixupsFrom_append (s : ModuleScope) (start : Nat) (a b : List SelectedOp) :
    s.fixupsFrom start (a ++ b) =
      s.fixupsFrom start a ++ s.fixupsFrom (start + totalLength a) b := by
  induction a generalizing start with
  | nil => rfl
  | cons op a ih =>
    rw [List.cons_append, fixupsFrom, ih, fixupsFrom, totalLength, List.append_assoc, Nat.add_assoc]

end ModuleScope

/-- What an image holds for an operation: the opcode, and the operand with names resolved; `F` says
which tokens name a function. -/
structure Emits (F : FuncRef → Token → Prop) (code : PlacedCode) (base : Nat) (op : SelectedOp)
    (placed : PlacedOp) : Prop where
  opcode : placed.op.opcode = op.opcode
  operand : op.operand.Renames F (code.TargetAt base) placed.op.operand

/-- Emitted operations have operands of the shapes their opcodes ask for, if the selected ones
have. -/
theorem Emits.wellShaped_iff {F : FuncRef → Token → Prop} {code : PlacedCode} {base : Nat}
    {op : SelectedOp} {placed : PlacedOp} (h : Emits F code base op placed) :
    placed.op.WellShaped ↔ op.WellShaped := by
  rw [Operation.WellShaped, Operation.WellShaped, h.opcode, h.operand.fits_eq]

/-- What emission has appended: bytes that hold operations standing for the selected ones, and their
fixups. -/
structure Emission.Appends (s : ModuleScope) (code : PlacedCode) (base : Nat) (e e' : Emission)
    (ops : List SelectedOp) (placed : List PlacedOp) (bytes : List UInt8) : Prop where
  image : e'.image.toList = e.image.toList ++ bytes
  length : bytes.length = totalLength ops
  fixups : e'.fixups.toList = e.fixups.toList ++ s.fixupsFrom e.image.size ops
  written : OpsWritten e.image.size placed bytes
  emits : List.Forall₂ (Emits s.Names code base) ops placed

namespace Emission

variable {s : ModuleScope} {code : PlacedCode} {base index : Nat} {e e' e'' : Emission}

theorem Appends.nil (s : ModuleScope) (code : PlacedCode) (base : Nat) (e : Emission) :
    Appends s code base e e [] [] [] where
  image := (List.append_nil _).symm
  length := rfl
  fixups := (List.append_nil _).symm
  written := .nil _
  emits := .nil

theorem Appends.size_eq {ops : List SelectedOp} {placed : List PlacedOp} {bytes : List UInt8}
    (h : Appends s code base e e' ops placed bytes) :
    e'.image.size = e.image.size + bytes.length := by
  rw [← Array.length_toList, h.image, List.length_append, Array.length_toList]

theorem Appends.append {ops ops' : List SelectedOp} {placed placed' : List PlacedOp}
    {bytes bytes' : List UInt8} (h : Appends s code base e e' ops placed bytes)
    (h' : Appends s code base e' e'' ops' placed' bytes') :
    Appends s code base e e'' (ops ++ ops') (placed ++ placed') (bytes ++ bytes') := by
  have hsize := h.size_eq
  refine ⟨?_, ?_, ?_, h.written.append (hsize ▸ h'.written), List.rel_append h.emits h'.emits⟩
  · rw [h'.image, h.image, List.append_assoc]
  · rw [List.length_append, h.length, h'.length, totalLength_append]
  · rw [h'.fixups, h.fixups, List.append_assoc, hsize, h.length, ModuleScope.fixupsFrom_append]

theorem op_appends {op : SelectedOp} (hshape : op.WellShaped)
    (h : Emission.op s code base index e op = .ok e') :
    ∃ placed bytes, Appends s code base e e' [op] [placed] bytes := by
  obtain ⟨operand, hoperand, h⟩ := bind_eq_ok.mp h
  have hemits : Emits s.Names code base op ⟨e.image.size, op.opcode, operand⟩ :=
    ⟨rfl, ModuleScope.operand_renames hoperand⟩
  split at h
  · rename_i bytes hbytes
    cases pure_eq_ok.mp h
    have hshape' := hemits.wellShaped_iff.mpr hshape
    have hlength := (Operation.reads_encode hshape' hbytes).2
    have hwritten := OpsWritten.cons hshape' hbytes (.nil _)
    rw [List.append_nil] at hwritten
    refine ⟨_, bytes, ?_, ?_, ?_, hwritten, .cons hemits .nil⟩
    · exact Array.toList_appendList
    · exact hlength
    · rw [ModuleScope.fixupsFrom, ModuleScope.fixupsFrom, List.append_nil]
      exact Array.toList_appendList
  · cases h

/-- Operations that are emitted are appended. -/
theorem ops_appends {ops : List SelectedOp} (hshape : ∀ op ∈ ops, op.WellShaped)
    (h : ops.foldlM (fun e op => Emission.op s code base index e op) e = .ok e') :
    ∃ placed bytes, Appends s code base e e' ops placed bytes := by
  induction ops generalizing e with
  | nil =>
    cases h
    exact ⟨[], [], .nil s code base _⟩
  | cons op ops ih =>
    rw [List.foldlM_cons] at h
    obtain ⟨mid, hmid, h⟩ := bind_eq_ok.mp h
    obtain ⟨hop, hops⟩ := List.forall_mem_cons.mp hshape
    obtain ⟨placed, bytes, happends⟩ := op_appends hop hmid
    obtain ⟨placed', bytes', happends'⟩ := ih hops h
    exact ⟨_, _, happends.append happends'⟩

/-- What is written for the instructions of a function. -/
theorem instrs_appends {instrs : List (List SelectedOp)} {first : Nat}
    (hshape : ∀ ops ∈ instrs, ∀ op ∈ ops, op.WellShaped)
    (h : (instrs.zipIdx first).foldlM (fun e (ops, index) =>
      ops.foldlM (fun e op => Emission.op s code base index e op) e) e = .ok e') :
    ∃ placed bytes, Appends s code base e e' instrs.flatten placed bytes := by
  induction instrs generalizing e first with
  | nil =>
    cases h
    exact ⟨[], [], .nil s code base _⟩
  | cons ops instrs ih =>
    rw [List.zipIdx_cons, List.foldlM_cons] at h
    obtain ⟨mid, hmid, h⟩ := bind_eq_ok.mp h
    obtain ⟨hops, hinstrs⟩ := List.forall_mem_cons.mp hshape
    obtain ⟨placed, bytes, happends⟩ := ops_appends hops hmid
    obtain ⟨placed', bytes', happends'⟩ := ih hinstrs h
    rw [List.flatten_cons]
    exact ⟨_, _, happends.append happends'⟩

end Emission

/-! ### Functions in sequence -/

/-- The listing of placed code: its descriptor, and its operations one after the other. -/
structure ListsCode (F : FuncRef → Token → Prop) (code : PlacedCode) (listing : FunctionListing) :
    Prop where
  descriptor : listing.descriptor = code.descriptor
  emits : List.Forall₂ (Emits F code (listing.offset + Descriptor.size)) code.instrs.flatten
    listing.ops
  contiguous : Contiguous (listing.offset + Descriptor.size) listing.ops
    (listing.offset + Descriptor.size + totalLength code.instrs.flatten)

/-- The listing still lists the code if its tokens name functions in a weaker sense. -/
theorem ListsCode.imp {F G : FuncRef → Token → Prop} {code : PlacedCode}
    {listing : FunctionListing} (h : ListsCode F code listing)
    (hF : ∀ func token, F func token → G func token) : ListsCode G code listing := by
  refine ⟨h.descriptor, h.emits.imp fun op placed hop => ?_, h.contiguous⟩
  exact ⟨hop.opcode, hop.operand.imp hF fun _ _ _ => id⟩

/-- The fixups of functions that follow each other from `start` on. -/
def ModuleScope.fixupsOf (s : ModuleScope) (start : Nat) : List PlacedCode → List Fixup
  | [] => []
  | code :: codes => s.fixupsFrom (start + Descriptor.size) code.instrs.flatten ++
      s.fixupsOf (start + Descriptor.size + totalLength code.instrs.flatten) codes

/-- Where functions start that follow each other from `start` on. -/
def codeOffsets (start : Nat) : List PlacedCode → List Nat
  | [] => []
  | code :: codes =>
    start :: codeOffsets (start + Descriptor.size + totalLength code.instrs.flatten) codes

/-- Every operation of placed code has an operand of the shape its opcode asks for. -/
def PlacedCode.WellShaped (code : PlacedCode) : Prop :=
  ∀ ops ∈ code.instrs, ∀ op ∈ ops, op.WellShaped

namespace Emission

variable {s : ModuleScope} {e e' : Emission}

/-- **What is written for a function** is its listing. -/
theorem code_written {code : PlacedCode} (hshape : code.WellShaped)
    (h : Emission.code s e code = .ok e') :
    ∃ listing bytes, listing.offset = e.image.size ∧ listing.Written bytes ∧
      ListsCode s.Names code listing ∧ e'.image.toList = e.image.toList ++ bytes ∧
      bytes.length = Descriptor.size + totalLength code.instrs.flatten ∧
      e'.fixups.toList = e.fixups.toList ++
        s.fixupsFrom (e.image.size + Descriptor.size) code.instrs.flatten := by
  have hbase : (e.image ++ code.descriptor.encode).size = e.image.size + Descriptor.size := by
    rw [← Array.length_toList, Array.toList_appendList, List.length_append, Array.length_toList]
    rfl
  obtain ⟨placed, bytes, happends⟩ := instrs_appends hshape h
  have himage := happends.image
  have hfixups := happends.fixups
  have hwritten := happends.written
  have hemits := happends.emits
  rw [hbase] at hwritten hfixups hemits
  rw [Array.toList_appendList, List.append_assoc] at himage
  refine ⟨⟨e.image.size, code.descriptor, placed⟩, _, rfl, ⟨bytes, hwritten, rfl⟩,
    ⟨rfl, hemits, ?_⟩, himage, ?_, hfixups⟩
  · rw [← happends.length]
    exact hwritten.contiguous
  · rw [List.length_append, happends.length]
    rfl

/-- **What is written for the functions of a module** is their listings, one after the other. -/
theorem codes_written {codes : List PlacedCode} (hshape : ∀ code ∈ codes, code.WellShaped)
    (h : codes.foldlM (fun e code => Emission.code s e code) e = .ok e') :
    ∃ listings bytes, ListingsWritten e.image.size listings bytes ∧
      listings.map FunctionListing.offset = codeOffsets e.image.size codes ∧
      List.Forall₂ (ListsCode s.Names) codes listings ∧
      e'.image.toList = e.image.toList ++ bytes ∧
      e'.fixups.toList = e.fixups.toList ++ s.fixupsOf e.image.size codes := by
  induction codes generalizing e with
  | nil =>
    cases h
    exact ⟨[], [], .nil _, rfl, .nil, (List.append_nil _).symm, (List.append_nil _).symm⟩
  | cons code codes ih =>
    rw [List.foldlM_cons] at h
    obtain ⟨mid, hmid, h⟩ := bind_eq_ok.mp h
    obtain ⟨hcode, hcodes⟩ := List.forall_mem_cons.mp hshape
    obtain ⟨listing, bytes, hoffset, hwritten, hlists, himage, hlength, hfixups⟩ :=
      code_written hcode hmid
    obtain ⟨listings, bytes', hwritten', hoffsets, hlists', himage', hfixups'⟩ := ih hcodes h
    have hsize : mid.image.size = e.image.size + bytes.length := by
      rw [← Array.length_toList, himage, List.length_append, Array.length_toList]
    rw [hsize] at hwritten' hfixups' hoffsets
    refine ⟨listing :: listings, bytes ++ bytes', ?_, ?_, .cons hlists hlists', ?_, ?_⟩
    · rw [← hoffset] at hwritten' ⊢
      exact .cons hwritten hwritten'
    · rw [List.map_cons, hoffset, hoffsets, hlength, ← Nat.add_assoc, codeOffsets]
    · rw [himage', himage, List.append_assoc]
    · rw [hfixups', hfixups, List.append_assoc, ModuleScope.fixupsOf, hlength, Nat.add_assoc]

end Emission

end StackCode
