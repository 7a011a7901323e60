import StackCode.Code.Module
import StackCode.Proofs.Code.Emitted
import StackCode.Proofs.Code.Selected
import StackCode.Proofs.Typing.Verified

/-!
# What a compiled module holds

A compiled module is a header, an import table of zeros and the listings of its functions.  The
listing of a function is the list of operations selected for its instructions, in order, with
branches in their final form and names resolved.

## Main definitions

* `Program.Selects`: the operations selected for a function.
* `CompiledModule.Holds`: what a compiled module holds.

## Main results

* `Program.holds_of_compileModule`: a compiled module holds the code of the module.
-/

namespace StackCode

/-- The offsets found for functions are where they start. -/
theorem functionOffsets_eq_ok {codes : List PlacedCode} {start finish : Nat} {offsets : List Nat}
    (hsize : ∀ code ∈ codes, code.size = totalLength code.instrs.flatten)
    (h : functionOffsets codes start = .ok (offsets, finish)) :
    offsets = codeOffsets start codes ∧ ∀ offset ∈ offsets, offset < 65536 := by
  induction codes generalizing start offsets with
  | nil =>
    cases h
    exact ⟨rfl, List.forall_mem_nil _⟩
  | cons code codes ih =>
    unfold functionOffsets at h
    split at h
    · rename_i hlt
      obtain ⟨⟨others, finish'⟩, hothers, h⟩ := bind_eq_ok.mp h
      cases pure_eq_ok.mp h
      obtain ⟨hcode, hcodes⟩ := List.forall_mem_cons.mp hsize
      obtain ⟨rfl, hsmall⟩ := ih hcodes hothers
      refine ⟨?_, List.forall_mem_cons.mpr ⟨hlt, hsmall⟩⟩
      rw [codeOffsets, hcode]
    · cases h

/-- The stacks that verification recorded for a function. -/
def TypedProgram.statesOf (typing : TypedProgram) (func : FuncRef) :
    List (Option (OperandStack TypeId)) :=
  match typing.function? func with
  | some typed => typed.states.toList
  | none => []

/-- The operations selected for the instructions of a body: none for those control does not
reach. -/
structure SelectionContext.SelectsBody (c : SelectionContext) (typed : TypedFunction)
    (selected : List (List SelectedOp)) : Prop where
  length : selected.length = c.decl.body.size
  unreached : ∀ i < c.decl.body.size, typed.isReachable i = false → selected[i]? = some []
  reached : ∀ {i instr}, c.decl.body[i]? = some instr → typed.isReachable i = true →
    ∃ operands results ops, typed.instrs[i]? = some (some ⟨instr, operands, results⟩) ∧
      c.select ⟨instr, operands, results⟩ = .ok ops ∧ selected[i]? = some ops

namespace Program

variable {p : Program} {typing : TypedProgram} {func : FuncRef} {decl : FunctionDecl}

/-- The operations selected for a function, by instruction; a system call has one group, the call
and the return of its result. -/
def Selects (p : Program) (typing : TypedProgram) (func : FuncRef) (decl : FunctionDecl)
    (frame : Frame) (selected : List (List SelectedOp)) : Prop :=
  match decl.implementation with
  | .syscall id => ∃ ret, (p.types.returnOp? decl.result : Checked EncodeError _) = .ok (some ret) ∧
      selected = [[⟨.syscall, .u16 id⟩, ret]]
  | .code => ∃ typed, typing.function? func = some typed ∧
      (SelectionContext.mk p decl frame).SelectsBody typed selected

/-- The code of a function is what is selected for it. -/
structure IsCodeOf (p : Program) (typing : TypedProgram) (func : FuncRef) (decl : FunctionDecl)
    (code : FunctionCode) : Prop where
  labels_eq : code.labels = decl.labels
  frame : ∃ frame, Frame.ofFunction p.types decl (typing.statesOf func) = .ok frame ∧
    code.descriptor = frame.descriptor decl.zeroInit ∧ p.Selects typing func decl frame code.instrs
  wellShaped : ∀ ops ∈ code.instrs, ∀ op ∈ ops, op.WellShaped

/-- What is compiled for a system call is its code. -/
theorem isCodeOf_of_stubCode {id : UInt16} {code : FunctionCode}
    (himpl : decl.implementation = .syscall id) (h : p.stubCode func decl id = .ok code) :
    p.IsCodeOf typing func decl code := by
  obtain ⟨frame, hframe, h⟩ := bind_eq_ok.mp h
  obtain ⟨ret?, hret, h⟩ := bind_eq_ok.mp h
  cases ret? with
  | none =>
    obtain ⟨_, -, h⟩ := bind_eq_ok.mp h
    cases h
  | some ret =>
    cases pure_eq_ok.mp h
    refine ⟨rfl, ⟨frame, ?_, rfl, ?_⟩, ?_⟩
    · simp only [Frame.ofFunction, himpl]
      exact Checked.widen_eq_ok.mp hframe
    · simp only [Selects, himpl]
      exact ⟨ret, hret, rfl⟩
    · refine List.forall_mem_singleton.mpr (List.forall_mem_cons.mpr ⟨rfl, ?_⟩)
      exact List.forall_mem_singleton.mpr (TypeTable.returnOp?_straight hret).1.1

/-- The operations of one instruction of a typed body. -/
def selectIfReached (c : SelectionContext) (func : FuncRef) (index : Nat) :
    Option TypedInstr → Checked EncodeError (List SelectedOp)
  | none => return []
  | some instr => (c.select instr).widen (SelectionError.located func index)

/-- What is selected has the shapes of its opcodes. -/
theorem wellShaped_of_selectIfReached {c : SelectionContext} {index : Nat}
    {instr? : Option TypedInstr} {ops : List SelectedOp}
    (h : selectIfReached c func index instr? = .ok ops) : ∀ op ∈ ops, op.WellShaped := by
  cases instr? with
  | none =>
    cases h
    exact List.forall_mem_nil _
  | some instr => exact (SelectionContext.selected_of_select (Checked.widen_eq_ok.mp h)).wellShaped

/-- What is selected for a body, instruction by instruction.  Without a recorded stack there is no
typed form to select from. -/
theorem selectsBody_of_mapM {frame : Frame} {typed : TypedFunction}
    {instrs : List (List SelectedOp)} (hcovers : typed.Covers ⟨p, decl⟩)
    (h : typed.instrs.toList.zipIdx.mapM
      (fun (instr, index) => selectIfReached ⟨p, decl, frame⟩ func index instr) = .ok instrs) :
    (SelectionContext.mk p decl frame).SelectsBody typed instrs := by
  have hat {i : Nat} {instr? : Option TypedInstr} (hi : typed.instrs[i]? = some instr?) :
      ∃ ops, instrs[i]? = some ops ∧
        selectIfReached ⟨p, decl, frame⟩ func i instr? = .ok ops := by
    have hzip : typed.instrs.toList.zipIdx[i]? = some (instr?, i) := by
      simp [List.getElem?_zipIdx, hi]
    exact getElem?_of_mapM h hzip
  refine ⟨?_, fun i hi hunreached => ?_, fun {i instr} hinstr hreached => ?_⟩
  · rw [length_of_mapM h, List.length_zipIdx, Array.length_toList]
    exact hcovers.size_instrs
  · have hnone : typed.states[i]? = some none := by
      have hsize : i < typed.states.size := hcovers.size_states ▸ hi
      cases hstate : typed.states[i] with
      | none => rw [Array.getElem?_eq_getElem hsize, hstate]
      | some s =>
        have hreached := TypedFunction.isReachable_eq_true.mpr
          ⟨s, (Array.getElem?_eq_getElem hsize).trans (congrArg some hstate)⟩
        rw [hunreached] at hreached
        cases hreached
    obtain ⟨ops, hops, hselect⟩ := hat (hcovers.unreached i hnone)
    cases hselect
    exact hops
  · obtain ⟨s, hs⟩ := TypedFunction.isReachable_eq_true.mp hreached
    obtain ⟨effect, -, -, htyped, -⟩ := hcovers.reached hinstr hs
    obtain ⟨ops, hops, hselect⟩ := hat htyped
    exact ⟨_, _, ops, htyped, Checked.widen_eq_ok.mp hselect, hops⟩

/-- The code of a body is a frame and what is selected in it. -/
theorem bodyCode_eq_ok {typed : TypedFunction} {code : FunctionCode}
    (hcovers : typed.Covers ⟨p, decl⟩) (h : p.bodyCode func decl typed = .ok code) :
    ∃ frame, Frame.ofTyping p.types decl typed.states.toList = .ok frame ∧
      code.descriptor = frame.descriptor decl.zeroInit ∧ code.labels = decl.labels ∧
      (SelectionContext.mk p decl frame).SelectsBody typed code.instrs ∧
      ∀ ops ∈ code.instrs, ∀ op ∈ ops, op.WellShaped := by
  obtain ⟨frame, hframe, h⟩ := bind_eq_ok.mp h
  obtain ⟨instrs, hinstrs, h⟩ := bind_eq_ok.mp h
  cases pure_eq_ok.mp h
  have hinstrs : typed.instrs.toList.zipIdx.mapM
      (fun (instr, index) => selectIfReached ⟨p, decl, frame⟩ func index instr) = .ok instrs := by
    refine Eq.trans (congrArg (List.mapM · _) (funext fun x => ?_)) hinstrs
    cases x.1 <;> rfl
  refine ⟨frame, Checked.widen_eq_ok.mp hframe, rfl, rfl, selectsBody_of_mapM hcovers hinstrs,
    fun ops hops => ?_⟩
  obtain ⟨_, -, hselect⟩ := mem_of_mapM hinstrs hops
  exact wellShaped_of_selectIfReached hselect

/-- What is compiled for a body is its code. -/
theorem isCodeOf_of_bodyCode {typed : TypedFunction} {code : FunctionCode}
    (himpl : decl.implementation = .code) (htyped : typing.function? func = some typed)
    (hcovers : typed.Covers ⟨p, decl⟩) (h : p.bodyCode func decl typed = .ok code) :
    p.IsCodeOf typing func decl code := by
  obtain ⟨frame, hframe, hdescriptor, hlabels, hselects, hshaped⟩ := bodyCode_eq_ok hcovers h
  refine ⟨hlabels, ⟨frame, ?_, hdescriptor, ?_⟩, hshaped⟩
  · simp only [Frame.ofFunction, himpl, TypedProgram.statesOf, htyped]
    exact hframe
  · simp only [Selects, himpl]
    exact ⟨typed, htyped, hselects⟩

/-- The code found for a function of a verified program is its code. -/
theorem isCodeOf_of_functionCode {config : VerifyConfig} {code : FunctionCode}
    (hverify : p.verify config = .ok typing) (hf : p.function? func = some decl)
    (h : p.functionCode typing func decl = .ok code) : p.IsCodeOf typing func decl code := by
  unfold functionCode at h
  split at h
  · rename_i id himpl
    exact isCodeOf_of_stubCode himpl h
  · rename_i himpl
    obtain ⟨typed, htyped, hfunction⟩ := function?_of_verify hverify hf
    rw [htyped] at h
    dsimp only at h
    split at h
    · exact isCodeOf_of_bodyCode himpl htyped (verifyFunction_covers hf himpl hfunction) h
    · cases h

/-- An operation of the code of a function is selected for an instruction of the body; in the code
of a system call it is the call or the return. -/
theorem stub_or_select_of_isCodeOf {code : FunctionCode} {ops : List SelectedOp} {op : SelectedOp}
    (h : p.IsCodeOf typing func decl code) (hops : ops ∈ code.instrs) (hop : op ∈ ops) :
    (∃ (id : UInt16) (ret : SelectedOp), op = ⟨.syscall, .u16 id⟩ ∨ op = ret ∧
      (p.types.returnOp? decl.result : Checked EncodeError _) = .ok (some ret)) ∨
    decl.implementation = .code ∧ ∃ (frame : Frame) (index : Nat) (instr : Instr)
      (operands results : List TypeId), decl.body[index]? = some instr ∧
        (SelectionContext.mk p decl frame).select ⟨instr, operands, results⟩ = .ok ops := by
  obtain ⟨frame, -, -, hselects⟩ := h.frame
  cases himpl : decl.implementation with
  | syscall id =>
    simp only [Selects, himpl] at hselects
    obtain ⟨ret, hret, hcode⟩ := hselects
    rw [hcode] at hops
    cases List.mem_singleton.mp hops
    rcases List.mem_pair.mp hop with hcall | hreturn
    · exact .inl ⟨id, ret, .inl hcall⟩
    · exact .inl ⟨id, ret, .inr ⟨hreturn, hret⟩⟩
  | code =>
    simp only [Selects, himpl] at hselects
    obtain ⟨typed, -, hbody⟩ := hselects
    obtain ⟨i, hi⟩ := List.mem_iff_getElem?.mp hops
    have hlt : i < decl.body.size := by
      rw [← hbody.length]
      exact (List.getElem?_eq_some_iff.mp hi).1
    cases hreached : typed.isReachable i with
    | false =>
      cases hi.symm.trans (hbody.unreached i hlt hreached)
      cases hop
    | true =>
      have hinstr : decl.body[i]? = some decl.body[i] := Array.getElem?_eq_getElem hlt
      obtain ⟨operands, results, ops', -, hselect, hi'⟩ := hbody.reached hinstr hreached
      cases hi.symm.trans hi'
      exact .inr ⟨rfl, frame, i, _, operands, results, hinstr, hselect⟩

/-- An operation of the code of a function is straight, or it is selected for an instruction of the
body. -/
theorem straight_or_select_of_isCodeOf {code : FunctionCode} {ops : List SelectedOp}
    {op : SelectedOp} (h : p.IsCodeOf typing func decl code) (hops : ops ∈ code.instrs)
    (hop : op ∈ ops) :
    op.Straight ∨ decl.implementation = .code ∧ ∃ (frame : Frame) (index : Nat) (instr : Instr)
      (operands results : List TypeId), decl.body[index]? = some instr ∧
        (SelectionContext.mk p decl frame).select ⟨instr, operands, results⟩ = .ok ops := by
  refine (stub_or_select_of_isCodeOf h hops hop).imp_left ?_
  rintro ⟨id, ret, rfl | ⟨rfl, hret⟩⟩
  · exact ⟨rfl, rfl, rfl⟩
  · exact (TypeTable.returnOp?_straight hret).1

/-- A function that the code of a function names is named by an instruction of the body. -/
theorem exists_instr_of_isCodeOf {code : FunctionCode} {ops : List SelectedOp} {op : SelectedOp}
    {callee : FuncRef} (h : p.IsCodeOf typing func decl code) (hops : ops ∈ code.instrs)
    (hop : op ∈ ops) (hnames : SelectionContext.NamesFunction callee op) :
    decl.implementation = .code ∧ ∃ (index : Nat) (funcOp : FuncOp),
      decl.body[index]? = some (.function funcOp callee) ∧ op.opcode = funcOp.opcode := by
  rcases straight_or_select_of_isCodeOf h hops hop with
    hstraight | ⟨himpl, frame, index, instr, operands, results, hinstr, hselect⟩
  · cases hnames.func?_eq.symm.trans hstraight.func?
  · obtain ⟨funcOp, rfl⟩ := (SelectionContext.selected_of_select hselect).named hop hnames
    exact ⟨himpl, index, funcOp, hinstr, SelectionContext.opcode_of_select hselect hop⟩

end Program

/-- What tokens of the module are resolved against. -/
def CompiledModule.scope (cm : CompiledModule) : ModuleScope :=
  ⟨cm.module, cm.imports, cm.functionOffsets⟩

/-- What a compiled module holds: the image of its header, of an import table of zeros and of the
listings of its functions, and where the parts of the code are. -/
structure CompiledModule.Holds (cm : CompiledModule) (p : Program) (typing : TypedProgram)
    (m : ModuleDecl) (placed : List PlacedCode) (listings : List FunctionListing) : Prop where
  module : p.module? cm.module = some m
  imports : cm.imports = m.imports
  imports_le : m.imports.length ≤ 255
  features : cm.features = .unionAll (placed.map PlacedCode.features)
  written : (Disassembly.mk (m.header cm.features cm.functionOffsets)
    (List.replicate m.imports.length .zero) listings).Written cm.image
  functionOffsets : cm.functionOffsets.toList = listings.map FunctionListing.offset
  functionOffsets_lt : ∀ offset ∈ cm.functionOffsets.toList, offset < 65536
  fixups : cm.fixups = cm.scope.fixupsOf (Header.importOffset m.imports.length) placed
  codes : List.Forall₂ (fun f code' => ∃ code, p.IsCodeOf typing f.1 f.2 code ∧ Placed code code')
    (Program.functionsOf cm.module m) placed
  lists : List.Forall₂ (ListsCode cm.scope.Names) placed listings
  instructionOffsets : cm.instructionOffsets = (placed.zip listings).map fun (code, listing) =>
    startsFrom (listing.offset + Descriptor.size) code.instrs
  labelOffsets : cm.labelOffsets = (placed.zip listings).map fun (code, listing) =>
    code.labelOffsets (listing.offset + Descriptor.size)

/-- A compiled module is disassembled to what it holds. -/
theorem CompiledModule.Holds.disassemble {cm : CompiledModule} {p : Program}
    {typing : TypedProgram} {m : ModuleDecl} {placed : List PlacedCode}
    {listings : List FunctionListing} (h : cm.Holds p typing m placed listings) :
    disassemble cm.image cm.functionOffsets.toList =
      .ok ⟨m.header cm.features cm.functionOffsets, List.replicate m.imports.length .zero,
        listings⟩ := by
  rw [h.functionOffsets]
  exact h.written.disassemble

namespace Program

variable {p : Program} {typing : TypedProgram} {id : ModuleId} {m : ModuleDecl}

/-- The import table of a module before linking. -/
theorem encodeImports_zero (count : Nat) :
    Header.encodeImports (List.replicate count .zero) =
      List.replicate (count * Fingerprint.size) 0 := by
  induction count with
  | zero => rfl
  | succ count ih =>
    rw [List.replicate_succ, Header.encodeImports, List.flatMap_cons, Nat.succ_mul, Nat.add_comm,
      ← List.replicate_append_replicate]
    exact congrArg (_ ++ ·) ih

theorem map_zip_offsets {β : Type} (f : PlacedCode → Nat → β) (placed : List PlacedCode)
    (listings : List FunctionListing) :
    (placed.zip ((listings.map FunctionListing.offset).map (· + Descriptor.size))).map
        (fun (code, base) => f code base) =
      (placed.zip listings).map fun (code, listing) =>
        f code (listing.offset + Descriptor.size) := by
  rw [List.map_map, List.zip_map_right, List.map_map]
  rfl

/-- What is written for a module. -/
theorem holds_of_writeModule {placed : List PlacedCode} {offsets : List Nat} {finish : Nat}
    {cm : CompiledModule} (hm : p.module? id = some m) (himports : m.imports.length ≤ 255)
    (hcodes : List.Forall₂ (fun f code' => ∃ code, p.IsCodeOf typing f.1 f.2 code ∧
      Placed code code') (functionsOf id m) placed)
    (hoffsets : functionOffsets placed (Header.importOffset m.imports.length) =
      .ok (offsets, finish))
    (h : writeModule id m placed offsets.toArray = .ok cm) :
    cm.module = id ∧ ∃ listings, cm.Holds p typing m placed listings := by
  have hplaced : ∀ code' ∈ placed, code'.offsets.toList = startsFrom 0 code'.instrs ∧
      code'.size = totalLength code'.instrs.flatten ∧ code'.WellShaped := by
    intro code' hcode'
    obtain ⟨f, -, code, hcode, hplaced⟩ := mem_of_forall₂ hcodes hcode'
    exact ⟨hplaced.offsets, hplaced.size, hplaced.wellShaped hcode.wellShaped⟩
  obtain ⟨written, hwritten, h⟩ := bind_eq_ok.mp h
  cases pure_eq_ok.mp h
  obtain ⟨listings, bytes, hlistings, hstarts, hlists, himage, hfixups⟩ :=
    Emission.codes_written (fun code' hcode' => (hplaced code' hcode').2.2) hwritten
  obtain ⟨rfl, hsmall⟩ := functionOffsets_eq_ok (fun code' hcode' => (hplaced code' hcode').2.1)
    hoffsets
  have hcount : (UInt8.ofNat m.imports.length).toNat = m.imports.length := by
    rw [UInt8.toNat_ofNat', Nat.mod_eq_of_lt (Nat.lt_succ_of_le himports)]
  -- the code starts right after the header and the import table
  have hsize (header : Header) : (header.encode ++
      List.replicate (m.imports.length * Fingerprint.size) 0).toArray.size =
        Header.importOffset m.imports.length := by
    rw [List.size_toArray, List.length_append, Header.length_encode, List.length_replicate]
    rfl
  rw [hsize] at hlistings hstarts hfixups
  refine ⟨rfl, listings, hm, rfl, himports, rfl,
    ⟨hcount.trans List.length_replicate.symm, bytes, ?_, ?_⟩, hstarts.symm, hsmall, hfixups, hcodes,
    hlists, ?_, ?_⟩
  · show ListingsWritten (Header.importOffset _) _ _
    rwa [show (ModuleDecl.header m _ _).importCount.toNat = _ from hcount]
  · rw [encodeImports_zero, ← List.append_assoc]
    exact himage
  · dsimp only
    rw [← hstarts, map_zip_offsets fun code base => code.offsets.toList.map (base + ·)]
    refine List.map_congr_left fun ⟨code, listing⟩ hmem => ?_
    dsimp only
    rw [(hplaced code (List.of_mem_zip hmem).1).1, map_add_startsFrom]
    rfl
  · dsimp only
    rw [← hstarts, map_zip_offsets PlacedCode.labelOffsets]

theorem isCodeOf_of_mapM {config : VerifyConfig} {codes : List FunctionCode}
    {placed : List PlacedCode} (hverify : p.verify config = .ok typing) (hm : p.module? id = some m)
    (hcodes : (functionsOf id m).mapM (fun (func, decl) => p.functionCode typing func decl) =
      .ok codes) (hplaced : codes.mapM FunctionCode.place = .ok placed) :
    List.Forall₂ (fun f code' => ∃ code, p.IsCodeOf typing f.1 f.2 code ∧ Placed code code')
      (functionsOf id m) placed := by
  refine List.forall₂_iff_get.mpr ⟨?_, fun i hi hi' => ?_⟩
  · rw [length_of_mapM hplaced, length_of_mapM hcodes]
  · have hf := List.getElem?_eq_getElem hi
    obtain ⟨code, hcode, hfunction⟩ := getElem?_of_mapM hcodes hf
    obtain ⟨code', hcode', hplace⟩ := getElem?_of_mapM hplaced hcode
    obtain ⟨_, rfl⟩ := List.getElem?_eq_some_iff.mp hcode'
    have hfunc := function?_of_mem_functionsOf hm (List.mem_of_getElem? hf)
    exact ⟨code, isCodeOf_of_functionCode hverify hfunc hfunction,
      FunctionCode.placed_of_place hplace⟩

/-- **A compiled module holds the code of its functions.** -/
theorem holds_of_compileModule {verifyConfig : VerifyConfig} {config : CodegenConfig}
    {cm : CompiledModule} (hverify : p.verify verifyConfig = .ok typing)
    (h : p.compileModule typing config id = .ok cm) :
    cm.module = id ∧ ∃ m placed listings, cm.Holds p typing m placed listings := by
  unfold compileModule at h
  split at h
  · cases h
  rename_i m hm
  split at h
  · cases h
  rename_i himports
  obtain ⟨codes, hcodes, h⟩ := bind_eq_ok.mp h
  obtain ⟨placed, hplaced, h⟩ := bind_eq_ok.mp h
  obtain ⟨⟨offsets, finish⟩, hoffsets, h⟩ := bind_eq_ok.mp h
  dsimp only at h
  split at h
  · cases h
  obtain ⟨hid, listings, hholds⟩ := holds_of_writeModule hm (Nat.le_of_not_lt himports)
    (isCodeOf_of_mapM hverify hm hcodes (mapError_eq_ok.mp hplaced)) (mapError_eq_ok.mp hoffsets)
    (mapError_eq_ok.mp h)
  exact ⟨hid, m, placed, listings, hholds⟩

/-- Modules are compiled in order. -/
theorem compileModule_of_getElem? {config : CodegenConfig} {modules : List CompiledModule} {i : Nat}
    {cm : CompiledModule} (h : p.compileModules typing config = .ok modules)
    (hcm : modules[i]? = some cm) : p.compileModule typing config ⟨i⟩ = .ok cm := by
  have hflip := List.Forall₂.flip (R := flip _) (mapM_eq_ok.mp h)
  obtain ⟨⟨id, m⟩, hm, hcompile⟩ := getElem?_of_forall₂ hflip hcm
  rw [getElem?_moduleList] at hm
  obtain ⟨_, -, heq⟩ := Option.map_eq_some_iff.mp hm
  cases heq
  exact hcompile

end Program

end StackCode
