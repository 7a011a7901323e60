import StackCode.Proofs.Link.FixupPlaces

/-!
# Compiled modules can be filled in

Linking fails to fill in an image if the image is too short for what is written, or if a fixup names
a function that its module does not have.  Neither happens to a module compiled from a bound
program: the image has its header, its import table and a token for each fixup, and bound code names
only functions that exist.

## Main definitions

* `Fixup.WaitsAt`: the operation that a fixup of a compiled module waits at.

## Main results

* `CompiledModule.exists_link`: an image with room for all fixups can be filled in.
* `CompiledModule.Holds.fixups_inRange`, `CompiledModule.Holds.exists_waitsAt`: what is known of the
  fixups of a compiled module.
* `CompiledModule.Holds.exists_link`: a compiled module whose imports are linked can be linked.
-/

namespace StackCode

/-! ### Room for what is written -/

theorem exists_overwrite? {image : Array UInt8} {offset : Nat} {bytes : List UInt8}
    (h : offset + bytes.length ≤ image.size) :
    ∃ image', overwrite? image offset bytes = some image' ∧ image'.size = image.size := by
  refine ⟨_, if_pos h, ?_⟩
  rw [← Array.length_toList, toList_writeFrom image offset bytes h]
  simp only [List.length_append, List.length_take, List.length_drop, Array.length_toList]
  omega

namespace CompiledModule

variable {cm : CompiledModule} {image : Array UInt8} {imports : List Fingerprint} {count : UInt8}
  {offsets : ModuleId → Option (Array Nat)}

/-- Imports can be written if there is room for the table. -/
theorem exists_writeImports (h : Header.importOffset imports.length ≤ image.size) :
    ∃ image', cm.writeImports image imports = .ok image' ∧ image'.size = image.size := by
  rw [writeImports_eq]
  refine exists_foldlM_eq_ok (P := fun image' : Array UInt8 => image'.size = image.size) ?_ rfl
  rintro ⟨fingerprint, slot⟩ hmem image' hsize
  have hslot : slot < imports.length := by
    have hlt := List.snd_lt_add_of_mem_zipIdx hmem
    omega
  have hroom : Header.importOffset slot + fingerprint.bytes.length ≤ image'.size := by
    have hnext : (slot + 1) * Fingerprint.size ≤ imports.length * Fingerprint.size :=
      Nat.mul_le_mul_right _ hslot
    rw [hsize, show fingerprint.bytes.length = Fingerprint.size from fingerprint.length_eq]
    unfold Header.importOffset at h ⊢
    rw [Nat.succ_mul] at hnext
    omega
  obtain ⟨image'', himage'', hsize''⟩ := exists_overwrite? hroom
  exact ⟨image'', by simp only [writeSlot, himage''], hsize''.trans hsize⟩

/-- The module count can be written if there is a header. -/
theorem exists_writeCount (h : Header.size ≤ image.size) :
    ∃ image', cm.writeCount image count = .ok image' ∧ image'.size = image.size := by
  have hroom : Header.moduleCountOffset + [count].length ≤ image.size :=
    Nat.le_trans (show 2 + 1 ≤ Header.size by decide) h
  obtain ⟨image', himage', hsize⟩ := exists_overwrite? hroom
  exact ⟨image', by simp only [writeCount, himage'], hsize⟩

/-- Tokens can be written if there is room for each: one that is written leaves the room for the
others. -/
theorem exists_writeTokens
    (h : ∀ f ∈ cm.fixups, f.offset + Token.size ≤ image.size ∧
      ∃ token, cm.fixupToken? offsets f = some token) :
    ∃ image', cm.writeTokens offsets image = .ok image' := by
  have hstep : ∀ f ∈ cm.fixups, ∀ image' : Array UInt8, image'.size = image.size →
      ∃ image'', cm.patchToken offsets image' f = .ok image'' ∧ image''.size = image.size := by
    intro f hf image' hsize
    obtain ⟨hroom, token, htoken⟩ := h f hf
    have hroom' : f.offset + token.encode.length ≤ image'.size := by
      rw [token.length_encode, hsize]
      exact hroom
    obtain ⟨image'', himage'', hsize''⟩ := exists_overwrite? hroom'
    exact ⟨image'', by simp only [patchToken, htoken, Token.patch, himage''], hsize''.trans hsize⟩
  obtain ⟨image', himage', -⟩ := exists_foldlM_eq_ok hstep rfl
  exact ⟨image', himage'⟩

/-- **An image can be filled in** if it has its import table and a place for each fixup, and each
fixup has a token. -/
theorem exists_link (himports : Header.importOffset imports.length ≤ cm.image.length)
    (hfixups : ∀ f ∈ cm.fixups, f.offset + Token.size ≤ cm.image.length ∧
      ∃ token, cm.fixupToken? offsets f = some token) :
    ∃ lm, cm.link imports count offsets = .ok lm := by
  have hroom : Header.importOffset imports.length ≤ cm.image.toArray.size := by
    simpa using himports
  obtain ⟨image₁, himage₁, hsize₁⟩ := exists_writeImports hroom
  have hheader : Header.size ≤ image₁.size := by
    rw [hsize₁]
    exact Nat.le_trans (Nat.le_add_right _ _) hroom
  obtain ⟨image₂, himage₂, hsize₂⟩ := exists_writeCount hheader
  have hsize : image₂.size = cm.image.length := by
    rw [hsize₂, hsize₁, List.size_toArray]
  obtain ⟨image₃, himage₃⟩ := exists_writeTokens (hsize ▸ hfixups)
  exact ⟨_, bind_eq_ok.mpr ⟨image₁, himage₁, bind_eq_ok.mpr ⟨image₂, himage₂,
    bind_eq_ok.mpr ⟨image₃, himage₃, rfl⟩⟩⟩⟩

end CompiledModule

/-! ### Fixups of compiled modules -/

/-- The fixup waits at an operation of function `k` of the module.  It waits at the token of the
operation, which has the position of an import and no offset yet, and it is for the function that an
instruction of the body names. -/
structure Fixup.WaitsAt (f : Fixup) (p : Program) (cm : CompiledModule) (k : Nat) (op : PlacedOp) :
    Prop where
  offset : f.offset = op.offset + 1
  token : op.op.operand.func? = some ⟨f.slot, 0⟩
  other : f.callee.module ≠ cm.module
  imported : cm.imports[f.slot.toNat]? = some f.callee.module
  callee : ∃ calleeDecl, p.function? f.callee = some calleeDecl
  instr : ∃ (decl : FunctionDecl) (index : Nat) (funcOp : FuncOp),
    p.function? ⟨cm.module, k⟩ = some decl ∧
      decl.body[index]? = some (.function funcOp f.callee) ∧ op.op.opcode = funcOp.opcode

/-- Operations that name functions have one form only. -/
theorem FinalForm.opcode_eq {op final : SelectedOp} {funcOp : FuncOp} (h : FinalForm op final)
    (hopcode : op.opcode = funcOp.opcode) : final.opcode = funcOp.opcode := by
  rcases h.opcode with hsame | hlong
  · exact hsame.trans hopcode
  · rw [hopcode] at hlong
    cases funcOp <;> cases hlong

namespace CompiledModule.Holds

variable {cm : CompiledModule} {p : Program} {typing : TypedProgram} {m : ModuleDecl}
  {placed : List PlacedCode} {listings : List FunctionListing}

/-- The functions of a module stand after its header and its import table, and fill the image. -/
theorem exists_code (h : cm.Holds p typing m placed listings) :
    ∃ code, ListingsWritten (Header.importOffset m.imports.length) listings code ∧
      cm.image.length = Header.importOffset m.imports.length + code.length := by
  obtain ⟨-, code, hlistings, himage⟩ := h.written
  refine ⟨code, h.codeStart_eq ▸ hlistings, ?_⟩
  rw [himage, List.length_append, List.length_append, Header.length_encode,
    Header.length_encodeImports, List.length_replicate, Header.importOffset, Nat.add_assoc]

theorem wellShaped (h : cm.Holds p typing m placed listings) :
    ∀ code' ∈ placed, code'.WellShaped := by
  intro code' hcode'
  obtain ⟨_, -, code, hcode, hplaced⟩ := mem_of_forall₂ h.codes hcode'
  exact hplaced.wellShaped hcode.wellShaped

/-- The fixups of a module are in its code, in order and apart from each other. -/
theorem fixups_inRange (h : cm.Holds p typing m placed listings) :
    Fixup.InRange (Header.importOffset m.imports.length) cm.image.length cm.fixups := by
  obtain ⟨code, hlistings, hlength⟩ := h.exists_code
  rw [h.fixups, hlength]
  exact ModuleScope.fixupsOf_inRange h.wellShaped hlistings h.lists

/-- **Every fixup of a compiled module waits at an operation** of one of its functions.  Placement
keeps operands, so the operation names the function that it was selected for. -/
theorem exists_waitsAt {f : Fixup} (h : cm.Holds p typing m placed listings)
    (hbind : p.bind = .ok ()) (hf : f ∈ cm.fixups) :
    ∃ (k : Nat) (listing : FunctionListing), listings[k]? = some listing ∧
      ∃ op ∈ listing.ops, f.WaitsAt p cm k op := by
  obtain ⟨code, hlistings, -⟩ := h.exists_code
  rw [h.fixups] at hf
  obtain ⟨k, code', listing, ⟨op', placedOp⟩, hcode', hlisting, hpair, hfixup⟩ :=
    ModuleScope.exists_op_of_mem_fixupsOf hlistings h.lists hf
  obtain ⟨hfor, hoffset⟩ := ModuleScope.fixup?_eq_some hfixup
  obtain ⟨listing', hlisting', hlists⟩ := getElem?_of_forall₂ h.lists hcode'
  cases hlisting.symm.trans hlisting'
  have hemit := List.forall₂_zip hlists.emits hpair
  obtain ⟨⟨func, decl⟩, hfunc, code, hcode, hplaced⟩ :=
    getElem?_of_forall₂ (List.Forall₂.flip (R := flip _) h.codes) hcode'
  rw [Program.getElem?_functionsOf] at hfunc
  obtain ⟨_, hdecl, heq⟩ := Option.map_eq_some_iff.mp hfunc
  cases heq
  obtain ⟨ops', hops', hop'⟩ := List.mem_flatten.mp (List.of_mem_zip hpair).1
  obtain ⟨ops, hops, hforms⟩ := mem_of_forall₂ hplaced.finalForm hops'
  obtain ⟨op, hop, hform⟩ := mem_of_forall₂ hforms hop'
  have hnames : SelectionContext.NamesFunction f.callee op := by
    have hnames' := hfor.names
    rwa [SelectionContext.NamesFunction, hform.operand] at hnames'
  obtain ⟨himpl, index, funcOp, hinstr, hopcode⟩ :=
    Program.exists_instr_of_isCodeOf hcode hops hop hnames
  have hfunction : p.function? ⟨cm.module, k⟩ = some decl :=
    Program.function?_eq_some.mpr ⟨m, h.module, hdecl⟩
  have hbound : p.BoundCode m ⟨cm.module, k⟩ decl :=
    Program.boundCode_of_bind hbind h.module hdecl himpl
  refine ⟨k, listing, hlisting, placedOp, (List.of_mem_zip hpair).2, hoffset,
    ModuleScope.func?_of_fixup? hemit hfixup, hfor.other,
    getElem?_of_findIdx? (ModuleScope.importSlot?_eq_some hfor.slot),
    hbound.exists_callee hinstr, decl, index, funcOp, hfunction, hinstr, ?_⟩
  rw [hemit.opcode]
  exact hform.opcode_eq hopcode

/-- Every function of a compiled module has an offset that fits a token. -/
theorem exists_functionOffset {i : Nat} {decl : FunctionDecl}
    (h : cm.Holds p typing m placed listings) (hf : m.functions[i]? = some decl) :
    ∃ offset, cm.functionOffsets[i]? = some offset ∧ offset < 65536 := by
  have hfunc : (Program.functionsOf cm.module m)[i]? = some (⟨cm.module, i⟩, decl) := by
    rw [Program.getElem?_functionsOf, hf]
    rfl
  obtain ⟨code, hcode, -⟩ := getElem?_of_forall₂ h.codes hfunc
  obtain ⟨listing, hlisting, -⟩ := getElem?_of_forall₂ h.lists hcode
  have hoffset : cm.functionOffsets[i]? = some listing.offset := by
    rw [← Array.getElem?_toList, h.functionOffsets, List.getElem?_map, hlisting]
    rfl
  refine ⟨listing.offset, hoffset, h.functionOffsets_lt _ ?_⟩
  rw [← Array.getElem?_toList] at hoffset
  exact List.mem_of_getElem? hoffset

/-- **A compiled module whose imports are linked can be linked**: `offsets` gives the function
offsets of linked modules, each function of an import with an offset that fits a token. -/
theorem exists_link {imports : List Fingerprint} {count : UInt8}
    {offsets : ModuleId → Option (Array Nat)} (h : cm.Holds p typing m placed listings)
    (hbind : p.bind = .ok ()) (himports : imports.length = cm.imports.length)
    (hoffsets : ∀ func decl, func.module ∈ cm.imports → p.function? func = some decl →
      ∃ table offset, offsets func.module = some table ∧ table[func.index]? = some offset ∧
        offset < 65536) :
    ∃ lm, cm.link imports count offsets = .ok lm := by
  refine CompiledModule.exists_link ?_ fun f hf => ?_
  · obtain ⟨code, -, hlength⟩ := h.exists_code
    rw [himports, h.imports, hlength]
    exact Nat.le_add_right _ _
  · have hroom := (h.fixups_inRange.bounds f hf).2
    obtain ⟨_, _, -, _, -, hwaits⟩ := h.exists_waitsAt hbind hf
    have hslot := hwaits.imported
    obtain ⟨decl, hdecl⟩ := hwaits.callee
    obtain ⟨table, offset, htable, hoffset, hlt⟩ :=
      hoffsets f.callee decl (List.mem_of_getElem? hslot) hdecl
    exact ⟨hroom, ⟨f.slot, UInt16.ofNat offset⟩, by simp [fixupToken?, hslot, htable, hoffset, hlt]⟩

end CompiledModule.Holds

end StackCode
