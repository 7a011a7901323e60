import StackCode.Proofs.Code.InRange
import StackCode.Proofs.Code.Known

/-!
# How modules are compiled

Placing the code of a bound program finds an instruction for every label, and writing it finds a
token for every function: the function is in the module itself or in an imported one.  What is left
to fail is that something is too large: a function offset, a branch or an image.

## Main definitions

* `FunctionCode.Closed`: the branches of code stay within it.
* `ModuleScope.Finds`: there is a token for a function.
* `PlacedCode.ResolvesIn`: every name in the code has a meaning in the module.
* `CompiledModule.OffsetsWithin`: no recorded offset is beyond a limit.

## Main results

* `FunctionCode.place_ends`, `Emission.code_ends`: how placing and writing a function ends.
* `Program.compileModules_ends`: how compiling the modules of a bound program ends.
-/

namespace StackCode

/-! ## Placement -/

namespace PlacementContext

/-- If the operation is a branch, it goes to an instruction and has a long form. -/
def Admits (c : PlacementContext) (op : SelectedOp) : Prop :=
  ∀ l, op.operand = .target l →
    (∃ target, c.target? l = some target) ∧ ∃ long, op.opcode.longForm? = some long

variable {c : PlacementContext}

theorem exists_finalForm {op : SelectedOp} (h : c.Admits op) (offsets : Array Nat)
    (index position rest : Nat) :
    ∃ final, c.finalForm? offsets index position rest op = some final := by
  unfold finalForm?
  split
  · rename_i l hl
    obtain ⟨⟨target, htarget⟩, long, hlong⟩ := h l hl
    rw [htarget]
    dsimp only
    split
    · exact ⟨_, rfl⟩
    · rw [hlong]
      exact ⟨_, rfl⟩
  · exact ⟨_, rfl⟩

theorem exists_placeOps {ops : List SelectedOp} (h : ∀ op ∈ ops, c.Admits op)
    (offsets : Array Nat) (index position rest : Nat) :
    ∃ placed, c.placeOps offsets index ops position rest = some placed := by
  induction ops generalizing position rest with
  | nil => exact ⟨_, rfl⟩
  | cons op ops ih =>
    obtain ⟨hop, hops⟩ := List.forall_mem_cons.mp h
    obtain ⟨final, hfinal⟩ := exists_finalForm hop offsets index position (rest - op.maxLength)
    obtain ⟨placed, hplaced⟩ := ih hops (position + final.length) (rest - op.maxLength)
    simp only [placeOps, hfinal, hplaced]
    exact ⟨_, rfl⟩

theorem exists_placeInstr {ops : List SelectedOp} (h : ∀ op ∈ ops, c.Admits op) (p : Placement) :
    ∃ q, c.placeInstr p ops = .ok q := by
  obtain ⟨placed, hplaced⟩ := exists_placeOps h (p.offsets.push p.position) p.instrs.size
    p.position (maxLength ops)
  simp only [placeInstr, hplaced]
  exact ⟨_, rfl⟩

end PlacementContext

namespace FunctionCode

variable {code : FunctionCode}

/-- The branches of the code go to instructions of it, and have long forms. -/
def Closed (code : FunctionCode) : Prop :=
  ∀ ops ∈ code.instrs, ∀ op ∈ ops, code.context.Admits op

/-- How placing a function ends: its offsets can be too large, but every label is found. -/
theorem place_ends (h : code.Closed) :
    Ends (Placed code) (·.isInternal = false) code.place := by
  obtain ⟨q, hq, -⟩ := exists_foldlM_eq_ok (P := fun _ => True) (f := code.context.placeInstr)
    (b := ⟨#[], #[], 0⟩) (fun ops hops p _ =>
      have ⟨q, hq⟩ := PlacementContext.exists_placeInstr (h ops hops) p
      ⟨q, hq, trivial⟩) trivial
  have hends : Ends (fun _ => True) (·.isInternal = false) code.place := by
    refine Ends.bind (.of_eq_ok (mapError_eq_ok.mpr hq) trivial) fun placed (_ : True) => ?_
    refine Ends.bind (.forM fun offset _ => ?_) fun _ _ => .pure trivial
    split
    · exact .ok trivial
    · exact .error rfl
  exact hends.weaken fun _ hplace _ => placed_of_place hplace

end FunctionCode

namespace Program

variable {p : Program} {typing : TypedProgram} {m : ModuleDecl} {func : FuncRef}
  {decl : FunctionDecl} {code : FunctionCode}

theorem length_instrs_of_isCodeOf (h : p.IsCodeOf typing func decl code)
    (himpl : decl.implementation = .code) : code.instrs.length = decl.body.size := by
  obtain ⟨frame, -, -, hselects⟩ := h.frame
  simp only [Selects, himpl] at hselects
  obtain ⟨typed, -, hbody⟩ := hselects
  exact hbody.length

/-- The branches of the code of a bound function stay within it. -/
theorem closed_of_isCodeOf (hbound : decl.implementation = .code → p.BoundCode m func decl)
    (h : p.IsCodeOf typing func decl code) : code.Closed := by
  intro ops hops op hop l hl
  rcases straight_or_select_of_isCodeOf h hops hop with
    hstraight | ⟨himpl, frame, index, instr, operands, results, hinstr, hselect⟩
  · have hbranch := hstraight.wellShaped.isBranch hl
    rw [hstraight.isBranch] at hbranch
    cases hbranch
  · have hlabel := (SelectionContext.selected_of_select hselect).target?_eq hop hl
    obtain ⟨target, htarget, hlt⟩ := (hbound himpl).exists_target hinstr hlabel
    refine ⟨⟨target, ?_⟩, SelectionContext.exists_longForm hselect hop hl⟩
    rw [FunctionDecl.labelTarget?, ← h.labels_eq] at htarget
    rw [← length_instrs_of_isCodeOf h himpl] at hlt
    exact PlacementContext.target?_eq_some.mpr ⟨htarget, hlt⟩

end Program

/-! ## Emission -/

namespace ModuleScope

variable {s : ModuleScope}

/-- There is a token for the function. -/
def Finds (s : ModuleScope) (f : FuncRef) : Prop :=
  if f.module = s.module then ∃ offset, s.functionOffset? f.index = some offset
  else ∃ slot, s.importSlot? f.module = some slot

theorem token_ends {Q : EncodeError → Prop} {func f : FuncRef} {index : Nat} (h : s.Finds f) :
    Ends (fun _ => True) Q (s.token func index f) := by
  unfold Finds at h
  unfold token
  split at h
  · rename_i hmodule
    obtain ⟨offset, hoffset⟩ := h
    rw [if_pos hmodule, hoffset]
    exact .ok trivial
  · rename_i hmodule
    obtain ⟨slot, hslot⟩ := h
    rw [if_neg hmodule, hslot]
    exact .ok trivial

theorem operand_ends {Q : EncodeError → Prop} {code : PlacedCode} {base index : Nat}
    {operand : Operand FuncRef Label} (hfunc : ∀ f, operand.func? = some f → s.Finds f)
    (htarget : ∀ l, operand = .target l → ∃ offset, code.targetOffset? l = some offset) :
    Ends (fun _ => True) Q (s.operand code base index operand) := by
  cases operand with
  | func f => exact (token_ends (hfunc f rfl)).bind fun _ _ => .pure trivial
  | funcSlots f slots => exact (token_ends (hfunc f rfl)).bind fun _ _ => .pure trivial
  | target l =>
    obtain ⟨offset, hoffset⟩ := htarget l rfl
    simp only [operand, hoffset]
    exact .ok trivial
  | _ => exact .ok trivial

/-- There is a token for a function of the module itself, and for one of an imported module. -/
theorem finds_of_function? {p : Program} {m : ModuleDecl} {f : FuncRef} {decl : FunctionDecl}
    (hm : p.module? s.module = some m) (himports : s.imports = m.imports)
    (hle : m.imports.length ≤ Header.maxImports)
    (hoffsets : ∀ (i : Nat) decl, m.functions[i]? = some decl →
      ∃ offset, s.functionOffsets[i]? = some offset ∧ offset < 65536)
    (hf : p.function? f = some decl)
    (hmodule : f.module = s.module ∨ ∃ slot, m.importIndex? f.module = some slot) :
    s.Finds f := by
  unfold Finds
  split
  · rename_i hown
    obtain ⟨m', hm', hdecl⟩ := Program.function?_eq_some.mp hf
    rw [hown, hm] at hm'
    cases hm'
    obtain ⟨offset, hoffset, hlt⟩ := hoffsets f.index decl hdecl
    simp only [functionOffset?, hoffset, hlt, if_true]
    exact ⟨_, rfl⟩
  · rename_i hother
    obtain ⟨slot, hslot⟩ := hmodule.resolve_left hother
    have hlt : slot < 256 := by
      have hlt := (List.findIdx?_eq_some_iff_getElem.mp hslot).1
      exact Nat.lt_succ_of_le (Nat.le_trans (Nat.le_of_lt hlt) hle)
    rw [ModuleDecl.importIndex?, ← himports] at hslot
    simp only [importSlot?, hslot, hlt, if_true]
    exact ⟨_, rfl⟩

end ModuleScope

/-- Every name in the code has a meaning: there are tokens for its functions, and instructions for
its labels. -/
def PlacedCode.ResolvesIn (code : PlacedCode) (s : ModuleScope) : Prop :=
  ∀ ops ∈ code.instrs, ∀ op ∈ ops, (∀ f, op.operand.func? = some f → s.Finds f) ∧
    ∀ l, op.operand = .target l → ∃ offset, code.targetOffset? l = some offset

namespace Placed

variable {code : FunctionCode} {placed : PlacedCode}

theorem size_offsets (h : Placed code placed) : placed.offsets.size = code.instrs.length := by
  rw [← Array.length_toList, h.offsets, length_startsFrom, h.finalForm.length_eq]

theorem offset_le_size (h : Placed code placed) :
    ∀ offset ∈ placed.offsets.toList, offset ≤ placed.size := by
  intro offset hoffset
  rw [h.offsets] at hoffset
  rw [h.size, ← Nat.zero_add (totalLength _)]
  exact le_of_mem_startsFrom hoffset

/-- Code resolves where it is placed if its branches stay within it and there are tokens for the
functions it names. -/
theorem resolvesIn {s : ModuleScope} (h : Placed code placed) (hclosed : code.Closed)
    (hfinds : ∀ ops ∈ code.instrs, ∀ op ∈ ops, ∀ f, op.operand.func? = some f → s.Finds f) :
    placed.ResolvesIn s := by
  intro ops' hops' op' hop'
  obtain ⟨ops, hops, hforms⟩ := mem_of_forall₂ h.finalForm hops'
  obtain ⟨op, hop, hform⟩ := mem_of_forall₂ hforms hop'
  rw [hform.operand]
  refine ⟨hfinds ops hops op hop, fun l hl => ?_⟩
  obtain ⟨⟨target, htarget⟩, -⟩ := hclosed ops hops op hop l hl
  obtain ⟨hlabel, hlt⟩ := PlacementContext.target?_eq_some.mp htarget
  rw [show code.context.labels = placed.labels from h.labels.symm] at hlabel
  have hlt' : target < placed.offsets.size := h.size_offsets ▸ hlt
  simp only [PlacedCode.targetOffset?, hlabel]
  exact ⟨_, Array.getElem?_eq_getElem hlt'⟩

end Placed

namespace Emission

variable {s : ModuleScope}

theorem op_ends {code : PlacedCode} {base index : Nat} {e : Emission} {op : SelectedOp}
    (hfunc : ∀ f, op.operand.func? = some f → s.Finds f)
    (htarget : ∀ l, op.operand = .target l → ∃ offset, code.targetOffset? l = some offset) :
    Ends (fun _ => True) (·.isInternal = false) (Emission.op s code base index e op) := by
  refine (ModuleScope.operand_ends hfunc htarget).bind fun operand _ => ?_
  split
  · exact .pure trivial
  · exact .error rfl

/-- How writing a function ends: a branch can be too long, but every name is resolved. -/
theorem code_ends {e : Emission} {code : PlacedCode} (h : code.ResolvesIn s) :
    Ends (fun _ => True) (·.isInternal = false) (Emission.code s e code) := by
  refine Ends.foldlM (R := fun _ => True) trivial fun (ops, index) hmem e _ => ?_
  have hops : ops ∈ code.instrs := List.fst_mem_of_mem_zipIdx hmem
  exact Ends.foldlM (R := fun _ => True) trivial fun op hop e _ =>
    op_ends (h ops hops op hop).1 (h ops hops op hop).2

end Emission

/-! ## Modules -/

/-- No offset of an instruction or a label is beyond `last`. -/
structure CompiledModule.OffsetsWithin (cm : CompiledModule) (last : Nat) : Prop where
  instructions : ∀ offsets ∈ cm.instructionOffsets, ∀ offset ∈ offsets, offset ≤ last
  labels : ∀ offsets ∈ cm.labelOffsets, ∀ offset ∈ offsets, offset ≤ last

/-- A function that starts at an offset which fits a token ends by `finish`. -/
def PlacedCode.EndsBy (finish : Nat) (code : PlacedCode) (offset : Nat) : Prop :=
  offset < 65536 ∧ offset + Descriptor.size + code.size ≤ finish

/-- How the search for the offsets of functions ends. -/
theorem functionOffsets_ends {codes : List PlacedCode} {start : Nat} :
    Ends (fun found => start ≤ found.2 ∧ List.Forall₂ (PlacedCode.EndsBy found.2) codes found.1)
      (·.isInternal = false) (functionOffsets codes start) := by
  induction codes generalizing start with
  | nil => exact .ok ⟨Nat.le_refl _, .nil⟩
  | cons code codes ih =>
    unfold functionOffsets
    split
    · rename_i hlt
      refine ih.bind ?_
      rintro ⟨offsets, finish⟩ ⟨hle, hrest⟩
      refine .pure ⟨?_, .cons ⟨hlt, hle⟩ hrest⟩
      exact Nat.le_trans (Nat.le_trans (Nat.le_add_right _ _) (Nat.le_add_right _ _)) hle
    · exact .error rfl

namespace PlacedCode

variable {code : PlacedCode}

theorem labelOffsets_le (h : ∀ offset ∈ code.offsets.toList, offset ≤ code.size) (base : Nat) :
    ∀ offset ∈ code.labelOffsets base, offset ≤ base + code.size := by
  intro offset hoffset
  obtain ⟨target, -, rfl⟩ := List.mem_map.mp hoffset
  refine Nat.add_le_add_left ?_ _
  cases hfound : (code.offsets.push code.size)[target]? with
  | none => exact Nat.zero_le _
  | some relative =>
    rcases Array.mem_push.mp (Array.mem_of_getElem? hfound) with hmem | rfl
    · exact h relative hmem.val
    · exact Nat.le_refl _

end PlacedCode

namespace Program

variable {p : Program} {typing : TypedProgram} {id : ModuleId} {m : ModuleDecl}

/-- How writing a module ends. -/
theorem writeModule_ends {placed : List PlacedCode} {offsets : List Nat} {finish : Nat}
    (hresolves : ∀ code ∈ placed, code.ResolvesIn ⟨id, m.imports, offsets.toArray⟩)
    (hsizes : ∀ code ∈ placed, ∀ offset ∈ code.offsets.toList, offset ≤ code.size)
    (hends : List.Forall₂ (PlacedCode.EndsBy finish) placed offsets) :
    Ends (·.OffsetsWithin finish) (·.isInternal = false)
      (writeModule id m placed offsets.toArray) := by
  refine Ends.bind (Ends.foldlM (R := fun _ => True) trivial fun code hcode e _ =>
    Emission.code_ends (hresolves code hcode)) fun written _ => .pure ?_
  have hbased : ∀ code base, (code, base) ∈ placed.zip (offsets.map (· + Descriptor.size)) →
      code ∈ placed ∧ base + code.size ≤ finish := by
    intro code base hmem
    rw [List.zip_map_right] at hmem
    obtain ⟨⟨code', offset⟩, hzip, heq⟩ := List.mem_map.mp hmem
    cases heq
    exact ⟨(List.of_mem_zip hzip).1, ((List.forall₂_iff_zip.mp hends).2 hzip).2⟩
  constructor
  · intro group hgroup offset hoffset
    obtain ⟨⟨code, base⟩, hmem, rfl⟩ := List.mem_map.mp hgroup
    obtain ⟨relative, hrelative, rfl⟩ := List.mem_map.mp hoffset
    obtain ⟨hcode, hle⟩ := hbased code base hmem
    exact Nat.le_trans (Nat.add_le_add_left (hsizes code hcode relative hrelative) _) hle
  · intro group hgroup offset hoffset
    obtain ⟨⟨code, base⟩, hmem, rfl⟩ := List.mem_map.mp hgroup
    obtain ⟨hcode, hle⟩ := hbased code base hmem
    exact Nat.le_trans (PlacedCode.labelOffsets_le (hsizes code hcode) base offset hoffset) hle

section

variable {verifyConfig : VerifyConfig} {config : CodegenConfig} (htypes : p.types.Coherent)
  (hbind : p.bind = .ok ()) (hverify : p.verify verifyConfig = .ok typing)

include htypes hbind hverify

/-- **How compiling a module of a bound and verified program ends.** -/
theorem compileModule_ends (hm : p.module? id = some m) :
    Ends (·.OffsetsWithin config.maxImageLength) (Fault.Refuses (·.isInternal = false))
      (p.compileModule typing config id) := by
  simp only [compileModule, hm]
  split
  · exact .refuse rfl
  rename_i hle
  have hle := Nat.le_of_not_lt hle
  have hbound {func : FuncRef} {decl : FunctionDecl} (hfunc : (func, decl) ∈ functionsOf id m)
      (himpl : decl.implementation = .code) : p.BoundCode m func decl := by
    obtain ⟨rfl, hdecl⟩ := mem_functionsOf.mp hfunc
    exact boundCode_of_bind hbind hm hdecl himpl
  -- the code of each function is found, and its branches stay within it
  refine Ends.bind (.mapM (R := fun f code => p.IsCodeOf typing f.1 f.2 code)
    fun (func, decl) hfunc => ?_) fun codes hcodes => ?_
  · have hf := function?_of_mem_functionsOf hm hfunc
    exact (functionCode_ends htypes hbind hverify hf).weaken fun code hcode _ =>
      isCodeOf_of_functionCode hverify hf hcode
  refine Ends.bind (Ends.mapError (Ends.mapM (R := Placed) fun code hcode => ?_))
    fun placed hplaced => ?_
  · obtain ⟨⟨func, decl⟩, hfunc, hisCode⟩ := mem_of_forall₂ hcodes hcode
    exact FunctionCode.place_ends (closed_of_isCodeOf (hbound hfunc) hisCode)
  refine Ends.bind functionOffsets_ends.mapError fun (offsets, finish) ⟨_, hends⟩ => ?_
  dsimp only at hends ⊢
  split
  · exact .refuse rfl
  rename_i hfinish
  have hoffsets : ∀ (i : Nat) decl, m.functions[i]? = some decl →
      ∃ offset, offsets.toArray[i]? = some offset ∧ offset < 65536 := by
    intro i decl hdecl
    have hfunc : (functionsOf id m)[i]? = some (⟨id, i⟩, decl) := by
      rw [getElem?_functionsOf, hdecl]
      rfl
    obtain ⟨code, hcode, -⟩ := getElem?_of_forall₂ hcodes hfunc
    obtain ⟨code', hcode', -⟩ := getElem?_of_forall₂ hplaced hcode
    obtain ⟨offset, hoffset, hlt, -⟩ := getElem?_of_forall₂ hends hcode'
    exact ⟨offset, List.getElem?_toArray.trans hoffset, hlt⟩
  refine Ends.mapError ((writeModule_ends (fun code' hcode' => ?_) (fun code' hcode' => ?_)
    hends).weaken fun cm _ hcm => ?_)
  · obtain ⟨code, hcode, hplaced⟩ := mem_of_forall₂ hplaced hcode'
    obtain ⟨⟨func, decl⟩, hfunc, hisCode⟩ := mem_of_forall₂ hcodes hcode
    refine hplaced.resolvesIn (closed_of_isCodeOf (hbound hfunc) hisCode) ?_
    intro ops hops op hop f hf
    obtain ⟨himpl, index, funcOp, hinstr, -⟩ := exists_instr_of_isCodeOf hisCode hops hop
      (SelectionContext.namesFunction_of_func? hf)
    obtain ⟨calleeDecl, hcallee⟩ := (hbound hfunc himpl).exists_callee hinstr
    have himported := (hbound hfunc himpl).callee_imported hinstr
    rw [(mem_functionsOf.mp hfunc).1] at himported
    exact ModuleScope.finds_of_function? hm rfl hle hoffsets hcallee himported
  · obtain ⟨code, -, hplaced⟩ := mem_of_forall₂ hplaced hcode'
    exact hplaced.offset_le_size
  · have hfinish := Nat.le_of_not_lt hfinish
    exact ⟨fun offsets hoffsets offset hoffset =>
        Nat.le_trans (hcm.instructions offsets hoffsets offset hoffset) hfinish,
      fun offsets hoffsets offset hoffset =>
        Nat.le_trans (hcm.labels offsets hoffsets offset hoffset) hfinish⟩

/-- **How compiling the modules of a bound and verified program ends.** -/
theorem compileModules_ends :
    Ends (∀ cm ∈ ·, cm.OffsetsWithin config.maxImageLength)
      (Fault.Refuses (·.isInternal = false)) (p.compileModules typing config) := by
  refine (Ends.mapM (R := fun _ cm => cm.OffsetsWithin config.maxImageLength) fun (id, m) hm =>
    compileModule_ends htypes hbind hverify (mem_moduleList.mp hm)).mono ?_ fun _ hfault => hfault
  intro modules hmodules cm hcm
  obtain ⟨_, -, hwithin⟩ := mem_of_forall₂ hmodules hcm
  exact hwithin

end

end Program

end StackCode
