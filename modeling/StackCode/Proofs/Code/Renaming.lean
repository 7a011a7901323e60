import StackCode.Code.Module
import StackCode.Proofs.Typing.Renaming

/-!
# Code under other names

Selection asks for the classes, widths and cells of types, and for the offsets of fields; those are
the same under other names.  So a function has the same frame and the same operations under other
names, and a module the same image.  The name of a module stands beside its image, not in it.

## Main definitions

* `CompiledModule.anonymous`: the compiled module without its name.

## Main results

* `Frame.ofTyping_agree`: the frames are the same.
* `SelectionContext.select_agree`: the operations are the same.
* `Program.Carried.compileModules_agree`: the compiled modules are the same up to their names.
-/

namespace StackCode

/-! ### Classes and widths -/

namespace TypeRenaming

variable (r : TypeRenaming)

/-- The numeric class of a type is that of a primitive, which is fixed. -/
theorem numeric?_type (a : TypeId) : (r.type a).numeric? = a.numeric? := by
  refine r.apply_eq TypeId.numeric? none (fun a ha => ?_) a
  have hne := TypeId.ne_primitive ha
  exact (if_neg (hne .int32)).trans <| (if_neg (hne .int64)).trans <|
    (if_neg (hne .float32)).trans <| if_neg (hne .float64)

theorem narrowing?_type (a : TypeId) : narrowing? (r.type a) = narrowing? a := by
  refine r.apply_eq narrowing? none (fun a ha => ?_) a
  have hne := TypeId.ne_primitive ha
  exact (if_neg (hne .int8)).trans <| (if_neg (hne .uint8)).trans <|
    (if_neg (hne .int16)).trans <| if_neg (hne .uint16)

theorem wideConversions?_type (source : Numeric) (a : TypeId) :
    wideConversions? source (r.type a) = wideConversions? source a := by
  refine r.apply_eq (wideConversions? source) none (fun a ha => ?_) a
  have hne := TypeId.ne_primitive ha
  exact (if_neg (hne .int32)).trans <| (if_neg (hne .uint32)).trans <|
    (if_neg (hne .int64)).trans <| (if_neg (hne .uint64)).trans <|
    (if_neg (hne .float32)).trans <| if_neg (hne .float64)

/-- Conversions are between primitives, which are fixed. -/
theorem conversions?_type (source target : TypeId) :
    conversions? (r.type source) (r.type target) = conversions? source target := by
  simp only [conversions?, r.numeric?_type, r.narrowing?_type, r.wideConversions?_type]

end TypeRenaming

namespace TypeTable.Carried

variable {r : TypeRenaming} {t t' : TypeTable} (h : Carried r t t')

include h

theorem operandClass_agree (type : TypeId) :
    Agree Eq (t.operandClass type) (t'.operandClass (r.type type)) := by
  unfold operandClass
  rw [r.numeric?_type]
  cases type.numeric? with
  | some n => exact .pure rfl
  | none =>
    refine .ite (r.type_eq_primitive .null).symm (fun _ => .pure rfl) fun _ => ?_
    refine (h.isReference_agree type).bind ?_
    rintro is _ rfl
    exact .ite Iff.rfl (fun _ => .pure rfl) fun _ => .error _ _

theorem operandWidth_agree (type : TypeId) :
    Agree Eq (t.operandWidth type) (t'.operandWidth (r.type type)) := by
  refine (h.operandClass_agree type).bind ?_
  rintro n _ rfl
  cases n.intWidth? with
  | some w => exact .pure rfl
  | none => exact .error _ _

theorem typeWidth_agree (type : TypeId) :
    Agree Eq (t.typeWidth type) (t'.typeWidth (r.type type)) := by
  exact (h.slots_agree type).andThen _

/-- Values are loaded the same way under other names.  The narrow primitives are fixed, and any
other kind is loaded by its size. -/
theorem loadCell_agree (type : TypeId) :
    Agree Eq (t.loadCell type) (t'.loadCell (r.type type)) := by
  refine (h.layout_agree type).bind ?_
  rintro layout _ rfl
  refine (h.kind_agree type).bind ?_
  rintro kind _ rfl
  generalize layout.size = size
  match size with
  | 0 | 1 | 2 | 3 | 4 | 5 | 6 | 7 | 8 | _ + 9 => cases kind <;> exact .refl _

theorem storeWidth_agree (type : TypeId) :
    Agree Eq (t.storeWidth type) (t'.storeWidth (r.type type)) := by
  exact (h.layout_agree type).andThen _

theorem slotCell_agree (type : TypeId) :
    Agree Eq (t.slotCell type) (t'.slotCell (r.type type)) := by
  refine (h.kind_agree type).bind ?_
  rintro kind _ rfl
  refine (h.typeWidth_agree type).bind ?_
  rintro ⟨width, count⟩ _ rfl
  cases width <;> cases kind <;> exact .refl _

/-- The part of a container that an access goes to is the same, and of the renamed type. -/
theorem containerPart_agree (container : TypeId) :
    Agree (fun a b => b = (r.type a.1, a.2)) (t.containerPart container)
      (t'.containerPart (r.type container)) := by
  refine (h.kind_agree container).bind ?_
  rintro kind _ rfl
  cases kind with
  | span element => exact .pure rfl
  | reference target =>
    refine (h.kind_agree target).bind ?_
    rintro kind _ rfl
    cases kind with
    | array element _ => exact .pure rfl
    | _ => exact .error _ _
  | _ => exact .error _ _

theorem returnOp?_agree {ε δ : Type} (result : TypeId) :
    Agree Eq (t.returnOp? result : Checked ε _) (t'.returnOp? (r.type result) : Checked δ _) := by
  refine .ite (r.type_eq_primitive .void).symm (fun _ => .pure rfl) fun _ => ?_
  refine (h.stackType_agree result).bind ?_
  rintro onStack _ rfl
  refine (h.slots_agree onStack).bind ?_
  rintro slots _ rfl
  split <;> exact .pure rfl

end TypeTable.Carried

/-! ### Frames -/

namespace Frame

variable {r : TypeRenaming} {t t' : TypeTable} {decl decl' : FunctionDecl}

/-- Variables have the same slots under other names. -/
theorem assign_agree (h : TypeTable.Carried r t t') {vars vars' : List Variable}
    (hvars : List.Forall₂ (Variable.Renamed r.type) vars vars') (part : FramePart) (next : Nat) :
    Agree Eq (assign t part vars next) (assign t' part vars' next) := by
  induction hvars generalizing next with
  | nil => exact .refl _
  | @cons v v' _ _ hv _ ih =>
    rw [assign, assign, hv]
    refine (Agree.refl (fit part next)).bind ?_
    rintro first _ rfl
    refine (h.slots_agree v.type).bind ?_
    rintro slots _ rfl
    refine (Agree.refl (add part next slots)).bind ?_
    rintro next _ rfl
    exact (ih next).andThen _

theorem depth_agree (h : TypeTable.Carried r t t') (s : OperandStack TypeId) :
    Agree Eq (depth t s) (depth t' (s.map r.type)) := by
  have htypes : List.Forall₂ (fun a b => b = r.type a) s.bottomUp (s.map r.type).bottomUp :=
    forall₂_eq_map_iff.mpr (OperandStack.bottomUp_map s)
  refine .foldlM htypes rfl ?_
  rintro type _ sum _ rfl rfl
  exact (h.slots_agree type).andThen _

/-- The operand stack grows as high under other names. -/
theorem peak_agree (h : TypeTable.Carried r t t') (states : List (Option (OperandStack TypeId))) :
    Agree Eq (peak t states) (peak t' (states.map (Option.map (OperandStack.map r.type)))) := by
  have hstacks : List.Forall₂ (fun s s' => s' = s.map r.type) (states.filterMap id)
      ((states.map (Option.map (OperandStack.map r.type))).filterMap id) := by
    rw [forall₂_eq_map_iff, List.filterMap_map, List.map_filterMap]
    rfl
  refine .foldlM hstacks rfl ?_
  rintro s _ highest _ rfl rfl
  exact (depth_agree h s).andThen _

/-- **The frame of a body is the same under other names.** -/
theorem ofTyping_agree (h : TypeTable.Carried r t t') (hdecl : decl.Renamed r.type decl')
    (states : List (Option (OperandStack TypeId))) :
    Agree Eq (ofTyping t decl states)
      (ofTyping t' decl' (states.map (Option.map (OperandStack.map r.type)))) := by
  refine (assign_agree h hdecl.forall₂_params .params 0).bind ?_
  rintro ⟨paramOffsets, argSlots⟩ _ rfl
  refine (assign_agree h hdecl.forall₂_locals .locals 0).bind ?_
  rintro ⟨localOffsets, localSlots⟩ _ rfl
  refine (Agree.refl _).bind ?_
  rintro localOffsets _ rfl
  exact (peak_agree h states).andThen _

theorem ofStub_agree (h : TypeTable.Carried r t t') (hdecl : decl.Renamed r.type decl') :
    Agree Eq (ofStub t decl) (ofStub t' decl') := by
  refine (assign_agree h hdecl.forall₂_params .params 0).bind ?_
  rintro ⟨paramOffsets, argSlots⟩ _ rfl
  dsimp only
  rw [hdecl.result]
  exact (h.slots_agree decl.result).andThen _

end Frame

/-! ### Selection -/

/-- The selection of a function and of the function under other names. -/
structure SelectionContext.Carried (r : TypeRenaming) (c c' : SelectionContext) : Prop where
  program : c.program.Carried r c'.program
  decl : c.decl.Renamed r.type c'.decl
  frame : c'.frame = c.frame

namespace SelectionContext

variable {r : TypeRenaming} {c c' : SelectionContext}

theorem Carried.types (h : Carried r c c') : TypeTable.Carried r c.types c'.types :=
  h.program.types

variable (h : Carried r c c')

include h

theorem plain_agree (operand : TypeId) (op : PlainOp) :
    Agree Eq (c.plain operand op) (c'.plain (r.type operand) op) := by
  cases op with
  | nop | null => exact .pure rfl
  | arith _ | neg | compare _ => exact (h.types.operandClass_agree operand).andThen _
  | integer _ | not | compareUn _ => exact (h.types.operandWidth_agree operand).andThen _
  | dup | pop => exact (h.types.typeWidth_agree operand).andThen _
  | ret =>
    rw [plain, plain, h.decl.result]
    refine (h.types.returnOp?_agree c.decl.result).bind ?_
    rintro op _ rfl
    cases op with
    | some op => exact .pure rfl
    | none =>
      refine (h.types.slots_agree c.decl.result).bind ?_
      rintro slots _ rfl
      exact .error _ _

theorem slotAccess_agree (slot : UInt8) (type : TypeId) (a : Access) :
    Agree Eq (c.slotAccess slot type a) (c'.slotAccess slot (r.type type) a) := by
  cases a with
  | address => exact .pure rfl
  | load =>
    exact (h.types.typeWidth_agree type).andThen _
  | store =>
    exact (h.types.slotCell_agree type).andThen _

theorem variableAccess_agree {vars vars' : List Variable}
    (hvars : List.Forall₂ (Variable.Renamed r.type) vars vars') (slot? : Option UInt8)
    (index : Nat) (a : Access) :
    Agree Eq (c.variableAccess vars slot? index a) (c'.variableAccess vars' slot? index a) := by
  have hvar := rel_getElem?_of_forall₂ hvars index
  unfold variableAccess
  generalize vars[index]? = v at hvar ⊢
  generalize vars'[index]? = v' at hvar ⊢
  cases slot? with
  | none => exact .error _ _
  | some slot =>
    cases hvar with
    | none => exact .error _ _
    | @some v v' hv =>
      dsimp only
      rw [hv]
      exact slotAccess_agree h slot v.type a

theorem fieldAccess_agree (ref : FieldRef) (a : Access) :
    Agree Eq (c.fieldAccess ref a) (c'.fieldAccess ⟨r.type ref.owner, ref.index⟩ a) := by
  have hfield := h.types.field ref.owner ref.index
  unfold fieldAccess
  generalize c.types.field? ref.owner ref.index = f at hfield ⊢
  generalize c'.types.field? (r.type ref.owner) ref.index = f' at hfield ⊢
  cases hfield with
  | none => exact .error _ _
  | @some f f' hf =>
    dsimp only
    rw [hf.offset, hf.type]
    refine (Agree.refl (wordOperand f.offset)).bind ?_
    rintro offset _ rfl
    cases a with
    | address => exact .pure rfl
    | load =>
      exact (h.types.loadCell_agree f.type).andThen _
    | store =>
      exact (h.types.storeWidth_agree f.type).andThen _

theorem objectType?_agree (func : FuncRef) :
    Agree (fun o o' => o' = o.map r.type) (c.objectType? func) (c'.objectType? func) := by
  have hfunction := h.program.function? func
  unfold objectType?
  generalize c.program.function? func = f at hfunction ⊢
  generalize c'.program.function? func = f' at hfunction ⊢
  cases hfunction with
  | none => exact .pure rfl
  | @some ctor ctor' hctor =>
    have hparams := hctor.forall₂_params
    dsimp only
    generalize ctor.params = params at hparams ⊢
    generalize ctor'.params = params' at hparams ⊢
    cases hparams with
    | nil => exact .pure rfl
    | @cons this this' _ _ hthis _ =>
      dsimp only
      rw [hthis]
      exact h.types.referent?_agree this.type

theorem funcOp_agree (func : FuncRef) (op : FuncOp) :
    Agree Eq (c.funcOp func op) (c'.funcOp func op) := by
  cases op with
  | call | loadFunction => exact .pure rfl
  | newObject =>
    refine (objectType?_agree h func).bind ?_
    rintro object _ rfl
    cases object with
    | none => exact .error _ _
    | some object =>
      exact (h.types.slots_agree object).andThen _

theorem elementAccess_agree (container type : TypeId) (a : Access) :
    Agree Eq (c.elementAccess container type a)
      (c'.elementAccess (r.type container) (r.type type) a) := by
  refine (h.types.containerPart_agree container).bind ?_
  rintro ⟨element, part⟩ _ rfl
  refine (h.types.layout_agree element).bind ?_
  rintro layout _ rfl
  refine (Agree.refl (wordOperand layout.size)).bind ?_
  rintro stride _ rfl
  cases a with
  | address => exact .pure rfl
  | load =>
    exact (h.types.loadCell_agree type).andThen _
  | store =>
    exact (h.types.storeWidth_agree type).andThen _

theorem typeOp_agree (operand type : TypeId) (op : TypeOp) :
    Agree Eq (c.typeOp operand type op) (c'.typeOp (r.type operand) (r.type type) op) := by
  cases op with
  | convert =>
    rw [typeOp, typeOp, r.conversions?_type]
    cases conversions? operand type with
    | some ops => exact .pure rfl
    | none => exact .error _ _
  | loadIndirect =>
    exact (h.types.loadCell_agree type).andThen _
  | storeIndirect =>
    exact (h.types.storeWidth_agree type).andThen _
  | loadElement => exact (elementAccess_agree h operand type .load).andThen _
  | storeElement => exact (elementAccess_agree h operand type .store).andThen _
  | elementAddress => exact (elementAccess_agree h operand type .address).andThen _
  | callIndirect => exact .pure rfl

theorem branch_agree (operand : TypeId) (condition : Condition) (target : Label) :
    Agree Eq (c.branch operand condition target) (c'.branch (r.type operand) condition target) := by
  refine (h.types.operandClass_agree operand).bind ?_
  rintro operandClass _ rfl
  cases operandClass.intWidth? with
  | some w => exact .pure rfl
  | none =>
    dsimp only
    cases floatTest? condition with
    | some test => exact .pure rfl
    | none => exact .error _ _

/-- **The operations for an instruction are the same under other names.** -/
theorem select_agree (i : TypedInstr) :
    Agree Eq (c.select i) (c'.select (i.rename r.type)) := by
  obtain ⟨instr, operands, results⟩ := i
  -- nothing stands for the lowest operand where there is none, and its type is fixed
  have hoperand : (operands.map r.type).headD .void = r.type (operands.headD .void) := by
    cases operands with
    | nil => exact (r.primitive .void).symm
    | cons type _ => rfl
  unfold select
  dsimp only [TypedInstr.rename]
  rw [hoperand, h.frame]
  cases instr with
  | plain op => exact (plain_agree h _ op).andThen _
  | constant value => exact .pure rfl
  | argument a index =>
    exact (variableAccess_agree h h.decl.forall₂_params _ index a).andThen _
  | localVar a index =>
    exact (variableAccess_agree h h.decl.forall₂_locals _ index a).andThen _
  | field a ref => exact (fieldAccess_agree h ref a).andThen _
  | function op func => exact (funcOp_agree h func op).andThen _
  | typed op type => exact typeOp_agree h _ type op
  | jump target => exact .pure rfl
  | branch condition target => exact branch_agree h _ condition target

end SelectionContext

/-! ### Modules -/

/-- The compiled module without its name. -/
def CompiledModule.anonymous (m : CompiledModule) : CompiledModule := { m with name := "" }

namespace Program

variable {r : TypeRenaming} {p q : Program}

/-- The image of a module does not depend on its name. -/
theorem writeModule_agree {ρ : TypeId → TypeId} {m m' : ModuleDecl} (hm : m.Renamed ρ m')
    (id : ModuleId) (placed : List PlacedCode) (offsets : Array Nat) :
    Agree (fun c c' => c'.anonymous = c.anonymous) (writeModule id m placed offsets)
      (writeModule id m' placed offsets) := by
  have hheader (features : Features) : m'.header features offsets = m.header features offsets := by
    rw [ModuleDecl.header, ModuleDecl.header, hm.imports, hm.entry]
  rw [writeModule, writeModule, hm.imports]
  simp only [hheader]
  refine (Agree.refl _).bind ?_
  rintro written _ rfl
  exact .pure rfl

namespace Carried

variable (h : Carried r p q) {decl decl' : FunctionDecl} {typing typing' : TypedProgram}

include h

theorem stubCode_agree (hdecl : decl.Renamed r.type decl') (func : FuncRef) (id : UInt16) :
    Agree Eq (p.stubCode func decl id) (q.stubCode func decl' id) := by
  rw [stubCode, stubCode, hdecl.result, hdecl.zeroInit, hdecl.labels]
  refine (Frame.ofStub_agree h.types hdecl).widen.bind ?_
  rintro frame _ rfl
  refine (h.types.returnOp?_agree decl.result).bind ?_
  rintro ret _ rfl
  cases ret with
  | some ret => exact .pure rfl
  | none => exact (h.types.slots_agree decl.result).andThen _

theorem bodyCode_agree (hdecl : decl.Renamed r.type decl') {typed typed' : TypedFunction}
    (htyped : typed.Renamed r.type typed') (func : FuncRef) :
    Agree Eq (p.bodyCode func decl typed) (q.bodyCode func decl' typed') := by
  have hinstrs : List.Forall₂ (fun i i' => i' = Option.map (TypedInstr.rename r.type) i)
      typed.instrs.toList typed'.instrs.toList := by
    rw [forall₂_eq_map_iff, htyped.instrs, Array.toList_map]
  rw [bodyCode, bodyCode, htyped.states, Array.toList_map, hdecl.zeroInit, hdecl.labels]
  refine (Frame.ofTyping_agree h.types hdecl typed.states.toList).widen.bind ?_
  rintro frame _ rfl
  have hcontext : SelectionContext.Carried r ⟨p, decl, frame⟩ ⟨q, decl', frame⟩ := ⟨h, hdecl, rfl⟩
  refine Agree.bind (.mapM (forall₂_zipIdx hinstrs 0) (S := Eq) ?_) fun ops ops' hops => .pure ?_
  · rintro ⟨instr, index⟩ ⟨_, _⟩ ⟨hinstr, hindex⟩
    cases hinstr
    cases hindex
    cases instr with
    | none => exact .pure rfl
    | some instr => exact (SelectionContext.select_agree hcontext instr).widen
  · rw [List.forall₂_eq_eq_eq] at hops
    rw [hops]

/-- The code of a function is the same under other names. -/
theorem functionCode_agree (hdecl : decl.Renamed r.type decl')
    (htyping : typing.Renamed r.type typing') (func : FuncRef) :
    Agree Eq (p.functionCode typing func decl) (q.functionCode typing' func decl') := by
  have htyped := htyping func
  rw [functionCode, functionCode, hdecl.implementation]
  cases decl.implementation with
  | syscall id => exact h.stubCode_agree hdecl func id
  | code =>
    dsimp only
    generalize typing.function? func = f at htyped ⊢
    generalize typing'.function? func = f' at htyped ⊢
    cases htyped with
    | none => exact .error _ _
    | @some typed typed' htyped =>
      refine .ite ?_ (fun _ => h.bodyCode_agree hdecl htyped func) fun _ => .error _ _
      rw [htyped.instrs, hdecl.body, Array.size_map, Array.size_map]

/-- A module compiles to the same image under other names, or to none. -/
theorem compileModule_agree (htyping : typing.Renamed r.type typing') (config : CodegenConfig)
    (id : ModuleId) :
    Agree (fun c c' => c'.anonymous = c.anonymous) (p.compileModule typing config id)
      (q.compileModule typing' config id) := by
  have hmodule := h.module? id
  unfold compileModule
  generalize p.module? id = m at hmodule ⊢
  generalize q.module? id = m' at hmodule ⊢
  cases hmodule with
  | none => exact .error _ _
  | @some m m' hm =>
    dsimp only
    rw [hm.imports]
    refine .ite Iff.rfl (fun _ => .error _ _) fun _ => ?_
    refine Agree.bind (.mapM (forall₂_functionsOf hm id) (S := Eq) ?_) fun codes codes' hcodes => ?_
    · rintro ⟨_, decl⟩ ⟨func, decl'⟩ ⟨rfl, hdecl⟩
      exact h.functionCode_agree hdecl htyping func
    · rw [List.forall₂_eq_eq_eq] at hcodes
      subst hcodes
      refine (Agree.refl _).bind ?_
      rintro placed _ rfl
      refine (Agree.refl _).bind ?_
      rintro ⟨offsets, finish⟩ _ rfl
      refine .ite Iff.rfl (fun _ => .error _ _) fun _ => ?_
      exact (writeModule_agree hm id placed offsets.toArray).mapError

/-- **The compiled modules are the same up to their names.** -/
theorem compileModules_agree (htyping : typing.Renamed r.type typing') (config : CodegenConfig) :
    Agree (List.Forall₂ fun c c' => c'.anonymous = c.anonymous) (p.compileModules typing config)
      (q.compileModules typing' config) := by
  refine .mapM h.forall₂_moduleList ?_
  rintro ⟨_, m⟩ ⟨id, m'⟩ ⟨rfl, -⟩
  exact h.compileModule_agree htyping config id

end Carried

end Program

end StackCode
