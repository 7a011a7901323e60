import StackCode.Proofs.Code.Convention
import StackCode.Proofs.Link.Acyclic
import StackCode.Proofs.Link.Naming
import StackCode.Proofs.Program.Binding

/-!
# Images depend on structure

What a program compiles to depends on its structure: not on the names of modules, functions,
variables, structures and fields, and not on the numbers its types have in the table.  Each stage
was seen to keep pace with itself under other names; here they are put one after the other.

A renaming is asked for the types of the table only.  A program that names an id without a type is
not bound, and under other names it has to name such an id again: the other table may have a type
for an id that the first has none for.

## Main definitions

* `Program.typeNames`: the types a program names.
* `Program.Renamed`: a program under other names.

## Main results

* `Program.Carried.compile_agree`: both programs compile, to the same modules up to names, or
  neither does.
* `Program.images_depend_on_structure`: the images do not depend on names or on numbers of types.
* `Program.stray_id_has_extra_type`: an id without a type is given one by the other table.
-/

namespace StackCode

/-! ### The types a program names -/

/-- The type an instruction names. -/
def Instr.type? : Instr → Option TypeId
  | field _ ref => some ref.owner
  | typed _ type => some type
  | _ => none

/-- The types a function names. -/
def FunctionDecl.typeNames (f : FunctionDecl) : List TypeId :=
  f.paramTypes ++ f.locals.map Variable.type ++
    f.result :: f.signature :: f.body.toList.filterMap Instr.type?

/-- The types a program names. -/
def Program.typeNames (p : Program) : List TypeId :=
  p.modules.toList.flatMap fun m => m.functions.toList.flatMap FunctionDecl.typeNames

variable {ρ ρ' : TypeId → TypeId}

theorem Instr.type?_rename (i : Instr) : (i.rename ρ).type? = i.type?.map ρ := by
  cases i <;> rfl

/-- A renaming matters to an instruction only for the type it names. -/
theorem Instr.rename_congr {i : Instr} (h : ∀ id ∈ i.type?, ρ id = ρ' id) :
    i.rename ρ = i.rename ρ' := by
  cases i with
  | field access ref => simp only [rename, h ref.owner rfl]
  | typed op type => simp only [rename, h type rfl]
  | _ => rfl

namespace FunctionDecl

variable {f f' : FunctionDecl}

theorem mem_typeNames_of_body {i : Instr} (hi : i ∈ f.body) {id : TypeId} (hid : id ∈ i.type?) :
    id ∈ f.typeNames :=
  List.mem_append_right _ (List.mem_cons_of_mem _ (List.mem_cons_of_mem _
    (List.mem_filterMap.mpr ⟨i, Array.mem_toList_iff.mpr hi, hid⟩)))

/-- The renamed function names the renamed types. -/
theorem Renamed.typeNames_eq (h : f.Renamed ρ f') : f'.typeNames = f.typeNames.map ρ := by
  have hbody : f'.body.toList.filterMap Instr.type? =
      (f.body.toList.filterMap Instr.type?).map ρ := by
    rw [h.body, Array.toList_map, List.filterMap_map, List.map_filterMap]
    exact congrArg (fun g => f.body.toList.filterMap g) (funext Instr.type?_rename)
  simp only [typeNames, h.params, h.locals, h.result, h.signature, hbody, List.map_append,
    List.map_cons]

/-- Renamings that agree on the types a function names rename it to the same. -/
theorem Renamed.congr (h : f.Renamed ρ f') (hsame : ∀ id ∈ f.typeNames, ρ id = ρ' id) :
    f.Renamed ρ' f' where
  params := by
    rw [h.params]
    exact List.map_congr_left fun id hid =>
      hsame id (List.mem_append_left _ (List.mem_append_left _ hid))
  locals := by
    rw [h.locals]
    exact List.map_congr_left fun id hid =>
      hsame id (List.mem_append_left _ (List.mem_append_right _ hid))
  result := by
    rw [h.result]
    exact hsame _ (List.mem_append_right _ List.mem_cons_self)
  signature := by
    rw [h.signature]
    exact hsame _ (List.mem_append_right _ (List.mem_cons_of_mem _ List.mem_cons_self))
  labels := h.labels
  body := by
    rw [h.body]
    exact Array.map_congr_left fun i hi =>
      Instr.rename_congr fun id hid => hsame id (mem_typeNames_of_body hi hid)
  implementation := h.implementation
  zeroInit := h.zeroInit

end FunctionDecl

namespace Program

variable {p q : Program} {id : TypeId}

/-- The renamed program names the renamed types. -/
theorem typeNames_eq_of_renamed
    (h : List.Forall₂ (ModuleDecl.Renamed ρ) p.modules.toList q.modules.toList) :
    q.typeNames = p.typeNames.map ρ := by
  have hmodules : q.modules.toList.map (fun m => m.functions.toList.flatMap
      FunctionDecl.typeNames) = p.modules.toList.map fun m =>
        (m.functions.toList.flatMap FunctionDecl.typeNames).map ρ := by
    refine (forall₂_iff_map_eq.mp (h.imp fun m m' hm => ?_)).symm
    rw [List.map_flatMap, List.flatMap_def, List.flatMap_def]
    refine congrArg List.flatten (forall₂_iff_map_eq.mp (hm.functions.imp fun f f' hf => ?_))
    exact hf.typeNames_eq.symm
  rw [typeNames, typeNames, List.map_flatMap, List.flatMap_def, List.flatMap_def, hmodules]

/-- A renaming matters only for the types that the program names. -/
theorem renamed_modules_congr
    (h : List.Forall₂ (ModuleDecl.Renamed ρ) p.modules.toList q.modules.toList)
    (hsame : ∀ id ∈ p.typeNames, ρ id = ρ' id) :
    List.Forall₂ (ModuleDecl.Renamed ρ') p.modules.toList q.modules.toList := by
  refine ((List.forall₂_and_left _ _).mpr ⟨fun m hm => hm, h⟩).imp ?_
  rintro m m' ⟨hmem, hm⟩
  refine ⟨hm.imports, ?_, hm.entry⟩
  refine ((List.forall₂_and_left _ _).mpr ⟨fun f hf => hf, hm.functions⟩).imp ?_
  rintro f f' ⟨hf, hrenamed⟩
  exact hrenamed.congr fun id hid => hsame id
    (List.mem_flatMap.mpr ⟨m, hmem, List.mem_flatMap.mpr ⟨f, hf, hid⟩⟩)

/-- A bound instruction names a type of the table. -/
theorem contains_of_bindInstr {m : ModuleDecl} {site : FuncRef} {f : FunctionDecl} {index : Nat}
    {i : Instr} (h : p.bindInstr m site f index i = .ok ()) (hid : id ∈ i.type?) :
    p.types.contains id = true := by
  cases i with
  | field access ref =>
    cases hid
    obtain ⟨field, hfield⟩ := Option.isSome_iff_exists.mp (demand_eq_ok.mp h)
    by_contra hunknown
    rw [TypeTable.field?_eq_none (Nat.le_of_not_lt (mt TypeTable.contains_iff.mpr hunknown))]
      at hfield
    cases hfield
  | typed op type =>
    cases hid
    exact demand_eq_ok.mp h
  | _ => cases hid

/-- A bound program names types of its table. -/
theorem contains_of_mem_typeNames (hbind : p.bind = .ok ()) (hid : id ∈ p.typeNames) :
    p.types.contains id = true := by
  obtain ⟨m, hm, hid⟩ := List.mem_flatMap.mp hid
  obtain ⟨f, hf, hid⟩ := List.mem_flatMap.mp hid
  obtain ⟨i, hm⟩ := List.getElem?_of_mem hm
  obtain ⟨j, hf⟩ := List.getElem?_of_mem hf
  rw [Array.getElem?_toList] at hm hf
  obtain ⟨func, hm, hf⟩ : ∃ func : FuncRef, p.module? func.module = some m ∧
      m.functions[func.index]? = some f := ⟨⟨⟨i⟩, j⟩, hm, hf⟩
  have hsignature := boundSignature_of_bind hbind (function?_eq_some.mpr ⟨m, hm, hf⟩)
  have hvars : ∀ v ∈ f.params ++ f.locals, p.types.contains v.type = true :=
    fun v hv => (hsignature.vars v hv).1
  rw [FunctionDecl.typeNames, FunctionDecl.paramTypes, ← List.map_append, List.mem_append,
    List.mem_cons, List.mem_cons] at hid
  rcases hid with hid | rfl | rfl | hid
  · obtain ⟨v, hv, rfl⟩ := List.mem_map.mp hid
    exact hvars v hv
  · exact hsignature.result
  · obtain ⟨e, he, -⟩ := hsignature.signature
    exact TypeTable.contains_iff.mpr (TypeTable.lt_size_of_found he)
  · obtain ⟨instr, hinstr, hid⟩ := List.mem_filterMap.mp hid
    obtain ⟨index, hinstr⟩ := List.getElem?_of_mem hinstr
    rw [Array.getElem?_toList] at hinstr
    cases hcode : f.implementation with
    | code => exact contains_of_bindInstr ((boundCode_of_bind hbind hm hf hcode).instr hinstr) hid
    | syscall number =>
      obtain ⟨_, -, hbody⟩ := bind_eq_ok.mp (bindFunction_of_bind hbind hm hf)
      rw [bindBody, hcode] at hbody
      have hempty := (Bool.and_eq_true_iff.mp (demand_eq_ok.mp hbody)).1
      rw [Array.isEmpty_iff.mp hempty] at hinstr
      cases hinstr

/-- A program that names an id without a type does not compile. -/
theorem compile_error_of_mem_typeNames (hid : id ∈ p.typeNames)
    (hlost : ¬ p.types.contains id = true) (config : CompileConfig) :
    ∃ e, p.compile config = .error e := by
  rcases hcompile : p.compile config with e | linked
  · exact ⟨e, rfl⟩
  · exact absurd (contains_of_mem_typeNames (compile_eq_ok.mp hcompile).1 hid) hlost

/-! ### Compilation -/

/-- Computations with the same results up to a map succeed together. -/
theorem agree_of_map_eq {ε α β : Type} {x y : Except ε α} {f : α → β} (h : y.map f = x.map f) :
    Agree (fun a b => f b = f a) x y := by
  cases x with
  | error e =>
    cases y with
    | error e' => exact .error e e'
    | ok b => cases h
  | ok a =>
    cases y with
    | error e' => cases h
    | ok b => exact .ok (Except.ok.inj h)

/-- **Both programs compile, to the same modules up to names, or neither does.**  The modules are
the same without names, and the linker does not look at names. -/
theorem Carried.compile_agree {r : TypeRenaming} (h : Carried r p q) (config : CompileConfig) :
    Agree (List.Forall₂ fun l l' => l'.anonymous = l.anonymous) (p.compile config)
      (q.compile config) := by
  refine .seq h.bind_agree.mapError ?_
  refine (h.verify_agree config.verify).widen.bind fun typing typing' htyping => ?_
  refine (h.compileModules_agree htyping config.codegen).widen.bind fun modules modules' hm => ?_
  have hmodules : modules'.map CompiledModule.anonymous = modules.map CompiledModule.anonymous :=
    (forall₂_iff_map_eq.mp (hm.imp fun _ _ => Eq.symm)).symm
  have hlink : (linkAll modules').map (List.map LinkedModule.anonymous) =
      (linkAll modules).map (List.map LinkedModule.anonymous) := by
    rw [← linkAll_anonymous, ← linkAll_anonymous, hmodules]
  refine (agree_of_map_eq hlink).mapError.mono fun linked linked' hlinked => ?_
  exact (forall₂_iff_map_eq.mpr hlinked.symm).imp fun _ _ => Eq.symm

/-- The program `q` is `p` under other names: types are renamed by `ρ`, structures are renumbered by
`σ`, and anything may be called otherwise. -/
structure Renamed (ρ : TypeId → TypeId) (σ : Nat → Nat) (p q : Program) : Prop where
  types : TypeTable.Renamed ρ σ p.types q.types
  modules : List.Forall₂ (ModuleDecl.Renamed ρ) p.modules.toList q.modules.toList

/-- A program under other names compiles to the same modules up to names, or neither compiles, if
the ids without a type that it names are renamed to ids without a type. -/
theorem Renamed.compile_agree {σ : Nat → Nat} (h : Renamed ρ σ p q) (hp : p.types.Built)
    (hq : q.types.Built)
    (hunknown : ∀ id ∈ p.typeNames, p.types.contains id = false → q.types.contains (ρ id) = false)
    (config : CompileConfig) :
    Agree (List.Forall₂ fun l l' => l'.anonymous = l.anonymous) (p.compile config)
      (q.compile config) := by
  by_cases hknown : ∀ id ∈ p.typeNames, p.types.contains id = true
  -- on the types that the program names, the completed renaming is the given one
  · have hsame : ∀ id ∈ p.typeNames, ρ id = (h.types.complete hp).type id := fun id hid =>
      (TypeTable.completed_of_lt (TypeTable.contains_iff.mp (hknown id hid))).symm
    have hcarried : Carried (h.types.complete hp) p q :=
      ⟨h.types.carried hp hq, renamed_modules_congr h.modules hsame⟩
    exact hcarried.compile_agree config
  -- neither program is bound
  · push Not at hknown
    obtain ⟨id, hid, hlost⟩ := hknown
    have hid' : ρ id ∈ q.typeNames := by
      rw [typeNames_eq_of_renamed h.modules]
      exact List.mem_map_of_mem hid
    have hlost' := hunknown id hid (Bool.eq_false_iff.mpr hlost)
    obtain ⟨e, he⟩ := compile_error_of_mem_typeNames hid hlost config
    obtain ⟨e', he'⟩ := compile_error_of_mem_typeNames hid' (Bool.eq_false_iff.mp hlost') config
    rw [he, he']
    exact .error e e'

/-- **Images depend on structure**, not on names or on the numbers of types.  A program compiles
exactly if it compiles under other names, with ids without a type for those of its own; and then
corresponding modules have the same image, fingerprint, number of modules, function offsets and
instruction offsets. -/
theorem images_depend_on_structure {σ : Nat → Nat} (hp : p.types.Built) (hq : q.types.Built)
    (h : Renamed ρ σ p q)
    (hunknown : ∀ id ∈ p.typeNames, p.types.contains id = false → q.types.contains (ρ id) = false)
    (config : CompileConfig) :
    ((∃ linked, p.compile config = .ok linked) ↔ ∃ linked', q.compile config = .ok linked') ∧
      ∀ linked linked', p.compile config = .ok linked → q.compile config = .ok linked' →
        List.Forall₂ (fun l l' => l'.module = l.module ∧ l'.image = l.image ∧
          l'.fingerprint = l.fingerprint ∧ l'.moduleCount = l.moduleCount ∧
          l'.functionOffsets = l.functionOffsets ∧
          l'.instructionOffsets = l.instructionOffsets) linked linked' := by
  have hagree := h.compile_agree hp hq hunknown config
  refine ⟨hagree.exists_ok_iff, fun linked linked' hlinked hlinked' => ?_⟩
  refine (hagree.result hlinked hlinked').imp fun l l' hl => ?_
  rw [LinkedModule.anonymous, LinkedModule.anonymous, LinkedModule.mk.injEq] at hl
  obtain ⟨hmodule, -, hfingerprint, himage, -, hcount, -, -, hfunctions, hinstructions⟩ := hl
  exact ⟨hmodule, himage, hfingerprint, hcount, hfunctions, hinstructions⟩

/-- The types of `pointTypes` and one structure more, made in another order. -/
def shapeTypes : TypeTable :=
  let tag := ((TypeTable.initial.function [] .void).1.declareStruct "Tag" [("length", .int32)]).1
  let shape := (tag.declareStruct "Shape" [("kind", .uint8), ("area", .int32), ("id", .int64)]).1
  let signatures := ((shape.function [⟨29⟩, .uint8] .uint64).1.function [⟨29⟩, .bool] .int64).1
  (signatures.function [⟨29⟩, .int16] .void).1

/-- The ids that the types of `pointTypes` have in `shapeTypes`. -/
def shapeId (id : TypeId) : TypeId :=
  match [28, 29, 36, 37, 34, 31, 32, 35, 30, 33, 24, 25][id.index - 24]? with
  | some index => if id.index < 24 then id else ⟨index⟩
  | none => id

def shapeInit : FunctionDecl :=
  { pointInit with
    name := "construct", params := [⟨"self", ⟨29⟩⟩, ⟨"factor", .int16⟩], signature := ⟨36⟩ }

def shapeMass : FunctionDecl :=
  { pointWeight with
    name := "mass", params := [⟨"shape", ⟨29⟩⟩, ⟨"negative", .bool⟩], signature := ⟨34⟩ }

def shapeMain : FunctionDecl :=
  { pointMain with
    name := "start", signature := ⟨24⟩, body := pointMain.body.map (Instr.rename shapeId) }

/-- The program `points` under other names. -/
def shapes : Program where
  types := shapeTypes
  modules := #[⟨"shapes", [], #[shapeInit, shapeMass, shapeMain], some 2⟩]

theorem shapes_built : shapes.types.Built := by
  simp only [shapes, shapeTypes]
  apply_rules [TypeTable.Built.function, TypeTable.Built.declareStruct, TypeTable.Built.initial]

theorem shapeTypes_renamed : TypeTable.Renamed shapeId (· + 1) points.types shapes.types where
  injOn := by
    have hinj : ∀ i < points.types.size, ∀ j < points.types.size,
        shapeId ⟨i⟩ = shapeId ⟨j⟩ → i = j := by decide +kernel
    rintro ⟨i⟩ hi ⟨j⟩ hj hij
    exact congrArg TypeId.mk
      (hinj i (TypeTable.contains_iff.mp hi) j (TypeTable.contains_iff.mp hj) hij)
  primitive p := by cases p <;> rfl
  entry {id e} he := by
    have hentries : ∀ i < points.types.size, ∀ e ∈ points.types.entry? ⟨i⟩,
        ∃ e' ∈ shapes.types.entry? (shapeId ⟨i⟩), e'.kind = e.kind.rename shapeId (· + 1) ∧
          e'.verification = shapeId e.verification ∧ e'.stack = shapeId e.stack ∧
          e'.reference = e.reference.map shapeId := by decide +kernel
    exact hentries id.index (TypeTable.lt_size_of_found he) e he
  fieldTypes {id e decl} _ _ := by
    have hsize : points.types.structs.size = 1 ∧ shapes.types.structs.size = 2 := by decide +kernel
    cases decl with
    | zero => decide +kernel
    | succ decl =>
      rw [Array.getElem?_eq_none (by omega), Array.getElem?_eq_none (by omega)]
      rfl

theorem shapes_renamed : Renamed shapeId (· + 1) points shapes where
  types := shapeTypes_renamed
  modules := by
    have hinit : pointInit.Renamed shapeId shapeInit :=
      ⟨rfl, rfl, rfl, rfl, rfl, by simp [shapeInit, pointInit, Instr.rename], rfl, rfl⟩
    have hmass : pointWeight.Renamed shapeId shapeMass :=
      ⟨rfl, rfl, rfl, rfl, rfl, by simp [shapeMass, pointWeight, Instr.rename], rfl, rfl⟩
    have hmain : pointMain.Renamed shapeId shapeMain := ⟨rfl, rfl, rfl, rfl, rfl, rfl, rfl, rfl⟩
    exact .cons ⟨rfl, .cons hinit (.cons hmass (.cons hmain .nil)), rfl⟩ .nil

/-- A program without imports is linked if its modules are compiled. -/
theorem compile_of_no_imports {config : CompileConfig} {typing : TypedProgram}
    {compiled : List CompiledModule} (hbind : p.bind = .ok ())
    (hverify : p.verify config.verify = .ok typing)
    (hmodules : p.compileModules typing config.codegen = .ok compiled)
    (himports : ∀ m ∈ p.modules, m.imports = []) : ∃ linked, p.compile config = .ok linked := by
  have hnone : ∀ id d, ¬ Imports compiled id d := by
    rintro id d ⟨cm, hcm, hd⟩
    obtain ⟨m, _, _, hholds⟩ := holds_of_findModule? hverify hmodules hcm
    obtain ⟨i, hi⟩ : ∃ i, p.modules[i]? = some m := ⟨_, hholds.module⟩
    rw [hholds.imports, himports m (Array.mem_of_getElem? hi)] at hd
    cases hd
  have hclosure (id : ModuleId) : importClosure compiled id = {id} := by
    refine Set.eq_singleton_iff_unique_mem.mpr ⟨.refl, fun y hy => ?_⟩
    rcases Relation.ReflTransGen.cases_head hy with rfl | ⟨d, hd, -⟩
    · rfl
    · exact absurd hd (hnone id d)
  have hlink := (linkAll_ok_iff_acyclic hverify hmodules hbind).mpr
    ⟨fun y hcycle => ?_, fun cm _ => by rw [hclosure, Set.ncard_singleton]; decide⟩
  · obtain ⟨linked, hlinked⟩ := hlink
    exact ⟨linked, compile_eq_ok.mpr ⟨hbind, typing, compiled, hverify, hmodules, hlinked⟩⟩
  · obtain ⟨d, hd, -⟩ := Relation.TransGen.head'_iff.mp hcycle
    exact hnone y d hd

theorem points_link : ∃ linked, points.compile {} = .ok linked := by
  obtain ⟨typing, compiled, -, hverify, hmodules, -⟩ := points_compile
  exact compile_of_no_imports points_bind hverify hmodules (by decide)

/-- The two programs have the same images. -/
theorem images_of_points_and_shapes :
    points.types.Built ∧ shapes.types.Built ∧ Renamed shapeId (· + 1) points shapes ∧
      (∀ id ∈ points.typeNames, points.types.contains id = false →
        shapes.types.contains (shapeId id) = false) ∧
      ∃ linked linked', points.compile {} = .ok linked ∧ shapes.compile {} = .ok linked' ∧
        List.Forall₂ (fun l l' => l'.module = l.module ∧ l'.image = l.image ∧
          l'.fingerprint = l.fingerprint ∧ l'.moduleCount = l.moduleCount ∧
          l'.functionOffsets = l.functionOffsets ∧
          l'.instructionOffsets = l.instructionOffsets) linked linked' := by
  have hunknown : ∀ id ∈ points.typeNames, points.types.contains id = false →
      shapes.types.contains (shapeId id) = false := by
    intro id hid hfalse
    cases hfalse.symm.trans (contains_of_mem_typeNames points_bind hid)
  obtain ⟨hiff, hsame⟩ :=
    images_depend_on_structure points_built shapes_built shapes_renamed hunknown {}
  obtain ⟨linked, hlinked⟩ := points_link
  obtain ⟨linked', hlinked'⟩ := hiff.mp ⟨linked, hlinked⟩
  exact ⟨points_built, shapes_built, shapes_renamed, hunknown, linked, linked', hlinked, hlinked',
    hsame linked linked' hlinked hlinked'⟩

/-- A function with a local of the first id that the table has no type for. -/
def strayMain : FunctionDecl where
  name := "main"
  params := []
  locals := [⟨"stray", ⟨26⟩⟩]
  result := .void
  signature := ⟨24⟩
  labels := #[]
  body := #[.plain .ret]
  implementation := .code
  zeroInit := false

/-- A program that names an id without a type. -/
def stray : Program where
  types := (TypeTable.initial.function [] .void).1
  modules := #[⟨"main", [], #[strayMain], none⟩]

/-- The same program with a type more in its table. -/
def strayFound : Program := { stray with types := (stray.types.span .int32).1 }

theorem stray_built : stray.types.Built := .function .initial [] .void

theorem stray_renamed : Renamed (fun type => type) (fun decl => decl) stray strayFound where
  types := (stray_built.coherent.run (.span .int32)).2.renamed stray_built.coherent
  modules := by
    have hmain : strayMain.Renamed (fun type => type) strayMain :=
      ⟨rfl, rfl, rfl, rfl, rfl, by simp [strayMain, Instr.rename], rfl, rfl⟩
    exact .cons ⟨rfl, .cons hmain .nil, rfl⟩ .nil

/-- An id without a type is given one by the other table, and only one of the programs compiles. -/
theorem stray_id_has_extra_type :
    stray.types.Built ∧ strayFound.types.Built ∧
      Renamed (fun type => type) (fun decl => decl) stray strayFound ∧
      (∃ e, stray.compile {} = .error e) ∧ ∃ linked, strayFound.compile {} = .ok linked := by
  refine ⟨stray_built, .span stray_built .int32, stray_renamed, ?_, ?_⟩
  · have hid : ⟨26⟩ ∈ stray.typeNames := by decide
    exact compile_error_of_mem_typeNames hid (by decide) {}
  · have hrun : ((strayFound.verify {}).toOption.any fun typing =>
        (strayFound.compileModules typing {}).toOption.any fun _ => true) = true := by
      cbv
    obtain ⟨typing, hverify, hrun⟩ := (Option.any_eq_true _ _).mp hrun
    obtain ⟨compiled, hmodules, -⟩ := (Option.any_eq_true _ _).mp hrun
    exact compile_of_no_imports (by decide) (toOption_eq_some.mp hverify)
      (toOption_eq_some.mp hmodules) (by decide)

end Program

end StackCode
