import StackCode.Program.Binding
import StackCode.Proofs.Types.Carried

/-!
# Programs under other names

A program may be another one under other names: modules, functions, variables, structures and fields
are called otherwise, and types have other ids.  Names occur nowhere but in messages, and the ids of
types are compared with each other and with those of primitives only, so both programs are bound or
neither is.

## Main definitions

* `Instr.rename`: an instruction with its type renamed.
* `FunctionDecl.Renamed`, `ModuleDecl.Renamed`: declarations under other names.
* `Program.Carried`: a program under other names, with every lookup of a type carried over.

## Main results

* `Program.Carried.bind_agree`: both programs are bound, or neither is.
-/

namespace StackCode

/-- The instruction with the type it names renamed. -/
def Instr.rename (ρ : TypeId → TypeId) : Instr → Instr
  | field access ref => field access ⟨ρ ref.owner, ref.index⟩
  | typed op type => typed op (ρ type)
  | instr => instr

/-- Only the function type of some parts is renamed to that of the renamed parts. -/
theorem TypeKind.rename_eq_function {ρ : TypeId → TypeId} {σ : Nat → Nat}
    (hρ : Function.Injective ρ) {kind : TypeKind} {params : List TypeId} {result : TypeId} :
    kind.rename ρ σ = .function (params.map ρ) (ρ result) ↔ kind = .function params result := by
  cases kind with
  | function params' result' =>
    simp only [rename, function.injEq, (List.map_injective_iff.mpr hρ).eq_iff, hρ.eq_iff]
  | _ => simp [rename]

/-- The function under other names: the types of its variables, its result, its function type and
those that its body names are renamed. -/
structure FunctionDecl.Renamed (ρ : TypeId → TypeId) (f f' : FunctionDecl) : Prop where
  params : f'.paramTypes = f.paramTypes.map ρ
  locals : f'.locals.map Variable.type = (f.locals.map Variable.type).map ρ
  result : f'.result = ρ f.result
  signature : f'.signature = ρ f.signature
  labels : f'.labels = f.labels
  body : f'.body = f.body.map (Instr.rename ρ)
  implementation : f'.implementation = f.implementation
  zeroInit : f'.zeroInit = f.zeroInit

/-- The module under other names. -/
structure ModuleDecl.Renamed (ρ : TypeId → TypeId) (m m' : ModuleDecl) : Prop where
  imports : m'.imports = m.imports
  functions : List.Forall₂ (FunctionDecl.Renamed ρ) m.functions.toList m'.functions.toList
  entry : m'.entry = m.entry

/-- The program under other names, with every lookup of a type carried over. -/
structure Program.Carried (r : TypeRenaming) (p q : Program) : Prop where
  types : TypeTable.Carried r p.types q.types
  modules : List.Forall₂ (ModuleDecl.Renamed r.type) p.modules.toList q.modules.toList

/-- A variable of the renamed type. -/
def Variable.Renamed (ρ : TypeId → TypeId) (v v' : Variable) : Prop := v'.type = ρ v.type

/-- Variables correspond if their types do. -/
theorem Variable.forall₂_renamed {ρ : TypeId → TypeId} {vars vars' : List Variable}
    (h : vars'.map Variable.type = (vars.map Variable.type).map ρ) :
    List.Forall₂ (Variable.Renamed ρ) vars vars' := by
  rw [List.map_map, eq_comm] at h
  exact (forall₂_iff_map_eq.mpr h).imp fun _ _ => Eq.symm

namespace FunctionDecl.Renamed

variable {ρ : TypeId → TypeId} {f f' : FunctionDecl} (h : FunctionDecl.Renamed ρ f f')

include h

theorem forall₂_params : List.Forall₂ (Variable.Renamed ρ) f.params f'.params :=
  Variable.forall₂_renamed h.params

theorem forall₂_locals : List.Forall₂ (Variable.Renamed ρ) f.locals f'.locals :=
  Variable.forall₂_renamed h.locals

end FunctionDecl.Renamed

namespace Program

variable {r : TypeRenaming} {p q : Program}

/-! ### Lookups -/

/-- The functions of a module and of the renamed module, by reference. -/
def RenamedAt (ρ : TypeId → TypeId) (f f' : FuncRef × FunctionDecl) : Prop :=
  f'.1 = f.1 ∧ f.2.Renamed ρ f'.2

/-- The functions of corresponding modules correspond. -/
theorem forall₂_functionsOf {ρ : TypeId → TypeId} {m m' : ModuleDecl} (h : m.Renamed ρ m')
    (id : ModuleId) : List.Forall₂ (RenamedAt ρ) (functionsOf id m) (functionsOf id m') := by
  rw [functionsOf, functionsOf, List.forall₂_map_left_iff, List.forall₂_map_right_iff]
  refine (forall₂_zipIdx h.functions 0).imp ?_
  rintro ⟨f, i⟩ ⟨f', i'⟩ ⟨hf, rfl⟩
  exact ⟨rfl, hf⟩

namespace Carried

variable (h : Carried r p q)

include h

/-- The modules of an id correspond, if there are any. -/
theorem module? (id : ModuleId) :
    Option.Rel (ModuleDecl.Renamed r.type) (p.module? id) (q.module? id) := by
  rw [Program.module?, Program.module?, ← Array.getElem?_toList, ← Array.getElem?_toList]
  exact rel_getElem?_of_forall₂ h.modules id.index

theorem function? (func : FuncRef) :
    Option.Rel (FunctionDecl.Renamed r.type) (p.function? func) (q.function? func) := by
  have hmodule := h.module? func.module
  rw [Program.function?, Program.function?]
  generalize p.module? func.module = m at hmodule ⊢
  generalize q.module? func.module = m' at hmodule ⊢
  cases hmodule with
  | none => exact .none
  | some hm =>
    have hfunction := rel_getElem?_of_forall₂ hm.functions func.index
    rwa [Array.getElem?_toList, Array.getElem?_toList] at hfunction

/-- The modules of both programs correspond. -/
theorem forall₂_moduleList : List.Forall₂
    (fun m m' => m'.1 = m.1 ∧ m.2.Renamed r.type m'.2) p.moduleList q.moduleList := by
  rw [moduleList, moduleList, List.forall₂_map_left_iff, List.forall₂_map_right_iff]
  refine (forall₂_zipIdx h.modules 0).imp ?_
  rintro ⟨m, i⟩ ⟨m', i'⟩ ⟨hm, rfl⟩
  exact ⟨rfl, hm⟩

/-! ### Binding -/

omit h in
theorem demand_agree {ok ok' : Bool} {e e' : BindError} (h : ok' = ok) :
    Agree (fun _ _ => True) (demand ok e) (demand ok' e') := by
  subst h
  exact .ite Iff.rfl (fun _ => .ok trivial) fun _ => .error e e'

theorem bindModule_agree {m m' : ModuleDecl} (hm : m.Renamed r.type m') (id : ModuleId) :
    Agree (fun _ _ => True) (p.bindModule id m) (q.bindModule id m') := by
  rw [Program.bindModule, Program.bindModule, hm.imports, hm.entry]
  refine .seq (.forM (List.forall₂_same.mpr fun _ _ => rfl) ?_) ?_
  · rintro i - rfl
    exact demand_agree (isSome_eq_of_rel (h.module? i))
  · cases m.entry with
    | none => exact .ok trivial
    | some entry =>
      have hentry := rel_getElem?_of_forall₂ hm.functions entry
      rw [Array.getElem?_toList, Array.getElem?_toList] at hentry
      refine demand_agree (any_eq_of_rel hentry fun f f' hf => ?_)
      rw [Bool.eq_iff_iff, List.isEmpty_iff_length_eq_zero, List.isEmpty_iff_length_eq_zero,
        hf.forall₂_params.length_eq]

theorem bindVariable_agree {v v' : Variable} (hv : v.Renamed r.type v') (site : FuncRef) :
    Agree (fun _ _ => True) (p.bindVariable site v) (q.bindVariable site v') := by
  rw [Program.bindVariable, Program.bindVariable, hv]
  refine .seq (demand_agree (h.types.contains_type v.type)) (demand_agree ?_)
  exact decide_eq_decide.mpr (not_congr (r.type_eq_primitive .void))

/-- Signatures are bound under other names exactly if they are.  The kind of the function type is
renamed along with the parameters and the result. -/
theorem bindSignature_agree {f f' : FunctionDecl} (hf : f.Renamed r.type f') (site : FuncRef) :
    Agree (fun _ _ => True) (p.bindSignature site f) (q.bindSignature site f') := by
  have hvariables := List.rel_append hf.forall₂_params hf.forall₂_locals
  rw [Program.bindSignature, Program.bindSignature, hf.params, hf.result, hf.signature]
  refine .seq (.forM hvariables fun v v' hv => h.bindVariable_agree hv site) ?_
  refine .seq (demand_agree (h.types.contains_type f.result)) ?_
  refine .seq (demand_agree (h.types.contains_type f.signature)) (demand_agree ?_)
  rw [h.types.entry, Option.any_map]
  refine congrArg (Option.any · _) (funext fun e => decide_eq_decide.mpr ?_)
  exact TypeKind.rename_eq_function r.injective

theorem bindInstr_agree {m m' : ModuleDecl} (hm : m.Renamed r.type m') {f f' : FunctionDecl}
    (hf : f.Renamed r.type f') (site : FuncRef) (index : Nat) (instr : Instr) :
    Agree (fun _ _ => True) (p.bindInstr m site f index instr)
      (q.bindInstr m' site f' index (instr.rename r.type)) := by
  cases instr with
  | plain _ | constant _ => exact .ok trivial
  | argument _ a => exact demand_agree (by rw [hf.forall₂_params.length_eq])
  | localVar _ v => exact demand_agree (by rw [hf.forall₂_locals.length_eq])
  | field _ ref => exact demand_agree (isSome_eq_of_rel (h.types.field ref.owner ref.index))
  | function _ g =>
    have himports : m'.importIndex? g.module = m.importIndex? g.module := by
      rw [ModuleDecl.importIndex?, ModuleDecl.importIndex?, hm.imports]
    exact .seq (demand_agree (by rw [himports])) (demand_agree (isSome_eq_of_rel (h.function? g)))
  | typed _ type => exact demand_agree (h.types.contains_type type)
  | jump l | branch _ l =>
    refine demand_agree ?_
    rw [FunctionDecl.labelTarget?, FunctionDecl.labelTarget?, hf.labels]

theorem bindBody_agree {m m' : ModuleDecl} (hm : m.Renamed r.type m') {f f' : FunctionDecl}
    (hf : f.Renamed r.type f') (site : FuncRef) :
    Agree (fun _ _ => True) (p.bindBody m site f) (q.bindBody m' site f') := by
  have hbody : List.Forall₂ (fun i i' => i' = Instr.rename r.type i) f.body.toList
      f'.body.toList := by
    rw [forall₂_eq_map_iff, hf.body, Array.toList_map]
  have hsize : f'.body.size = f.body.size := by rw [hf.body, Array.size_map]
  rw [Program.bindBody, Program.bindBody, hf.implementation, hf.labels]
  cases f.implementation with
  | syscall _ =>
    exact demand_agree (by simp only [Array.isEmpty, hsize])
  | code =>
    refine .seq (demand_agree (by simp only [Array.isEmpty, hsize])) ?_
    refine .seq (.forM (List.forall₂_same.mpr fun _ _ => rfl) ?_) ?_
    · rintro ⟨target, l⟩ - rfl
      exact demand_agree (by rw [hsize])
    · refine .forM (forall₂_zipIdx hbody 0) ?_
      rintro ⟨instr, index⟩ ⟨_, _⟩ ⟨hinstr, hindex⟩
      cases hinstr
      cases hindex
      exact h.bindInstr_agree hm hf site index instr

/-- **Both programs are bound, or neither is.** -/
theorem bind_agree : Agree (fun _ _ => True) p.bind q.bind := by
  refine .seq (.forM h.forall₂_moduleList ?_) (.forM h.forall₂_moduleList ?_)
  · rintro ⟨_, m⟩ ⟨id, m'⟩ ⟨rfl, hm⟩
    exact h.bindModule_agree hm id
  · rintro ⟨_, m⟩ ⟨id, m'⟩ ⟨rfl, hm⟩
    refine .forM (forall₂_functionsOf hm id) ?_
    rintro ⟨_, f⟩ ⟨site, f'⟩ ⟨rfl, hf⟩
    exact .seq (h.bindSignature_agree hf site) (h.bindBody_agree hm hf site)

end Carried

end Program

end StackCode
