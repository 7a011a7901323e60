import StackCode.Program.Binding
import StackCode.Proofs.Sequencing

/-!
# What binding promises

A program that passes the check has everything it names.  This module takes the check of the whole
program apart into what it says of one module, one function and one instruction.

## Main definitions

* `Program.BoundSignature`: what binding checks of the types of a function.
* `Program.BoundCode`: what binding checks of a function with code.

## Main results

* `Program.mem_moduleList`, `Program.mem_functionsOf`: the lists of modules and functions hold what
  lookup finds.
* `Program.bindModule_of_bind`, `Program.bindFunction_of_bind`: the check of one module and of one
  function.
* `Program.boundSignature_of_bind`: the check of the types of one function.
* `Program.boundCode_of_bind`: the check of the code of one function.
-/

namespace StackCode

namespace Program

variable {p : Program} {m : ModuleDecl} {func : FuncRef} {decl : FunctionDecl}

theorem demand_eq_ok {ok : Bool} {cause : BindError} : demand ok cause = .ok () ↔ ok = true := by
  cases ok <;> simp [demand]

theorem getElem?_moduleList {i : Nat} :
    p.moduleList[i]? = (p.module? ⟨i⟩).map fun m => (⟨i⟩, m) := by
  rw [moduleList, module?, List.getElem?_map, List.getElem?_zipIdx, Array.getElem?_toList,
    Option.map_map, Nat.zero_add]
  rfl

theorem getElem?_functionsOf {id : ModuleId} {i : Nat} :
    (functionsOf id m)[i]? = m.functions[i]?.map fun f => (⟨id, i⟩, f) := by
  rw [functionsOf, List.getElem?_map, List.getElem?_zipIdx, Array.getElem?_toList, Option.map_map,
    Nat.zero_add]
  rfl

theorem getElem?_functionsOf_index (h : m.functions[func.index]? = some decl) :
    (functionsOf func.module m)[func.index]? = some (func, decl) := by
  rw [getElem?_functionsOf, h]
  rfl

theorem mem_moduleList {id : ModuleId} : (id, m) ∈ p.moduleList ↔ p.module? id = some m := by
  simp only [moduleList, module?, List.mem_map, Prod.mk.injEq, Prod.exists]
  constructor
  · rintro ⟨m', i, hmem, rfl, rfl⟩
    simpa using List.mem_zipIdx_iff_getElem?.mp hmem
  · intro h
    exact ⟨m, id.index, List.mem_zipIdx_iff_getElem?.mpr (by simpa using h), rfl, rfl⟩

theorem mem_functionsOf {id : ModuleId} :
    (func, decl) ∈ functionsOf id m ↔ func.module = id ∧ m.functions[func.index]? = some decl := by
  simp only [functionsOf, List.mem_map, Prod.mk.injEq, Prod.exists]
  constructor
  · rintro ⟨decl', i, hmem, rfl, rfl⟩
    exact ⟨rfl, by simpa using List.mem_zipIdx_iff_getElem?.mp hmem⟩
  · rintro ⟨rfl, h⟩
    exact ⟨decl, func.index, List.mem_zipIdx_iff_getElem?.mpr (by simpa using h), rfl, rfl⟩

/-- A function stands in its module. -/
theorem function?_eq_some :
    p.function? func = some decl ↔
      ∃ m, p.module? func.module = some m ∧ m.functions[func.index]? = some decl := by
  simp [function?, Option.bind_eq_some_iff]

theorem function?_of_mem_functionsOf {id : ModuleId} (hm : p.module? id = some m)
    (h : (func, decl) ∈ functionsOf id m) : p.function? func = some decl := by
  obtain ⟨rfl, hf⟩ := mem_functionsOf.mp h
  exact function?_eq_some.mpr ⟨m, hm, hf⟩

theorem bindModule_of_bind {id : ModuleId} (h : p.bind = .ok ()) (hm : p.module? id = some m) :
    p.bindModule id m = .ok () := by
  obtain ⟨_, hmodules, -⟩ := bind_eq_ok.mp h
  exact forM_eq_ok.mp hmodules _ (mem_moduleList.mpr hm)

theorem bindFunction_of_bind (h : p.bind = .ok ()) (hm : p.module? func.module = some m)
    (hf : m.functions[func.index]? = some decl) : p.bindFunction m func decl = .ok () := by
  obtain ⟨_, -, hfunctions⟩ := bind_eq_ok.mp h
  have hmodule := forM_eq_ok.mp hfunctions _ (mem_moduleList.mpr hm)
  exact forM_eq_ok.mp hmodule _ (mem_functionsOf.mpr ⟨rfl, hf⟩)

/-- What binding checks of the types of a function: they are in the table, variables can hold values
and the function type is theirs. -/
structure BoundSignature (p : Program) (decl : FunctionDecl) : Prop where
  vars : ∀ v ∈ decl.params ++ decl.locals, p.types.contains v.type = true ∧ v.type ≠ .void
  result : p.types.contains decl.result = true
  signature : ∃ e, p.types.entry? decl.signature = some e ∧
    e.kind = .function decl.paramTypes decl.result

theorem boundSignature_of_bind (h : p.bind = .ok ()) (hf : p.function? func = some decl) :
    p.BoundSignature decl := by
  obtain ⟨m, hm, hdecl⟩ := function?_eq_some.mp hf
  obtain ⟨_, hsignature, -⟩ := bind_eq_ok.mp (bindFunction_of_bind h hm hdecl)
  obtain ⟨_, hvariables, hsignature⟩ := bind_eq_ok.mp hsignature
  obtain ⟨_, hresult, hsignature⟩ := bind_eq_ok.mp hsignature
  obtain ⟨_, -, hkind⟩ := bind_eq_ok.mp hsignature
  refine ⟨fun v hv => ?_, demand_eq_ok.mp hresult, ?_⟩
  · obtain ⟨_, hcontains, hvoid⟩ := bind_eq_ok.mp (forM_eq_ok.mp hvariables v hv)
    exact ⟨demand_eq_ok.mp hcontains, of_decide_eq_true (demand_eq_ok.mp hvoid)⟩
  · obtain ⟨e, he, hkind⟩ := (Option.any_eq_true _ _).mp (demand_eq_ok.mp hkind)
    exact ⟨e, he, of_decide_eq_true hkind⟩

/-- What binding checks of a function with code: it has instructions, its labels stand at them, and
each is bound. -/
structure BoundCode (p : Program) (m : ModuleDecl) (func : FuncRef) (decl : FunctionDecl) :
    Prop where
  nonempty : 0 < decl.body.size
  label_lt : ∀ {l target}, decl.labelTarget? l = some target → target < decl.body.size
  instr : ∀ {index instr}, decl.body[index]? = some instr →
    p.bindInstr m func decl index instr = .ok ()

theorem boundCode_of_bind (h : p.bind = .ok ()) (hm : p.module? func.module = some m)
    (hf : m.functions[func.index]? = some decl) (hcode : decl.implementation = .code) :
    p.BoundCode m func decl := by
  obtain ⟨_, -, hbody⟩ := bind_eq_ok.mp (bindFunction_of_bind h hm hf)
  simp only [bindBody, hcode] at hbody
  obtain ⟨_, hnonempty, hbody⟩ := bind_eq_ok.mp hbody
  obtain ⟨_, hlabels, hinstrs⟩ := bind_eq_ok.mp hbody
  refine ⟨?_, fun {l target} hl => ?_, fun {index instr} hinstr => ?_⟩
  · have hne := demand_eq_ok.mp hnonempty
    simp only [Array.isEmpty, Bool.not_eq_true', decide_eq_false_iff_not] at hne
    exact Nat.pos_of_ne_zero hne
  · have hmem : (target, l.index) ∈ decl.labels.toList.zipIdx :=
      List.mem_zipIdx_iff_getElem?.mpr (by simpa [FunctionDecl.labelTarget?] using hl)
    exact of_decide_eq_true (demand_eq_ok.mp (forM_eq_ok.mp hlabels _ hmem))
  · have hmem : (instr, index) ∈ decl.body.toList.zipIdx :=
      List.mem_zipIdx_iff_getElem?.mpr (by simpa using hinstr)
    exact forM_eq_ok.mp hinstrs _ hmem

/-- A function that bound code names exists. -/
theorem BoundCode.exists_callee {index : Nat} {op : FuncOp} {callee : FuncRef}
    (h : p.BoundCode m func decl) (hinstr : decl.body[index]? = some (.function op callee)) :
    ∃ calleeDecl, p.function? callee = some calleeDecl := by
  obtain ⟨_, -, hcallee⟩ := bind_eq_ok.mp (h.instr hinstr)
  exact Option.isSome_iff_exists.mp (demand_eq_ok.mp hcallee)

/-- A function that bound code names is in the module itself or in an imported one. -/
theorem BoundCode.callee_imported {index : Nat} {op : FuncOp} {callee : FuncRef}
    (h : p.BoundCode m func decl) (hinstr : decl.body[index]? = some (.function op callee)) :
    callee.module = func.module ∨ ∃ slot, m.importIndex? callee.module = some slot := by
  obtain ⟨_, himported, -⟩ := bind_eq_ok.mp (h.instr hinstr)
  rw [← Option.isSome_iff_exists]
  exact of_decide_eq_true (demand_eq_ok.mp himported)

end Program

end StackCode
