import StackCode.Proofs.Assembler.Sessions

/-!
# Flags kept apart

Which functions have their bodies can be kept apart from the program, in rows of flags: one row for
each module, with one flag for each of its functions.  Rows are then read at the places where the
modules are found, and modules at the places where the flags are, without another check, and types
are looked up in the same way while others are interned.  A lookup that finds nothing has no answer.

There always is one.  After any calls the rows stand where the modules and functions do, so the
calls are answered as those of an assembler that keeps each flag with its function.

## Main definitions

* `FlaggedProgram`: a program in the making, and rows of flags.
* `FlaggedProgram.perform`, `FlaggedProgram.build`: edits and the finished program.
* `Assembler.split`: the program and the flags of an assembler.

## Main results

* `Assembler.perform_split`: an edit has an answer, that of the assembler.
* `Assembler.build_split`: the finished program is that of the assembler.
* `Session.call_split`, `Session.after_split`: calls have answers, those of the assembler.
-/

namespace StackCode

/-- A program in the making, with a row of flags for each module, which say which of its functions
have their bodies. -/
structure FlaggedProgram where
  types : TypeTable := .initial
  modules : Array ModuleDecl := #[]
  defined : Array (Array Bool) := #[]

namespace FlaggedProgram

variable (p : FlaggedProgram)

/-- Replaces a module. -/
def setModule (id : ModuleId) (m : ModuleDecl) : FlaggedProgram :=
  { p with modules := p.modules.setIfInBounds id.index m }

/-- Replaces the row of a module. -/
def setRow (id : ModuleId) (row : Array Bool) : FlaggedProgram :=
  { p with defined := p.defined.setIfInBounds id.index row }

/-- Adds a flag that is not set to the row of a module. -/
def addFlag (id : ModuleId) : Option FlaggedProgram := do
  let row ← p.defined[id.index]?
  return p.setRow id (row.push false)

/-- Sets the flag of a function. -/
def setFlag (func : FuncRef) : Option FlaggedProgram := do
  let row ← p.defined[func.module.index]?
  let _ ← row[func.index]?
  return p.setRow func.module (row.setIfInBounds func.index true)

/-- Makes a module import another, once. -/
def addImport (id dependency : ModuleId) : Answer × FlaggedProgram :=
  if dependency.index < p.modules.size then
    match p.modules[id.index]? with
    | none => (.error (.badModule id), p)
    | some m =>
      if dependency ∈ m.imports then (.ok .done, p)
      else (.ok .done, p.setModule id { m with imports := m.imports ++ [dependency] })
  else (.error (.badModule dependency), p)

/-- Adds a function of an interned type to a module.  The flag of a system call is set at once, by
the number of the function. -/
def addFunction (id : ModuleId) (sig : FunctionSig) (implementation : Implementation)
    (signature : TypeId) : Option (Answer × FlaggedProgram) :=
  match p.modules[id.index]? with
  | none => some (.error (.badModule id), p)
  | some m => do
    let func : FuncRef := ⟨id, wordIndex m.functions.size⟩
    let decl := sig.toDecl signature implementation
    let p ← (p.setModule id { m with functions := m.functions.push decl }).addFlag id
    match implementation with
    | .code => return (.ok (.function func), p)
    | .syscall _ => return (.ok (.function func), ← p.setFlag func)

/-- Gives a function its body.  Only its flag is checked. -/
def define (b : BodyBuilder) : Option (Answer × FlaggedProgram) :=
  match b.labelTargets with
  | .error e => some (.error e, p)
  | .ok labels =>
    match p.defined[b.func.module.index]?.bind (·[b.func.index]?) with
    | none => some (.error (.badFuncRef b.func), p)
    | some true => some (.error (.alreadyDefined b.func), p)
    | some false => do
      let p ← p.setFlag b.func
      let m ← p.modules[b.func.module.index]?
      let f ← m.functions[b.func.index]?
      let f := { f with body := b.body, labels := labels.toArray }
      return (.ok .done, p.setModule b.func.module
        { m with functions := m.functions.setIfInBounds b.func.index f })

/-- Makes a function the entry point of its module. -/
def setEntry (func : FuncRef) : Answer × FlaggedProgram :=
  match p.modules[func.module.index]? with
  | none => (.error (.badModule func.module), p)
  | some m =>
    if func.index < m.functions.size then
      (.ok .done, p.setModule func.module { m with entry := some func.index })
    else (.error (.badFuncRef func), p)

/-- A call of an operation of the type table, with ids for any number of types. -/
def intern (request : TypeTable.Request) :
    Option (Except BuildError TypeId × FlaggedProgram) := do
  let (types, answer) ← request.serve (fun _ => false) p.types
  return (answer.mapError .type, { p with types })

/-- The answer of an edit, and the program after it. -/
def perform : Edit → Option (Answer × FlaggedProgram)
  | .intern request => do
    let (answer, p) ← p.intern request
    return (answer.map .type, p)
  | .addModule name =>
    some (.ok (.module ⟨wordIndex p.modules.size⟩),
      { p with modules := p.modules.push ⟨name, [], #[], none⟩, defined := p.defined.push #[] })
  | .addImport id dependency => some (p.addImport id dependency)
  | .addFunction id sig implementation => do
    let (answer, p) ← p.intern (.function (sig.params.map Variable.type) sig.result)
    match answer with
    | .error e => return (.error e, p)
    | .ok signature => p.addFunction id sig implementation signature
  | .define b => p.define b
  | .setEntry func => some (p.setEntry func)

/-- The finished program: all flags are set, and the program is bound. -/
def build : Except BuildError Program := do
  let missing := p.defined.toList.zipIdx.findSome? fun (row, i) =>
    (row.toList.findIdx? (!·)).map fun index => FuncRef.mk ⟨wordIndex i⟩ (wordIndex index)
  match missing with
  | some func => .error (.missingFunctionBody func)
  | none =>
    let program : Program := ⟨p.types, p.modules⟩
    program.bind.mapError .bind
    return program

end FlaggedProgram

/-! ## Answers -/

namespace FlaggedProgram

variable {p : FlaggedProgram} {id : ModuleId} {func : FuncRef} {row : Array Bool}

theorem addFlag_eq (hrow : p.defined[id.index]? = some row) :
    p.addFlag id = some (p.setRow id (row.push false)) := by
  simp [addFlag, hrow]

theorem setFlag_eq (hrow : p.defined[func.module.index]? = some row)
    (hlt : func.index < row.size) :
    p.setFlag func = some (p.setRow func.module (row.setIfInBounds func.index true)) := by
  simp [setFlag, hrow, hlt]

theorem getElem?_setRow (hlt : id.index < p.defined.size) :
    (p.setRow id row).defined[id.index]? = some row := Array.getElem?_setIfInBounds_self_of_lt hlt

theorem setRow_setRow (row' : Array Bool) :
    (p.setRow id row).setRow id row' = p.setRow id row' := by
  rw [setRow, setRow, Array.setIfInBounds_setIfInBounds]
  rfl

/-- No function is added to a module that is not there. -/
theorem addFunction_of_none (hm : p.modules[id.index]? = none) (sig : FunctionSig)
    (implementation : Implementation) (signature : TypeId) :
    p.addFunction id sig implementation signature = some (.error (.badModule id), p) := by
  rw [addFunction, hm]

/-- The flags of a module with another function. -/
def flagFunction (row : Array Bool) : Implementation → Array Bool
  | .code => row.push false
  | .syscall _ => (row.push false).setIfInBounds (wordIndex row.size) true

/-- A function gets a flag at the end of the row; a system call sets the flag of its number. -/
theorem addFunction_eq {m : ModuleDecl} (hm : p.modules[id.index]? = some m)
    (hrow : p.defined[id.index]? = some row) (hsize : m.functions.size = row.size)
    (sig : FunctionSig) (implementation : Implementation) (signature : TypeId) :
    p.addFunction id sig implementation signature =
      some (.ok (.function ⟨id, wordIndex m.functions.size⟩),
        (p.setModule id
          { m with functions := m.functions.push (sig.toDecl signature implementation) }).setRow id
            (flagFunction row implementation)) := by
  simp only [addFunction, hm]
  generalize hq : p.setModule id _ = q
  have hrow' : q.defined[id.index]? = some row := by rwa [← hq]
  have hlt : id.index < q.defined.size := (Array.getElem?_eq_some_iff.mp hrow').1
  rw [addFlag_eq hrow', hsize]
  cases implementation with
  | code => rfl
  | syscall number =>
    have hindex : wordIndex row.size < (row.push false).size := by
      rw [Array.size_push]
      exact Nat.lt_succ_of_le (Nat.min_le_left _ _)
    have hset : (q.setRow id (row.push false)).setFlag ⟨id, wordIndex row.size⟩ = _ :=
      setFlag_eq (getElem?_setRow hlt) hindex
    rw [setRow_setRow] at hset
    simp only [Option.bind_eq_bind, Option.bind_some, hset]
    rfl

/-- A body is taken for a function whose flag is not set. -/
theorem define_eq {b : BodyBuilder} {labels : List Nat} {m : ModuleDecl} {f : FunctionDecl}
    (hlabels : b.labelTargets = .ok labels) (hm : p.modules[b.func.module.index]? = some m)
    (hf : m.functions[b.func.index]? = some f) (hrow : p.defined[b.func.module.index]? = some row)
    (hflag : row[b.func.index]? = some false) :
    p.define b = some (.ok .done,
      (p.setModule b.func.module
        { m with
          functions := m.functions.setIfInBounds b.func.index
            { f with body := b.body, labels := labels.toArray } }).setRow b.func.module
          (row.setIfInBounds b.func.index true)) := by
  have hset := setFlag_eq hrow (Array.getElem?_eq_some_iff.mp hflag).1
  simp only [define, hlabels, hrow, Option.bind_some, hflag, hset]
  simp only [setRow, hm, hf, Option.bind_eq_bind, Option.bind_some]
  rfl

end FlaggedProgram

/-- The flags of the functions of a module. -/
def ModuleDraft.flags (m : ModuleDraft) : Array Bool := m.functions.map FunctionDraft.defined

section Modify

variable {α β : Type} (xs : Array α) (i : Nat) (f : α → α) (g : α → β)

/-- A change that a function does not see. -/
theorem map_modify_of_eq (h : ∀ a, g (f a) = g a) : (xs.modify i f).map g = xs.map g := by
  apply Array.ext_getElem?
  intro j
  rw [Array.getElem?_map, Array.getElem?_map, Array.getElem?_modify]
  split
  · rw [Option.map_map]
    exact congrArg (fun g => Option.map g _) (funext h)
  · rfl

/-- A change to one value that a function sees. -/
theorem map_modify_of_const {b : β} (h : ∀ a, g (f a) = b) :
    (xs.modify i f).map g = (xs.map g).setIfInBounds i b := by
  apply Array.ext_getElem?
  intro j
  rw [Array.getElem?_map, Array.getElem?_modify, Array.getElem?_setIfInBounds]
  split
  next heq =>
    subst heq
    by_cases hlt : i < xs.size
    · simp [hlt, h]
    · simp [hlt]
  · rw [Array.getElem?_map]

end Modify

namespace FunctionDraft

variable (functions : Array FunctionDraft) (decl : FunctionDecl)

/-- A new function changes no other declaration. -/
theorem map_decl_addTo :
    (addTo functions decl).map FunctionDraft.decl =
      (functions.map FunctionDraft.decl).push decl := by
  unfold addTo
  split
  · exact Array.map_push
  · refine (map_modify_of_eq _ _ _ FunctionDraft.decl ?_).trans Array.map_push
    exact fun _ => rfl

/-- The flags of a module with another function. -/
theorem map_defined_addTo :
    (addTo functions decl).map FunctionDraft.defined =
      FlaggedProgram.flagFunction (functions.map FunctionDraft.defined) decl.implementation := by
  have hpush : (functions.push ⟨decl, false⟩).map FunctionDraft.defined =
      (functions.map FunctionDraft.defined).push false := Array.map_push
  unfold addTo
  cases decl.implementation with
  | code => exact hpush
  | syscall number =>
    rw [FlaggedProgram.flagFunction, ← hpush, Array.size_map]
    exact map_modify_of_const _ _ _ FunctionDraft.defined fun _ => rfl

end FunctionDraft

namespace ModuleDraft

variable (m : ModuleDraft) (f : FunctionDraft)

theorem toDecl_addFunction (decl : FunctionDecl) : (m.addFunction decl).toDecl =
    { m.toDecl with functions := m.toDecl.functions.push decl } :=
  congrArg (ModuleDecl.mk m.name m.imports · m.entry) (FunctionDraft.map_decl_addTo _ decl)

theorem flags_addFunction (decl : FunctionDecl) :
    (m.addFunction decl).flags = FlaggedProgram.flagFunction m.flags decl.implementation :=
  FunctionDraft.map_defined_addTo _ decl

theorem toDecl_set (i : Nat) : toDecl { m with functions := m.functions.setIfInBounds i f } =
    { m.toDecl with functions := m.toDecl.functions.setIfInBounds i f.decl } := by
  rw [toDecl, Array.map_setIfInBounds]
  rfl

theorem flags_set (i : Nat) : flags { m with functions := m.functions.setIfInBounds i f } =
    m.flags.setIfInBounds i f.defined := Array.map_setIfInBounds

end ModuleDraft

namespace Assembler

/-- The program and the flags apart. -/
def split (a : Assembler) : FlaggedProgram :=
  ⟨a.types, a.modules.map ModuleDraft.toDecl, a.modules.map ModuleDraft.flags⟩

/-- An answer with the program and the flags apart. -/
def splitAnswer (answered : Answer × Assembler) : Answer × FlaggedProgram :=
  (answered.1, answered.2.split)

variable {a : Assembler} {id : ModuleId} {m : ModuleDraft}

theorem getElem?_modules_split (i : Nat) :
    a.split.modules[i]? = a.modules[i]?.map ModuleDraft.toDecl := Array.getElem?_map

theorem getElem?_defined_split (i : Nat) :
    a.split.defined[i]? = a.modules[i]?.map ModuleDraft.flags := Array.getElem?_map

/-- A module and its row stand in the same place. -/
theorem split_of_module {i : Nat} (hm : a.modules[i]? = some m) :
    a.split.modules[i]? = some m.toDecl ∧ a.split.defined[i]? = some m.flags := by
  rw [getElem?_modules_split, getElem?_defined_split, hm]
  exact ⟨rfl, rfl⟩

/-- A module is replaced along with its flags. -/
theorem split_setModule (id : ModuleId) (m : ModuleDraft) :
    (a.setModule id m).split = (a.split.setModule id m.toDecl).setRow id m.flags := by
  simp only [split, setModule, FlaggedProgram.setModule, FlaggedProgram.setRow,
    Array.map_setIfInBounds]

/-- Replacing a module by one with the same flags. -/
theorem split_setModule_of_flags (hm : a.modules[id.index]? = some m) {m' : ModuleDraft}
    (hflags : m'.flags = m.flags) : (a.setModule id m').split = a.split.setModule id m'.toDecl := by
  obtain ⟨hlt, hrow⟩ := Array.getElem?_eq_some_iff.mp (split_of_module hm).2
  have hsame : a.split.defined.setIfInBounds id.index m.flags = a.split.defined := by
    rw [← hrow, Array.setIfInBounds, dif_pos hlt, Array.set_getElem_self]
  rw [split_setModule, hflags, FlaggedProgram.setRow]
  exact congrArg _ hsame

theorem module_of_lt (hlt : id.index < a.modules.size) : ∃ m, a.module id = .ok m :=
  ⟨_, module_eq_ok.mpr (Array.getElem?_eq_getElem hlt)⟩

theorem module_eq_error (hm : a.modules[id.index]? = none) :
    a.module id = .error (.badModule id) := by
  rw [module, hm]

theorem addImport_split (id dependency : ModuleId) :
    a.split.addImport id dependency =
      splitAnswer (a.attempt (a.addImport id dependency)) := by
  have hsize : a.split.modules.size = a.modules.size := Array.size_map
  rw [FlaggedProgram.addImport, hsize, getElem?_modules_split]
  by_cases hlt : dependency.index < a.modules.size
  · obtain ⟨_, hdependency⟩ := module_of_lt hlt
    cases hm : a.modules[id.index]? with
    | none =>
      simp [Assembler.addImport, hdependency, module_eq_error hm, hlt, attempt, splitAnswer, bind,
        Except.bind]
    | some m =>
      have hsplit : (a.setModule id { m with imports := m.imports ++ [dependency] }).split = _ :=
        split_setModule_of_flags hm rfl
      by_cases hmem : dependency ∈ m.imports <;>
        simp [Assembler.addImport, hdependency, module_eq_ok.mpr hm, hlt, hmem, hsplit, attempt,
          splitAnswer, bind, Except.bind, pure, Except.pure, ModuleDraft.toDecl]
  · have hdependency := module_eq_error (Array.getElem?_eq_none (Nat.not_lt.mp hlt))
    simp [Assembler.addImport, hdependency, hlt, attempt, splitAnswer, bind, Except.bind]

theorem setEntry_split (func : FuncRef) :
    a.split.setEntry func = splitAnswer (a.attempt (a.setEntry func)) := by
  rw [FlaggedProgram.setEntry, getElem?_modules_split]
  cases hm : a.modules[func.module.index]? with
  | none => simp [Assembler.setEntry, module_eq_error hm, attempt, splitAnswer, bind, Except.bind]
  | some m =>
    have hsplit : (a.setModule func.module { m with entry := some func.index }).split = _ :=
      split_setModule_of_flags hm rfl
    by_cases hlt : func.index < m.functions.size <;>
      simp [Assembler.setEntry, module_eq_ok.mpr hm, hlt, hsplit, attempt, splitAnswer, bind,
        Except.bind, pure, Except.pure, ModuleDraft.toDecl]

/-- A function is added to the module and to its row. -/
theorem addFunction_split (sig : FunctionSig) (implementation : Implementation)
    (signature : TypeId) (hm : a.modules[id.index]? = some m) :
    a.split.addFunction id sig implementation signature =
      some (.ok (.function ⟨id, wordIndex m.functions.size⟩),
        split (a.setModule id (m.addFunction (sig.toDecl signature implementation)))) := by
  obtain ⟨hmodule, hrow⟩ := split_of_module hm
  have hsize : m.toDecl.functions.size = m.flags.size := by
    rw [ModuleDraft.toDecl, ModuleDraft.flags, Array.size_map, Array.size_map]
  rw [FlaggedProgram.addFunction_eq hmodule hrow hsize, split_setModule,
    ModuleDraft.toDecl_addFunction, ModuleDraft.flags_addFunction, ModuleDraft.toDecl,
    Array.size_map]
  rfl

/-- A body goes where the flag of the function says that there is none. -/
theorem define_split (b : BodyBuilder) :
    a.split.define b = some (splitAnswer (a.attempt (a.define b))) := by
  have hrow := getElem?_defined_split (a := a) b.func.module.index
  cases hlabels : b.labelTargets with
  | error e =>
    simp [FlaggedProgram.define, Assembler.define, hlabels, attempt, splitAnswer, bind, Except.bind]
  | ok labels =>
    cases hm : a.modules[b.func.module.index]? with
    | none =>
      simp [FlaggedProgram.define, Assembler.define, hlabels, hrow, hm, attempt, splitAnswer, bind,
        Except.bind]
    | some m =>
      have hflag : m.flags[b.func.index]? = m.functions[b.func.index]?.map FunctionDraft.defined :=
        Array.getElem?_map
      have hdecl : m.toDecl.functions[b.func.index]? =
          m.functions[b.func.index]?.map FunctionDraft.decl := Array.getElem?_map
      cases hf : m.functions[b.func.index]? with
      | none =>
        simp [FlaggedProgram.define, Assembler.define, hlabels, hrow, hm, hflag, hf, attempt,
          splitAnswer, bind, Except.bind]
      | some f =>
        cases hdefined : f.defined with
        | true =>
          simp [FlaggedProgram.define, Assembler.define, hlabels, hrow, hm, hflag, hf, hdefined,
            attempt, splitAnswer, bind, Except.bind]
        | false =>
          obtain ⟨hmodule, hrow⟩ := split_of_module hm
          rw [hf] at hdecl
          rw [hf, Option.map_some, hdefined] at hflag
          rw [define_eq_ok.mpr ⟨labels, m, f, hlabels, hm, hf, hdefined, rfl⟩,
            FlaggedProgram.define_eq hlabels hmodule hdecl hrow hflag, attempt, splitAnswer,
            split_setModule, ModuleDraft.toDecl_set, ModuleDraft.flags_set]
          rfl

/-- A call of the type table has an answer, that of the table. -/
theorem intern_split (h : a.types.Coherent) (request : TypeTable.Request) :
    a.split.intern request =
      some ((request.run a.types).2.mapError .type,
        split { a with types := (request.run a.types).1 }) := by
  have hserve : request.serve (fun _ => false) a.types = some (request.run a.types) :=
    h.serve_eq (fun _ _ => rfl) request
  simp only [FlaggedProgram.intern, split, hserve]
  rfl

/-- **An edit has an answer**, that of the assembler. -/
theorem perform_split (h : a.types.Coherent) (e : Edit) :
    a.split.perform e = some (splitAnswer (a.perform e)) := by
  cases e with
  | intern request =>
    simp only [FlaggedProgram.perform, intern_split h]
    rfl
  | addModule name =>
    simp [FlaggedProgram.perform, perform, splitAnswer, split, addModule, ModuleDraft.toDecl,
      ModuleDraft.flags]
  | addImport id dependency => exact congrArg some (addImport_split id dependency)
  | addFunction id sig implementation =>
    simp only [FlaggedProgram.perform, intern_split h, perform, Assembler.addFunction]
    generalize hrun : TypeTable.Request.run _ a.types = answered
    obtain ⟨types, answer⟩ := answered
    change a.types.function _ _ = _ at hrun
    rw [hrun]
    cases answer with
    | error e => rfl
    | ok signature =>
      cases hm : a.modules[id.index]? with
      | none =>
        have hmodule : Assembler.module { a with types } id = _ := module_eq_error hm
        have hnone := (getElem?_modules_split (a := a) id.index).trans (congrArg _ hm)
        simp only [hmodule]
        exact FlaggedProgram.addFunction_of_none (p := split { a with types }) hnone ..
      | some m =>
        have hmodule : Assembler.module { a with types } id = _ := module_eq_ok.mpr hm
        simp only [hmodule]
        exact addFunction_split (a := { a with types }) sig implementation signature hm
  | define b => exact define_split b
  | setEntry func => exact congrArg some (setEntry_split func)

/-- **The finished program** is that of the assembler. -/
theorem build_split : a.split.build = a.build := by
  have hmissing (m : ModuleDraft) (i : Nat) :
      ((m.flags.toList.findIdx? (!·)).map fun index =>
        FuncRef.mk ⟨wordIndex i⟩ (wordIndex index)) = missing? ⟨wordIndex i⟩ m := by
    rw [ModuleDraft.flags, Array.toList_map, List.findIdx?_map]
    rfl
  rw [FlaggedProgram.build, build]
  simp only [split, Array.toList_map, List.zipIdx_map, List.findSome?_map, Function.comp_def,
    Prod.map, hmissing]
  rfl

end Assembler

namespace Session

/-- The session with the program and the flags apart. -/
def split (s : Session Assembler) : Session FlaggedProgram := ⟨s.program.split, s.builders⟩

/-- An answer with the program and the flags apart. -/
def splitAnswer (answered : Answer × Session Assembler) : Answer × Session FlaggedProgram :=
  (answered.1, answered.2.split)

/-- The answer of a call on a program with flags, and the session after it. -/
def call? (s : Session FlaggedProgram) (c : Call) : Option (Answer × Session FlaggedProgram) :=
  match s.edit? c with
  | some e => do
    let (answer, program) ← s.program.perform e
    return s.conclude program c answer
  | none => some (s.collect c)

/-- The session after some calls on a program with flags. -/
def after? (s : Session FlaggedProgram) : List Call → Option (Session FlaggedProgram)
  | [] => some s
  | c :: calls => do (← s.call? c).2.after? calls

variable (s : Session Assembler)

theorem conclude_split (program : Assembler) (c : Call) (answer : Answer) :
    s.split.conclude program.split c answer = splitAnswer (s.conclude program c answer) := by
  unfold conclude
  split <;> rfl

theorem revise_split (builder : Nat)
    (change : BodyBuilder → Except BuildError (Reply × BodyBuilder)) :
    s.split.revise builder change = splitAnswer (s.revise builder change) := by
  simp only [revise, Session.split]
  split
  · rfl
  · split <;> rfl

/-- Calls that make no edit do the same. -/
theorem collect_split (c : Call) : s.split.collect c = splitAnswer (s.collect c) := by
  cases c with
  | label builder | place builder l | push builder instr => simp only [collect, revise_split]
  | _ => rfl

variable {s}

/-- **A call has an answer**, that of the assembler. -/
theorem call_split (h : s.program.types.Coherent) (c : Call) :
    s.split.call? c = some (splitAnswer (s.call c)) := by
  have hedit : s.split.edit? c = s.edit? c := by cases c <;> rfl
  rw [call?, call, hedit]
  cases s.edit? c with
  | none => exact congrArg some (collect_split s c)
  | some e =>
    have hperform : s.split.program.perform e = _ := s.program.perform_split h e
    simp only [hperform]
    exact congrArg some (conclude_split s _ c _)

/-- **Calls have answers**, those of the assembler. -/
theorem after_split (h : s.program.types.Built) (calls : List Call) :
    s.split.after? calls = some (s.after calls).split := by
  induction calls generalizing s with
  | nil => rfl
  | cons c calls ih =>
    rw [after?, call_split h.coherent]
    exact ih (built_call h c)

end Session

end StackCode
