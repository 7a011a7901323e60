import StackCode.Assembler
import StackCode.Proofs.Types.Nested

/-!
# Sessions with an assembler

A client puts a program together in a session: it edits the program, and collects bodies in builders
that it has opened, as many as it likes and for whatever function it likes.  A builder can be handed
in early, late, twice or never.  Calls can come in any order and name anything; those that fail are
part of the session too.

## Main definitions

* `Edit`: the calls that edit a program.
* `Assembler.perform`: what an edit does.
* `Assembler.Change`: the changes that edits make.
* `Call`, `Session`: the calls of a client, and what they work on.
* `Session.after`: the session after some calls.
* `Session.accepted`: the bodies that were handed in with success.

## Main results

* `Assembler.change_perform`: what an edit does is a change.
* `Session.program_call`: a call changes the program by an edit at most.
* `Session.after_induction`: what edits keep holds after any calls.
-/

namespace StackCode

/-- The calls that edit a program. -/
inductive Edit where
  | intern (request : TypeTable.Request)
  | addModule (name : String)
  | addImport (id dependency : ModuleId)
  /-- Declares a function with code or a system call. -/
  | addFunction (id : ModuleId) (sig : FunctionSig) (implementation : Implementation)
  | define (b : BodyBuilder)
  | setEntry (func : FuncRef)

/-- What a call that succeeds gives back. -/
inductive Reply where
  | done
  | type (type : TypeId)
  | module (id : ModuleId)
  | function (func : FuncRef)
  | builder (index : Nat)
  | label (l : Label)

/-- What a call gives back. -/
abbrev Answer := Except BuildError Reply

/-- A function with its body. -/
def FunctionDraft.withBody (f : FunctionDraft) (body : Array Instr) (labels : List Nat) :
    FunctionDraft :=
  ⟨{ f.decl with body, labels := labels.toArray }, true⟩

namespace Assembler

/-- The answer of an edit that leaves the program alone if it fails. -/
def attempt (a : Assembler) : Except BuildError Assembler → Answer × Assembler
  | .ok edited => (.ok .done, edited)
  | .error e => (.error e, a)

/-- The answer of an edit, and the program after it. -/
def perform (a : Assembler) : Edit → Answer × Assembler
  | .intern request =>
    let (types, answer) := request.run a.types
    ((answer.mapError .type).map .type, { a with types })
  | .addModule name =>
    let (id, a) := a.addModule name
    (.ok (.module id), a)
  | .addImport id dependency => a.attempt (a.addImport id dependency)
  | .addFunction id sig implementation =>
    let (answer, a) := a.addFunction id sig implementation
    (answer.map .function, a)
  | .define b => a.attempt (a.define b)
  | .setEntry func => a.attempt (a.setEntry func)

/-- The body that an edit hands in with success. -/
def accepted? (a : Assembler) : Edit → Option BodyBuilder
  | .define b => (a.define b).toOption.map fun _ => b
  | _ => none

/-- A declared function. -/
def function? (a : Assembler) (func : FuncRef) : Option FunctionDraft := do
  (← a.modules[func.module.index]?).functions[func.index]?

/-! ## What edits do -/

/-- The changes that edits make, with the bodies that they hand in. -/
inductive Change (a : Assembler) : Assembler → Option BodyBuilder → Prop
  /-- Types are added, or nothing. -/
  | types {types : TypeTable} (hbuilt : types.Built) (hextends : a.types.Extends types) :
      Change a { a with types } none
  | module (name : String) : Change a (a.addModule name).2 none
  | imports {id dependency : ModuleId} {m : ModuleDraft} (hm : a.modules[id.index]? = some m)
      (hdependency : dependency.index < a.modules.size) :
      Change a (a.setModule id { m with imports := m.imports ++ [dependency] }) none
  | function {id : ModuleId} {m : ModuleDraft} {sig : FunctionSig} {signature : TypeId}
      {implementation : Implementation} {types : TypeTable} (hm : a.modules[id.index]? = some m)
      (hbuilt : types.Built) (hextends : a.types.Extends types)
      (hkind : types.HasKind signature (.function (sig.params.map Variable.type) sig.result)) :
      Change a (setModule { a with types } id
        (m.addFunction (sig.toDecl signature implementation))) none
  | body {b : BodyBuilder} {m : ModuleDraft} {f : FunctionDraft} {labels : List Nat}
      (hm : a.modules[b.func.module.index]? = some m) (hf : m.functions[b.func.index]? = some f)
      (hopen : f.defined = false) (hlabels : b.labelTargets = .ok labels) :
      Change a (a.setModule b.func.module
        { m with
          functions := m.functions.setIfInBounds b.func.index (f.withBody b.body labels) }) (some b)
  | entry {func : FuncRef} {m : ModuleDraft} (hm : a.modules[func.module.index]? = some m)
      (hlt : func.index < m.functions.size) :
      Change a (a.setModule func.module { m with entry := some func.index }) none

variable {a a' : Assembler} {id : ModuleId} {m : ModuleDraft}

theorem module_eq_ok : a.module id = .ok m ↔ a.modules[id.index]? = some m := by
  unfold module
  cases a.modules[id.index]? <;> simp

theorem addImport_eq_ok {dependency : ModuleId} (h : a.addImport id dependency = .ok a') :
    dependency.index < a.modules.size ∧ ∃ m, a.modules[id.index]? = some m ∧
      (a' = a ∨ a' = a.setModule id { m with imports := m.imports ++ [dependency] }) := by
  obtain ⟨_, hdependency, h⟩ := bind_eq_ok.mp h
  obtain ⟨m, hm, h⟩ := bind_eq_ok.mp h
  have hlt := (Array.getElem?_eq_some_iff.mp (module_eq_ok.mp hdependency)).1
  refine ⟨hlt, m, module_eq_ok.mp hm, ?_⟩
  split at h
  · exact .inl (pure_eq_ok.mp h).symm
  · exact .inr (pure_eq_ok.mp h).symm

theorem setEntry_eq_ok {func : FuncRef} (h : a.setEntry func = .ok a') :
    ∃ m, a.modules[func.module.index]? = some m ∧ func.index < m.functions.size ∧
      a' = a.setModule func.module { m with entry := some func.index } := by
  obtain ⟨m, hm, h⟩ := bind_eq_ok.mp h
  split at h
  next hlt => exact ⟨m, module_eq_ok.mp hm, hlt, (pure_eq_ok.mp h).symm⟩
  · cases h

/-- Defining a function succeeds for a declared function without a body and a builder whose labels
are placed. -/
theorem define_eq_ok {b : BodyBuilder} :
    a.define b = .ok a' ↔
      ∃ labels m f, b.labelTargets = .ok labels ∧ a.modules[b.func.module.index]? = some m ∧
        m.functions[b.func.index]? = some f ∧ f.defined = false ∧
        a' = a.setModule b.func.module
          { m with
            functions := m.functions.setIfInBounds b.func.index (f.withBody b.body labels) } := by
  rw [define, bind_eq_ok]
  refine exists_congr fun labels => ?_
  cases hm : a.modules[b.func.module.index]? with
  | none => simp
  | some m =>
    cases hf : m.functions[b.func.index]? with
    | none => simp [hf]
    | some f =>
      simp only [hf]
      split
      next hdefined => simp [hf, hdefined]
      next hopen =>
        constructor
        · rintro ⟨hlabels, h⟩
          exact ⟨m, f, hlabels, rfl, hf, eq_false_of_ne_true hopen, (pure_eq_ok.mp h).symm⟩
        · rintro ⟨_, _, hlabels, ⟨⟩, hf', -, rfl⟩
          cases hf.symm.trans hf'
          exact ⟨hlabels, rfl⟩

theorem change_addFunction (h : a.types.Built) (id : ModuleId) (sig : FunctionSig)
    (implementation : Implementation) :
    a.Change (a.addFunction id sig implementation).2 none := by
  have hbuilt := h.function (sig.params.map Variable.type) sig.result
  have hextends := (h.coherent.run (.function (sig.params.map Variable.type) sig.result)).2
  unfold addFunction
  split
  next types e hfunction =>
    simp only [TypeTable.Request.run, hfunction] at hbuilt hextends
    exact .types hbuilt hextends
  next types signature hfunction =>
    have hkind := h.coherent.hasKind_function (congrArg Prod.snd hfunction)
    simp only [TypeTable.Request.run, hfunction] at hbuilt hextends hkind
    dsimp only
    split
    · exact .types hbuilt hextends
    next m hm => exact .function (module_eq_ok.mp hm) hbuilt hextends hkind

/-- **What an edit does** is a change. -/
theorem change_perform (h : a.types.Built) (e : Edit) :
    a.Change (a.perform e).2 (a.accepted? e) := by
  have hnone : a.Change a none := .types h (.refl _)
  cases e with
  | intern request => exact .types (h.run request) (h.coherent.run request).2
  | addModule name => exact .module name
  | addImport id dependency =>
    cases hedit : a.addImport id dependency with
    | error e =>
      simp only [perform, hedit, attempt]
      exact hnone
    | ok edited =>
      simp only [perform, hedit, attempt]
      obtain ⟨hdependency, m, hm, rfl | rfl⟩ := addImport_eq_ok hedit
      · exact hnone
      · exact .imports hm hdependency
  | addFunction id sig implementation => exact change_addFunction h id sig implementation
  | define b =>
    cases hedit : a.define b with
    | error e =>
      simp only [perform, accepted?, hedit, attempt]
      exact hnone
    | ok edited =>
      simp only [perform, accepted?, hedit, attempt]
      obtain ⟨labels, m, f, hlabels, hm, hf, hopen, rfl⟩ := define_eq_ok.mp hedit
      exact .body hm hf hopen hlabels
  | setEntry func =>
    cases hedit : a.setEntry func with
    | error e =>
      simp only [perform, hedit, attempt]
      exact hnone
    | ok edited =>
      simp only [perform, hedit, attempt]
      obtain ⟨m, hm, hlt, rfl⟩ := setEntry_eq_ok hedit
      exact .entry hm hlt

theorem Change.built {body : Option BodyBuilder} (hchange : a.Change a' body)
    (h : a.types.Built) : a'.types.Built := by
  cases hchange with
  | types hbuilt hextends => exact hbuilt
  | function hm hbuilt hextends hkind => exact hbuilt
  | _ => exact h

end Assembler

/-! ## Calls -/

/-- The calls of a client.  Builders are numbered in the order in which they are opened. -/
inductive Call where
  | edit (e : Edit)
  /-- Declares a function with code and opens a builder for it. -/
  | function (id : ModuleId) (sig : FunctionSig)
  /-- Opens a builder for a function. -/
  | body (func : FuncRef)
  | label (builder : Nat)
  | place (builder : Nat) (l : Label)
  | push (builder : Nat) (instr : Instr)
  /-- Hands in the body that a builder has collected. -/
  | define (builder : Nat)

/-- A program in the making, in some representation, and the open builders. -/
structure Session (σ : Type) where
  program : σ
  builders : Array BodyBuilder := #[]

namespace Session

section Parts

variable {σ : Type} (s : Session σ)

/-- The edit that a call makes, if it makes one. -/
def edit? : Call → Option Edit
  | .edit e => some e
  | .function id sig => some (.addFunction id sig .code)
  | .define builder => s.builders[builder]?.map .define
  | _ => none

/-- The end of a call that has edited the program.  A function that was declared for it gets its
builder. -/
def conclude (program : σ) : Call → Answer → Answer × Session σ
  | .function .., .ok (.function func) =>
    (.ok (.builder s.builders.size), ⟨program, s.builders.push (Assembler.body func)⟩)
  | _, answer => (answer, ⟨program, s.builders⟩)

/-- A call that changes a builder.  Nothing happens if there is none of the number. -/
def revise (builder : Nat) (change : BodyBuilder → Except BuildError (Reply × BodyBuilder)) :
    Answer × Session σ :=
  match s.builders[builder]? with
  | none => (.ok .done, s)
  | some b =>
    match change b with
    | .error e => (.error e, s)
    | .ok (reply, b) => (.ok reply, { s with builders := s.builders.setIfInBounds builder b })

/-- A call that makes no edit. -/
def collect : Call → Answer × Session σ
  | .body func =>
    (.ok (.builder s.builders.size), { s with builders := s.builders.push (Assembler.body func) })
  | .label builder => s.revise builder fun b => .ok (.label b.newLabel.1, b.newLabel.2)
  | .place builder l => s.revise builder fun b => do return (.done, ← b.place l)
  | .push builder instr => s.revise builder fun b => .ok (.done, b.push instr)
  | _ => (.ok .done, s)

@[simp] theorem program_conclude (program : σ) (c : Call) (answer : Answer) :
    (s.conclude program c answer).2.program = program := by
  unfold conclude
  split <;> rfl

@[simp] theorem program_revise (builder : Nat)
    (change : BodyBuilder → Except BuildError (Reply × BodyBuilder)) :
    (s.revise builder change).2.program = s.program := by
  unfold revise
  split
  · rfl
  · split <;> rfl

@[simp] theorem program_collect (c : Call) : (s.collect c).2.program = s.program := by
  cases c with
  | label builder | place builder l | push builder instr => exact program_revise ..
  | _ => rfl

end Parts

variable (s : Session Assembler)

/-- The answer of a call, and the session after it. -/
def call (c : Call) : Answer × Session Assembler :=
  match s.edit? c with
  | some e =>
    let (answer, program) := s.program.perform e
    s.conclude program c answer
  | none => s.collect c

/-- The session after some calls. -/
def after (calls : List Call) : Session Assembler := calls.foldl (fun s c => (s.call c).2) s

/-- The bodies that some calls hand in with success, in order. -/
def accepted (s : Session Assembler) : List Call → List BodyBuilder
  | [] => []
  | c :: calls => ((s.edit? c).bind s.program.accepted?).toList ++ (s.call c).2.accepted calls

/-- The session of a client that has made no calls yet. -/
def start : Session Assembler := { program := {} }

/-- **A call changes the program by an edit at most.** -/
theorem program_call (c : Call) :
    (s.call c).2.program =
      match s.edit? c with
      | some e => (s.program.perform e).2
      | none => s.program := by
  unfold call
  split
  · exact program_conclude ..
  · exact program_collect s c

variable {s}

theorem built_call (h : s.program.types.Built) (c : Call) : (s.call c).2.program.types.Built := by
  rw [program_call]
  cases s.edit? c with
  | some e => exact (Assembler.change_perform h e).built h
  | none => exact h

/-- **What edits keep holds after any calls.** -/
theorem after_induction {P : Assembler → List BodyBuilder → Prop}
    (hedit : ∀ a past e, P a past → P (a.perform e).2 (past ++ (a.accepted? e).toList))
    (calls : List Call) {past : List BodyBuilder} (h : P s.program past) :
    P (s.after calls).program (past ++ s.accepted calls) := by
  induction calls generalizing s past with
  | nil => rwa [accepted, List.append_nil]
  | cons c calls ih =>
    rw [accepted, ← List.append_assoc]
    apply ih
    rw [program_call]
    cases s.edit? c with
    | some e => exact hedit s.program past e h
    | none => rwa [Option.bind_none, Option.toList_none, List.append_nil]

end Session

end StackCode
