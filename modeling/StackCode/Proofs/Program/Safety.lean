import StackCode.Proofs.Code.Outcome
import StackCode.Proofs.Link.Acyclic

/-!
# Bound programs are compiled safely

The stages after binding look names up again, and each has an error for a name it does not find.
Binding has found them all, so none of these errors is reached.  No type outside the table is looked
up, no instruction outside a body is visited, and the arithmetic of placement stays in range.

## Main definitions

* `LinkError.isInternal`, `CompileError.isInternal`: the errors that binding rules out.
* `Program.CompilesSafely`: what cannot happen while a program is compiled.

## Main results

* `linkAll_ends`: how linking the modules of a bound program ends.
* `Program.compile_ends`: how compiling a bound program ends.
* `Program.compilesSafely_of_bind`: a bound program is compiled safely.
-/

namespace StackCode

/-- Whether binding rules the error out. -/
def LinkError.isInternal : LinkError → Bool
  | unknownModule _ | badFixup .. => true
  | circularImport .. | moduleCountOverflow .. => false

/-- Whether binding rules the error out; the errors of binding itself count too. -/
def CompileError.isInternal : CompileError → Bool
  | type _ | bind _ => true
  | verify e => e.isInternal
  | encode e => e.isInternal
  | link e => e.isInternal

variable {modules : List CompiledModule} {finished : List LinkRecord} {ids : List ModuleId}

/-- An error of linking modules in order describes what is wrong with one of them. -/
theorem Linker.linkEach_ends (hset : LinkedSet modules finished) :
    Ends (fun _ => True) (fun e => ∃ id ∈ ids, e.Describes modules id)
      ((Linker.mk modules finished).linkEach ids) := by
  have hends : Ends (fun l : Linker => l.modules = modules ∧ LinkedSet modules l.finished)
      (fun e => ∃ id ∈ ids, e.Describes modules id)
      ((Linker.mk modules finished).linkEach ids) := by
    refine Ends.foldlM ⟨rfl, hset⟩ fun id hid l hl => ?_
    obtain ⟨modules', finished'⟩ := l
    obtain ⟨rfl, hset'⟩ := hl
    simp only [link]
    cases hlink : linkModule modules' [] id finished' with
    | mk result mid =>
      cases result with
      | ok fingerprint => exact .ok ⟨rfl, (linkModule_outcome hset' hlink).linkedSet⟩
      | error e => exact .error ⟨id, hid, (linkVerdict_of_linkModule hset' hlink).error e rfl⟩
  exact hends.weaken fun _ _ _ => trivial

namespace Program

variable {p : Program} {typing : TypedProgram} {verifyConfig : VerifyConfig}
  {codegen : CodegenConfig} {config : CompileConfig}

section Linking

variable (hverify : p.verify verifyConfig = .ok typing)
  (hmodules : p.compileModules typing codegen = .ok modules) (hbind : p.bind = .ok ())

include hverify hmodules hbind

/-- What an error describes of the modules of a bound program is a cycle or a module that reaches
too many others. -/
theorem isInternal_of_describes {e : LinkError} {cm : CompiledModule} (hcm : cm ∈ modules)
    (h : e.Describes modules cm.module) : e.isInternal = false := by
  cases e with
  | circularImport last cycle => rfl
  | moduleCountOverflow id count => rfl
  | unknownModule id =>
    obtain ⟨hmissing, rfl | ⟨y, -, himport⟩⟩ := h
    · exact absurd rfl (hmissing cm hcm)
    · obtain ⟨cm', hcm'⟩ := findModule?_of_imports hverify hmodules hbind himport
      cases hcm'.symm.trans (findModule?_eq_none.mpr hmissing)
  | badFixup id offset => exact absurd h.2 (not_unpatchable hverify hmodules hbind)

/-- **How linking the modules of a bound program ends.** -/
theorem linkAll_ends : Ends (fun _ => True) (·.isInternal = false) (linkAll modules) := by
  have heach : Ends _ _ (Linker.linkEach ⟨modules, []⟩ (modules.map CompiledModule.module)) :=
    Linker.linkEach_ends linkedSet_nil
  refine Ends.bind ((heach.weaken fun l hl _ => hl).mono (fun _ hl => hl) fun e he => ?_)
    fun l (hl : Linker.linkEach ⟨modules, []⟩ _ = .ok l) => ?_
  · obtain ⟨id, hid, hdescribes⟩ := he
    obtain ⟨cm, hcm, rfl⟩ := List.mem_map.mp hid
    exact isInternal_of_describes hverify hmodules hbind hcm hdescribes
  · obtain ⟨linked, htake⟩ := takeRecords_ok_iff.mpr
      ⟨nodup_compileModules hverify hmodules, fun id hid =>
        Linker.findRecord?_of_linkEach linkedSet_nil hl (.inl hid)⟩
    exact .of_eq_ok htake trivial

end Linking

/-- **How compiling a bound program ends**: it is compiled, or refused for a fault that binding does
not look for. -/
theorem compile_ends (htypes : p.types.Coherent) (hbind : p.bind = .ok ()) :
    Ends (fun _ => True) (Fault.Refuses (·.isInternal = false)) (p.compile config) := by
  refine Ends.bind (.of_eq_ok (mapError_eq_ok.mpr hbind) trivial) fun _ (_ : True) => ?_
  have hverification : Ends _ _ (p.verify config.verify) := verify_ends htypes hbind
  refine Ends.bind ((hverification.weaken fun _ hverify _ => hverify).widen fun _ he => he)
    fun typing (hverify : p.verify config.verify = .ok typing) => ?_
  have hcompilation : Ends _ _ (p.compileModules typing config.codegen) :=
    compileModules_ends htypes hbind hverify
  refine Ends.bind ((hcompilation.weaken fun _ hmodules _ => hmodules).widen fun _ he => he)
    fun modules (hmodules : p.compileModules typing config.codegen = .ok modules) => ?_
  exact (linkAll_ends hverify hmodules hbind).mapError

/-- What cannot happen while a program is compiled. -/
structure CompilesSafely (p : Program) (config : CompileConfig) : Prop where
  /-- A failure is a refusal, not the lookup of a type outside the table, and its cause is none that
  binding rules out. -/
  refusals : ∀ fault, p.compile config = .error fault →
    ∃ e, fault = .refused e ∧ e.isInternal = false
  /-- Verification visits instructions of the body only, in whatever order. -/
  visits : ∀ func decl progress, p.function? func = some decl → decl.implementation = .code →
    Progress.Reached ((TypingContext.mk p decl).analysis func) decl.body decl.labels progress →
      progress.InBounds decl.body.size
  /-- Placement reads inside its arrays, and never takes more from a length than is left. -/
  placement : ∀ typing func decl code, p.verify config.verify = .ok typing →
    p.function? func = some decl → p.functionCode typing func decl = .ok code → code.PlacedInRange
  /-- The offsets recorded for instructions and labels are words. -/
  offsets : ∀ typing modules, p.verify config.verify = .ok typing →
    p.compileModules typing config.codegen = .ok modules →
      ∀ cm ∈ modules, ∃ last < wordLimit, cm.OffsetsWithin last

/-- **A bound program is compiled safely.** -/
theorem compilesSafely_of_bind (hbuilt : p.types.Built) (hbind : p.bind = .ok ())
    (hlimit : config.codegen.maxImageLength < wordLimit) : p.CompilesSafely config where
  refusals fault hfault := by
    have hrefuses := (compile_ends hbuilt.coherent hbind).cause hfault
    cases fault with
    | refused e => exact ⟨e, rfl, hrefuses⟩
    | dangling type => cases hrefuses
  visits _ _ _ _ _ hreached := hreached.inBounds
  placement _ _ _ code _ _ _ := code.placedInRange
  offsets _ _ hverify hmodules cm hcm :=
    ⟨_, hlimit, (compileModules_ends hbuilt.coherent hbind hverify).result hmodules cm hcm⟩

/-- Two modules are compiled, and refused only for the length of an image. -/
theorem compilesSafely_clock :
    clock.types.Built ∧ clock.bind = .ok () ∧ clock.CompilesSafely {} ∧
      ∃ e, clock.compile { codegen := ⟨16⟩ } = .error (.refused e) ∧ e.isInternal = false := by
  have hbuilt : clock.types.Built := .function (.function .initial _ _) _ _
  refine ⟨hbuilt, clock_binds, compilesSafely_of_bind hbuilt clock_binds (by decide), ?_⟩
  have hsafe : clock.CompilesSafely { codegen := ⟨16⟩ } :=
    compilesSafely_of_bind hbuilt clock_binds (by decide)
  have hfail : clock.compile { codegen := ⟨16⟩ } =
      .error (.refused (.encode (.imageTooLarge ⟨1⟩ 45 16))) := by cbv
  obtain ⟨e, he, hinternal⟩ := hsafe.refusals _ hfail
  exact ⟨e, hfail.trans (congrArg _ he), hinternal⟩

end Program

end StackCode
