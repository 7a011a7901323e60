import StackCode.Compile
import StackCode.Proofs.Code.Capabilities
import StackCode.Proofs.Link.Finished
import StackCode.Proofs.Link.Patched

/-!
# Linked programs

A program that compiles is a list of linked modules, one for each of its modules and in their order.
The image of each holds the functions of the module, the fingerprints of the modules it imports, and
tokens with the offsets those modules have.

## Main definitions

* `Program.LinkedAs`: a module of a program and its linked form.

## Main results

* `Program.linkedAs_of_modules`: every module of a program that links has its linked form.
-/

namespace StackCode

theorem Disassembly.Written.importAt {d : Disassembly} {image : List UInt8} {slot : Nat}
    {fingerprint : Fingerprint} (h : d.Written image)
    (hslot : d.imports[slot]? = some fingerprint) :
    Header.importAt image slot = .ok fingerprint := by
  obtain ⟨-, code, -, rfl⟩ := h
  exact Header.importAt_encodeImports d.header.length_encode hslot

namespace Program

variable {p : Program} {typing : TypedProgram} {linked : List LinkedModule}

/-- A module of a program and its linked form: `offsets` gives the function offsets of linked
modules. -/
structure LinkedAs (p : Program) (typing : TypedProgram) (linked : List LinkedModule)
    (m : ModuleDecl) (cm : CompiledModule) (offsets : ModuleId → Option (Array Nat))
    (lm : LinkedModule) (d : Disassembly) : Prop where
  linked_eq : linked[cm.module.index]? = some lm
  keeps : cm.Keeps lm
  imports : cm.imports = m.imports
  imports_le : m.imports.length ≤ 255
  written : d.Written lm.image
  disassemble : disassemble lm.image lm.functionOffsets.toList = .ok d
  header_features : d.header.features = cm.features
  features : cm.features = d.features
  fingerprints : List.Forall₂ (fun dependency fingerprint =>
    ∃ target, linked[dependency.index]? = some target ∧ target.fingerprint = fingerprint) cm.imports
      d.imports
  importAt : ∀ {slot fingerprint}, d.imports[slot]? = some fingerprint →
    Header.importAt lm.image slot = .ok fingerprint
  offsets_eq : ∀ {dependency table}, offsets dependency = some table →
    ∃ target, linked[dependency.index]? = some target ∧ target.functionOffsets = table
  lists : List.Forall₂ (fun f listing => ∃ selected groups,
    cm.Lists p typing (cm.NamesLinked offsets) f.1 f.2 listing selected groups)
      (functionsOf cm.module m) d.functions

/-- The stages of compilation. -/
theorem compile_eq_ok {config : CompileConfig} :
    p.compile config = .ok linked ↔ p.bind = .ok () ∧ ∃ typing modules,
      p.verify config.verify = .ok typing ∧ p.compileModules typing config.codegen = .ok modules ∧
        linkAll modules = .ok linked := by
  constructor
  · intro h
    obtain ⟨_, hbind, h⟩ := bind_eq_ok.mp h
    obtain ⟨typing, hverify, h⟩ := bind_eq_ok.mp h
    obtain ⟨modules, hmodules, h⟩ := bind_eq_ok.mp h
    exact ⟨mapError_eq_ok.mp hbind, typing, modules, Checked.widen_eq_ok.mp hverify,
      Checked.widen_eq_ok.mp hmodules, mapError_eq_ok.mp h⟩
  · rintro ⟨hbind, typing, modules, hverify, hmodules, hlink⟩
    exact bind_eq_ok.mpr ⟨(), mapError_eq_ok.mpr hbind, bind_eq_ok.mpr ⟨typing,
      Checked.widen_eq_ok.mpr hverify, bind_eq_ok.mpr ⟨modules, Checked.widen_eq_ok.mpr hmodules,
        mapError_eq_ok.mpr hlink⟩⟩⟩

section Modules

variable {verifyConfig : VerifyConfig} {config : CodegenConfig} {modules : List CompiledModule}

/-- The module of an id is at that position. -/
theorem getElem?_of_findModule? {id : ModuleId} {cm : CompiledModule}
    (hverify : p.verify verifyConfig = .ok typing)
    (h : p.compileModules typing config = .ok modules)
    (hcm : findModule? modules id = some cm) : modules[id.index]? = some cm := by
  obtain ⟨i, hi⟩ := List.mem_iff_getElem?.mp (List.mem_reverse.mp (List.mem_of_find?_eq_some hcm))
  obtain ⟨hmodule, -⟩ := holds_of_compileModule hverify (compileModule_of_getElem? h hi)
  rw [module_of_findModule? hcm] at hmodule
  rwa [hmodule]

/-- What is finished is found at its position. -/
theorem getElem?_of_findRecord? {finished : List LinkRecord} {id : ModuleId} {r : LinkRecord}
    (hverify : p.verify verifyConfig = .ok typing)
    (h : p.compileModules typing config = .ok modules) (hsound : Sound modules finished)
    (hlinked : List.Forall₂ (fun cm lm => ∃ r, findRecord? finished cm.module = some r ∧
      r.linked = lm) modules linked)
    (hr : findRecord? finished id = some r) : linked[id.index]? = some r.linked := by
  obtain ⟨cm, -, -, -, hcm, -⟩ := hsound id r hr
  rw [module_of_findRecord? hr] at hcm
  obtain ⟨lm, hlm, r', hr', rfl⟩ :=
    getElem?_of_forall₂ hlinked (getElem?_of_findModule? hverify h hcm)
  rw [module_of_findModule? hcm, hr] at hr'
  cases hr'
  exact hlm

/-- **Every module of a program that links has its linked form.**  Ids are positions, so the linker
has found each module at its own. -/
theorem linkedAs_of_modules {id : ModuleId} {m : ModuleDecl}
    (hverify : p.verify verifyConfig = .ok typing)
    (hmodules : p.compileModules typing config = .ok modules)
    (hlink : linkAll modules = .ok linked) (hm : p.module? id = some m) :
    ∃ cm offsets lm d, cm.module = id ∧ p.LinkedAs typing linked m cm offsets lm d := by
  obtain ⟨finished, hsound, hlinked⟩ := linkedIn_of_linkAll hlink
  have hmember : p.moduleList[id.index]? = some (id, m) := by
    rw [getElem?_moduleList, hm]
    rfl
  obtain ⟨cm, hcm, hcompile⟩ := getElem?_of_mapM hmodules hmember
  obtain ⟨rfl, m', placed, listings, hholds⟩ := holds_of_compileModule hverify hcompile
  cases hm.symm.trans hholds.module
  obtain ⟨lm, hlm, r, hr, rfl⟩ := getElem?_of_forall₂ hlinked hcm
  obtain ⟨cm', imports, count, offsets, hcm', hlinkModule, himports, hoffsets⟩ := hsound _ r hr
  rw [module_of_findRecord? hr] at hcm'
  cases hcm.symm.trans (getElem?_of_findModule? hverify hmodules hcm')
  have hkeeps := CompiledModule.keeps_of_link hlinkModule
  have hlength : imports.length = m.imports.length := by
    rw [← himports.length_eq, hholds.imports]
  obtain ⟨listings', hsame, hlists, hwritten⟩ := hholds.link hlength hlinkModule
  have hdisassemble := hwritten.disassemble
  have hrecord {dependency : ModuleId} {r : LinkRecord}
      (hr : findRecord? finished dependency = some r) :
      linked[dependency.index]? = some r.linked :=
    getElem?_of_findRecord? hverify hmodules hsound hlinked hr
  refine ⟨cm, offsets, r.linked, _, rfl, hlm, hkeeps, hholds.imports, hholds.imports_le, hwritten,
    ?_, rfl, hholds.features.trans (unionAll_features_of_lists hlists), himports.imp ?_,
    hwritten.importAt, fun {dependency table} htable => ?_, hholds.forall₂_lists hlists hsame⟩
  · rw [hkeeps.functionOffsets, hholds.functionOffsets, ← hsame]
    exact hdisassemble
  · rintro dependency fingerprint ⟨r, hr, hfingerprint⟩
    exact ⟨r.linked, hrecord hr, hfingerprint⟩
  · obtain ⟨r, hr, htable⟩ := hoffsets dependency table htable
    exact ⟨r.linked, hrecord hr, htable⟩

end Modules

end Program

end StackCode
