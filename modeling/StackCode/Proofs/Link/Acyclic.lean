import StackCode.Proofs.Link.Cycles
import StackCode.Proofs.Link.Fixups
import StackCode.Proofs.Link.History
import StackCode.Proofs.Link.References

/-!
# Cycle detection

A module that is linked reaches known modules only and no cycle of imports, and a module that
reaches a cycle is not linked.  For the modules of a bound program there is no other obstacle than a
cycle or a module that reaches too many others: all imports exist, and every image can be filled in.

## Main definitions

* `LinkVerdict`: what the result of linking a module says of the imports.

## Main results

* `linkVerdict_of_linkModule`: the verdict on every module.
* `linkAll_ok_iff`: when a whole set is linked.
* `Program.linkAll_ok_iff_acyclic`: when the modules of a program are linked.
* `Linker.detects_cycles`: cycle detection is sound, complete and terminating.
-/

namespace StackCode

variable {modules : List CompiledModule} {finished finished' : List LinkRecord}
  {root id d y : ModuleId} {ids : List ModuleId} {cm : CompiledModule}

/-! ### The verdict on one module -/

/-- What the result of linking `root` says of the imports. -/
structure LinkVerdict (modules : List CompiledModule) (root : ModuleId)
    (result : Except LinkError Fingerprint) : Prop where
  /-- What is reached from a linked module is known and on no cycle. -/
  ok : ∀ fingerprint, result = .ok fingerprint → ∀ y ∈ importClosure modules root,
    (∃ cm ∈ modules, cm.module = y) ∧ ¬ Relation.TransGen (Imports modules) y y
  /-- A module that reaches a cycle is not linked. -/
  cycle : ∀ y ∈ importClosure modules root, Relation.TransGen (Imports modules) y y →
    ∃ e, result = .error e
  error : ∀ e, result = .error e → e.Describes modules root

theorem mem_of_findModule? (h : findModule? modules id = some cm) :
    ∃ cm ∈ modules, cm.module = id :=
  ⟨cm, List.mem_reverse.mp (List.mem_of_find?_eq_some h), module_of_findModule? h⟩

theorem exists_findModule? (h : cm ∈ modules) :
    ∃ cm', findModule? modules cm.module = some cm' := by
  cases hfind : findModule? modules cm.module with
  | none => exact absurd rfl (findModule?_eq_none.mp hfind cm h)
  | some cm' => exact ⟨cm', rfl⟩

/-- **The verdict on a module**, from any finished modules. -/
theorem linkVerdict_of_linkModule {result : Except LinkError Fingerprint}
    (hset : LinkedSet modules finished)
    (h : linkModule modules [] id finished = (result, finished')) :
    LinkVerdict modules id result := by
  have houtcome := linkModule_outcome hset h
  have hok : ∀ fingerprint, result = .ok fingerprint → Linkable modules id := by
    rintro fingerprint rfl
    exact houtcome.linkable
  refine ⟨fun fingerprint hresult y hy => ?_, fun y hy hcycle => ?_,
    fun e he => (houtcome.error e he).describes .start⟩
  · have hlink := (hok fingerprint hresult).reaches hy
    obtain ⟨cm, hcm⟩ := hlink.known
    exact ⟨mem_of_findModule? hcm, hlink.not_cycle⟩
  · cases result with
    | error e => exact ⟨e, rfl⟩
    | ok fingerprint => exact absurd hcycle ((hok fingerprint rfl).reaches hy).not_cycle

/-- A module whose search has nothing to describe can be linked. -/
theorem linkable_of_not_describes (h : ∀ e : LinkError, ¬ e.Describes modules id) :
    Linkable modules id := by
  rcases hlink : linkModule modules [] id [] with ⟨result, finished'⟩
  cases result with
  | ok fingerprint => exact (linkModule_outcome linkedSet_nil hlink).linkable
  | error e => exact absurd ((linkVerdict_of_linkModule linkedSet_nil hlink).error e rfl) (h e)

/-! ### Whole sets -/

theorem exists_findRecord?_filter :
    (∃ r, findRecord? (finished.filter fun r => r.linked.module ≠ id) y = some r) ↔
      y ≠ id ∧ ∃ r, findRecord? finished y = some r := by
  simp only [findRecord?, ← Option.isSome_iff_exists, List.find?_isSome, List.mem_filter,
    decide_eq_true_eq]
  constructor
  · rintro ⟨r, ⟨hr, hne⟩, rfl⟩
    exact ⟨hne, r, hr, rfl⟩
  · rintro ⟨hne, r, hr, rfl⟩
    exact ⟨r, ⟨hr, hne⟩, rfl⟩

/-- Modules can be taken exactly if they are finished and none is asked for twice. -/
theorem takeRecords_ok_iff :
    (∃ linked, takeRecords ids finished = .ok linked) ↔
      ids.Nodup ∧ ∀ id ∈ ids, ∃ r, findRecord? finished id = some r := by
  induction ids generalizing finished with
  | nil => simp [takeRecords]
  | cons id ids ih =>
    have hrest : (∃ others, takeRecords ids (finished.filter fun r => r.linked.module ≠ id) =
        .ok others) ↔ ids.Nodup ∧ ∀ y ∈ ids, y ≠ id ∧ ∃ r, findRecord? finished y = some r := by
      refine ih.trans (and_congr_right fun _ => forall₂_congr fun y _ => ?_)
      exact exists_findRecord?_filter
    simp only [takeRecords_cons_eq_ok, List.nodup_cons, List.forall_mem_cons]
    constructor
    · rintro ⟨_, r, others, hr, hothers, -⟩
      obtain ⟨hnodup, hfound⟩ := hrest.mp ⟨others, hothers⟩
      exact ⟨⟨fun hid => (hfound id hid).1 rfl, hnodup⟩, ⟨r, hr⟩, fun y hy => (hfound y hy).2⟩
    · rintro ⟨⟨hid, hnodup⟩, ⟨r, hr⟩, hfound⟩
      obtain ⟨others, hothers⟩ := hrest.mpr
        ⟨hnodup, fun y hy => ⟨fun heq => hid (heq ▸ hy), hfound y hy⟩⟩
      exact ⟨_, r, others, hr, hothers, rfl⟩

namespace Linker

/-- Linking modules in order succeeds exactly if each can be linked. -/
theorem linkEach_ok_iff (hset : LinkedSet modules finished) :
    (∃ l, (Linker.mk modules finished).linkEach ids = .ok l) ↔
      ∀ id ∈ ids, Linkable modules id := by
  induction ids generalizing finished with
  | nil => simp [linkEach, pure, Except.pure]
  | cons id ids ih =>
    rw [List.forall_mem_cons]
    constructor
    · rintro ⟨l, hl⟩
      obtain ⟨fingerprint, mid, hlink, hrest⟩ := linkEach_cons_eq_ok.mp hl
      have houtcome := linkModule_outcome hset hlink
      exact ⟨houtcome.linkable, (ih houtcome.linkedSet).mp ⟨l, hrest⟩⟩
    · rintro ⟨hid, hids⟩
      obtain ⟨fingerprint, hfingerprint⟩ := linkModule_of_linkable hset (isChain_start id) hid
      obtain ⟨l, hl⟩ := (ih (linkModule_outcome hset rfl).linkedSet).mpr hids
      exact ⟨l, linkEach_cons_eq_ok.mpr ⟨fingerprint, _, Prod.ext hfingerprint rfl, hl⟩⟩

/-- What was finished stays finished, and so is what is linked. -/
theorem findRecord?_of_linkEach {l : Linker} (hset : LinkedSet modules finished)
    (h : (Linker.mk modules finished).linkEach ids = .ok l)
    (hy : y ∈ ids ∨ ∃ r, findRecord? finished y = some r) :
    ∃ r, findRecord? l.finished y = some r := by
  induction ids generalizing finished with
  | nil =>
    cases h
    exact hy.resolve_left List.not_mem_nil
  | cons id ids ih =>
    obtain ⟨fingerprint, mid, hlink, hrest⟩ := linkEach_cons_eq_ok.mp h
    have houtcome := linkModule_outcome hset hlink
    refine ih houtcome.linkedSet hrest ?_
    rcases hy with hy | ⟨r, hr⟩
    · rcases List.mem_cons.mp hy with rfl | hy
      · obtain ⟨r, hr, -⟩ := houtcome.ok fingerprint rfl
        exact .inr ⟨r, hr⟩
      · exact .inl hy
    · exact .inr ⟨r, houtcome.kept hr⟩

end Linker

/-- **When a whole set is linked**: no id occurs twice, and each module can be linked. -/
theorem linkAll_ok_iff :
    (∃ linked, linkAll modules = .ok linked) ↔
      (modules.map CompiledModule.module).Nodup ∧ ∀ cm ∈ modules, Linkable modules cm.module := by
  have heach : (∃ l, (Linker.mk modules []).linkEach (modules.map CompiledModule.module) = .ok l) ↔
      ∀ cm ∈ modules, Linkable modules cm.module :=
    (Linker.linkEach_ok_iff linkedSet_nil).trans List.forall_mem_map
  constructor
  · rintro ⟨linked, hlinked⟩
    obtain ⟨l, hl, htake⟩ := bind_eq_ok.mp hlinked
    exact ⟨(takeRecords_ok_iff.mp ⟨linked, htake⟩).1, heach.mp ⟨l, hl⟩⟩
  · rintro ⟨hnodup, hlinkable⟩
    obtain ⟨l, hl⟩ := heach.mpr hlinkable
    obtain ⟨linked, htake⟩ := takeRecords_ok_iff.mpr ⟨hnodup, fun id hid =>
      Linker.findRecord?_of_linkEach linkedSet_nil hl (.inl hid)⟩
    exact ⟨linked, bind_eq_ok.mpr ⟨l, hl, htake⟩⟩

/-! ### The modules of a program -/

namespace Program

variable {p : Program} {typing : TypedProgram} {verifyConfig : VerifyConfig}
  {config : CodegenConfig}

section Compiled

variable (hverify : p.verify verifyConfig = .ok typing)
  (hmodules : p.compileModules typing config = .ok modules)

include hverify hmodules

theorem holds_of_getElem? {i : Nat} (hcm : modules[i]? = some cm) :
    cm.module = ⟨i⟩ ∧ ∃ m placed listings, cm.Holds p typing m placed listings :=
  holds_of_compileModule hverify (compileModule_of_getElem? hmodules hcm)

theorem holds_of_findModule? (hcm : findModule? modules id = some cm) :
    ∃ m placed listings, cm.Holds p typing m placed listings :=
  (holds_of_getElem? hverify hmodules (getElem?_of_findModule? hverify hmodules hcm)).2

/-- The id of a compiled module is its position, so no id occurs twice. -/
theorem nodup_compileModules : (modules.map CompiledModule.module).Nodup := by
  have hids : modules.map CompiledModule.module = (List.range modules.length).map ModuleId.mk := by
    refine List.ext_getElem (by simp) fun i hi _ => ?_
    rw [List.length_map] at hi
    rw [List.getElem_map, List.getElem_map, List.getElem_range]
    exact (holds_of_getElem? hverify hmodules (List.getElem?_eq_getElem hi)).1
  rw [hids]
  exact List.nodup_range.map fun i j hij => ModuleId.mk.inj hij

/-- Every module of a program is compiled. -/
theorem findModule?_of_module? {m : ModuleDecl} (hm : p.module? id = some m) :
    ∃ cm, findModule? modules id = some cm := by
  have hmember : p.moduleList[id.index]? = some (id, m) := by
    rw [getElem?_moduleList, hm]
    rfl
  obtain ⟨cm, hcm, -⟩ := getElem?_of_mapM hmodules hmember
  have hid : cm.module = id := (holds_of_getElem? hverify hmodules hcm).1
  obtain ⟨cm', hcm'⟩ := exists_findModule? (List.mem_of_getElem? hcm)
  exact ⟨cm', hid ▸ hcm'⟩

/-- A module of a program is found by its id. -/
theorem findModule?_of_mem (hcm : cm ∈ modules) : findModule? modules cm.module = some cm := by
  obtain ⟨i, hi⟩ := List.mem_iff_getElem?.mp hcm
  obtain ⟨cm', hcm'⟩ := exists_findModule? hcm
  have hget := getElem?_of_findModule? hverify hmodules hcm'
  rw [(holds_of_getElem? hverify hmodules hi).1, hi] at hget
  cases hget
  exact hcm'

/-- A function of a linked module has the offset it was compiled with, which fits a token. -/
theorem exists_offset_of_linksTo {func : FuncRef} {decl : FunctionDecl} {r : LinkRecord}
    (hr : LinksTo modules func.module r) (hdecl : p.function? func = some decl) :
    ∃ offset, r.linked.functionOffsets[func.index]? = some offset ∧ offset < 65536 := by
  cases hr with
  | @finish _ cm imports finished r hcm _ _ hfinish =>
    rw [(CompiledModule.keeps_of_link (link_of_finishModule hfinish)).functionOffsets]
    obtain ⟨m, placed, listings, hholds⟩ := holds_of_findModule? hverify hmodules hcm
    obtain ⟨m', hm', hf⟩ := function?_eq_some.mp hdecl
    rw [← module_of_findModule? hcm] at hm'
    cases hm'.symm.trans hholds.module
    exact hholds.exists_functionOffset hf

variable (hbind : p.bind = .ok ())

include hbind

/-- What a module of a bound program imports is compiled. -/
theorem findModule?_of_imports (himport : Imports modules id d) :
    ∃ cm, findModule? modules d = some cm := by
  obtain ⟨cm, hcm, hd⟩ := himport
  obtain ⟨m, placed, listings, hholds⟩ := holds_of_findModule? hverify hmodules hcm
  obtain ⟨_, himports, -⟩ := bind_eq_ok.mp (bindModule_of_bind hbind hholds.module)
  rw [hholds.imports] at hd
  obtain ⟨m', hm'⟩ := Option.isSome_iff_exists.mp (demand_eq_ok.mp (forM_eq_ok.mp himports d hd))
  exact findModule?_of_module? hverify hmodules hm'

/-- Every image of a bound program can be filled in. -/
theorem not_unpatchable {offset : Nat} : ¬ Unpatchable modules id offset := by
  rintro ⟨cm, imports, count, offsets, hcm, hlength, hoffsets, hlink⟩
  obtain ⟨m, placed, listings, hholds⟩ := holds_of_findModule? hverify hmodules hcm
  obtain ⟨lm, hlm⟩ : ∃ lm, cm.link imports count offsets = .ok lm := by
    refine hholds.exists_link hbind hlength fun func decl hmem hdecl => ?_
    obtain ⟨r, hr, htable⟩ := hoffsets func.module hmem
    obtain ⟨offset, hoffset, hlt⟩ := exists_offset_of_linksTo hverify hmodules hr hdecl
    exact ⟨_, offset, htable, hoffset, hlt⟩
  cases hlink.symm.trans hlm

/-- A module of a bound program can be linked, unless there is a cycle or a module that reaches too
many others. -/
theorem linkable_of_acyclic (hacyclic : ∀ y, ¬ Relation.TransGen (Imports modules) y y)
    (hle : ∀ cm ∈ modules, (importClosure modules cm.module).ncard ≤ 255) (hcm : cm ∈ modules) :
    Linkable modules cm.module := by
  have hknown : ∀ y ∈ importClosure modules cm.module, ∃ cm', findModule? modules y = some cm' := by
    intro y hy
    rcases Relation.ReflTransGen.cases_tail hy with rfl | ⟨x, -, himport⟩
    · exact exists_findModule? hcm
    · exact findModule?_of_imports hverify hmodules hbind himport
  refine linkable_of_not_describes fun e he => ?_
  cases e with
  | circularImport last cycle =>
    obtain ⟨y, -, hcycle⟩ := ImportCycle.transGen he
    exact hacyclic y hcycle
  | unknownModule x =>
    obtain ⟨hmissing, rfl | ⟨y, -, himport⟩⟩ := he
    · exact hmissing cm hcm rfl
    · obtain ⟨cm', hcm'⟩ := findModule?_of_imports hverify hmodules hbind himport
      cases hcm'.symm.trans (findModule?_eq_none.mpr hmissing)
  | moduleCountOverflow x count =>
    obtain ⟨hreached, rfl, hlt⟩ := he
    obtain ⟨cm', hcm'⟩ := hknown x hreached
    obtain ⟨cm', hmem, rfl⟩ := mem_of_findModule? hcm'
    exact Nat.not_le_of_lt hlt (hle cm' hmem)
  | badFixup x offset => exact not_unpatchable hverify hmodules hbind he.2

/-- **When the modules of a program are linked**: there is no cycle of imports, and no module
reaches more than 255. -/
theorem linkAll_ok_iff_acyclic :
    (∃ linked, linkAll modules = .ok linked) ↔
      (∀ y, ¬ Relation.TransGen (Imports modules) y y) ∧
        ∀ cm ∈ modules, (importClosure modules cm.module).ncard ≤ 255 := by
  rw [linkAll_ok_iff]
  constructor
  · rintro ⟨-, hlinkable⟩
    refine ⟨fun y hcycle => ?_, fun cm hcm => (hlinkable cm hcm).ncard_le⟩
    obtain ⟨d, ⟨cm, hcm, -⟩, -⟩ := Relation.TransGen.head'_iff.mp hcycle
    obtain ⟨cm, hmem, rfl⟩ := mem_of_findModule? hcm
    exact (hlinkable cm hmem).not_cycle hcycle
  · rintro ⟨hacyclic, hle⟩
    exact ⟨nodup_compileModules hverify hmodules, fun cm hcm =>
      linkable_of_acyclic hverify hmodules hbind hacyclic hle hcm⟩

end Compiled

end Program

namespace Linker

/-- **Cycle detection is sound, complete and terminating.**  After any calls on one linker, the
search for a module ends.  If the module is linked, it reaches known modules only and no cycle; if
it reaches a cycle, there is an error; and an error describes what is wrong with the imports.  The
modules of a bound program, if there are ids for all of them, are linked exactly if their imports
have no cycle and no module reaches more than 255 modules. -/
theorem detects_cycles :
    (∀ (modules : List CompiledModule) (history : List ModuleId) (id : ModuleId),
      ∃ result s, MarkedSearch.Calls modules
          (.idle ((Linker.mk modules []).linkEvery history).finished) id result s ∧
        (((Linker.mk modules []).linkEvery history).link id).1 = result ∧
        LinkVerdict modules id result) ∧
      ∀ (p : Program) (verifyConfig : VerifyConfig) (config : CodegenConfig)
        (typing : TypedProgram) (modules : List CompiledModule), p.modules.size ≤ wordLimit →
        p.bind = .ok () → p.verify verifyConfig = .ok typing →
        p.compileModules typing config = .ok modules →
        ((∃ linked, linkAll modules = .ok linked) ↔
          (∀ y, ¬ Relation.TransGen (Imports modules) y y) ∧
            ∀ cm ∈ modules, (importClosure modules cm.module).ncard ≤ 255) := by
  refine ⟨fun modules history id => ?_, fun p verifyConfig config typing modules _ hbind hverify
    hmodules => Program.linkAll_ok_iff_acyclic hverify hmodules hbind⟩
  have hset : LinkedSet modules ((Linker.mk modules []).linkEvery history).finished :=
    linkedSet_linkEvery linkedSet_nil history
  refine ⟨_, _, MarkedSearch.calls_iff.mpr ⟨_, rfl, rfl⟩, ?_, linkVerdict_of_linkModule hset rfl⟩
  rw [link, modules_linkEvery]

/-- Two modules that import each other. -/
def importLoop : List CompiledModule :=
  [{ Program.clockObject with imports := [⟨1⟩] }, Program.mainObject]

/-- The loop is described, and the program without it is linked. -/
theorem detects_cycles_clock :
    (∃ e, ((Linker.mk importLoop []).link ⟨0⟩).1 = .error e ∧ e.Describes importLoop ⟨0⟩) ∧
      ∃ typing, Program.clock.modules.size ≤ wordLimit ∧ Program.clock.bind = .ok () ∧
        Program.clock.verify {} = .ok typing ∧
        Program.clock.compileModules typing {} = .ok [Program.clockObject, Program.mainObject] ∧
        (∃ linked, linkAll [Program.clockObject, Program.mainObject] = .ok linked) ∧
        (∀ y, ¬ Relation.TransGen (Imports [Program.clockObject, Program.mainObject]) y y) ∧
        ∀ cm ∈ [Program.clockObject, Program.mainObject],
          (importClosure [Program.clockObject, Program.mainObject] cm.module).ncard ≤ 255 := by
  constructor
  · have hforth : Imports importLoop ⟨0⟩ ⟨1⟩ := ⟨_, rfl, List.mem_singleton_self _⟩
    have hback : Imports importLoop ⟨1⟩ ⟨0⟩ := ⟨_, rfl, List.mem_singleton_self _⟩
    obtain ⟨result, s, -, hresult, hverdict⟩ := detects_cycles.1 importLoop [] ⟨0⟩
    obtain ⟨e, he⟩ := hverdict.cycle ⟨0⟩ .refl (.tail (.single hforth) hback)
    exact ⟨e, hresult.trans he, hverdict.error e he⟩
  · obtain ⟨typing, hverify, hmodules⟩ := Program.clock_compiles
    have hids : Program.clock.modules.size ≤ wordLimit := by decide
    have hiff := detects_cycles.2 _ _ _ _ _ hids Program.clock_binds hverify hmodules
    exact ⟨typing, hids, Program.clock_binds, hverify, hmodules, Program.clock_links,
      hiff.mp Program.clock_links⟩

end Linker

end StackCode
