import StackCode.Proofs.Code.Renaming
import StackCode.Proofs.Link.Search

/-!
# Linking without names

The linker carries the names of modules along and never looks at them.  Linking modules without
their names gives the linked modules without their names, or the same error.

## Main definitions

* `LinkedModule.anonymous`, `LinkRecord.anonymous`: what is linked, without its name.

## Main results

* `linkAll_anonymous`: the linker does not look at names.
-/

namespace StackCode

/-- The linked module without its name. -/
def LinkedModule.anonymous (m : LinkedModule) : LinkedModule := { m with name := "" }

/-- The finished module without its name. -/
def LinkRecord.anonymous (r : LinkRecord) : LinkRecord := { r with linked := r.linked.anonymous }

/-! ### One module -/

/-- What linking writes does not depend on the name of the module. -/
theorem CompiledModule.link_anonymous (m : CompiledModule) (imports : List Fingerprint)
    (count : UInt8) (offsets : ModuleId → Option (Array Nat)) :
    m.anonymous.link imports count offsets =
      (m.link imports count offsets).map LinkedModule.anonymous := by
  show (m.writeImports m.image.toArray imports >>= _) =
    Except.map _ (m.writeImports m.image.toArray imports >>= _)
  cases m.writeImports m.image.toArray imports with
  | error e => rfl
  | ok image =>
    show (m.writeCount image count >>= _) = Except.map _ (m.writeCount image count >>= _)
    cases m.writeCount image count with
    | error e => rfl
    | ok image =>
      show (m.writeTokens offsets image >>= _) = Except.map _ (m.writeTokens offsets image >>= _)
      cases m.writeTokens offsets image with
      | error e => rfl
      | ok image => rfl

theorem findModule?_anonymous (modules : List CompiledModule) (id : ModuleId) :
    findModule? (modules.map CompiledModule.anonymous) id =
      (findModule? modules id).map CompiledModule.anonymous := by
  rw [findModule?, findModule?, ← List.map_reverse, List.find?_map]
  rfl

theorem findRecord?_anonymous (finished : List LinkRecord) (id : ModuleId) :
    findRecord? (finished.map LinkRecord.anonymous) id =
      (findRecord? finished id).map LinkRecord.anonymous := by
  rw [findRecord?, findRecord?, List.find?_map]
  rfl

theorem closureIn_anonymous (m : CompiledModule) (finished : List LinkRecord) :
    m.anonymous.closureIn (finished.map LinkRecord.anonymous) = m.closureIn finished := by
  show m.imports.foldl _ [m.module] = m.imports.foldl _ [m.module]
  congr 1
  funext set dependency
  rw [findRecord?_anonymous]
  cases findRecord? finished dependency <;> rfl

/-- Finishing a module does not depend on names. -/
theorem finishModule_anonymous (m : CompiledModule) (imports : List Fingerprint)
    (finished : List LinkRecord) :
    finishModule m.anonymous imports (finished.map LinkRecord.anonymous) =
      (finishModule m imports finished).map LinkRecord.anonymous := by
  have hoffsets (id : ModuleId) :
      (findRecord? (finished.map LinkRecord.anonymous) id).map (fun r => r.linked.functionOffsets) =
        (findRecord? finished id).map fun r => r.linked.functionOffsets := by
    rw [findRecord?_anonymous, Option.map_map]
    rfl
  rw [finishModule_eq, finishModule_eq, closureIn_anonymous]
  simp only [hoffsets, CompiledModule.link_anonymous]
  split_ifs with hcount
  · cases m.link imports _ _ <;> rfl
  · rfl

/-! ### The search -/

mutual

/-- Linking a module does not depend on names. -/
theorem linkModule_anonymous {modules : List CompiledModule} {chain : List ModuleId} {id : ModuleId}
    {finished finished' : List LinkRecord} {result : Except LinkError Fingerprint}
    (h : linkModule modules chain id finished = (result, finished')) :
    linkModule (modules.map CompiledModule.anonymous) chain id
      (finished.map LinkRecord.anonymous) = (result, finished'.map LinkRecord.anonymous) := by
  have hmodule {cm : Option CompiledModule} (hcm : findModule? modules id = cm) :
      findModule? (modules.map CompiledModule.anonymous) id = cm.map CompiledModule.anonymous := by
    rw [findModule?_anonymous, hcm]
  have hrecord {r : Option LinkRecord} (hr : findRecord? finished id = r) :
      findRecord? (finished.map LinkRecord.anonymous) id = r.map LinkRecord.anonymous := by
    rw [findRecord?_anonymous, hr]
  have hshrinks {cm : CompiledModule} (hcm : findModule? modules id = some cm)
      (hchain : id ∉ chain) : offChain (modules.map CompiledModule.module) (chain ++ [id]) <
        offChain (modules.map CompiledModule.module) chain :=
    offChain_append_lt (mem_map_of_findModule? hcm) hchain
  apply LinkCase.linkModule_eq
  cases linkModule_case h with
  | unknown hcm => exact .unknown (hmodule hcm)
  | @found _ r hcm hr => exact LinkCase.found (r := r.anonymous) (hmodule hcm) (hrecord hr)
  | circular hcm hnone hchain => exact .circular (hmodule hcm) (hrecord hnone) hchain
  | dependency hcm hnone hchain himports =>
    have := hshrinks hcm hchain
    exact .dependency (hmodule hcm) (hrecord hnone) hchain (linkImports_anonymous himports)
  | finish hcm hnone hchain himports he =>
    have := hshrinks hcm hchain
    refine .finish (hmodule hcm) (hrecord hnone) hchain (linkImports_anonymous himports) ?_
    rw [finishModule_anonymous, he]
    rfl
  | @linked _ _ _ r hcm hnone hchain himports hr =>
    have := hshrinks hcm hchain
    refine LinkCase.linked (r := r.anonymous) (hmodule hcm) (hrecord hnone) hchain
      (linkImports_anonymous himports) ?_
    rw [finishModule_anonymous, hr]
    rfl
termination_by (offChain (modules.map CompiledModule.module) chain, 0)
decreasing_by all_goals exact .left _ _ (by assumption)

/-- Linking imports does not depend on names. -/
theorem linkImports_anonymous {modules : List CompiledModule} {chain imports : List ModuleId}
    {finished finished' : List LinkRecord} {result : Except LinkError (List Fingerprint)}
    (h : linkImports modules chain imports finished = (result, finished')) :
    linkImports (modules.map CompiledModule.anonymous) chain imports
      (finished.map LinkRecord.anonymous) = (result, finished'.map LinkRecord.anonymous) := by
  match imports, h with
  | [], h =>
    rw [linkImports_nil] at h ⊢
    cases h
    rfl
  | dependency :: rest, h =>
    cases linkImports_case h with
    | fails hd => rw [linkImports, linkModule_anonymous hd]
    | later hd hrest | cons hd hrest =>
      rw [linkImports, linkModule_anonymous hd]
      dsimp only
      rw [linkImports_anonymous hrest]
termination_by (offChain (modules.map CompiledModule.module) chain, imports.length)
decreasing_by all_goals exact .right _ (by simp)

end

/-! ### All modules -/

theorem linkEach_anonymous (modules : List CompiledModule) (finished : List LinkRecord)
    (ids : List ModuleId) :
    Linker.linkEach ⟨modules.map CompiledModule.anonymous, finished.map LinkRecord.anonymous⟩ ids =
      (Linker.linkEach ⟨modules, finished⟩ ids).map fun l =>
        ⟨modules.map CompiledModule.anonymous, l.finished.map LinkRecord.anonymous⟩ := by
  induction ids generalizing finished with
  | nil => rfl
  | cons id rest ih =>
    rw [Linker.linkEach, Linker.linkEach, List.foldlM_cons, List.foldlM_cons]
    rcases hlink : linkModule modules [] id finished with ⟨result, finished'⟩
    have hlink' := linkModule_anonymous hlink
    simp only [Linker.link, hlink, hlink']
    cases result with
    | error e => rfl
    | ok fingerprint => exact ih finished'

theorem takeRecords_anonymous (ids : List ModuleId) (finished : List LinkRecord) :
    takeRecords ids (finished.map LinkRecord.anonymous) =
      (takeRecords ids finished).map (List.map LinkedModule.anonymous) := by
  induction ids generalizing finished with
  | nil => rfl
  | cons id rest ih =>
    rw [takeRecords, takeRecords, findRecord?_anonymous]
    cases findRecord? finished id with
    | none => rfl
    | some r =>
      have hothers : (finished.map LinkRecord.anonymous).filter (fun r => r.linked.module ≠ id) =
          (finished.filter fun r => r.linked.module ≠ id).map LinkRecord.anonymous := by
        rw [List.filter_map]
        rfl
      dsimp only [Option.map_some]
      rw [hothers, ih]
      cases takeRecords rest (finished.filter fun r => r.linked.module ≠ id) <;> rfl

/-- **The linker does not look at names.** -/
theorem linkAll_anonymous (modules : List CompiledModule) :
    linkAll (modules.map CompiledModule.anonymous) =
      (linkAll modules).map (List.map LinkedModule.anonymous) := by
  have hids : (modules.map CompiledModule.anonymous).map CompiledModule.module =
      modules.map CompiledModule.module := by
    rw [List.map_map]
    rfl
  rw [linkAll, linkAll, hids]
  have hlink := linkEach_anonymous modules [] (modules.map CompiledModule.module)
  rw [List.map_nil] at hlink
  rw [hlink]
  cases hl : Linker.linkEach ⟨modules, []⟩ (modules.map CompiledModule.module) with
  | error e => rfl
  | ok l => exact takeRecords_anonymous _ l.finished

end StackCode
