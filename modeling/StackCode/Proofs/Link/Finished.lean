import StackCode.Link.Linker
import StackCode.Proofs.Sequencing

/-!
# What the linker finishes

Every finished module is the module of the set with its id, linked against the finished forms of its
imports.  A module on the chain of imports is not finished while its imports are linked, so
finishing it hides no earlier form, and what was found once is found ever after.

## Main definitions

* `LinkedModule.LinkedIn`: a module linked against the finished forms of its imports.
* `Extends`: how the finished modules grow.
* `Sound`: every finished module is linked.

## Main results

* `linkModule_eq_ok`, `linkImports_cons_eq_ok`: how modules are linked.
* `linkModule_sound`, `linkImports_sound`: what linking adds is linked.
* `linkedIn_of_linkAll`: what linking a whole set gives.
-/

namespace StackCode

variable {modules : List CompiledModule} {chain : List ModuleId} {id : ModuleId}
  {finished finished' finished'' : List LinkRecord} {r : LinkRecord}

theorem module_of_findRecord? (h : findRecord? finished id = some r) : r.linked.module = id := by
  have hfound := List.find?_some h
  exact of_decide_eq_true hfound

theorem module_of_findModule? {cm : CompiledModule} (h : findModule? modules id = some cm) :
    cm.module = id := by
  have hfound := List.find?_some h
  exact of_decide_eq_true hfound

theorem findRecord?_cons_self (hr : r.linked.module = id) :
    findRecord? (r :: finished) id = some r :=
  List.find?_cons_of_pos (decide_eq_true hr)

/-- A module that is finished hides no other. -/
theorem findRecord?_cons_ne (hr : r.linked.module ≠ id) :
    findRecord? (r :: finished) id = findRecord? finished id :=
  List.find?_cons_of_neg (by simpa using hr)

/-- The finished modules `finished'` hold those of `finished`, and no module of the chain that is
not there yet. -/
structure Extends (chain : List ModuleId) (finished finished' : List LinkRecord) : Prop where
  kept : ∀ {id r}, findRecord? finished id = some r → findRecord? finished' id = some r
  unfinished : ∀ id ∈ chain, findRecord? finished id = none → findRecord? finished' id = none

namespace Extends

theorem refl (chain : List ModuleId) (finished : List LinkRecord) :
    Extends chain finished finished :=
  ⟨id, fun _ _ => id⟩

theorem trans (h : Extends chain finished finished') (h' : Extends chain finished' finished'') :
    Extends chain finished finished'' :=
  ⟨fun hr => h'.kept (h.kept hr),
    fun id hid hnone => h'.unfinished id hid (h.unfinished id hid hnone)⟩

/-- Finishing a module that is neither finished nor on the chain. -/
theorem push (hnone : findRecord? finished r.linked.module = none)
    (hchain : r.linked.module ∉ chain) : Extends chain finished (r :: finished) := by
  refine ⟨fun {id r'} hr' => ?_, fun id hid hid' => ?_⟩
  · rw [findRecord?_cons_ne, hr']
    rintro rfl
    rw [hnone] at hr'
    cases hr'
  · rw [findRecord?_cons_ne, hid']
    rintro rfl
    exact hchain hid

end Extends

/-- The module of the set with this id, linked against the finished forms of its imports. -/
def LinkedModule.LinkedIn (modules : List CompiledModule) (finished : List LinkRecord)
    (lm : LinkedModule) : Prop :=
  ∃ cm imports count offsets, findModule? modules lm.module = some cm ∧
    cm.link imports count offsets = .ok lm ∧
    List.Forall₂ (fun dependency fingerprint => ∃ r, findRecord? finished dependency = some r ∧
      r.linked.fingerprint = fingerprint) cm.imports imports ∧
    ∀ dependency table, offsets dependency = some table →
      ∃ r, findRecord? finished dependency = some r ∧ r.linked.functionOffsets = table

/-- Everything finished is linked. -/
def Sound (modules : List CompiledModule) (finished : List LinkRecord) : Prop :=
  ∀ id r, findRecord? finished id = some r → r.linked.LinkedIn modules finished

/-- A linked module stays so while others are finished. -/
theorem LinkedModule.LinkedIn.extends {lm : LinkedModule} (h : lm.LinkedIn modules finished)
    (hextends : Extends chain finished finished') : lm.LinkedIn modules finished' := by
  obtain ⟨cm, imports, count, offsets, hcm, hlink, himports, hoffsets⟩ := h
  refine ⟨cm, imports, count, offsets, hcm, hlink, himports.imp ?_,
    fun dependency table htable => ?_⟩
  · rintro dependency fingerprint ⟨r, hr, hfingerprint⟩
    exact ⟨r, hextends.kept hr, hfingerprint⟩
  · obtain ⟨r, hr, hr'⟩ := hoffsets dependency table htable
    exact ⟨r, hextends.kept hr, hr'⟩

/-- A finished module is linked with the size of its closure and the offsets of what is finished. -/
theorem link_of_finishModule {cm : CompiledModule} {imports : List Fingerprint}
    (h : finishModule cm imports finished = .ok r) :
    cm.link imports (UInt8.ofNat r.closure.length)
      (fun id => (findRecord? finished id).map fun r => r.linked.functionOffsets) =
        .ok r.linked := by
  simp only [finishModule] at h
  split at h
  · obtain ⟨linked, hlinked, h⟩ := bind_eq_ok.mp h
    cases pure_eq_ok.mp h
    exact hlinked
  · cases h

/-- What a linked module keeps of the compiled one, and the fingerprint it gets. -/
structure CompiledModule.Keeps (cm : CompiledModule) (lm : LinkedModule) : Prop where
  module : lm.module = cm.module
  imports : lm.imports = cm.imports
  features : lm.features = cm.features
  functionOffsets : lm.functionOffsets = cm.functionOffsets
  instructionOffsets : lm.instructionOffsets = cm.instructionOffsets
  fingerprint : lm.fingerprint = .ofImage lm.image

/-- Linking keeps what is not filled in. -/
theorem CompiledModule.keeps_of_link {cm : CompiledModule} {imports : List Fingerprint}
    {count : UInt8} {offsets : ModuleId → Option (Array Nat)} {lm : LinkedModule}
    (h : cm.link imports count offsets = .ok lm) : cm.Keeps lm := by
  obtain ⟨_, -, h⟩ := bind_eq_ok.mp h
  obtain ⟨_, -, h⟩ := bind_eq_ok.mp h
  obtain ⟨_, -, h⟩ := bind_eq_ok.mp h
  cases pure_eq_ok.mp h
  exact ⟨rfl, rfl, rfl, rfl, rfl, rfl⟩

theorem module_of_finishModule {cm : CompiledModule} {imports : List Fingerprint}
    (h : finishModule cm imports finished = .ok r) : r.linked.module = cm.module :=
  (CompiledModule.keeps_of_link (link_of_finishModule h)).module

/-- Finishing a module whose imports are finished. -/
theorem Sound.push {cm : CompiledModule} {imports : List Fingerprint}
    (hsound : Sound modules finished) (hcm : findModule? modules id = some cm)
    (hnone : findRecord? finished id = none) (hchain : id ∉ chain)
    (himports : List.Forall₂ (fun dependency fingerprint =>
      ∃ r, findRecord? finished dependency = some r ∧ r.linked.fingerprint = fingerprint) cm.imports
        imports)
    (h : finishModule cm imports finished = .ok r) :
    r.linked.module = id ∧ Sound modules (r :: finished) ∧
      Extends chain finished (r :: finished) := by
  have hlink := link_of_finishModule h
  obtain rfl : r.linked.module = id := (module_of_finishModule h).trans (module_of_findModule? hcm)
  have hextends := Extends.push hnone hchain
  refine ⟨rfl, fun id' r' hr' => ?_, hextends⟩
  by_cases hid : r.linked.module = id'
  · rw [findRecord?_cons_self hid] at hr'
    cases hr'
    refine LinkedModule.LinkedIn.extends ⟨cm, imports, _, _, hcm, hlink, himports, ?_⟩ hextends
    intro dependency table htable
    obtain ⟨r', hr', rfl⟩ := Option.map_eq_some_iff.mp htable
    exact ⟨r', hr', rfl⟩
  · rw [findRecord?_cons_ne hid] at hr'
    exact (hsound id' r' hr').extends hextends

/-- How a module is linked: it is finished already, or its imports are linked and it is finished
then. -/
theorem linkModule_eq_ok {fingerprint : Fingerprint} :
    linkModule modules chain id finished = (.ok fingerprint, finished') ↔
      ∃ cm, findModule? modules id = some cm ∧
        ((∃ r, findRecord? finished id = some r ∧ r.linked.fingerprint = fingerprint ∧
            finished = finished') ∨
          findRecord? finished id = none ∧ id ∉ chain ∧ ∃ imports mid r,
            linkImports modules (chain ++ [id]) cm.imports finished = (.ok imports, mid) ∧
            finishModule cm imports mid = .ok r ∧ r.linked.fingerprint = fingerprint ∧
            r :: mid = finished') := by
  constructor
  · intro h
    unfold linkModule at h
    split at h
    · cases h
    rename_i cm hcm
    refine ⟨cm, hcm, ?_⟩
    split at h
    · rename_i r hr
      cases h
      exact .inl ⟨r, hr, rfl, rfl⟩
    rename_i hnone
    split at h
    · cases h
    rename_i hchain
    split at h
    · cases h
    rename_i imports mid himports
    split at h
    · cases h
    rename_i r hr
    cases h
    exact .inr ⟨hnone, hchain, imports, mid, r, himports, hr, rfl, rfl⟩
  · rintro ⟨cm, hcm, ⟨r, hr, rfl, rfl⟩ | ⟨hnone, hchain, imports, mid, r, himports, hr, rfl, rfl⟩⟩
    · unfold linkModule
      split
      · rename_i hmissing
        cases hmissing.symm.trans hcm
      · rw [hr]
    · unfold linkModule
      split
      · rename_i hmissing
        cases hmissing.symm.trans hcm
      · rename_i cm' hcm'
        cases hcm.symm.trans hcm'
        simp only [hnone, dif_neg hchain, himports, hr]

theorem linkImports_nil : linkImports modules chain [] finished = (.ok [], finished) := by
  rw [linkImports]

/-- How imports are linked: one after the other. -/
theorem linkImports_cons_eq_ok {dependency : ModuleId} {rest : List ModuleId}
    {fingerprints : List Fingerprint} :
    linkImports modules chain (dependency :: rest) finished = (.ok fingerprints, finished') ↔
      ∃ fingerprint mid others,
        linkModule modules chain dependency finished = (.ok fingerprint, mid) ∧
        linkImports modules chain rest mid = (.ok others, finished') ∧
        fingerprint :: others = fingerprints := by
  constructor
  · intro h
    rw [linkImports] at h
    split at h
    · cases h
    rename_i fingerprint mid hmodule
    split at h
    · cases h
    rename_i others finished₂ hrest
    cases h
    exact ⟨fingerprint, mid, others, hmodule, hrest, rfl⟩
  · rintro ⟨fingerprint, mid, others, hmodule, hrest, rfl⟩
    rw [linkImports, hmodule]
    dsimp only
    rw [hrest]

mutual

/-- **What linking a module adds is linked.** -/
theorem linkModule_sound {modules : List CompiledModule} {chain : List ModuleId} {id : ModuleId}
    {finished finished' : List LinkRecord} {fingerprint : Fingerprint}
    (hsound : Sound modules finished)
    (h : linkModule modules chain id finished = (.ok fingerprint, finished')) :
    Sound modules finished' ∧ Extends chain finished finished' ∧
      ∃ r, findRecord? finished' id = some r ∧ r.linked.fingerprint = fingerprint := by
  obtain ⟨cm, hcm, ⟨r, hr, hfingerprint, rfl⟩ |
    ⟨hnone, hchain, imports, mid, r, himports, hr, hfingerprint, rfl⟩⟩ := linkModule_eq_ok.mp h
  · exact ⟨hsound, .refl chain finished, r, hr, hfingerprint⟩
  · have hshrinks : offChain (modules.map CompiledModule.module) (chain ++ [id]) <
        offChain (modules.map CompiledModule.module) chain :=
      offChain_append_lt (mem_map_of_findModule? hcm) hchain
    obtain ⟨hsound', hextends, hfingerprints⟩ := linkImports_sound hsound himports
    -- the module itself was on the chain while its imports were linked
    have hnone' := hextends.unfinished id (List.mem_append_right _ List.mem_cons_self) hnone
    obtain ⟨hid, hsound'', hpush⟩ := hsound'.push hcm hnone' hchain hfingerprints hr
    have hshorter : Extends chain finished mid :=
      ⟨hextends.kept, fun id hid => hextends.unfinished id (List.mem_append_left _ hid)⟩
    exact ⟨hsound'', hshorter.trans hpush, r, findRecord?_cons_self hid, hfingerprint⟩
termination_by (offChain (modules.map CompiledModule.module) chain, 0)
decreasing_by exact .left _ _ hshrinks

/-- What linking imports adds is linked. -/
theorem linkImports_sound {modules : List CompiledModule} {chain imports : List ModuleId}
    {finished finished' : List LinkRecord} {fingerprints : List Fingerprint}
    (hsound : Sound modules finished)
    (h : linkImports modules chain imports finished = (.ok fingerprints, finished')) :
    Sound modules finished' ∧ Extends chain finished finished' ∧
      List.Forall₂ (fun dependency fingerprint => ∃ r, findRecord? finished' dependency = some r ∧
        r.linked.fingerprint = fingerprint) imports fingerprints := by
  match imports, h with
  | [], h =>
    rw [linkImports_nil] at h
    cases h
    exact ⟨hsound, .refl chain finished, .nil⟩
  | dependency :: rest, h =>
    obtain ⟨fingerprint, mid, others, hmodule, hrest, rfl⟩ := linkImports_cons_eq_ok.mp h
    obtain ⟨hsound', hextends, r, hr, hfingerprint⟩ := linkModule_sound hsound hmodule
    obtain ⟨hsound'', hextends', hfingerprints⟩ := linkImports_sound hsound' hrest
    exact ⟨hsound'', hextends.trans hextends',
      .cons ⟨r, hextends'.kept hr, hfingerprint⟩ hfingerprints⟩
termination_by (offChain (modules.map CompiledModule.module) chain, imports.length)
decreasing_by
  · exact .right _ (by simp)
  · exact .right _ (by simp)

end

namespace Linker

variable {l l' : Linker} {ids : List ModuleId}

theorem linkEach_cons_eq_ok :
    l.linkEach (id :: ids) = .ok l' ↔ ∃ fingerprint mid,
      linkModule l.modules [] id l.finished = (.ok fingerprint, mid) ∧
      linkEach { l with finished := mid } ids = .ok l' := by
  simp only [linkEach, List.foldlM_cons, link]
  cases linkModule l.modules [] id l.finished with
  | mk result mid =>
    cases result with
    | error e => simp [bind, Except.bind]
    | ok fingerprint => simp [bind, Except.bind]

/-- Linking modules in order keeps everything finished linked. -/
theorem linkEach_sound (hsound : Sound l.modules l.finished) (h : l.linkEach ids = .ok l') :
    Sound l.modules l'.finished := by
  induction ids generalizing l with
  | nil =>
    cases h
    exact hsound
  | cons id ids ih =>
    obtain ⟨fingerprint, mid, hmodule, hrest⟩ := linkEach_cons_eq_ok.mp h
    exact ih (l := { l with finished := mid }) (linkModule_sound hsound hmodule).1 hrest

end Linker

/-- A module is found among those left only if it is found among all. -/
theorem findRecord?_of_filter {id' : ModuleId}
    (h : findRecord? (finished.filter fun r => r.linked.module ≠ id) id' = some r) :
    findRecord? finished id' = some r := by
  obtain rfl := module_of_findRecord? h
  have hne : r.linked.module ≠ id :=
    of_decide_eq_true (List.mem_filter.mp (List.mem_of_find?_eq_some h)).2
  rw [findRecord?, List.find?_filter] at h
  rw [findRecord?, ← h]
  congr 1
  funext r'
  by_cases hr' : r'.linked.module = r.linked.module
  · simp [hr', hne]
  · simp [hr']

theorem takeRecords_cons_eq_ok {ids : List ModuleId} {linked : List LinkedModule} :
    takeRecords (id :: ids) finished = .ok linked ↔ ∃ r others, findRecord? finished id = some r ∧
      takeRecords ids (finished.filter fun r => r.linked.module ≠ id) = .ok others ∧
      r.linked :: others = linked := by
  rw [takeRecords]
  cases findRecord? finished id with
  | none => simp
  | some r =>
    simp only [bind_eq_ok, pure_eq_ok, Option.some.injEq]
    exact ⟨fun ⟨others, h⟩ => ⟨r, others, rfl, h⟩, fun ⟨_, others, hr, h⟩ => ⟨others, hr ▸ h⟩⟩

/-- Each module taken is the finished form of its id. -/
theorem takeRecords_eq_ok {ids : List ModuleId} {linked : List LinkedModule}
    (h : takeRecords ids finished = .ok linked) :
    List.Forall₂ (fun id lm => ∃ r, findRecord? finished id = some r ∧ r.linked = lm)
      ids linked := by
  induction ids generalizing finished linked with
  | nil =>
    cases h
    exact .nil
  | cons id ids ih =>
    obtain ⟨r, others, hr, hothers, rfl⟩ := takeRecords_cons_eq_ok.mp h
    refine .cons ⟨r, hr, rfl⟩ ((ih hothers).imp ?_)
    rintro id' lm ⟨r', hr', hlm⟩
    exact ⟨r', findRecord?_of_filter hr', hlm⟩

/-- **What linking a whole set gives**: for each module its finished form. -/
theorem linkedIn_of_linkAll {linked : List LinkedModule} (h : linkAll modules = .ok linked) :
    ∃ finished, Sound modules finished ∧
      List.Forall₂ (fun cm lm => ∃ r, findRecord? finished cm.module = some r ∧ r.linked = lm)
        modules linked := by
  obtain ⟨l, hl, h⟩ := bind_eq_ok.mp h
  refine ⟨l.finished, Linker.linkEach_sound ?_ hl, ?_⟩
  · intro id r hr
    cases hr
  · exact List.forall₂_map_left_iff.mp (takeRecords_eq_ok h)

end StackCode
