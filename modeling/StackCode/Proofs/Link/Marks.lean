import Mathlib.Logic.Function.Basic
import StackCode.Proofs.Link.Search

/-!
# A search with marks

The linker keeps finished modules and follows a chain of imports.  The same search can be run on a
state that marks each module as unvisited, in progress or done, and keeps the path it is on; a
search that fails leaves the modules of the path marked, and they are unmarked afterwards.  The two
searches run in lockstep: at each moment the modules in progress are those of the chain that are not
finished, and the path is the chain.

## Main definitions

* `MarkedSearch`: the marks, the path and the finished modules.
* `MarkedSearch.Visits`, `MarkedSearch.Calls`: the search with marks.
* `MarkedSearch.onChain`, `MarkedSearch.idle`: the states that belong to a chain.

## Main results

* `MarkedSearch.calls_iff`: a call from an idle state ends as the linker does, in an idle state.
-/

namespace StackCode

/-- How far a search is with a module. -/
inductive Mark where
  | unvisited
  | inProgress
  | done
deriving DecidableEq

/-- The state of a search that marks modules and keeps the path it is on. -/
@[ext]
structure MarkedSearch where
  marks : ModuleId → Mark
  path : List ModuleId
  finished : List LinkRecord

namespace MarkedSearch

/-- Starts on a module. -/
def enter (s : MarkedSearch) (id : ModuleId) : MarkedSearch :=
  { s with marks := Function.update s.marks id .inProgress, path := s.path ++ [id] }

/-- Is done with the last module of the path. -/
def leave (s : MarkedSearch) (id : ModuleId) (r : LinkRecord) : MarkedSearch where
  marks := Function.update s.marks id .done
  path := s.path.dropLast
  finished := r :: s.finished

/-- Takes back the marks of modules in progress, and clears the path. -/
def settle (s : MarkedSearch) : MarkedSearch :=
  { s with
    marks := fun id => if s.marks id = .inProgress then .unvisited else s.marks id
    path := [] }

/-- Searches for modules in order, up to the first error. -/
inductive Visits (modules : List CompiledModule) :
    MarkedSearch → List ModuleId → Except LinkError (List Fingerprint) → MarkedSearch → Prop
  | nil {s : MarkedSearch} : Visits modules s [] (.ok []) s
  | unknown {s : MarkedSearch} {id : ModuleId} {rest : List ModuleId}
      (hcm : findModule? modules id = none) :
      Visits modules s (id :: rest) (.error (.unknownModule id)) s
  | done {s s' : MarkedSearch} {id : ModuleId} {rest : List ModuleId} {cm : CompiledModule}
      {r : LinkRecord} {result : Except LinkError (List Fingerprint)}
      (hcm : findModule? modules id = some cm) (hmark : s.marks id = .done)
      (hr : findRecord? s.finished id = some r) (hrest : Visits modules s rest result s') :
      Visits modules s (id :: rest) (result.map (r.linked.fingerprint :: ·)) s'
  | circular {s : MarkedSearch} {id : ModuleId} {rest : List ModuleId} {cm : CompiledModule}
      (hcm : findModule? modules id = some cm) (hmark : s.marks id = .inProgress) :
      Visits modules s (id :: rest) (.error (circular s.path id)) s
  | dependency {s s' : MarkedSearch} {id : ModuleId} {rest : List ModuleId} {cm : CompiledModule}
      {e : LinkError} (hcm : findModule? modules id = some cm) (hmark : s.marks id = .unvisited)
      (himports : Visits modules (s.enter id) cm.imports (.error e) s') :
      Visits modules s (id :: rest) (.error e) s'
  | finish {s s' : MarkedSearch} {id : ModuleId} {rest : List ModuleId} {cm : CompiledModule}
      {imports : List Fingerprint} {e : LinkError} (hcm : findModule? modules id = some cm)
      (hmark : s.marks id = .unvisited)
      (himports : Visits modules (s.enter id) cm.imports (.ok imports) s')
      (he : finishModule cm imports s'.finished = .error e) :
      Visits modules s (id :: rest) (.error e) s'
  | linked {s s' s'' : MarkedSearch} {id : ModuleId} {rest : List ModuleId} {cm : CompiledModule}
      {imports : List Fingerprint} {r : LinkRecord} {result : Except LinkError (List Fingerprint)}
      (hcm : findModule? modules id = some cm) (hmark : s.marks id = .unvisited)
      (himports : Visits modules (s.enter id) cm.imports (.ok imports) s')
      (hr : finishModule cm imports s'.finished = .ok r)
      (hrest : Visits modules (s'.leave id r) rest result s'') :
      Visits modules s (id :: rest) (result.map (r.linked.fingerprint :: ·)) s''

/-- Links one module; a search that fails takes back its marks. -/
inductive Calls (modules : List CompiledModule) (s : MarkedSearch) (id : ModuleId) :
    Except LinkError Fingerprint → MarkedSearch → Prop
  | ok {s' : MarkedSearch} {fingerprint : Fingerprint}
      (h : Visits modules s [id] (.ok [fingerprint]) s') : Calls modules s id (.ok fingerprint) s'
  | error {s' : MarkedSearch} {e : LinkError} (h : Visits modules s [id] (.error e) s') :
      Calls modules s id (.error e) s'.settle

/-! ### States that belong to a chain -/

/-- The state of a search along a chain. -/
def onChain (chain : List ModuleId) (finished : List LinkRecord) : MarkedSearch where
  marks id :=
    if (findRecord? finished id).isSome then .done
    else if id ∈ chain then .inProgress
    else .unvisited
  path := chain
  finished := finished

/-- The state between searches: the finished modules are done and the others unvisited. -/
def idle (finished : List LinkRecord) : MarkedSearch := onChain [] finished

variable {modules : List CompiledModule} {chain : List ModuleId} {id : ModuleId}
  {finished finished' mid : List LinkRecord} {r : LinkRecord} {s' : MarkedSearch}

theorem marks_onChain_eq_done :
    (onChain chain finished).marks id = .done ↔ (findRecord? finished id).isSome = true := by
  simp only [onChain]
  split
  · rename_i h
    exact iff_of_true rfl h
  · rename_i h
    split <;> exact iff_of_false nofun h

theorem marks_onChain_eq_inProgress :
    (onChain chain finished).marks id = .inProgress ↔
      findRecord? finished id = none ∧ id ∈ chain := by
  simp only [onChain]
  cases findRecord? finished id with
  | some r => simp
  | none => by_cases h : id ∈ chain <;> simp [h]

theorem marks_onChain_eq_unvisited :
    (onChain chain finished).marks id = .unvisited ↔
      findRecord? finished id = none ∧ id ∉ chain := by
  simp only [onChain]
  cases findRecord? finished id with
  | some r => simp
  | none => by_cases h : id ∈ chain <;> simp [h]

theorem marks_idle_ne_inProgress : (idle finished).marks id ≠ .inProgress := by
  intro h
  exact List.not_mem_nil (marks_onChain_eq_inProgress.mp h).2

theorem enter_onChain (hnone : findRecord? finished id = none) :
    (onChain chain finished).enter id = onChain (chain ++ [id]) finished := by
  refine MarkedSearch.ext (funext fun y => ?_) rfl rfl
  by_cases hy : y = id
  · subst hy
    simp [enter, onChain, hnone]
  · simp [enter, onChain, hy]

theorem leave_onChain (hr : r.linked.module = id) :
    (onChain (chain ++ [id]) mid).leave id r = onChain chain (r :: mid) := by
  refine MarkedSearch.ext (funext fun y => ?_) (by simp [leave, onChain]) rfl
  by_cases hy : y = id
  · subst hy
    simp [leave, onChain, findRecord?_cons_self hr]
  · have hne : r.linked.module ≠ y := fun h => hy (h.symm.trans hr)
    simp [leave, onChain, hy, findRecord?_cons_ne hne]

theorem settle_onChain : (onChain chain finished).settle = idle finished := by
  refine MarkedSearch.ext (funext fun y => ?_) rfl rfl
  by_cases hy : y ∈ chain <;> cases h : findRecord? finished y <;>
    simp [settle, idle, onChain, h, hy]

/-! ### Lockstep -/

/-- How linking some imports goes on from linking the first. -/
theorem linkImports_cons {rest : List ModuleId} {fingerprint : Fingerprint}
    (h : linkModule modules chain id finished = (.ok fingerprint, mid)) :
    linkImports modules chain (id :: rest) finished =
      ((linkImports modules chain rest mid).1.map (fingerprint :: ·),
        (linkImports modules chain rest mid).2) := by
  rw [linkImports, h]
  dsimp only
  rcases linkImports modules chain rest mid with ⟨_ | _, _⟩ <;> rfl

theorem linkImports_cons_error {rest : List ModuleId} {e : LinkError}
    (h : linkModule modules chain id finished = (.error e, mid)) :
    linkImports modules chain (id :: rest) finished = (.error e, mid) := by
  rw [linkImports, h]

/-- A search along a chain ends with the result of the linker and with what it finishes, on the same
chain if there is no error. -/
def EndsAs (modules : List CompiledModule) (chain ids : List ModuleId) (finished : List LinkRecord)
    (result : Except LinkError (List Fingerprint)) (s' : MarkedSearch) : Prop :=
  ∃ chain' finished', linkImports modules chain ids finished = (result, finished') ∧
    s' = onChain chain' finished' ∧ ∀ fingerprints, result = .ok fingerprints → chain' = chain

section EndsAs

variable {ids rest : List ModuleId} {result : Except LinkError (List Fingerprint)}

theorem EndsAs.cons {fingerprint : Fingerprint}
    (hlink : linkModule modules chain id finished = (.ok fingerprint, mid))
    (h : EndsAs modules chain rest mid result s') :
    EndsAs modules chain (id :: rest) finished (result.map (fingerprint :: ·)) s' := by
  obtain ⟨chain', finished', himports, hs', hchain⟩ := h
  refine ⟨chain', finished', ?_, hs', fun fingerprints hok => ?_⟩
  · rw [linkImports_cons hlink, himports]
  · cases result with
    | error e => cases hok
    | ok rest => exact hchain rest rfl

theorem EndsAs.fails {chain' : List ModuleId} {e : LinkError}
    (hlink : linkModule modules chain id finished = (.error e, mid))
    (hs' : s' = onChain chain' mid) :
    EndsAs modules chain (id :: rest) finished (.error e) s' := by
  refine ⟨chain', mid, linkImports_cons_error hlink, hs', fun _ hok => ?_⟩
  cases hok

end EndsAs

/-- **The search with marks does what the linker does.** -/
theorem Visits.endsAs {s : MarkedSearch} {ids : List ModuleId}
    {result : Except LinkError (List Fingerprint)} (h : Visits modules s ids result s')
    (hs : s = onChain chain finished) : EndsAs modules chain ids finished result s' := by
  induction h generalizing chain finished with
  | nil => exact ⟨chain, finished, linkImports_nil, hs, fun _ _ => rfl⟩
  | unknown hcm => exact .fails (LinkCase.unknown hcm).linkModule_eq hs
  | done hcm hmark hr _ ih =>
    subst hs
    exact .cons (LinkCase.found hcm hr).linkModule_eq (ih rfl)
  | circular hcm hmark =>
    subst hs
    obtain ⟨hnone, hmem⟩ := marks_onChain_eq_inProgress.mp hmark
    exact .fails (LinkCase.circular hcm hnone hmem).linkModule_eq rfl
  | dependency hcm hmark _ ih =>
    subst hs
    obtain ⟨hnone, hmem⟩ := marks_onChain_eq_unvisited.mp hmark
    obtain ⟨chain', finished', himports, hs', -⟩ := ih (enter_onChain hnone)
    exact .fails (LinkCase.dependency hcm hnone hmem himports).linkModule_eq hs'
  | finish hcm hmark _ he ih =>
    subst hs
    obtain ⟨hnone, hmem⟩ := marks_onChain_eq_unvisited.mp hmark
    obtain ⟨chain', finished', himports, rfl, -⟩ := ih (enter_onChain hnone)
    exact .fails (LinkCase.finish hcm hnone hmem himports he).linkModule_eq rfl
  | linked hcm hmark _ hr _ ih ih' =>
    subst hs
    obtain ⟨hnone, hmem⟩ := marks_onChain_eq_unvisited.mp hmark
    obtain ⟨chain', finished', himports, rfl, hchain⟩ := ih (enter_onChain hnone)
    obtain rfl := hchain _ rfl
    -- the imports are linked on the chain that ends with the module, which is then left
    have hid := (module_of_finishModule hr).trans (module_of_findModule? hcm)
    exact .cons (LinkCase.linked hcm hnone hmem himports hr).linkModule_eq
      (ih' (leave_onChain hid))

/-- The search with marks for a module ends with this result, or goes on with it from these finished
modules. -/
def VisitsFirst (modules : List CompiledModule) (chain : List ModuleId) (id : ModuleId)
    (finished : List LinkRecord) : Except LinkError Fingerprint → List LinkRecord → Prop
  | .error e, _ =>
    ∀ rest, ∃ s', Visits modules (onChain chain finished) (id :: rest) (.error e) s'
  | .ok fingerprint, finished' =>
    ∀ rest result s', Visits modules (onChain chain finished') rest result s' →
      Visits modules (onChain chain finished) (id :: rest) (result.map (fingerprint :: ·)) s'

mutual

/-- What the linker does for a module, the search with marks does. -/
theorem visits_of_linkModule {modules : List CompiledModule} {chain : List ModuleId} {id : ModuleId}
    {finished finished' : List LinkRecord} {result : Except LinkError Fingerprint}
    (h : linkModule modules chain id finished = (result, finished')) :
    VisitsFirst modules chain id finished result finished' := by
  cases linkModule_case h with
  | unknown hcm => exact fun rest => ⟨_, .unknown hcm⟩
  | found hcm hr =>
    intro rest result s' hrest
    refine .done hcm (marks_onChain_eq_done.mpr ?_) hr hrest
    rw [hr]
    rfl
  | circular hcm hnone hmem =>
    exact fun rest => ⟨_, .circular hcm (marks_onChain_eq_inProgress.mpr ⟨hnone, hmem⟩)⟩
  | dependency hcm hnone hmem himports =>
    have hshrinks := offChain_append_lt (mem_map_of_findModule? hcm) hmem
    obtain ⟨s', hvisits⟩ := visits_of_linkImports himports
    rw [← enter_onChain hnone] at hvisits
    exact fun rest =>
      ⟨s', .dependency hcm (marks_onChain_eq_unvisited.mpr ⟨hnone, hmem⟩) hvisits⟩
  | finish hcm hnone hmem himports he =>
    have hshrinks := offChain_append_lt (mem_map_of_findModule? hcm) hmem
    obtain ⟨s', hvisits⟩ := visits_of_linkImports himports
    obtain ⟨chain', finished', himports', rfl, -⟩ := hvisits.endsAs rfl
    cases himports.symm.trans himports'
    rw [← enter_onChain hnone] at hvisits
    exact fun rest =>
      ⟨_, .finish hcm (marks_onChain_eq_unvisited.mpr ⟨hnone, hmem⟩) hvisits he⟩
  | linked hcm hnone hmem himports hr =>
    have hshrinks := offChain_append_lt (mem_map_of_findModule? hcm) hmem
    obtain ⟨s', hvisits⟩ := visits_of_linkImports himports
    obtain ⟨chain', finished', himports', rfl, hchain⟩ := hvisits.endsAs rfl
    cases himports.symm.trans himports'
    obtain rfl := hchain _ rfl
    rw [← enter_onChain hnone] at hvisits
    have hid := (module_of_finishModule hr).trans (module_of_findModule? hcm)
    intro rest result s' hrest
    rw [← leave_onChain hid] at hrest
    exact .linked hcm (marks_onChain_eq_unvisited.mpr ⟨hnone, hmem⟩) hvisits hr hrest
termination_by (offChain (modules.map CompiledModule.module) chain, 0)
decreasing_by all_goals exact .left _ _ hshrinks

/-- What the linker does for imports, the search with marks does. -/
theorem visits_of_linkImports {modules : List CompiledModule} {chain ids : List ModuleId}
    {finished finished' : List LinkRecord} {result : Except LinkError (List Fingerprint)}
    (h : linkImports modules chain ids finished = (result, finished')) :
    ∃ s', Visits modules (onChain chain finished) ids result s' := by
  match ids, h with
  | [], h =>
    cases linkImports_case h
    exact ⟨_, .nil⟩
  | id :: rest, h =>
    cases linkImports_case h with
    | fails hd => exact visits_of_linkModule hd rest
    | later hd hrest | cons hd hrest =>
      obtain ⟨s', hvisits⟩ := visits_of_linkImports hrest
      exact ⟨s', visits_of_linkModule hd rest _ s' hvisits⟩
termination_by (offChain (modules.map CompiledModule.module) chain, ids.length)
decreasing_by all_goals exact .right _ (by simp)

end

/-- **A call from an idle state ends as the linker does, in an idle state.** -/
theorem calls_iff {result : Except LinkError Fingerprint} :
    Calls modules (idle finished) id result s' ↔
      ∃ finished', linkModule modules [] id finished = (result, finished') ∧
        s' = idle finished' := by
  constructor
  · intro h
    cases h with
    | ok h =>
      obtain ⟨chain', finished', himports, rfl, hchain⟩ := h.endsAs rfl
      obtain rfl := hchain _ rfl
      cases linkImports_case himports with
      | cons hd hrest =>
        rw [linkImports_nil] at hrest
        cases hrest
        exact ⟨finished', hd, rfl⟩
    | error h =>
      obtain ⟨chain', finished', himports, rfl, -⟩ := h.endsAs rfl
      refine ⟨finished', ?_, settle_onChain⟩
      cases linkImports_case himports with
      | fails hd => exact hd
      | later _ hrest =>
        rw [linkImports_nil] at hrest
        cases hrest
  · rintro ⟨finished', hlink, rfl⟩
    have hfirst := visits_of_linkModule hlink
    cases result with
    | ok fingerprint => exact .ok (hfirst [] (.ok []) _ .nil)
    | error e =>
      obtain ⟨s', hvisits⟩ := hfirst []
      obtain ⟨chain', finished'', himports, rfl, -⟩ := hvisits.endsAs rfl
      cases (linkImports_cons_error hlink).symm.trans himports
      have hcall := Calls.error hvisits
      rw [settle_onChain] at hcall
      exact hcall

end MarkedSearch

end StackCode
