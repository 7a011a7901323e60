import StackCode.Proofs.Link.Marks

/-!
# Linking does not depend on history

One linker can be asked for many modules, in any order and again, and some of the calls fail.  Each
call has the result it has on a new linker.  What is finished after some calls is what these calls
complete, each module as a new linker finishes it.  Between calls no module is in progress.

## Main definitions

* `Linker.linkEvery`: a linker after calls for these modules, whatever their results.
* `MarkedSearch.Session`: the same calls, by the search with marks.

## Main results

* `Linker.findRecord?_linkEvery_iff`: what is finished after some calls.
* `MarkedSearch.session_iff`: the results of a session.
* `Linker.history_independent`: linking does not depend on history.
-/

namespace StackCode

namespace Linker

variable {modules : List CompiledModule} {finished : List LinkRecord} {ids : List ModuleId}
  {id y : ModuleId}

/-- The linker after calls for these modules, in order. -/
def linkEvery (l : Linker) (ids : List ModuleId) : Linker :=
  ids.foldl (fun l id => (l.link id).2) l

theorem linkEvery_cons (l : Linker) (id : ModuleId) (ids : List ModuleId) :
    l.linkEvery (id :: ids) = (l.link id).2.linkEvery ids := rfl

theorem modules_linkEvery (l : Linker) (ids : List ModuleId) :
    (l.linkEvery ids).modules = l.modules := by
  induction ids generalizing l with
  | nil => rfl
  | cons id ids ih => exact ih (l.link id).2

/-- The chain of a search that begins. -/
theorem isChain_start (id : ModuleId) : List.IsChain (Imports modules) ([] ++ [id]) := .singleton id

theorem linkedSet_link (hset : LinkedSet modules finished) (id : ModuleId) :
    LinkedSet modules ((Linker.mk modules finished).link id).2.finished :=
  (linkModule_outcome hset rfl).linkedSet

theorem linkedSet_linkEvery (hset : LinkedSet modules finished) (ids : List ModuleId) :
    LinkedSet modules ((Linker.mk modules finished).linkEvery ids).finished := by
  induction ids generalizing finished with
  | nil => exact hset
  | cons id ids ih => exact ih (linkedSet_link hset id)

/-- A call finishes what it completes, and nothing else. -/
theorem findRecord?_link_iff (hset : LinkedSet modules finished) :
    (∃ r, findRecord? ((Linker.mk modules finished).link id).2.finished y = some r) ↔
      (∃ r, findRecord? finished y = some r) ∨ Completes modules [] id y := by
  have houtcome : LinkOutcome modules [] id finished _ _ := linkModule_outcome hset rfl
  constructor
  · rintro ⟨r, hr⟩
    exact (houtcome.added hr).imp_left fun hr => ⟨r, hr⟩
  · rintro (⟨r, hr⟩ | hcompletes)
    · exact ⟨r, houtcome.kept hr⟩
    · exact findRecord?_of_completes hcompletes hset (isChain_start id)

/-- What is finished after some calls is what they complete. -/
theorem findRecord?_linkEvery_iff (hset : LinkedSet modules finished) :
    (∃ r, findRecord? ((Linker.mk modules finished).linkEvery ids).finished y = some r) ↔
      (∃ r, findRecord? finished y = some r) ∨ ∃ id ∈ ids, Completes modules [] id y := by
  induction ids generalizing finished with
  | nil => simp [linkEvery]
  | cons id ids ih =>
    rw [linkEvery_cons]
    refine (ih (linkedSet_link hset id)).trans ?_
    rw [findRecord?_link_iff hset, List.exists_mem_cons_iff, or_assoc]

/-- A new linker that is asked for a module has it finished as what it is linked to. -/
theorem linked?_link_of_linksTo {r : LinkRecord} (h : LinksTo modules id r) :
    ((Linker.mk modules []).link id).2.linked? id = some r.linked := by
  obtain ⟨r', hr'⟩ := (findRecord?_link_iff linkedSet_nil).mpr (.inr (.self ⟨r, h⟩))
  have hset : LinkedSet modules _ := linkedSet_link linkedSet_nil id
  rw [linked?, hr', (hset.links hr').unique h]
  rfl

end Linker

namespace MarkedSearch

/-- Calls for modules in order, with their results. -/
inductive Session (modules : List CompiledModule) : MarkedSearch → List ModuleId →
    List (Except LinkError Fingerprint) → MarkedSearch → Prop
  | nil {s : MarkedSearch} : Session modules s [] [] s
  | cons {s s' s'' : MarkedSearch} {id : ModuleId} {ids : List ModuleId}
      {result : Except LinkError Fingerprint} {results : List (Except LinkError Fingerprint)}
      (hcall : Calls modules s id result s') (hrest : Session modules s' ids results s'') :
      Session modules s (id :: ids) (result :: results) s''

variable {modules : List CompiledModule} {finished : List LinkRecord} {ids : List ModuleId}
  {results : List (Except LinkError Fingerprint)} {s : MarkedSearch}

/-- **A session has the results of new linkers**, and ends in the idle state of the linker. -/
theorem session_iff (hset : LinkedSet modules finished) :
    Session modules (idle finished) ids results s ↔
      results = ids.map (fun id => ((Linker.mk modules []).link id).1) ∧
        s = idle ((Linker.mk modules finished).linkEvery ids).finished := by
  induction ids generalizing finished results with
  | nil =>
    constructor
    · intro h
      cases h
      exact ⟨rfl, rfl⟩
    · rintro ⟨rfl, rfl⟩
      exact .nil
  | cons id ids ih =>
    have hset' := Linker.linkedSet_link hset id
    have hfresh := linkModule_unique hset linkedSet_nil (Linker.isChain_start id)
    constructor
    · intro h
      cases h with
      | cons hcall hrest =>
        obtain ⟨finished', hlink, rfl⟩ := calls_iff.mp hcall
        rw [hlink] at hfresh
        have hlater : finished' = ((Linker.mk modules finished).link id).2.finished := by
          simp [Linker.link, hlink]
        obtain ⟨rfl, rfl⟩ := (ih (hlater ▸ hset')).mp hrest
        subst hlater
        exact ⟨congrArg (· :: _) hfresh, rfl⟩
    · rintro ⟨rfl, rfl⟩
      have hcall := calls_iff.mpr
        ⟨(linkModule modules [] id finished).2, Prod.ext hfresh rfl, rfl⟩
      refine .cons hcall ?_
      exact (ih hset').mpr ⟨rfl, rfl⟩

end MarkedSearch

namespace Linker

/-- **Linking does not depend on history.**  After any calls on one linker, the next call has the
result it has on a new linker; a module is linked exactly if one of the calls completes it, and it
is then linked as by a new linker; and a search with marks that makes the same calls has the same
results, with no module in progress and an empty path. -/
theorem history_independent (modules : List CompiledModule) (history : List ModuleId) :
    (∀ id, (((Linker.mk modules []).linkEvery history).link id).1 =
        ((Linker.mk modules []).link id).1) ∧
      (∀ y, (((Linker.mk modules []).linkEvery history).linked? y).isSome = true ↔
        ∃ id ∈ history, Completes modules [] id y) ∧
      (∀ y lm, ((Linker.mk modules []).linkEvery history).linked? y = some lm ↔
        (∃ id ∈ history, Completes modules [] id y) ∧
          ((Linker.mk modules []).link y).2.linked? y = some lm) ∧
      ∃ results s, (∀ results' s', MarkedSearch.Session modules (.idle []) history results' s' ↔
          results' = results ∧ s' = s) ∧
        results = history.map (fun id => ((Linker.mk modules []).link id).1) ∧
        (∀ y, s.marks y = .done ↔
          (((Linker.mk modules []).linkEvery history).linked? y).isSome = true) ∧
        (∀ y, s.marks y ≠ .inProgress) ∧ s.path = [] := by
  have hset : LinkedSet modules ((Linker.mk modules []).linkEvery history).finished :=
    linkedSet_linkEvery linkedSet_nil history
  have hsome : ∀ y, (((Linker.mk modules []).linkEvery history).linked? y).isSome = true ↔
      ∃ id ∈ history, Completes modules [] id y := by
    intro y
    rw [linked?, Option.isSome_map, Option.isSome_iff_exists,
      findRecord?_linkEvery_iff linkedSet_nil]
    simp [findRecord?]
  refine ⟨fun id => ?_, hsome, fun y lm => ?_, _, _,
    fun _ _ => MarkedSearch.session_iff linkedSet_nil, rfl, fun y => ?_,
    fun y => MarkedSearch.marks_idle_ne_inProgress, rfl⟩
  · rw [link, modules_linkEvery]
    exact linkModule_unique hset linkedSet_nil (isChain_start id)
  · rw [← hsome, Option.isSome_iff_exists]
    constructor
    · intro hlinked
      refine ⟨⟨lm, hlinked⟩, ?_⟩
      obtain ⟨r, hr, rfl⟩ := Option.map_eq_some_iff.mp hlinked
      exact linked?_link_of_linksTo (hset.links hr)
    · rintro ⟨⟨lm', hlinked⟩, hfresh⟩
      obtain ⟨r, hr, rfl⟩ := Option.map_eq_some_iff.mp hlinked
      rw [hlinked, ← hfresh, linked?_link_of_linksTo (hset.links hr)]
  · rw [MarkedSearch.idle, MarkedSearch.marks_onChain_eq_done, linked?, Option.isSome_map]

end Linker

end StackCode
