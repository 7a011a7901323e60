import Mathlib.Data.List.Chain
import Mathlib.Logic.Relation
import StackCode.Proofs.Link.Finished

/-!
# What becomes of a module

Into what a module is linked depends on the set of modules alone, not on what the linker did before.
The same holds for the error it ends with and for the modules it finishes on the way.  This module
says what these are, by the imports of the modules.

A search follows a chain of imports.  On such a chain a module cannot both be linked and fail: a
module that is linked is on no cycle, and everything it imports is linked.

## Main definitions

* `Imports`: one module imports another.
* `LinksTo`, `Linkable`: the finished form of a module.
* `FailsWith`: the error a search for a module ends with.
* `Completes`: what a search for a module finishes.

## Main results

* `LinksTo.unique`, `FailsWith.unique`, `FailsWith.not_linkable`: there is one outcome.
-/

namespace StackCode

variable {modules : List CompiledModule} {chain : List ModuleId} {id d y : ModuleId}
  {finished finished' : List LinkRecord} {r r' : LinkRecord} {cm : CompiledModule}
  {imports imports' : List Fingerprint} {e e' : LinkError}

/-- The module `id` is one of the set, and imports `d`. -/
def Imports (modules : List CompiledModule) (id d : ModuleId) : Prop :=
  ∃ cm, findModule? modules id = some cm ∧ d ∈ cm.imports

/-- The module is finished, with this fingerprint. -/
def FinishedAs (finished : List LinkRecord) (id : ModuleId) (fingerprint : Fingerprint) : Prop :=
  ∃ r, findRecord? finished id = some r ∧ r.linked.fingerprint = fingerprint

/-! ### Finishing a module -/

namespace CompiledModule

/-- The import closure of a module, from those of its finished imports. -/
def closureIn (m : CompiledModule) (finished : List LinkRecord) : List ModuleId :=
  m.imports.foldl (fun set dependency =>
    match findRecord? finished dependency with
    | some r => insertAll set r.closure
    | none => set) [m.module]

theorem fixupToken?_congr {offsets offsets' : ModuleId → Option (Array Nat)}
    (h : ∀ d ∈ cm.imports, offsets d = offsets' d) (f : Fixup) :
    cm.fixupToken? offsets f = cm.fixupToken? offsets' f := by
  unfold fixupToken?
  cases hd : cm.imports[f.slot.toNat]? with
  | none => rfl
  | some d => simp [h d (List.mem_of_getElem? hd)]

/-- Linking a module asks for the offsets of its imports only. -/
theorem link_congr {count : UInt8} {offsets offsets' : ModuleId → Option (Array Nat)}
    (h : ∀ d ∈ cm.imports, offsets d = offsets' d) :
    cm.link imports count offsets = cm.link imports count offsets' := by
  have htokens : ∀ image, cm.writeTokens offsets image = cm.writeTokens offsets' image := by
    intro image
    simp only [writeTokens, fixupToken?_congr h]
  simp only [link, htokens]

end CompiledModule

/-- A module is finished if it reaches few enough modules and is filled in. -/
theorem finishModule_eq :
    finishModule cm imports finished =
      if (cm.closureIn finished).length < 256 then do
        let linked ← cm.link imports (UInt8.ofNat (cm.closureIn finished).length)
          fun id => (findRecord? finished id).map fun r => r.linked.functionOffsets
        return ⟨linked, cm.closureIn finished⟩
      else .error (.moduleCountOverflow cm.module (cm.closureIn finished).length) :=
  rfl

/-- Finishing a module reads the finished forms of its imports and nothing else. -/
theorem finishModule_congr
    (h : ∀ d ∈ cm.imports, findRecord? finished d = findRecord? finished' d) :
    finishModule cm imports finished = finishModule cm imports finished' := by
  have hclosure : cm.closureIn finished = cm.closureIn finished' := by
    refine List.foldl_ext _ _ _ fun set d hd => ?_
    rw [h d hd]
  rw [finishModule_eq, finishModule_eq, hclosure,
    CompiledModule.link_congr fun d hd => by rw [h d hd]]

/-- Imports finished in two ways that agree have the same fingerprints. -/
theorem fingerprints_unique {ids : List ModuleId}
    (h : List.Forall₂ (FinishedAs finished) ids imports)
    (h' : List.Forall₂ (FinishedAs finished') ids imports')
    (hsame : ∀ d ∈ ids, findRecord? finished d = findRecord? finished' d) : imports = imports' := by
  induction h generalizing imports' with
  | nil =>
    cases h'
    rfl
  | @cons d fingerprint ids imports hd _ ih =>
    cases h' with
    | cons hd' hrest' =>
      obtain ⟨r, hr, rfl⟩ := hd
      obtain ⟨r', hr', rfl⟩ := hd'
      rw [hsame d List.mem_cons_self, hr'] at hr
      cases hr
      rw [ih hrest' fun d hd => hsame d (List.mem_cons_of_mem _ hd)]

/-- The imports of a module are finished. -/
theorem findRecord?_of_finishedAs (h : List.Forall₂ (FinishedAs finished) cm.imports imports)
    (hd : d ∈ cm.imports) : ∃ r, findRecord? finished d = some r := by
  obtain ⟨i, hi, hget⟩ := List.getElem_of_mem hd
  obtain ⟨_, _, r, hr, _⟩ := getElem?_of_forall₂ h (List.getElem?_eq_some_iff.mpr ⟨hi, hget⟩)
  exact ⟨r, hr⟩

/-- **How a module is finished is determined** by the finished forms of its imports. -/
theorem finishModule_unique (h : List.Forall₂ (FinishedAs finished) cm.imports imports)
    (h' : List.Forall₂ (FinishedAs finished') cm.imports imports')
    (hsame : ∀ d ∈ cm.imports, ∀ r r', findRecord? finished d = some r →
      findRecord? finished' d = some r' → r = r') :
    finishModule cm imports finished = finishModule cm imports' finished' := by
  have hfound : ∀ d ∈ cm.imports, findRecord? finished d = findRecord? finished' d := by
    intro d hd
    obtain ⟨r, hr⟩ := findRecord?_of_finishedAs h hd
    obtain ⟨r', hr'⟩ := findRecord?_of_finishedAs h' hd
    rw [hr, hr', hsame d hd r r' hr hr']
  rw [fingerprints_unique h h' hfound, finishModule_congr hfound]

/-! ### The outcomes -/

/-- The module is one of the set, its imports can be linked, and it is finished from them as `r`. -/
inductive LinksTo (modules : List CompiledModule) : ModuleId → LinkRecord → Prop
  | finish {id : ModuleId} {cm : CompiledModule} {imports : List Fingerprint}
      {finished : List LinkRecord} {r : LinkRecord} (hcm : findModule? modules id = some cm)
      (himports : List.Forall₂ (FinishedAs finished) cm.imports imports)
      (hlinks : ∀ d ∈ cm.imports, ∀ r, findRecord? finished d = some r → LinksTo modules d r)
      (hr : finishModule cm imports finished = .ok r) : LinksTo modules id r

/-- The module can be linked. -/
def Linkable (modules : List CompiledModule) (id : ModuleId) : Prop := ∃ r, LinksTo modules id r

/-- The search for a module, along a chain of modules each of which imports the next, ends with an
error: the module is not in the set, it is on the chain, one of its imports fails after others that
can be linked, or it cannot be finished. -/
inductive FailsWith (modules : List CompiledModule) : List ModuleId → ModuleId → LinkError → Prop
  | unknown {chain : List ModuleId} {id : ModuleId} (hcm : findModule? modules id = none) :
      FailsWith modules chain id (.unknownModule id)
  | circular {chain : List ModuleId} {id : ModuleId} {cm : CompiledModule}
      (hcm : findModule? modules id = some cm) (hchain : id ∈ chain) :
      FailsWith modules chain id (circular chain id)
  | dependency {chain : List ModuleId} {id d : ModuleId} {cm : CompiledModule}
      {before after : List ModuleId} {e : LinkError} (hcm : findModule? modules id = some cm)
      (hchain : id ∉ chain) (himports : cm.imports = before ++ d :: after)
      (hbefore : ∀ b ∈ before, Linkable modules b)
      (hfails : FailsWith modules (chain ++ [id]) d e) :
      FailsWith modules chain id e
  | finish {chain : List ModuleId} {id : ModuleId} {cm : CompiledModule}
      {imports : List Fingerprint} {finished : List LinkRecord} {e : LinkError}
      (hcm : findModule? modules id = some cm) (hchain : id ∉ chain)
      (himports : List.Forall₂ (FinishedAs finished) cm.imports imports)
      (hlinks : ∀ d ∈ cm.imports, ∀ r, findRecord? finished d = some r → LinksTo modules d r)
      (he : finishModule cm imports finished = .error e) : FailsWith modules chain id e

/-- The search for a module, along a chain, finishes a module: the module itself if it can be
linked, and what the search for one of its imports finishes, if those before can be linked. -/
inductive Completes (modules : List CompiledModule) : List ModuleId → ModuleId → ModuleId → Prop
  | self {chain : List ModuleId} {id : ModuleId} (hlink : Linkable modules id) :
      Completes modules chain id id
  | dependency {chain : List ModuleId} {id d y : ModuleId} {cm : CompiledModule}
      {before after : List ModuleId} (hcm : findModule? modules id = some cm) (hchain : id ∉ chain)
      (himports : cm.imports = before ++ d :: after) (hbefore : ∀ b ∈ before, Linkable modules b)
      (hcompletes : Completes modules (chain ++ [id]) d y) : Completes modules chain id y

/-! ### Modules that can be linked -/

/-- **There is one finished form** of a module. -/
theorem LinksTo.unique (h : LinksTo modules id r) (h' : LinksTo modules id r') : r = r' := by
  induction h generalizing r' with
  | @finish id cm imports finished r hcm himports hlinks hr ih =>
    cases h' with
    | finish hcm' himports' hlinks' hr' =>
      cases hcm.symm.trans hcm'
      have hsame := finishModule_unique himports himports' fun d hd r r' hfound hfound' =>
        ih d hd r hfound (hlinks' d hd r' hfound')
      exact Except.ok.inj (hr.symm.trans (hsame.trans hr'))

theorem LinksTo.module_eq (h : LinksTo modules id r) : r.linked.module = id := by
  cases h with
  | finish hcm _ _ hr => exact (module_of_finishModule hr).trans (module_of_findModule? hcm)

theorem Linkable.known (h : Linkable modules id) : ∃ cm, findModule? modules id = some cm := by
  obtain ⟨r, h⟩ := h
  cases h with
  | finish hcm => exact ⟨_, hcm⟩

/-- What a linkable module imports can be linked. -/
theorem Linkable.of_imports (h : Linkable modules id) (himport : Imports modules id d) :
    Linkable modules d := by
  obtain ⟨r, h⟩ := h
  obtain ⟨cm, hcm, hd⟩ := himport
  cases h with
  | finish hcm' himports hlinks =>
    cases hcm.symm.trans hcm'
    obtain ⟨r, hr⟩ := findRecord?_of_finishedAs himports hd
    exact ⟨r, hlinks d hd r hr⟩

/-- What a linkable module reaches can be linked. -/
theorem Linkable.reaches (h : Linkable modules id)
    (hreach : Relation.ReflTransGen (Imports modules) id y) : Linkable modules y := by
  induction hreach with
  | refl => exact h
  | tail _ himport ih => exact ih.of_imports himport

/-- **A module that can be linked is on no cycle.**  The first module after it on the cycle would be
on a cycle as well. -/
theorem Linkable.not_cycle (h : Linkable modules id) :
    ¬ Relation.TransGen (Imports modules) id id := by
  obtain ⟨r, h⟩ := h
  induction h with
  | @finish id cm imports finished r hcm himports hlinks hr ih =>
    intro hcycle
    obtain ⟨d, himport, hback⟩ := Relation.TransGen.head'_iff.mp hcycle
    obtain ⟨cm', hcm', hmem⟩ := himport
    cases hcm.symm.trans hcm'
    obtain ⟨r, hr⟩ := findRecord?_of_finishedAs himports hmem
    exact ih d hmem r hr (.tail' hback ⟨cm, hcm, hmem⟩)

/-! ### Modules that fail -/

/-- The ends of a chain are related by steps of it. -/
theorem transGen_of_isChain {x : ModuleId} {l : List ModuleId} {R : ModuleId → ModuleId → Prop}
    (h : List.IsChain R (x :: (l ++ [y]))) : Relation.TransGen R x y := by
  induction l generalizing x with
  | nil => exact .single (List.isChain_pair.mp h)
  | cons z l ih =>
    rw [List.cons_append, List.isChain_cons_cons] at h
    exact .head h.1 (ih h.2)

/-- A chain that comes back to one of its modules has a cycle. -/
theorem cycle_of_mem_chain (h : List.IsChain (Imports modules) (chain ++ [id])) (hid : id ∈ chain) :
    Relation.TransGen (Imports modules) id id := by
  obtain ⟨front, back, rfl⟩ := List.append_of_mem hid
  rw [List.append_assoc, List.cons_append] at h
  exact transGen_of_isChain h.right_of_append

theorem isChain_import (h : List.IsChain (Imports modules) (chain ++ [id]))
    (himport : Imports modules id d) :
    List.IsChain (Imports modules) (chain ++ [id] ++ [d]) := by
  refine h.append (.singleton d) fun a ha b hb => ?_
  rw [List.getLast?_concat] at ha
  cases ha
  cases hb
  exact himport

theorem imports_of_eq {before after : List ModuleId} (hcm : findModule? modules id = some cm)
    (himports : cm.imports = before ++ d :: after) : Imports modules id d :=
  ⟨cm, hcm, himports ▸ List.mem_append_right _ List.mem_cons_self⟩

/-- **A module that fails cannot be linked.** -/
theorem FailsWith.not_linkable (h : FailsWith modules chain id e)
    (hchain : List.IsChain (Imports modules) (chain ++ [id])) : ¬ Linkable modules id := by
  induction h with
  | unknown hcm =>
    intro hlink
    obtain ⟨cm, hcm'⟩ := hlink.known
    cases hcm.symm.trans hcm'
  | circular _ hmem =>
    intro hlink
    exact hlink.not_cycle (cycle_of_mem_chain hchain hmem)
  | dependency hcm _ himports _ _ ih =>
    intro hlink
    have himport := imports_of_eq hcm himports
    exact ih (isChain_import hchain himport) (hlink.of_imports himport)
  | finish hcm _ himports hlinks he =>
    rintro ⟨r, hr⟩
    cases hr with
    | finish hcm' himports' hlinks' hr =>
      cases hcm.symm.trans hcm'
      have hsame := finishModule_unique himports himports' fun d hd r r' hfound hfound' =>
        (hlinks d hd r hfound).unique (hlinks' d hd r' hfound')
      cases he.symm.trans (hsame.trans hr)

/-- Two ways to take a list apart at an element, with what comes before all in a set that leaves out
the element, are the same. -/
theorem split_unique {P : ModuleId → Prop} {before before' after after' : List ModuleId}
    {a a' : ModuleId} (h : before ++ a :: after = before' ++ a' :: after')
    (hbefore : ∀ b ∈ before, P b) (hbefore' : ∀ b ∈ before', P b) (ha : ¬ P a) (ha' : ¬ P a') :
    a = a' := by
  rcases List.append_eq_append_iff.mp h with ⟨l, rfl, hl⟩ | ⟨l, rfl, hl⟩
  · cases l with
    | nil => exact (List.cons.inj hl).1
    | cons b l =>
      cases hl
      exact absurd (hbefore' a (List.mem_append_right _ List.mem_cons_self)) ha
  · cases l with
    | nil => exact (List.cons.inj hl).1.symm
    | cons b l =>
      cases hl
      exact absurd (hbefore a' (List.mem_append_right _ List.mem_cons_self)) ha'

/-- **A module fails with one error.**  Every search fails at the first import that cannot be
linked. -/
theorem FailsWith.unique (h : FailsWith modules chain id e) (h' : FailsWith modules chain id e')
    (hchain : List.IsChain (Imports modules) (chain ++ [id])) : e = e' := by
  induction h generalizing e' with
  | unknown hcm =>
    cases h' with
    | unknown => rfl
    | circular hcm' | dependency hcm' | finish hcm' => cases hcm.symm.trans hcm'
  | circular hcm hmem =>
    cases h' with
    | unknown hcm' => cases hcm.symm.trans hcm'
    | circular => rfl
    | dependency _ hnot | finish _ hnot => exact absurd hmem hnot
  | @dependency chain id d cm before after e hcm hnot himports hbefore hfails ih =>
    have himport := imports_of_eq hcm himports
    have hchain' := isChain_import hchain himport
    have hd := hfails.not_linkable hchain'
    cases h' with
    | unknown hcm' => cases hcm.symm.trans hcm'
    | circular _ hmem => exact absurd hmem hnot
    | @dependency _ _ d' cm' before' after' _ hcm' _ himports' hbefore' hfails' =>
      cases hcm.symm.trans hcm'
      have hd' := hfails'.not_linkable (isChain_import hchain (imports_of_eq hcm himports'))
      obtain rfl := split_unique (himports.symm.trans himports') hbefore hbefore' hd hd'
      exact ih hfails' hchain'
    | finish hcm' _ himports' hlinks' =>
      cases hcm.symm.trans hcm'
      have hmem : d ∈ cm.imports := himports ▸ List.mem_append_right _ List.mem_cons_self
      obtain ⟨r, hr⟩ := findRecord?_of_finishedAs himports' hmem
      exact absurd ⟨r, hlinks' d hmem r hr⟩ hd
  | @finish chain id cm imports finished e hcm hnot himports hlinks he =>
    cases h' with
    | unknown hcm' => cases hcm.symm.trans hcm'
    | circular _ hmem => exact absurd hmem hnot
    | @dependency _ _ d cm' before after _ hcm' _ himports' hbefore' hfails' =>
      cases hcm.symm.trans hcm'
      have himport := imports_of_eq hcm himports'
      have hmem : d ∈ cm.imports := himports' ▸ List.mem_append_right _ List.mem_cons_self
      obtain ⟨r, hr⟩ := findRecord?_of_finishedAs himports hmem
      exact absurd ⟨r, hlinks d hmem r hr⟩ (hfails'.not_linkable (isChain_import hchain himport))
    | finish hcm' _ himports' hlinks' he' =>
      cases hcm.symm.trans hcm'
      have hsame := finishModule_unique himports himports' fun d hd r r' hfound hfound' =>
        (hlinks d hd r hfound).unique (hlinks' d hd r' hfound')
      exact Except.error.inj (he.symm.trans (hsame.trans he'))

end StackCode
