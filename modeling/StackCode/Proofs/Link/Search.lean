import StackCode.Proofs.Link.Outcome

/-!
# The linker finds the outcome

The linker keeps what it has finished, so a search finds some modules finished and others not.  What
is finished is always the finished form of a module, with all that the module imports finished too.
From such a state, a search ends with the outcome of the module and finishes what the search
completes, whatever was finished before.

## Main definitions

* `LinkCase`, `ImportsCase`: what one call of the search does.
* `LinkedSet`: finished modules that are what they should be.
* `LinkOutcome`, `ImportsOutcome`: what a search finds and what it adds.

## Main results

* `linkModule_outcome`, `linkImports_outcome`: the outcome of every search.
* `linkModule_unique`: the result of a search does not depend on what was finished before.
* `findRecord?_of_completes`: a search finishes everything it completes.
-/

namespace StackCode

variable {modules : List CompiledModule} {chain : List ModuleId} {id d y : ModuleId}
  {finished finished' mid : List LinkRecord} {r r' : LinkRecord} {cm : CompiledModule}
  {e : LinkError}

/-! ### What one call does -/

/-- What linking a module does: the module is missing, finished or on the chain; or its imports are
linked, which may fail, and then it is finished, which may fail as well. -/
inductive LinkCase (modules : List CompiledModule) (chain : List ModuleId) (id : ModuleId)
    (finished : List LinkRecord) : Except LinkError Fingerprint → List LinkRecord → Prop
  | unknown (hcm : findModule? modules id = none) :
      LinkCase modules chain id finished (.error (.unknownModule id)) finished
  | found {cm : CompiledModule} {r : LinkRecord} (hcm : findModule? modules id = some cm)
      (hr : findRecord? finished id = some r) :
      LinkCase modules chain id finished (.ok r.linked.fingerprint) finished
  | circular {cm : CompiledModule} (hcm : findModule? modules id = some cm)
      (hnone : findRecord? finished id = none) (hchain : id ∈ chain) :
      LinkCase modules chain id finished (.error (circular chain id)) finished
  | dependency {cm : CompiledModule} {mid : List LinkRecord} {e : LinkError}
      (hcm : findModule? modules id = some cm) (hnone : findRecord? finished id = none)
      (hchain : id ∉ chain)
      (himports : linkImports modules (chain ++ [id]) cm.imports finished = (.error e, mid)) :
      LinkCase modules chain id finished (.error e) mid
  | finish {cm : CompiledModule} {mid : List LinkRecord} {imports : List Fingerprint}
      {e : LinkError} (hcm : findModule? modules id = some cm)
      (hnone : findRecord? finished id = none) (hchain : id ∉ chain)
      (himports : linkImports modules (chain ++ [id]) cm.imports finished = (.ok imports, mid))
      (he : finishModule cm imports mid = .error e) :
      LinkCase modules chain id finished (.error e) mid
  | linked {cm : CompiledModule} {mid : List LinkRecord} {imports : List Fingerprint}
      {r : LinkRecord} (hcm : findModule? modules id = some cm)
      (hnone : findRecord? finished id = none) (hchain : id ∉ chain)
      (himports : linkImports modules (chain ++ [id]) cm.imports finished = (.ok imports, mid))
      (hr : finishModule cm imports mid = .ok r) :
      LinkCase modules chain id finished (.ok r.linked.fingerprint) (r :: mid)

/-- Linking a module ends in one of these cases. -/
theorem linkModule_case {result : Except LinkError Fingerprint}
    (h : linkModule modules chain id finished = (result, finished')) :
    LinkCase modules chain id finished result finished' := by
  unfold linkModule at h
  split at h
  · rename_i hcm
    cases h
    exact .unknown hcm
  rename_i cm hcm
  split at h
  · rename_i r hr
    cases h
    exact .found hcm hr
  rename_i hnone
  split at h
  · rename_i hchain
    cases h
    exact .circular hcm hnone hchain
  rename_i hchain
  split at h
  · rename_i e mid himports
    cases h
    exact .dependency hcm hnone hchain himports
  rename_i imports mid himports
  split at h
  · rename_i e he
    cases h
    exact .finish hcm hnone hchain himports he
  · rename_i r hr
    cases h
    exact .linked hcm hnone hchain himports hr

/-- Each case determines what linking the module does. -/
theorem LinkCase.linkModule_eq {result : Except LinkError Fingerprint}
    (h : LinkCase modules chain id finished result finished') :
    linkModule modules chain id finished = (result, finished') := by
  unfold linkModule
  split
  · rename_i hmissing
    cases h with
    | unknown => rfl
    | found hcm | circular hcm | dependency hcm | finish hcm | linked hcm =>
      cases hmissing.symm.trans hcm
  · rename_i cm hcm
    cases h with
    | unknown hcm' => cases hcm.symm.trans hcm'
    | found _ hr => simp only [hr]
    | circular _ hnone hchain => simp only [hnone, dif_pos hchain]
    | dependency hcm' hnone hchain himports =>
      cases hcm.symm.trans hcm'
      simp only [hnone, dif_neg hchain, himports]
    | finish hcm' hnone hchain himports he =>
      cases hcm.symm.trans hcm'
      simp only [hnone, dif_neg hchain, himports, he]
    | linked hcm' hnone hchain himports hr =>
      cases hcm.symm.trans hcm'
      simp only [hnone, dif_neg hchain, himports, hr]

/-- What linking imports does: one after the other is linked, up to the first that fails. -/
inductive ImportsCase (modules : List CompiledModule) (chain : List ModuleId)
    (finished : List LinkRecord) :
    List ModuleId → Except LinkError (List Fingerprint) → List LinkRecord → Prop
  | nil : ImportsCase modules chain finished [] (.ok []) finished
  | fails {d : ModuleId} {rest : List ModuleId} {mid : List LinkRecord} {e : LinkError}
      (hd : linkModule modules chain d finished = (.error e, mid)) :
      ImportsCase modules chain finished (d :: rest) (.error e) mid
  | later {d : ModuleId} {rest : List ModuleId} {mid finished' : List LinkRecord}
      {fingerprint : Fingerprint} {e : LinkError}
      (hd : linkModule modules chain d finished = (.ok fingerprint, mid))
      (hrest : linkImports modules chain rest mid = (.error e, finished')) :
      ImportsCase modules chain finished (d :: rest) (.error e) finished'
  | cons {d : ModuleId} {rest : List ModuleId} {mid finished' : List LinkRecord}
      {fingerprint : Fingerprint} {fingerprints : List Fingerprint}
      (hd : linkModule modules chain d finished = (.ok fingerprint, mid))
      (hrest : linkImports modules chain rest mid = (.ok fingerprints, finished')) :
      ImportsCase modules chain finished (d :: rest) (.ok (fingerprint :: fingerprints)) finished'

/-- Linking imports ends in one of these cases. -/
theorem linkImports_case {ids : List ModuleId} {result : Except LinkError (List Fingerprint)}
    (h : linkImports modules chain ids finished = (result, finished')) :
    ImportsCase modules chain finished ids result finished' := by
  cases ids with
  | nil =>
    rw [linkImports] at h
    cases h
    exact .nil
  | cons d rest =>
    rw [linkImports] at h
    split at h
    · rename_i e mid hd
      cases h
      exact .fails hd
    rename_i fingerprint mid hd
    split at h
    · rename_i e finished' hrest
      cases h
      exact .later hd hrest
    · rename_i fingerprints finished' hrest
      cases h
      exact .cons hd hrest

/-! ### Finished modules -/

/-- Every finished module is what it is linked to, and its imports are finished. -/
structure LinkedSet (modules : List CompiledModule) (finished : List LinkRecord) : Prop where
  links : ∀ {id r}, findRecord? finished id = some r → LinksTo modules id r
  closed : ∀ {id r d}, findRecord? finished id = some r → Imports modules id d →
    ∃ r', findRecord? finished d = some r'

theorem linkedSet_nil : LinkedSet modules [] := by
  constructor <;> intros <;> contradiction

/-- What a finished module reaches is finished. -/
theorem LinkedSet.reaches (h : LinkedSet modules finished) (hr : findRecord? finished id = some r)
    (hreach : Relation.ReflTransGen (Imports modules) id y) :
    ∃ r', findRecord? finished y = some r' := by
  induction hreach with
  | refl => exact ⟨r, hr⟩
  | tail _ himport ih =>
    obtain ⟨r', hr'⟩ := ih
    exact h.closed hr' himport

section Push

variable {imports : List Fingerprint} (hset : LinkedSet modules mid)
  (hcm : findModule? modules id = some cm)
  (himports : List.Forall₂ (FinishedAs mid) cm.imports imports)
  (hr : finishModule cm imports mid = .ok r)

include hset hcm himports hr

theorem LinkedSet.linksTo_push : LinksTo modules id r :=
  .finish hcm himports (fun _ _ _ hfound => hset.links hfound) hr

/-- What was found before a module is finished is found after it. -/
theorem LinkedSet.kept_push (hy : findRecord? mid y = some r') :
    findRecord? (r :: mid) y = some r' := by
  have hlinks := hset.linksTo_push hcm himports hr
  by_cases hid : r.linked.module = y
  · rw [findRecord?_cons_self hid]
    rw [hlinks.module_eq] at hid
    subst hid
    rw [hlinks.unique (hset.links hy)]
  · rw [findRecord?_cons_ne hid]
    exact hy

theorem LinkedSet.push : LinkedSet modules (r :: mid) := by
  have hlinks := hset.linksTo_push hcm himports hr
  constructor
  · intro y r' hy
    by_cases hid : r.linked.module = y
    · rw [findRecord?_cons_self hid] at hy
      cases hy
      rw [hlinks.module_eq] at hid
      exact hid ▸ hlinks
    · rw [findRecord?_cons_ne hid] at hy
      exact hset.links hy
  · intro y r' d hy himport
    have hfound : ∃ r', findRecord? mid d = some r' := by
      by_cases hid : r.linked.module = y
      · rw [hlinks.module_eq] at hid
        subst hid
        obtain ⟨cm', hcm', hd⟩ := himport
        cases hcm.symm.trans hcm'
        exact findRecord?_of_finishedAs himports hd
      · rw [findRecord?_cons_ne hid] at hy
        exact hset.closed hy himport
    obtain ⟨r'', hr''⟩ := hfound
    exact ⟨r'', hset.kept_push hcm himports hr hr''⟩

end Push

/-! ### The outcome of a search -/

/-- What the search for a module finds and what it adds to the finished modules. -/
structure LinkOutcome (modules : List CompiledModule) (chain : List ModuleId) (id : ModuleId)
    (finished : List LinkRecord) (result : Except LinkError Fingerprint)
    (finished' : List LinkRecord) : Prop where
  linkedSet : LinkedSet modules finished'
  kept : ∀ {y r}, findRecord? finished y = some r → findRecord? finished' y = some r
  ok : ∀ fingerprint, result = .ok fingerprint → FinishedAs finished' id fingerprint
  error : ∀ e, result = .error e → FailsWith modules chain id e
  added : ∀ {y r}, findRecord? finished' y = some r →
    findRecord? finished y = some r ∨ Completes modules chain id y

/-- One of the modules, with those before it linkable, has a property. -/
def FirstImport (modules : List CompiledModule) (ids : List ModuleId) (P : ModuleId → Prop) :
    Prop :=
  ∃ before d after, ids = before ++ d :: after ∧ (∀ b ∈ before, Linkable modules b) ∧ P d

theorem FirstImport.head {rest : List ModuleId} {P : ModuleId → Prop} (h : P d) :
    FirstImport modules (d :: rest) P :=
  ⟨[], d, rest, rfl, List.forall_mem_nil _, h⟩

/-- The first import that fails is among the rest if this one can be linked. -/
theorem FirstImport.tail {rest : List ModuleId} {P : ModuleId → Prop} (hd : Linkable modules d)
    (h : FirstImport modules rest P) : FirstImport modules (d :: rest) P := by
  obtain ⟨before, d', after, rfl, hbefore, h⟩ := h
  refine ⟨d :: before, d', after, rfl, fun b hb => ?_, h⟩
  rcases List.mem_cons.mp hb with rfl | hb
  · exact hd
  · exact hbefore b hb

/-- What the search for imports finds and what it adds to the finished modules. -/
structure ImportsOutcome (modules : List CompiledModule) (chain ids : List ModuleId)
    (finished : List LinkRecord) (result : Except LinkError (List Fingerprint))
    (finished' : List LinkRecord) : Prop where
  linkedSet : LinkedSet modules finished'
  kept : ∀ {y r}, findRecord? finished y = some r → findRecord? finished' y = some r
  ok : ∀ fingerprints, result = .ok fingerprints →
    List.Forall₂ (FinishedAs finished') ids fingerprints
  error : ∀ e, result = .error e → FirstImport modules ids fun d => FailsWith modules chain d e
  added : ∀ {y r}, findRecord? finished' y = some r → findRecord? finished y = some r ∨
    FirstImport modules ids fun d => Completes modules chain d y

theorem LinkOutcome.linkable {fingerprint : Fingerprint}
    (h : LinkOutcome modules chain id finished (.ok fingerprint) finished') :
    Linkable modules id := by
  obtain ⟨r, hr, -⟩ := h.ok fingerprint rfl
  exact ⟨r, h.linkedSet.links hr⟩

/-- The outcome of a module from that of its imports. -/
theorem ImportsOutcome.added_dependency {result : Except LinkError (List Fingerprint)}
    (h : ImportsOutcome modules (chain ++ [id]) cm.imports finished result mid)
    (hcm : findModule? modules id = some cm) (hchain : id ∉ chain)
    (hy : findRecord? mid y = some r) :
    findRecord? finished y = some r ∨ Completes modules chain id y := by
  rcases h.added hy with hy | ⟨before, d, after, himports, hbefore, hcompletes⟩
  · exact .inl hy
  · exact .inr (.dependency hcm hchain himports hbefore hcompletes)

mutual

/-- **The linker finds the outcome** of a module, from any finished modules. -/
theorem linkModule_outcome {modules : List CompiledModule} {chain : List ModuleId} {id : ModuleId}
    {finished finished' : List LinkRecord} {result : Except LinkError Fingerprint}
    (hset : LinkedSet modules finished)
    (h : linkModule modules chain id finished = (result, finished')) :
    LinkOutcome modules chain id finished result finished' := by
  cases linkModule_case h with
  | unknown hcm =>
    refine ⟨hset, fun hy => hy, nofun, fun e he => ?_, fun hy => .inl hy⟩
    cases he
    exact .unknown hcm
  | found hcm hr =>
    refine ⟨hset, fun hy => hy, fun fingerprint hok => ?_, nofun, fun hy => .inl hy⟩
    cases hok
    exact ⟨_, hr, rfl⟩
  | circular hcm hnone hchain =>
    refine ⟨hset, fun hy => hy, nofun, fun e he => ?_, fun hy => .inl hy⟩
    cases he
    exact .circular hcm hchain
  | dependency hcm hnone hchain himports =>
    have hshrinks := offChain_append_lt (mem_map_of_findModule? hcm) hchain
    have houtcome := linkImports_outcome hset himports
    refine ⟨houtcome.linkedSet, houtcome.kept, nofun, fun e he => ?_,
      houtcome.added_dependency hcm hchain⟩
    cases he
    obtain ⟨before, d, after, hsplit, hbefore, hfails⟩ := houtcome.error _ rfl
    exact .dependency hcm hchain hsplit hbefore hfails
  | finish hcm hnone hchain himports he =>
    have hshrinks := offChain_append_lt (mem_map_of_findModule? hcm) hchain
    have houtcome := linkImports_outcome hset himports
    refine ⟨houtcome.linkedSet, houtcome.kept, nofun, fun e' he' => ?_,
      houtcome.added_dependency hcm hchain⟩
    cases he'
    exact .finish hcm hchain (houtcome.ok _ rfl)
      (fun _ _ _ hfound => houtcome.linkedSet.links hfound) he
  | @linked cm mid imports r hcm hnone hchain himports hr =>
    have hshrinks := offChain_append_lt (mem_map_of_findModule? hcm) hchain
    have houtcome := linkImports_outcome hset himports
    have hfound := houtcome.ok _ rfl
    have hlinks := houtcome.linkedSet.linksTo_push hcm hfound hr
    refine ⟨houtcome.linkedSet.push hcm hfound hr,
      fun hy => houtcome.linkedSet.kept_push hcm hfound hr (houtcome.kept hy),
      fun fingerprint hok => ?_, nofun, fun {y r'} hy => ?_⟩
    · cases hok
      exact ⟨r, findRecord?_cons_self hlinks.module_eq, rfl⟩
    · by_cases hid : r.linked.module = y
      · rw [hlinks.module_eq] at hid
        subst hid
        exact .inr (.self ⟨r, hlinks⟩)
      · rw [findRecord?_cons_ne hid] at hy
        exact houtcome.added_dependency hcm hchain hy
termination_by (offChain (modules.map CompiledModule.module) chain, 0)
decreasing_by all_goals exact .left _ _ hshrinks

/-- The linker finds the outcome of the imports of a module. -/
theorem linkImports_outcome {modules : List CompiledModule} {chain ids : List ModuleId}
    {finished finished' : List LinkRecord} {result : Except LinkError (List Fingerprint)}
    (hset : LinkedSet modules finished)
    (h : linkImports modules chain ids finished = (result, finished')) :
    ImportsOutcome modules chain ids finished result finished' := by
  match ids, h with
  | [], h =>
    cases linkImports_case h
    refine ⟨hset, fun hy => hy, fun fingerprints hok => ?_, nofun, fun hy => .inl hy⟩
    cases hok
    exact .nil
  | d :: rest, h =>
    cases linkImports_case h with
    | fails hd =>
      have hfirst := linkModule_outcome hset hd
      refine ⟨hfirst.linkedSet, hfirst.kept, nofun, fun e he => ?_, fun hy => ?_⟩
      · cases he
        exact .head (hfirst.error _ rfl)
      · exact (hfirst.added hy).imp_right .head
    | later hd hrest =>
      have hfirst := linkModule_outcome hset hd
      have hlater := linkImports_outcome hfirst.linkedSet hrest
      refine ⟨hlater.linkedSet, fun hy => hlater.kept (hfirst.kept hy), nofun, fun e he => ?_,
        fun hy => ?_⟩
      · exact .tail hfirst.linkable (hlater.error e he)
      · rcases hlater.added hy with hy | hlater
        · exact (hfirst.added hy).imp_right .head
        · exact .inr (.tail hfirst.linkable hlater)
    | cons hd hrest =>
      have hfirst := linkModule_outcome hset hd
      have hlater := linkImports_outcome hfirst.linkedSet hrest
      refine ⟨hlater.linkedSet, fun hy => hlater.kept (hfirst.kept hy), fun fingerprints hok => ?_,
        nofun, fun hy => ?_⟩
      · cases hok
        obtain ⟨r, hr, hfingerprint⟩ := hfirst.ok _ rfl
        exact .cons ⟨r, hlater.kept hr, hfingerprint⟩ (hlater.ok _ rfl)
      · rcases hlater.added hy with hy | hlater
        · exact (hfirst.added hy).imp_right .head
        · exact .inr (.tail hfirst.linkable hlater)
termination_by (offChain (modules.map CompiledModule.module) chain, ids.length)
decreasing_by all_goals exact .right _ (by simp)

end

/-- A module that can be linked is linked. -/
theorem linkModule_of_linkable (hset : LinkedSet modules finished)
    (hchain : List.IsChain (Imports modules) (chain ++ [id])) (hlink : Linkable modules id) :
    ∃ fingerprint, (linkModule modules chain id finished).1 = .ok fingerprint := by
  cases h : linkModule modules chain id finished with
  | mk result finished' =>
    cases result with
    | ok fingerprint => exact ⟨fingerprint, rfl⟩
    | error e => exact absurd hlink (((linkModule_outcome hset h).error e rfl).not_linkable hchain)

/-- **The result of a search does not depend on what was finished before.** -/
theorem linkModule_unique (hset : LinkedSet modules finished) (hset' : LinkedSet modules finished')
    (hchain : List.IsChain (Imports modules) (chain ++ [id])) :
    (linkModule modules chain id finished).1 = (linkModule modules chain id finished').1 := by
  rcases h : linkModule modules chain id finished with ⟨result, after⟩
  rcases h' : linkModule modules chain id finished' with ⟨result', after'⟩
  have houtcome := linkModule_outcome hset h
  have houtcome' := linkModule_outcome hset' h'
  rcases result with e | fingerprint <;> rcases result' with e' | fingerprint'
  · rw [(houtcome.error e rfl).unique (houtcome'.error e' rfl) hchain]
  · exact absurd houtcome'.linkable ((houtcome.error e rfl).not_linkable hchain)
  · exact absurd houtcome.linkable ((houtcome'.error e' rfl).not_linkable hchain)
  · obtain ⟨r, hr, rfl⟩ := houtcome.ok _ rfl
    obtain ⟨r', hr', rfl⟩ := houtcome'.ok _ rfl
    rw [(houtcome.linkedSet.links hr).unique (houtcome'.linkedSet.links hr')]

/-! ### What a search completes -/

/-- The search completes modules that it reaches. -/
theorem Completes.reaches (h : Completes modules chain id y) :
    Relation.ReflTransGen (Imports modules) id y := by
  induction h with
  | self => exact .refl
  | dependency hcm _ himports _ _ ih => exact .head (imports_of_eq hcm himports) ih

theorem Completes.linkable (h : Completes modules chain id y) : Linkable modules y := by
  induction h with
  | self hlink => exact hlink
  | dependency _ _ _ _ _ ih => exact ih

/-- What the search for an import finishes is finished by the search for the imports, if those
before can be linked. -/
theorem findRecord?_of_imports {before after : List ModuleId} (hset : LinkedSet modules finished)
    (hchain : ∀ b ∈ before ++ d :: after, List.IsChain (Imports modules) (chain ++ [b]))
    (hbefore : ∀ b ∈ before, Linkable modules b)
    (hd : ∀ finished, LinkedSet modules finished →
      ∃ r, findRecord? (linkModule modules chain d finished).2 y = some r) :
    ∃ r, findRecord? (linkImports modules chain (before ++ d :: after) finished).2 y = some r := by
  rcases h : linkImports modules chain (before ++ d :: after) finished with ⟨result, finished'⟩
  induction before generalizing finished result with
  | nil =>
    have hfound := hd finished hset
    cases linkImports_case h with
    | fails hd' => rwa [hd'] at hfound
    | later hd' hrest | cons hd' hrest =>
      rw [hd'] at hfound
      obtain ⟨r, hr⟩ := hfound
      have hlater := linkImports_outcome (linkModule_outcome hset hd').linkedSet hrest
      exact ⟨r, hlater.kept hr⟩
  | cons b before ih =>
    obtain ⟨fingerprint, hok⟩ := linkModule_of_linkable hset
      (hchain b List.mem_cons_self) (hbefore b List.mem_cons_self)
    have hchain' := fun b' hb' => hchain b' (List.mem_cons_of_mem _ hb')
    have hbefore' := fun b' hb' => hbefore b' (List.mem_cons_of_mem _ hb')
    cases linkImports_case h with
    | fails hb => cases hok.symm.trans (congrArg Prod.fst hb)
    | later hb hrest | cons hb hrest =>
      have hfound := ih (linkModule_outcome hset hb).linkedSet hchain' hbefore' _ hrest
      exact hfound

/-- **A search finishes everything it completes.** -/
theorem findRecord?_of_completes (h : Completes modules chain id y)
    (hset : LinkedSet modules finished)
    (hchain : List.IsChain (Imports modules) (chain ++ [id])) :
    ∃ r, findRecord? (linkModule modules chain id finished).2 y = some r := by
  induction h generalizing finished with
  | @self chain id hlink =>
    obtain ⟨fingerprint, hok⟩ := linkModule_of_linkable hset hchain hlink
    obtain ⟨r, hr, -⟩ := (linkModule_outcome hset rfl).ok fingerprint hok
    exact ⟨r, hr⟩
  | @dependency chain id d y cm before after hcm hnot himports hbefore hcompletes ih =>
    have hids : ∀ b ∈ before ++ d :: after,
        List.IsChain (Imports modules) (chain ++ [id] ++ [b]) := by
      intro b hb
      exact isChain_import hchain ⟨cm, hcm, himports ▸ hb⟩
    have hd : d ∈ before ++ d :: after := List.mem_append_right _ List.mem_cons_self
    have hfound := findRecord?_of_imports hset hids hbefore fun finished hset =>
      ih hset (hids d hd)
    rw [← himports] at hfound
    rcases h : linkModule modules chain id finished with ⟨result, finished'⟩
    cases linkModule_case h with
    | unknown hcm' => cases hcm.symm.trans hcm'
    | found hcm' hr =>
      exact hset.reaches hr (.head (imports_of_eq hcm himports) hcompletes.reaches)
    | circular _ _ hmem => exact absurd hmem hnot
    | dependency hcm' _ _ hlink | finish hcm' _ _ hlink =>
      cases hcm.symm.trans hcm'
      rwa [hlink] at hfound
    | linked hcm' _ _ hlink hr =>
      cases hcm.symm.trans hcm'
      rw [hlink] at hfound
      obtain ⟨r', hr'⟩ := hfound
      have houtcome := linkImports_outcome hset hlink
      exact ⟨r', houtcome.linkedSet.kept_push hcm (houtcome.ok _ rfl) hr hr'⟩

end StackCode
