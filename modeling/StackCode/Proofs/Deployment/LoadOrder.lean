import StackCode.Proofs.Deployment.Loading
import StackCode.Proofs.Link.ContentAddress

/-!
# The order of loading

Modules are visited by id, imports first, and a module is left out if one with its fingerprint is
there already.  The module that is left out may be another one, whose imports were visited in its
place.  Since a fingerprint determines the fingerprints of the imports, whatever the module needs is
there all the same.  A module is never left out for one that it needs itself: the fingerprint of a
module is that of nothing it reaches.

## Main definitions

* `Loaded`: an order in which modules can be loaded.
* `LoadsClosure`: fingerprints that stand for a module and everything it reaches, in such an order.

## Main results

* `ContentAddressed.fingerprint_ne_of_transGen`: what a module reaches has other fingerprints.
* `ContentAddressed.addModule_adds`: what adding a module to an order gives.
* `Program.deploy_loads_closure`: deployment loads a module and what it reaches once, imports first.
-/

namespace StackCode

open Relation

variable {linked order order' : List LinkedModule} {chain ids : List ModuleId} {id : ModuleId}
  {a b m root x y : LinkedModule}

theorem hasFingerprint_eq_true {f : Fingerprint} :
    hasFingerprint order f = true ↔ f ∈ order.map LinkedModule.fingerprint := by
  simp [hasFingerprint]

/-! ### Fingerprints along imports -/

theorem LinkedModule.mem_of_reflTransGen (hx : x ∈ linked)
    (hreach : ReflTransGen (Imports linked) x y) : y ∈ linked := by
  induction hreach with
  | refl => exact hx
  | tail _ himport => exact himport.mem

namespace ContentAddressed

variable (h : ContentAddressed linked)

include h

theorem exists_import (hm : m ∈ linked) {d : ModuleId} (hd : d ∈ m.imports) :
    ∃ y, findLinked? linked d = some y ∧ m.Imports linked y := by
  obtain ⟨k, hk, rfl⟩ := List.getElem_of_mem hd
  obtain ⟨y, hy, -⟩ := h.importAt m hm k hk
  obtain ⟨d, hd, hfind⟩ := LinkedModule.import?_eq_some.mp hy
  rw [List.getElem?_eq_getElem hk, Option.some_inj] at hd
  exact ⟨y, hd ▸ hfind, k, hy⟩

theorem not_transGen_self : ¬ TransGen (LinkedModule.Imports linked) m m := by
  induction m using h.wellFounded.induction with
  | _ m ih =>
    intro hcycle
    obtain ⟨d, himport, hback⟩ := TransGen.head'_iff.mp hcycle
    exact ih d himport (.tail' hback himport)

variable (hinj : Set.InjOn Fingerprint.ofImage (images linked))

include hinj

/-- Modules with one fingerprint import modules with one fingerprint. -/
theorem exists_import_of_fingerprint_eq (ha : a ∈ linked) (hb : b ∈ linked)
    (hsame : a.fingerprint = b.fingerprint) (himport : a.Imports linked x) :
    ∃ y, b.Imports linked y ∧ y.fingerprint = x.fingerprint := by
  obtain ⟨k, hk⟩ := himport
  rw [← Set.union_self (images linked)] at hinj
  have himports := h.import?_congr h ha hb (h.image_eq h hinj ha hb hsame) k
  rw [hk] at himports
  obtain ⟨y, hy, hfingerprint⟩ := Option.map_eq_some_iff.mp himports.symm
  exact ⟨y, ⟨k, hy⟩, hfingerprint⟩

/-- **What a module reaches has other fingerprints.** -/
theorem fingerprint_ne_of_transGen (hx : x ∈ linked)
    (hreach : TransGen (LinkedModule.Imports linked) x y) : y.fingerprint ≠ x.fingerprint := by
  induction x using h.wellFounded.induction generalizing y with
  | _ x ih =>
    intro hsame
    have hy := LinkedModule.mem_of_reflTransGen hx hreach.to_reflTransGen
    obtain ⟨d, himport, hback⟩ := TransGen.head'_iff.mp hreach
    -- `y` imports a module like `d`, which is then reached from `d`
    obtain ⟨d', himport', hsame'⟩ := h.exists_import_of_fingerprint_eq hinj hx hy hsame.symm himport
    exact ih d himport himport.mem (.tail' hback himport') hsame'

end ContentAddressed

/-! ### Orders of loading -/

/-- An order in which modules can be loaded: no fingerprint occurs twice, and what a module imports
comes before it. -/
structure Loaded (linked order : List LinkedModule) : Prop where
  mem : ∀ x ∈ order, x ∈ linked
  nodup : (order.map LinkedModule.fingerprint).Nodup
  imports_before : ∀ before x after, order = before ++ x :: after → ∀ y, x.Imports linked y →
    y.fingerprint ∈ before.map LinkedModule.fingerprint

theorem loaded_nil : Loaded linked [] where
  mem := by simp
  nodup := List.nodup_nil
  imports_before := by simp

/-- A module is added when everything it imports is there. -/
theorem Loaded.concat (h : Loaded linked order) (hm : m ∈ linked)
    (hnew : m.fingerprint ∉ order.map LinkedModule.fingerprint)
    (himports : ∀ y, m.Imports linked y → y.fingerprint ∈ order.map LinkedModule.fingerprint) :
    Loaded linked (order ++ [m]) where
  mem x hx := by
    rcases List.mem_append.mp hx with hx | hx
    · exact h.mem x hx
    · exact List.mem_singleton.mp hx ▸ hm
  nodup := by
    rw [List.map_append, List.map_singleton]
    exact List.nodup_append.mpr ⟨h.nodup, List.nodup_singleton _, by simpa using hnew⟩
  imports_before before x after heq y hy := by
    rcases List.eq_nil_or_concat after with rfl | ⟨after, z, rfl⟩
    · obtain ⟨rfl, hlast⟩ := List.append_inj' heq rfl
      cases hlast
      exact himports y hy
    · rw [List.concat_eq_append, ← List.cons_append, ← List.append_assoc] at heq
      obtain ⟨heq, -⟩ := List.append_inj' heq rfl
      exact h.imports_before before x after heq y hy

/-- What adding a module gives: an order with its fingerprint, longer by modules that it reaches
and maybe the module. -/
structure Adds (linked : List LinkedModule) (m : LinkedModule)
    (order order' : List LinkedModule) : Prop where
  loaded : Loaded linked order'
  mem : m.fingerprint ∈ order'.map LinkedModule.fingerprint
  grown : ∃ added, (∀ x ∈ added, TransGen (LinkedModule.Imports linked) m x) ∧
    (order' = order ++ added ∨ order' = order ++ added ++ [m])

/-- What adding the imports of a module gives. -/
structure AddsImports (linked : List LinkedModule) (m : LinkedModule) (ids : List ModuleId)
    (order order' : List LinkedModule) : Prop where
  loaded : Loaded linked order'
  mem : ∀ d ∈ ids, ∀ y, findLinked? linked d = some y →
    y.fingerprint ∈ order'.map LinkedModule.fingerprint
  grown : ∃ added, (∀ x ∈ added, TransGen (LinkedModule.Imports linked) m x) ∧
    order' = order ++ added

theorem addImports_nil : addImports linked chain [] order = .ok order := by
  rw [addImports]

theorem addImports_cons {d : ModuleId} (h : addModule linked chain d order = .ok order') :
    addImports linked chain (d :: ids) order = addImports linked chain ids order' := by
  rw [addImports, h]

theorem addModule_of_mem (hm : findLinked? linked id = some m)
    (hmem : m.fingerprint ∈ order.map LinkedModule.fingerprint) :
    addModule linked chain id order = .ok order := by
  unfold addModule
  split
  · rename_i hnone
    cases hm.symm.trans hnone
  · rename_i m' hm'
    cases hm.symm.trans hm'
    rw [if_pos (hasFingerprint_eq_true.mpr hmem)]

theorem addModule_of_not_mem (hm : findLinked? linked id = some m) (hchain : id ∉ chain)
    (hmem : m.fingerprint ∉ order.map LinkedModule.fingerprint)
    (himports : addImports linked (chain ++ [id]) m.imports order = .ok order') :
    addModule linked chain id order =
      if m.fingerprint ∈ order'.map LinkedModule.fingerprint then .ok order'
      else .ok (order' ++ [m]) := by
  unfold addModule
  split
  · rename_i hnone
    cases hm.symm.trans hnone
  · rename_i m' hm'
    cases hm.symm.trans hm'
    rw [if_neg (hasFingerprint_eq_true.not.mpr hmem), dif_neg hchain, himports]
    simp only [hasFingerprint_eq_true]

/-- Adding the imports of a module one after the other, if each can be added. -/
theorem addImports_adds
    (hadds : ∀ d y order, findLinked? linked d = some y → m.Imports linked y →
      Loaded linked order →
      ∃ order', addModule linked chain d order = .ok order' ∧ Adds linked y order order')
    (hids : ∀ d ∈ ids, ∃ y, findLinked? linked d = some y ∧ m.Imports linked y)
    (hloaded : Loaded linked order) :
    ∃ order', addImports linked chain ids order = .ok order' ∧
      AddsImports linked m ids order order' := by
  induction ids generalizing order with
  | nil => exact ⟨order, addImports_nil, hloaded, by simp, [], by simp, (List.append_nil _).symm⟩
  | cons d ids ih =>
    obtain ⟨⟨y, hy, himport⟩, hids⟩ := List.forall_mem_cons.mp hids
    obtain ⟨mid, hmid, hfirst⟩ := hadds d y order hy himport hloaded
    obtain ⟨order', horder', hrest⟩ := ih hids hfirst.loaded
    obtain ⟨added, hadded, hgrown⟩ := hfirst.grown
    obtain ⟨added', hadded', rfl⟩ := hrest.grown
    refine ⟨_, (addImports_cons hmid).trans horder', hrest.loaded, ?_, ?_⟩
    · refine List.forall_mem_cons.mpr ⟨fun z hz => ?_, hrest.mem⟩
      cases hy.symm.trans hz
      rw [List.map_append]
      exact List.mem_append_left _ hfirst.mem
    · have hreach : ∀ x ∈ added, TransGen (LinkedModule.Imports linked) m x :=
        fun x hx => .head himport (hadded x hx)
      rcases hgrown with rfl | rfl
      · refine ⟨added ++ added', ?_, List.append_assoc _ _ _⟩
        exact List.forall_mem_append.mpr ⟨hreach, hadded'⟩
      · refine ⟨added ++ [y] ++ added', ?_, by simp only [List.append_assoc]⟩
        refine List.forall_mem_append.mpr ⟨List.forall_mem_append.mpr ⟨hreach, ?_⟩, hadded'⟩
        simpa using .single himport

/-- **What adding a module gives**, if the modules of the chain reach it. -/
theorem ContentAddressed.addModule_adds (h : ContentAddressed linked)
    (hm : findLinked? linked id = some m)
    (hchain : ∀ c ∈ chain, ∃ x, findLinked? linked c = some x ∧
      TransGen (LinkedModule.Imports linked) x m)
    (hloaded : Loaded linked order) :
    ∃ order', addModule linked chain id order = .ok order' ∧ Adds linked m order order' := by
  induction m using h.wellFounded.induction generalizing id chain order with
  | _ m ih =>
    have hmem := mem_of_findLinked? hm
    by_cases hnew : m.fingerprint ∈ order.map LinkedModule.fingerprint
    · exact ⟨order, addModule_of_mem hm hnew, hloaded, hnew, [], by simp, .inl (by simp)⟩
    -- a module of the chain reaches this one, and none reaches itself
    have hid : id ∉ chain := by
      intro hmem
      obtain ⟨x, hx, hcycle⟩ := hchain id hmem
      cases hm.symm.trans hx
      exact h.not_transGen_self hcycle
    have hchain' {y : LinkedModule} (himport : m.Imports linked y) : ∀ c ∈ chain ++ [id],
        ∃ x, findLinked? linked c = some x ∧ TransGen (LinkedModule.Imports linked) x y := by
      refine List.forall_mem_append.mpr ⟨fun c hc => ?_, ?_⟩
      · obtain ⟨x, hx, hreach⟩ := hchain c hc
        exact ⟨x, hx, .tail hreach himport⟩
      · simpa using ⟨m, hm, .single himport⟩
    obtain ⟨mid, hmid, hadds⟩ := addImports_adds
      (fun d y order hy himport => ih y himport hy (hchain' himport))
      (fun d hd => h.exists_import hmem hd) hloaded
    have himports : ∀ y, m.Imports linked y → y.fingerprint ∈ mid.map LinkedModule.fingerprint := by
      intro y hy
      obtain ⟨d, hd, hfind⟩ := LinkedModule.imports_iff.mp hy
      exact hadds.mem d hd y hfind
    obtain ⟨added, hadded, rfl⟩ := hadds.grown
    rw [addModule_of_not_mem hm hid hnew hmid]
    split
    · rename_i hthere
      exact ⟨_, rfl, hadds.loaded, hthere, added, hadded, .inl rfl⟩
    · rename_i hthere
      refine ⟨_, rfl, hadds.loaded.concat hmem hthere himports, ?_, added, hadded, .inr rfl⟩
      simp

/-! ### The closure of a module -/

/-- The fingerprints of a module and of what it reaches, in an order in which they can be loaded:
none occurs twice, the one of the module is the last, and what a module imports comes before it. -/
structure LoadsClosure (linked : List LinkedModule) (root : LinkedModule)
    (fingerprints : List Fingerprint) : Prop where
  nodup : fingerprints.Nodup
  mem_iff : ∀ f, f ∈ fingerprints ↔
    ∃ x, ReflTransGen (LinkedModule.Imports linked) root x ∧ x.fingerprint = f
  last : fingerprints.getLast? = some root.fingerprint
  imports_before : ∀ x y, ReflTransGen (LinkedModule.Imports linked) root x →
    x.Imports linked y → ∃ before after, fingerprints = before ++ x.fingerprint :: after ∧
      y.fingerprint ∈ before

namespace ContentAddressed

variable (h : ContentAddressed linked)

include h

/-- A module is loaded last, after modules that it reaches. -/
theorem exists_loadOrder (hroot : root ∈ linked) :
    ∃ order, loadOrder linked root.module = .ok order ∧ Adds linked root [] order :=
  h.addModule_adds (h.find root hroot) (by simp) loaded_nil

variable (hinj : Set.InjOn Fingerprint.ofImage (images linked))

include hinj

/-- What is imported by a module like one of the order comes before that one.  The module that was
loaded in its place imports modules like those it imports. -/
theorem imports_before_of_mem (horder : Loaded linked order) (hx : x ∈ linked)
    (hmem : x.fingerprint ∈ order.map LinkedModule.fingerprint) (himport : x.Imports linked y) :
    ∃ before after, order.map LinkedModule.fingerprint = before ++ x.fingerprint :: after ∧
      y.fingerprint ∈ before := by
  obtain ⟨x', hx', hsame⟩ := List.mem_map.mp hmem
  obtain ⟨before, after, rfl⟩ := List.append_of_mem hx'
  obtain ⟨y', himport', hsame'⟩ :=
    h.exists_import_of_fingerprint_eq hinj hx (horder.mem x' hx') hsame.symm himport
  refine ⟨before.map LinkedModule.fingerprint, after.map LinkedModule.fingerprint, ?_, ?_⟩
  · rw [List.map_append, List.map_cons, hsame]
  · rw [← hsame']
    exact horder.imports_before before x' after rfl y' himport'

/-- Whatever is reached from a module is loaded with it. -/
theorem fingerprint_mem_of_reaches (horder : Loaded linked order) (hroot : root ∈ linked)
    (hmem : root.fingerprint ∈ order.map LinkedModule.fingerprint)
    (hreach : ReflTransGen (LinkedModule.Imports linked) root x) :
    x.fingerprint ∈ order.map LinkedModule.fingerprint := by
  induction hreach with
  | refl => exact hmem
  | @tail y x hreach himport ih =>
    have hy := LinkedModule.mem_of_reflTransGen hroot hreach
    obtain ⟨before, after, heq, hbefore⟩ := h.imports_before_of_mem hinj horder hy ih himport
    rw [heq]
    exact List.mem_append_left _ hbefore

/-- **The order of loading is that of the closure.**  Nothing that the root reaches has the
fingerprint of the root, so the root itself is added. -/
theorem loadsClosure (hroot : root ∈ linked) (horder : Adds linked root [] order) :
    LoadsClosure linked root (order.map LinkedModule.fingerprint) := by
  obtain ⟨added, hadded, hgrown⟩ := horder.grown
  have hlast : order = added ++ [root] := by
    rcases hgrown with rfl | rfl
    · obtain ⟨x, hx, hsame⟩ := List.mem_map.mp horder.mem
      exact absurd hsame (h.fingerprint_ne_of_transGen hinj hroot (hadded x hx))
    · rfl
  refine ⟨horder.loaded.nodup, fun f => ⟨fun hf => ?_, ?_⟩, ?_, fun x y hreach himport => ?_⟩
  · obtain ⟨x, hx, rfl⟩ := List.mem_map.mp hf
    rw [hlast] at hx
    rcases List.mem_append.mp hx with hx | hx
    · exact ⟨x, (hadded x hx).to_reflTransGen, rfl⟩
    · exact ⟨x, List.mem_singleton.mp hx ▸ .refl, rfl⟩
  · rintro ⟨x, hreach, rfl⟩
    exact h.fingerprint_mem_of_reaches hinj horder.loaded hroot horder.mem hreach
  · rw [hlast, List.map_append, List.map_singleton, List.getLast?_concat]
  · have hx := LinkedModule.mem_of_reflTransGen hroot hreach
    have hmem := h.fingerprint_mem_of_reaches hinj horder.loaded hroot horder.mem hreach
    exact h.imports_before_of_mem hinj horder.loaded hx hmem himport

end ContentAddressed

namespace Machine

variable {σ ε : Type}

theorem deploy_eq_loadAll {v : Machine σ ε} {handle : UInt32} {s : σ}
    (horder : loadOrder linked id = .ok order) :
    v.deploy handle linked id s = v.loadAll handle order s := by
  simp [deploy, horder]

/-- How a deployment ends on any machine, given the order of loading. -/
theorem deploy_outcome (v : Machine σ ε) (handle : UInt32) (s : σ)
    (horder : loadOrder linked id = .ok order) :
    ∃ result s' log, v.deploy handle linked id s = (result, s') ∧
      v.logging.deploy handle linked id (s, []) = (result, (s', log)) ∧
      LoadOutcome v.capabilities order result log := by
  obtain ⟨result, s', log, hall, hlogged, houtcome⟩ := v.loadAll_outcome handle order s []
  rw [List.nil_append] at hlogged
  exact ⟨result, s', log, (deploy_eq_loadAll horder).trans hall,
    (deploy_eq_loadAll horder).trans hlogged, houtcome⟩

end Machine

/-- **Deployment loads a module and what it reaches once, imports first.**  There is one order, that
in which a machine with every capability that rejects nothing is given the modules.  On any machine,
a deployment that succeeds loads all of them and answers their fingerprints, and one that stops at a
module has loaded those before it, whose capabilities the machine has. -/
theorem Program.deploy_loads_closure {p : Program} {config : CompileConfig}
    (h : p.compile config = .ok linked)
    (hinj : Set.InjOn Fingerprint.ofImage (images linked)) (hroot : root ∈ linked) :
    ∃ order : List LinkedModule,
      (∀ handle, (recorder ⟨255⟩ []).deploy handle linked root.module #[] =
        (.ok (order.map LinkedModule.fingerprint),
          (order.map (LinkedModule.event handle)).toArray)) ∧
      LoadsClosure linked root (order.map LinkedModule.fingerprint) ∧
      ∀ (σ ε : Type) (v : Machine σ ε) (handle : UInt32) (s : σ), ∃ result s' log,
        v.deploy handle linked root.module s = (result, s') ∧
        v.logging.deploy handle linked root.module (s, []) = (result, (s', log)) ∧
        LoadOutcome v.capabilities order result log := by
  have hlinked := contentAddressed_of_compile h
  obtain ⟨order, horder, hadds⟩ := hlinked.exists_loadOrder hroot
  refine ⟨order, fun handle => ?_, hlinked.loadsClosure hinj hroot hadds,
    fun σ ε v handle s => v.deploy_outcome handle s horder⟩
  rw [Machine.deploy_eq_loadAll horder, recorder_loadAll, Array.empty_append]

/-- The clock is loaded before the module that imports it. -/
theorem Program.deploy_loads_clock : ∃ x a, clock.compile {} = .ok [x, a] ∧
    Set.InjOn Fingerprint.ofImage (images [x, a]) ∧ a ∈ [x, a] ∧
    ∃ order : List LinkedModule,
      (recorder ⟨255⟩ []).deploy 0 [x, a] a.module #[] =
        (.ok (order.map LinkedModule.fingerprint), (order.map (LinkedModule.event 0)).toArray) ∧
      LoadsClosure [x, a] a (order.map LinkedModule.fingerprint) ∧
      ∃ result s' log, (recorder .none []).deploy 0 [x, a] a.module #[] = (result, s') ∧
        (recorder .none []).logging.deploy 0 [x, a] a.module (#[], []) = (result, (s', log)) ∧
        LoadOutcome .none order result log := by
  obtain ⟨x, a, y, b, hclock, -, hnodup, -⟩ := clocks_link
  have hinj : Set.InjOn Fingerprint.ofImage (images [x, a]) := by
    refine injOn_images (contentAddressed_of_compile hclock).fingerprint ?_
    exact hnodup.sublist (List.Sublist.map _ (List.sublist_append_left [x, a] [y, b]))
  have hroot : a ∈ [x, a] := by simp
  obtain ⟨order, hrecorder, hloads, hdeploy⟩ := deploy_loads_closure hclock hinj hroot
  exact ⟨x, a, hclock, hinj, hroot, order, hrecorder 0, hloads,
    hdeploy _ _ (recorder .none []) 0 #[]⟩

end StackCode
