import StackCode.Proofs.Link.Acyclic

/-!
# Whole sets and single modules

A whole set is linked by one linker, which is asked for the modules in order and keeps what it has
finished; the linked modules are then taken out of it by their ids.  The modules that come out are
those that new linkers give for the ids, each asked for one module only, and the first error is the
first one that such a linker gives.

A module is taken out once.  If all modules can be linked but an id occurs again, the second request
finds nothing, and the whole set fails although every single module is linked.

## Main definitions

* `Linker.LinksAlone`: the linked form of a module on a new linker.
* `Linker.FirstError`: the first error that new linkers give for some modules.
* `FirstRepeat`: the first id that has occurred before.

## Main results

* `Linker.linkEach_eq_error_iff`: the error of one linker that is asked for modules in order.
* `takeRecords_eq_error_iff`: when modules cannot be taken.
* `linkAll_iff_links`: linking a whole set in terms of linking single modules.
-/

namespace StackCode

variable {modules : List CompiledModule} {finished : List LinkRecord} {id : ModuleId}
  {ids : List ModuleId} {e : LinkError} {linked : List LinkedModule}

namespace Linker

variable {lm lm' : LinkedModule}

/-- A new linker links the module, and then has this linked form of it. -/
def LinksAlone (modules : List CompiledModule) (id : ModuleId) (lm : LinkedModule) : Prop :=
  (∃ fingerprint, ((Linker.mk modules []).link id).1 = .ok fingerprint) ∧
    ((Linker.mk modules []).link id).2.linked? id = some lm

/-- The error that a new linker gives for the first of these modules that it cannot link. -/
def FirstError (modules : List CompiledModule) (ids : List ModuleId) (e : LinkError) : Prop :=
  ∃ before id after, ids = before ++ id :: after ∧
    (∀ y ∈ before, ∃ fingerprint, ((Linker.mk modules []).link y).1 = .ok fingerprint) ∧
    ((Linker.mk modules []).link id).1 = .error e

theorem link_ok_iff :
    (∃ fingerprint, ((Linker.mk modules []).link id).1 = .ok fingerprint) ↔
      Linkable modules id := by
  constructor
  · rintro ⟨fingerprint, hresult⟩
    have hlink : linkModule modules [] id [] = (.ok fingerprint, _) := Prod.ext hresult rfl
    exact (linkModule_outcome linkedSet_nil hlink).linkable
  · exact linkModule_of_linkable linkedSet_nil (isChain_start id)

theorem linksAlone_iff : LinksAlone modules id lm ↔ ∃ r, LinksTo modules id r ∧ r.linked = lm := by
  rw [LinksAlone, link_ok_iff]
  constructor
  · rintro ⟨⟨r, hr⟩, hlinked⟩
    rw [linked?_link_of_linksTo hr] at hlinked
    exact ⟨r, hr, Option.some.inj hlinked⟩
  · rintro ⟨r, hr, rfl⟩
    exact ⟨⟨r, hr⟩, linked?_link_of_linksTo hr⟩

theorem LinksAlone.unique (h : LinksAlone modules id lm) (h' : LinksAlone modules id lm') :
    lm = lm' :=
  Option.some.inj (h.2.symm.trans h'.2)

/-! ### The calls -/

/-- Calls that all succeed leave the linker that they leave one by one. -/
theorem eq_linkEvery_of_linkEach {l l' : Linker} (h : l.linkEach ids = .ok l') :
    l' = l.linkEvery ids := by
  induction ids generalizing l with
  | nil =>
    cases h
    rfl
  | cons id ids ih =>
    obtain ⟨fingerprint, mid, hlink, hrest⟩ := linkEach_cons_eq_ok.mp h
    have hnext : (l.link id).2 = { l with finished := mid } := by rw [link, hlink]
    rw [linkEvery_cons, hnext]
    exact ih hrest

theorem linkEach_cons_eq_error {l : Linker} :
    l.linkEach (id :: ids) = .error e ↔ (l.link id).1 = .error e ∨
      (∃ fingerprint, (l.link id).1 = .ok fingerprint) ∧ (l.link id).2.linkEach ids = .error e := by
  rw [linkEach, List.foldlM_cons, bind_eq_error]
  rcases l.link id with ⟨result, next⟩
  cases result with
  | error e' => simp
  | ok fingerprint =>
    simp only [reduceCtorEq, Except.ok.injEq, exists_eq_left', false_or, exists_eq', true_and]
    rfl

theorem firstError_cons_iff :
    FirstError modules (id :: ids) e ↔ ((Linker.mk modules []).link id).1 = .error e ∨
      (∃ fingerprint, ((Linker.mk modules []).link id).1 = .ok fingerprint) ∧
        FirstError modules ids e := by
  constructor
  · rintro ⟨before, x, after, hsplit, hbefore, hx⟩
    cases before with
    | nil =>
      cases hsplit
      exact .inl hx
    | cons y before =>
      cases hsplit
      obtain ⟨hy, hbefore⟩ := List.forall_mem_cons.mp hbefore
      exact .inr ⟨hy, before, x, after, rfl, hbefore, hx⟩
  · rintro (hid | ⟨hid, before, x, after, rfl, hbefore, hx⟩)
    · exact ⟨[], id, ids, rfl, by simp, hid⟩
    · exact ⟨id :: before, x, after, rfl, List.forall_mem_cons.mpr ⟨hid, hbefore⟩, hx⟩

/-- **The error of one linker that is asked for modules in order** is the first error of new
linkers. -/
theorem linkEach_eq_error_iff (hset : LinkedSet modules finished) :
    (Linker.mk modules finished).linkEach ids = .error e ↔ FirstError modules ids e := by
  induction ids generalizing finished with
  | nil =>
    constructor
    · intro h
      cases h
    · rintro ⟨before, x, after, hsplit, -⟩
      cases before <;> cases hsplit
  | cons id ids ih =>
    have hfresh : ((Linker.mk modules finished).link id).1 = ((Linker.mk modules []).link id).1 :=
      linkModule_unique hset linkedSet_nil (isChain_start id)
    rw [linkEach_cons_eq_error, firstError_cons_iff, hfresh]
    exact or_congr_right (and_congr_right fun _ => ih (linkedSet_link hset id))

end Linker

/-! ### Taking the modules -/

/-- The first id that has occurred before. -/
def FirstRepeat (ids : List ModuleId) (id : ModuleId) : Prop :=
  ∃ before after, ids = before ++ id :: after ∧ before.Nodup ∧ id ∈ before

theorem findRecord?_filter_eq_none {y : ModuleId} :
    findRecord? (finished.filter fun r => r.linked.module ≠ id) y = none ↔
      y = id ∨ findRecord? finished y = none := by
  rw [← not_iff_not, not_or]
  simp only [Option.eq_none_iff_forall_ne_some, not_forall, not_not]
  exact exists_findRecord?_filter

theorem takeRecords_cons_of_findRecord? {r : LinkRecord} (hr : findRecord? finished id = some r) :
    takeRecords (id :: ids) finished = .error e ↔
      takeRecords ids (finished.filter fun r => r.linked.module ≠ id) = .error e := by
  rw [takeRecords, hr]
  simp [bind_eq_error, pure, Except.pure]

/-- **When modules cannot be taken**: the first id that was taken before, or is not finished, is the
one that the error names. -/
theorem takeRecords_eq_error_iff :
    takeRecords ids finished = .error e ↔ ∃ before id after, ids = before ++ id :: after ∧
      before.Nodup ∧ (∀ y ∈ before, ∃ r, findRecord? finished y = some r) ∧
      (id ∈ before ∨ findRecord? finished id = none) ∧ e = .unknownModule id := by
  induction ids generalizing finished with
  | nil => simp [takeRecords]
  | cons x ids ih =>
    cases hx : findRecord? finished x with
    | none =>
      rw [takeRecords, hx]
      constructor
      · intro h
        cases h
        exact ⟨[], x, ids, rfl, .nil, by simp, .inr hx, rfl⟩
      · rintro ⟨before, id, after, hsplit, -, hfound, -, rfl⟩
        cases before with
        | nil =>
          cases hsplit
          rfl
        | cons y before =>
          cases hsplit
          obtain ⟨r, hr⟩ := hfound x List.mem_cons_self
          cases hx.symm.trans hr
    | some r =>
      rw [takeRecords_cons_of_findRecord? hx, ih]
      simp only [exists_findRecord?_filter, findRecord?_filter_eq_none]
      constructor
      · rintro ⟨before, id, after, rfl, hnodup, hfound, hid, rfl⟩
        refine ⟨x :: before, id, after, rfl, List.nodup_cons.mpr ⟨fun h => (hfound x h).1 rfl,
          hnodup⟩, List.forall_mem_cons.mpr ⟨⟨r, hx⟩, fun y hy => (hfound y hy).2⟩, ?_, rfl⟩
        rw [List.mem_cons]
        tauto
      · rintro ⟨before, id, after, hsplit, hnodup, hfound, hid, rfl⟩
        cases before with
        | nil =>
          cases hsplit
          rcases hid with hid | hid
          · cases hid
          · cases hx.symm.trans hid
        | cons y before =>
          cases hsplit
          obtain ⟨hy, hnodup⟩ := List.nodup_cons.mp hnodup
          refine ⟨before, id, after, rfl, hnodup, fun z hz => ⟨fun h => hy (h ▸ hz), hfound z
            (List.mem_cons_of_mem _ hz)⟩, ?_, rfl⟩
          rw [List.mem_cons] at hid
          tauto

/-- If all modules are finished, taking them fails exactly at the first id that occurs again. -/
theorem takeRecords_eq_error_iff_firstRepeat
    (hfound : ∀ id ∈ ids, ∃ r, findRecord? finished id = some r) :
    takeRecords ids finished = .error e ↔ ∃ id, FirstRepeat ids id ∧ e = .unknownModule id := by
  rw [takeRecords_eq_error_iff]
  constructor
  · rintro ⟨before, id, after, rfl, hnodup, -, hid, rfl⟩
    refine ⟨id, ⟨before, after, rfl, hnodup, hid.resolve_right fun hnone => ?_⟩, rfl⟩
    obtain ⟨r, hr⟩ := hfound id (List.mem_append_right _ List.mem_cons_self)
    cases hnone.symm.trans hr
  · rintro ⟨id, ⟨before, after, rfl, hnodup, hid⟩, rfl⟩
    exact ⟨before, id, after, rfl, hnodup, fun y hy => hfound y (List.mem_append_left _ hy),
      .inl hid, rfl⟩

/-! ### Whole sets -/

section

variable {l : Linker}
  (h : (Linker.mk modules []).linkEach (modules.map CompiledModule.module) = .ok l)

include h

/-- What is taken after all calls is what new linkers give. -/
theorem linksAlone_of_takeRecords
    (htake : takeRecords (modules.map CompiledModule.module) l.finished = .ok linked) :
    List.Forall₂ (fun cm lm => Linker.LinksAlone modules cm.module lm) modules linked := by
  have hset : LinkedSet modules l.finished := by
    rw [Linker.eq_linkEvery_of_linkEach h]
    exact Linker.linkedSet_linkEvery linkedSet_nil _
  refine (List.forall₂_map_left_iff.mp (takeRecords_eq_ok htake)).imp ?_
  rintro cm lm ⟨r, hr, rfl⟩
  exact Linker.linksAlone_iff.mpr ⟨r, hset.links hr, rfl⟩

theorem findRecord?_of_linkEach_modules :
    ∀ id ∈ modules.map CompiledModule.module, ∃ r, findRecord? l.finished id = some r :=
  fun _ hid => Linker.findRecord?_of_linkEach linkedSet_nil h (.inl hid)

end

/-- A set is linked exactly if no id occurs again and each module is linked alone. -/
theorem linkAll_ok_iff_links :
    (∃ linked, linkAll modules = .ok linked) ↔ (modules.map CompiledModule.module).Nodup ∧
      ∀ cm ∈ modules, ∃ fingerprint,
        ((Linker.mk modules []).link cm.module).1 = .ok fingerprint := by
  simp only [linkAll_ok_iff, Linker.link_ok_iff]

theorem linkAll_eq_ok_iff :
    linkAll modules = .ok linked ↔ (modules.map CompiledModule.module).Nodup ∧
      List.Forall₂ (fun cm lm => Linker.LinksAlone modules cm.module lm) modules linked := by
  have hforth {linked : List LinkedModule} (h : linkAll modules = .ok linked) :
      List.Forall₂ (fun cm lm => Linker.LinksAlone modules cm.module lm) modules linked := by
    obtain ⟨l, hl, htake⟩ := bind_eq_ok.mp h
    exact linksAlone_of_takeRecords hl htake
  constructor
  · intro h
    exact ⟨(linkAll_ok_iff.mp ⟨linked, h⟩).1, hforth h⟩
  · rintro ⟨hnodup, hlinked⟩
    obtain ⟨linked', h⟩ := linkAll_ok_iff_links.mpr ⟨hnodup, fun cm hcm => by
      obtain ⟨lm, hlm⟩ := exists_forall₂_iff.mp ⟨linked, hlinked⟩ cm hcm
      exact hlm.1⟩
    rw [h, List.right_unique_forall₂' (fun _ _ _ hlm hlm' => hlm.unique hlm') (hforth h) hlinked]

theorem linkAll_eq_error_iff :
    linkAll modules = .error e ↔
      Linker.FirstError modules (modules.map CompiledModule.module) e ∨
      (∀ cm ∈ modules, ∃ fingerprint,
        ((Linker.mk modules []).link cm.module).1 = .ok fingerprint) ∧
        ∃ id, FirstRepeat (modules.map CompiledModule.module) id ∧ e = .unknownModule id := by
  rw [linkAll, bind_eq_error, Linker.linkEach_eq_error_iff linkedSet_nil]
  refine or_congr_right ?_
  constructor
  · rintro ⟨l, hl, htake⟩
    have hlinkable := (Linker.linkEach_ok_iff linkedSet_nil).mp ⟨l, hl⟩
    exact ⟨fun cm hcm => Linker.link_ok_iff.mpr (hlinkable _ (List.mem_map_of_mem hcm)),
      (takeRecords_eq_error_iff_firstRepeat (findRecord?_of_linkEach_modules hl)).mp htake⟩
  · rintro ⟨hlinks, hrepeat⟩
    obtain ⟨l, hl⟩ := (Linker.linkEach_ok_iff linkedSet_nil).mpr
      (List.forall_mem_map.mpr fun cm hcm => Linker.link_ok_iff.mp (hlinks cm hcm))
    exact ⟨l, hl,
      (takeRecords_eq_error_iff_firstRepeat (findRecord?_of_linkEach_modules hl)).mpr hrepeat⟩

/-- **Linking a whole set in terms of linking single modules.**  A set is linked exactly if new
linkers link each of its modules and no id occurs again; the modules are then those of the new
linkers, in order.  The error is that of the first module that a new linker does not link; if they
link them all, it is for the first id that occurs again. -/
theorem linkAll_iff_links (modules : List CompiledModule) :
    ((∃ linked, linkAll modules = .ok linked) ↔ (modules.map CompiledModule.module).Nodup ∧
        ∀ cm ∈ modules, ∃ fingerprint,
          ((Linker.mk modules []).link cm.module).1 = .ok fingerprint) ∧
      (∀ linked, linkAll modules = .ok linked ↔ (modules.map CompiledModule.module).Nodup ∧
        List.Forall₂ (fun cm lm => Linker.LinksAlone modules cm.module lm) modules linked) ∧
      ∀ e, linkAll modules = .error e ↔
        Linker.FirstError modules (modules.map CompiledModule.module) e ∨
        (∀ cm ∈ modules, ∃ fingerprint,
          ((Linker.mk modules []).link cm.module).1 = .ok fingerprint) ∧
          ∃ id, FirstRepeat (modules.map CompiledModule.module) id ∧ e = .unknownModule id :=
  ⟨linkAll_ok_iff_links, fun _ => linkAll_eq_ok_iff, fun _ => linkAll_eq_error_iff⟩

/-- A module without code. -/
def emptyObject (name : String) : CompiledModule :=
  ⟨⟨0⟩, name, [1, 0, 1, 0, 0, 0, 0, 0], ⟨0⟩, [], #[], [], [], []⟩

/-- A set in which the second module replaces the first: each module is linked alone, and the linked
form is that of the second, but the set is not linked. -/
theorem repeated_id_not_linked :
    (∃ lm, lm.name = "b" ∧ ∀ cm ∈ [emptyObject "a", emptyObject "b"],
        Linker.LinksAlone [emptyObject "a", emptyObject "b"] cm.module lm) ∧
      linkAll [emptyObject "a", emptyObject "b"] = .error (.unknownModule ⟨0⟩) := by
  obtain ⟨r, hr, hname⟩ : ∃ r, finishModule (emptyObject "b") [] [] = .ok r ∧
      r.linked.name = "b" := ⟨_, rfl, rfl⟩
  have hlinks : LinksTo [emptyObject "a", emptyObject "b"] ⟨0⟩ r :=
    .finish rfl .nil (fun _ hd => absurd hd List.not_mem_nil) hr
  have halone : ∀ cm ∈ [emptyObject "a", emptyObject "b"],
      Linker.LinksAlone [emptyObject "a", emptyObject "b"] cm.module r.linked := by
    simpa [emptyObject] using Linker.linksAlone_iff.mpr ⟨r, hlinks, rfl⟩
  refine ⟨⟨r.linked, hname, halone⟩,
    linkAll_eq_error_iff.mpr (.inr ⟨fun cm hcm => (halone cm hcm).1, ⟨0⟩, ?_, rfl⟩)⟩
  exact ⟨[⟨0⟩], [], rfl, List.nodup_singleton _, List.mem_singleton_self _⟩

end StackCode
