import StackCode.Deployment.Basic
import StackCode.Proofs.Link.Acyclic

/-!
# Content addressing

A linked module is named by the fingerprint of its image, and its image holds the fingerprints of
the modules it imports.  If no two of the images considered have one fingerprint, the fingerprint of
a module therefore determines its image, the fingerprints of its imports, and so on down the whole
tree of imports.

## Main definitions

* `LinkedModule.import?`, `LinkedModule.follow?`: the modules that imports lead to.
* `LinkedModule.Imports`: one linked module imports another.
* `ContentAddressed`: what linking promises of the modules of a program.
* `images`: the images of linked modules.

## Main results

* `Program.contentAddressed_of_compile`: the modules of a program that compiles are content
  addressed.
* `ContentAddressed.import?_congr`: modules with one image have the same imports.
* `ContentAddressed.follow?_congr`: modules with one fingerprint have the same trees of imports.
* `Program.fingerprints_identify_closure`: fingerprints identify everything that is imported.
-/

namespace StackCode

variable {linked linked' : List LinkedModule} {a b x y lm : LinkedModule} {id : ModuleId}

/-! ### Following imports -/

/-- The linked module that an import of a module stands for. -/
def LinkedModule.import? (linked : List LinkedModule) (lm : LinkedModule) (k : Nat) :
    Option LinkedModule :=
  lm.imports[k]?.bind (findLinked? linked)

/-- The linked module that a sequence of imports leads to. -/
def LinkedModule.follow? (linked : List LinkedModule) (lm : LinkedModule) :
    List Nat → Option LinkedModule
  | [] => some lm
  | k :: path => (lm.import? linked k).bind fun next => next.follow? linked path

/-- The first module imports the second. -/
def LinkedModule.Imports (linked : List LinkedModule) (lm target : LinkedModule) : Prop :=
  ∃ k, lm.import? linked k = some target

theorem LinkedModule.import?_eq_some {k : Nat} :
    lm.import? linked k = some x ↔
      ∃ d, lm.imports[k]? = some d ∧ findLinked? linked d = some x := by
  rw [import?, Option.bind_eq_some_iff]

theorem LinkedModule.imports_iff :
    lm.Imports linked x ↔ ∃ d ∈ lm.imports, findLinked? linked d = some x := by
  constructor
  · rintro ⟨k, hk⟩
    obtain ⟨d, hd, hx⟩ := import?_eq_some.mp hk
    exact ⟨d, List.mem_of_getElem? hd, hx⟩
  · rintro ⟨d, hd, hx⟩
    obtain ⟨k, hk⟩ := List.mem_iff_getElem?.mp hd
    exact ⟨k, import?_eq_some.mpr ⟨d, hk, hx⟩⟩

theorem LinkedModule.follow?_append {front back : List Nat} :
    lm.follow? linked (front ++ back) =
      (lm.follow? linked front).bind fun next => next.follow? linked back := by
  induction front generalizing lm with
  | nil => rfl
  | cons k front ih =>
    cases h : lm.import? linked k with
    | none => simp [follow?, h]
    | some next => simp [follow?, h, ih]

theorem mem_of_findLinked? (h : findLinked? linked id = some lm) : lm ∈ linked :=
  List.mem_of_find?_eq_some h

theorem LinkedModule.Imports.mem (h : lm.Imports linked x) : x ∈ linked := by
  obtain ⟨d, -, hx⟩ := imports_iff.mp h
  exact mem_of_findLinked? hx

/-- Following imports leads to modules of the set. -/
theorem LinkedModule.mem_of_follow? {path : List Nat} (hlm : lm ∈ linked)
    (h : lm.follow? linked path = some x) : x ∈ linked := by
  induction path generalizing lm with
  | nil => exact Option.some.inj h ▸ hlm
  | cons k path ih =>
    obtain ⟨next, hnext, hpath⟩ := Option.bind_eq_some_iff.mp h
    exact ih (Imports.mem ⟨k, hnext⟩) hpath

/-! ### What linking promises -/

/-- What linking promises of modules: each is found by its id and named by its image, the image
says how many imports there are and holds the fingerprint of each, and no chain of imports goes on
for ever. -/
structure ContentAddressed (linked : List LinkedModule) : Prop where
  find : ∀ lm ∈ linked, findLinked? linked lm.module = some lm
  fingerprint : ∀ lm ∈ linked, lm.fingerprint = .ofImage lm.image
  importCount : ∀ lm ∈ linked, ∃ header, Header.decode lm.image = .ok header ∧
    header.importCount.toNat = lm.imports.length
  importAt : ∀ lm ∈ linked, ∀ k < lm.imports.length, ∃ target,
    lm.import? linked k = some target ∧ Header.importAt lm.image k = .ok target.fingerprint
  wellFounded : WellFounded (flip (LinkedModule.Imports linked))

namespace Program

variable {p : Program} {typing : TypedProgram} {modules : List CompiledModule}

/-- Modules that stand at the positions of their ids are found there. -/
theorem findLinked?_eq_some
    (hids : ∀ (i : Nat) (lm : LinkedModule), linked[i]? = some lm → lm.module = ⟨i⟩) :
    findLinked? linked id = some lm ↔ linked[id.index]? = some lm := by
  have hposition {lm : LinkedModule} (h : findLinked? linked id = some lm) :
      linked[id.index]? = some lm := by
    obtain ⟨i, hi⟩ := List.mem_iff_getElem?.mp (mem_of_findLinked? h)
    have hid : lm.module = id := by simpa using List.find?_some h
    rwa [← hid, hids i lm hi]
  refine ⟨hposition, fun h => ?_⟩
  have hsome : (findLinked? linked id).isSome := by
    rw [findLinked?, List.find?_isSome]
    exact ⟨lm, List.mem_of_getElem? h, decide_eq_true (hids _ lm h)⟩
  obtain ⟨lm', hlm'⟩ := Option.isSome_iff_exists.mp hsome
  rwa [← Option.some.inj ((hposition hlm').symm.trans h)]

section Modules

variable {verifyConfig : VerifyConfig} {config : CodegenConfig}
  (hverify : p.verify verifyConfig = .ok typing)
  (hmodules : p.compileModules typing config = .ok modules)
  (hlink : linkAll modules = .ok linked)

include hverify hmodules hlink

/-- What is linked is the linked form of a module of the program, at its position. -/
theorem linkedAs_of_getElem? {i : Nat} (hlm : linked[i]? = some lm) :
    ∃ m cm offsets d, p.module? ⟨i⟩ = some m ∧ cm.module = ⟨i⟩ ∧
      p.LinkedAs typing linked m cm offsets lm d := by
  obtain ⟨finished, -, hlinked⟩ := linkedIn_of_linkAll hlink
  have hflip := List.Forall₂.flip (R := flip _) hlinked
  obtain ⟨cm, hcm, -⟩ := getElem?_of_forall₂ hflip hlm
  obtain ⟨hid, m, placed, listings, hholds⟩ := holds_of_getElem? hverify hmodules hcm
  have hm : p.module? ⟨i⟩ = some m := hid ▸ hholds.module
  obtain ⟨cm', offsets, lm', d, hid', hlm'⟩ := linkedAs_of_modules hverify hmodules hlink hm
  have hsame := hlm'.linked_eq
  rw [hid', hlm] at hsame
  cases hsame
  exact ⟨m, cm', offsets, d, hm, hid', hlm'⟩

/-- Modules are linked in the order of their ids. -/
theorem module_of_getElem?_linked {i : Nat} (hlm : linked[i]? = some lm) : lm.module = ⟨i⟩ := by
  obtain ⟨m, cm, offsets, d, -, hid, h⟩ := linkedAs_of_getElem? hverify hmodules hlink hlm
  exact h.keeps.module.trans hid

theorem findLinked?_iff : findLinked? linked id = some lm ↔ linked[id.index]? = some lm :=
  findLinked?_eq_some fun _ _ hlm => module_of_getElem?_linked hverify hmodules hlink hlm

/-- The imports of a module that can be linked come to an end. -/
theorem acc_of_linksTo {r : LinkRecord} (h : LinksTo modules id r)
    (hlm : findLinked? linked id = some lm) : Acc (flip (LinkedModule.Imports linked)) lm := by
  induction h generalizing lm with
  | @finish id cm imports finished r hcm himports hlinks hr ih =>
    rw [findLinked?_iff hverify hmodules hlink] at hlm
    obtain ⟨m, cm', offsets, d, hm, -, h⟩ := linkedAs_of_getElem? hverify hmodules hlink hlm
    obtain ⟨m', placed, listings, hholds⟩ := holds_of_findModule? hverify hmodules hcm
    have hm' := hholds.module
    rw [module_of_findModule? hcm, hm] at hm'
    cases hm'
    have hsame : lm.imports = cm.imports :=
      h.keeps.imports.trans (h.imports.trans hholds.imports.symm)
    refine Acc.intro lm fun target himport => ?_
    obtain ⟨dependency, hmem, htarget⟩ := LinkedModule.imports_iff.mp himport
    rw [hsame] at hmem
    obtain ⟨r', hr'⟩ := findRecord?_of_finishedAs himports hmem
    exact ih dependency hmem r' hr' htarget

/-- The imports of a linked module come to an end. -/
theorem acc_of_mem (hlm : lm ∈ linked) : Acc (flip (LinkedModule.Imports linked)) lm := by
  obtain ⟨i, hi⟩ := List.mem_iff_getElem?.mp hlm
  obtain ⟨m, -, -, -, hm, -⟩ := linkedAs_of_getElem? hverify hmodules hlink hi
  obtain ⟨cm, hcm⟩ := findModule?_of_module? hverify hmodules hm
  obtain ⟨cm, hmem, hid⟩ := mem_of_findModule? hcm
  obtain ⟨r, hr⟩ := (linkAll_ok_iff.mp ⟨linked, hlink⟩).2 cm hmem
  rw [hid] at hr
  exact acc_of_linksTo hverify hmodules hlink hr
    ((findLinked?_iff hverify hmodules hlink).mpr hi)

/-- **The modules of a program that links are content addressed.**  What a module imports is one of
them again. -/
theorem contentAddressed_of_linkAll : ContentAddressed linked where
  find lm hlm := by
    obtain ⟨i, hi⟩ := List.mem_iff_getElem?.mp hlm
    rw [findLinked?_iff hverify hmodules hlink,
      module_of_getElem?_linked hverify hmodules hlink hi]
    exact hi
  fingerprint lm hlm := by
    obtain ⟨i, hi⟩ := List.mem_iff_getElem?.mp hlm
    obtain ⟨m, cm, offsets, d, -, -, h⟩ := linkedAs_of_getElem? hverify hmodules hlink hi
    exact h.keeps.fingerprint
  importCount lm hlm := by
    obtain ⟨i, hi⟩ := List.mem_iff_getElem?.mp hlm
    obtain ⟨m, cm, offsets, d, -, -, h⟩ := linkedAs_of_getElem? hverify hmodules hlink hi
    obtain ⟨hcount, code, -, himage⟩ := h.written
    refine ⟨d.header, ?_, ?_⟩
    · rw [himage]
      exact Header.decode_encode_append _ _
    · rw [hcount, ← h.fingerprints.length_eq, h.keeps.imports]
  importAt lm hlm k hk := by
    obtain ⟨i, hi⟩ := List.mem_iff_getElem?.mp hlm
    obtain ⟨m, cm, offsets, d, -, -, h⟩ := linkedAs_of_getElem? hverify hmodules hlink hi
    have hdependency := List.getElem?_eq_getElem hk
    have hfingerprints := h.fingerprints
    rw [← h.keeps.imports] at hfingerprints
    obtain ⟨fingerprint, hslot, target, htarget, rfl⟩ :=
      getElem?_of_forall₂ hfingerprints hdependency
    refine ⟨target, ?_, h.importAt hslot⟩
    exact LinkedModule.import?_eq_some.mpr
      ⟨_, hdependency, (findLinked?_iff hverify hmodules hlink).mpr htarget⟩
  wellFounded := ⟨fun lm => Acc.intro lm fun _ himport =>
    acc_of_mem hverify hmodules hlink himport.mem⟩

end Modules

/-- The modules of a program that compiles are content addressed. -/
theorem contentAddressed_of_compile {config : CompileConfig} (h : p.compile config = .ok linked) :
    ContentAddressed linked := by
  obtain ⟨-, typing, modules, hverify, hmodules, hlink⟩ := compile_eq_ok.mp h
  exact contentAddressed_of_linkAll hverify hmodules hlink

end Program

/-! ### Equal fingerprints -/

/-- The images of linked modules. -/
def images (linked : List LinkedModule) : Set (List UInt8) :=
  {image | ∃ lm ∈ linked, lm.image = image}

theorem mem_images (h : lm ∈ linked) : lm.image ∈ images linked := ⟨lm, h, rfl⟩

theorem images_append : images (linked ++ linked') = images linked ∪ images linked' := by
  ext image
  simp [images, or_and_right, exists_or]

namespace ContentAddressed

/-- The slot of an import holds its fingerprint. -/
theorem importAt_of_import? {k : Nat} (h : ContentAddressed linked) (hlm : lm ∈ linked)
    (hk : lm.import? linked k = some x) : Header.importAt lm.image k = .ok x.fingerprint := by
  obtain ⟨d, hd, -⟩ := LinkedModule.import?_eq_some.mp hk
  obtain ⟨hlt, -⟩ := List.getElem?_eq_some_iff.mp hd
  obtain ⟨target, htarget, hslot⟩ := h.importAt lm hlm k hlt
  cases hk.symm.trans htarget
  exact hslot

section Pair

variable (h : ContentAddressed linked) (h' : ContentAddressed linked')

include h h'

/-- Modules with the same image have equally many imports. -/
theorem length_imports_eq (ha : a ∈ linked) (hb : b ∈ linked') (himage : a.image = b.image) :
    a.imports.length = b.imports.length := by
  obtain ⟨header, hheader, hcount⟩ := h.importCount a ha
  obtain ⟨header', hheader', hcount'⟩ := h'.importCount b hb
  rw [himage, hheader'] at hheader
  cases hheader
  exact hcount.symm.trans hcount'

/-- **Modules with the same image have the same imports**, as far as fingerprints tell.  Both
fingerprints are read from one slot of one image. -/
theorem import?_congr (ha : a ∈ linked) (hb : b ∈ linked') (himage : a.image = b.image) (k : Nat) :
    (a.import? linked k).map LinkedModule.fingerprint =
      (b.import? linked' k).map LinkedModule.fingerprint := by
  have hlength := h.length_imports_eq h' ha hb himage
  by_cases hk : k < a.imports.length
  · obtain ⟨x, hx, hslot⟩ := h.importAt a ha k hk
    obtain ⟨y, hy, hslot'⟩ := h'.importAt b hb k (hlength ▸ hk)
    rw [himage, hslot'] at hslot
    rw [hx, hy, Option.map_some, Option.map_some, Except.ok.inj hslot]
  · have hnone : a.imports[k]? = none := List.getElem?_eq_none (Nat.le_of_not_lt hk)
    have hnone' : b.imports[k]? = none :=
      List.getElem?_eq_none (hlength ▸ Nat.le_of_not_lt hk)
    simp [LinkedModule.import?, hnone, hnone']

variable (hinj : Set.InjOn Fingerprint.ofImage (images linked ∪ images linked'))

include hinj

/-- A fingerprint determines the image. -/
theorem image_eq (ha : a ∈ linked) (hb : b ∈ linked') (hsame : a.fingerprint = b.fingerprint) :
    a.image = b.image := by
  apply hinj (.inl (mem_images ha)) (.inr (mem_images hb))
  rw [← h.fingerprint a ha, ← h'.fingerprint b hb, hsame]

/-- **A fingerprint determines the fingerprints down the tree of imports.** -/
theorem follow?_congr (ha : a ∈ linked) (hb : b ∈ linked') (hsame : a.fingerprint = b.fingerprint)
    (path : List Nat) : (a.follow? linked path).map LinkedModule.fingerprint =
      (b.follow? linked' path).map LinkedModule.fingerprint := by
  induction path generalizing a b with
  | nil => exact congrArg some hsame
  | cons k path ih =>
    have himport := h.import?_congr h' ha hb (h.image_eq h' hinj ha hb hsame) k
    rw [LinkedModule.follow?, LinkedModule.follow?]
    rcases hx : a.import? linked k with _ | x
    · rw [hx] at himport
      rw [Option.map_eq_none_iff.mp himport.symm, Option.bind_none, Option.bind_none]
    · rw [hx] at himport
      obtain ⟨y, hy, hnext⟩ := Option.map_eq_some_iff.mp himport.symm
      rw [hy]
      exact ih (LinkedModule.Imports.mem ⟨k, hx⟩) (LinkedModule.Imports.mem ⟨k, hy⟩) hnext.symm

/-- What imports lead to has the same images, if the modules started from have the same
fingerprint. -/
theorem map_image_follow? (ha : a ∈ linked) (hb : b ∈ linked')
    (hsame : a.fingerprint = b.fingerprint) (path : List Nat) :
    (a.follow? linked path).map LinkedModule.image =
      (b.follow? linked' path).map LinkedModule.image := by
  have hfollow := h.follow?_congr h' hinj ha hb hsame path
  rcases hx : a.follow? linked path with _ | x
  · rw [hx] at hfollow
    rw [Option.map_eq_none_iff.mp hfollow.symm, Option.map_none]
  · rw [hx] at hfollow
    obtain ⟨y, hy, hlast⟩ := Option.map_eq_some_iff.mp hfollow.symm
    have hx' := LinkedModule.mem_of_follow? ha hx
    have hy' := LinkedModule.mem_of_follow? hb hy
    rw [hy, Option.map_some, Option.map_some, h.image_eq h' hinj hx' hy' hlast.symm]

/-- Modules from which imports lead to different images have different fingerprints. -/
theorem fingerprint_ne {path : List Nat} (ha : a ∈ linked) (hb : b ∈ linked')
    (hx : a.follow? linked path = some x) (hy : b.follow? linked' path = some y)
    (hne : x.image ≠ y.image) : a.fingerprint ≠ b.fingerprint := by
  intro hsame
  have himages := h.map_image_follow? h' hinj ha hb hsame path
  rw [hx, hy] at himages
  exact hne (Option.some.inj himages)

end Pair

end ContentAddressed

/-- **Fingerprints identify everything that is imported**, if no two of the images have one
fingerprint.  Modules with the same fingerprint have the same image, and their imports have the same
fingerprints again, so the images all down their imports are the same.  If the same steps along
imports lead to different images, then the modules on the way have different fingerprints, and the
slots that are followed hold different bytes. -/
theorem Program.fingerprints_identify_closure {p q : Program} {config config' : CompileConfig}
    (hp : p.compile config = .ok linked) (hq : q.compile config' = .ok linked')
    (hinj : Set.InjOn Fingerprint.ofImage (images linked ∪ images linked')) (ha : a ∈ linked)
    (hb : b ∈ linked') :
    (a.fingerprint = b.fingerprint →
      a.image = b.image ∧ a.imports.length = b.imports.length ∧
      (∀ k < a.imports.length, ∃ x y, a.import? linked k = some x ∧
        b.import? linked' k = some y ∧ x.fingerprint = y.fingerprint) ∧
      ∀ path, (a.follow? linked path).map LinkedModule.image =
        (b.follow? linked' path).map LinkedModule.image) ∧
    ∀ front back x y, a.follow? linked (front ++ back) = some x →
      b.follow? linked' (front ++ back) = some y → x.image ≠ y.image →
      ∃ x' y', a.follow? linked front = some x' ∧ b.follow? linked' front = some y' ∧
        x'.fingerprint ≠ y'.fingerprint ∧
        ∀ k, back.head? = some k → ∃ f g, Header.importAt x'.image k = .ok f ∧
          Header.importAt y'.image k = .ok g ∧ f.bytes ≠ g.bytes := by
  have h := contentAddressed_of_compile hp
  have h' := contentAddressed_of_compile hq
  refine ⟨fun hsame => ?_, fun front back x y hx hy hne => ?_⟩
  · have himage := h.image_eq h' hinj ha hb hsame
    have hlength := h.length_imports_eq h' ha hb himage
    refine ⟨himage, hlength, fun k hk => ?_, h.map_image_follow? h' hinj ha hb hsame⟩
    obtain ⟨x, hx, -⟩ := h.importAt a ha k hk
    obtain ⟨y, hy, -⟩ := h'.importAt b hb k (hlength ▸ hk)
    have himport := h.import?_congr h' ha hb himage k
    rw [hx, hy] at himport
    exact ⟨x, y, hx, hy, Option.some.inj himport⟩
  · rw [LinkedModule.follow?_append] at hx hy
    obtain ⟨x', hx', hback⟩ := Option.bind_eq_some_iff.mp hx
    obtain ⟨y', hy', hback'⟩ := Option.bind_eq_some_iff.mp hy
    have hmem := LinkedModule.mem_of_follow? ha hx'
    have hmem' := LinkedModule.mem_of_follow? hb hy'
    refine ⟨x', y', hx', hy', h.fingerprint_ne h' hinj hmem hmem' hback hback' hne, ?_⟩
    intro k hk
    obtain ⟨rest, rfl⟩ := List.head?_eq_some_iff.mp hk
    obtain ⟨x'', hx'', hrest⟩ := Option.bind_eq_some_iff.mp hback
    obtain ⟨y'', hy'', hrest'⟩ := Option.bind_eq_some_iff.mp hback'
    refine ⟨_, _, h.importAt_of_import? hmem hx'', h'.importAt_of_import? hmem' hy'', ?_⟩
    -- the modules imported lead on to the different images, so they differ as well
    have hnext : x''.fingerprint ≠ y''.fingerprint :=
      h.fingerprint_ne h' hinj (LinkedModule.Imports.mem ⟨k, hx''⟩)
        (LinkedModule.Imports.mem ⟨k, hy''⟩) hrest hrest' hne
    exact fun hbytes => hnext (Fingerprint.ext hbytes)

/-- Images with different fingerprints are told apart by them. -/
theorem injOn_images (hids : ∀ lm ∈ linked, lm.fingerprint = .ofImage lm.image)
    (hnodup : (linked.map LinkedModule.fingerprint).Nodup) :
    Set.InjOn Fingerprint.ofImage (images linked) := by
  rintro - ⟨x, hx, rfl⟩ - ⟨y, hy, rfl⟩ hsame
  rw [← hids x hx, ← hids y hy] at hsame
  rw [List.inj_on_of_nodup_map hnodup hx hy hsame]

namespace Program

/-- The clock with another system call. -/
def ticker : Program where
  types := clock.types
  modules := #[⟨"clock", [], #[{ clockTime with implementation := .syscall 8 }], none⟩,
    ⟨"main", [⟨0⟩], #[clockMain, clockIdle], some 0⟩]

/-- The module of the other system call, compiled. -/
def tickerObject : CompiledModule :=
  { clockObject with image := [1, 32, 1, 0, 0, 0, 0, 0, 0, 1, 0, 0, 12, 8, 0, 2] }

theorem ticker_compiles : ∃ typing, ticker.verify {} = .ok typing ∧
    ticker.compileModules typing {} = .ok [tickerObject, mainObject] := by
  have hcompiled : (match ticker.verify {} with
      | .ok typing => ticker.compileModules typing {}
      | .error _ => .ok []) = .ok [tickerObject, mainObject] := by cbv
  cases hverify : ticker.verify {} with
  | error e =>
    rw [hverify] at hcompiled
    cases hcompiled
  | ok typing =>
    rw [hverify] at hcompiled
    exact ⟨typing, rfl, hcompiled⟩

/-- The two clocks linked: no fingerprint occurs twice. -/
theorem clocks_link : ∃ x a y b, clock.compile {} = .ok [x, a] ∧ ticker.compile {} = .ok [y, b] ∧
    ([x, a, y, b].map LinkedModule.fingerprint).Nodup ∧ a.follow? [x, a] [0] = some x ∧
    b.follow? [y, b] [0] = some y := by
  have hlinks : ∃ c ∈ linkPair? clockObject mainObject, ∃ t ∈ linkPair? tickerObject mainObject,
      ([c.1, c.2, t.1, t.2].map LinkedModule.fingerprint).Nodup ∧
        c.2.follow? [c.1, c.2] [0] = some c.1 ∧ t.2.follow? [t.1, t.2] [0] = some t.1 := by
    decide +kernel
  obtain ⟨⟨x, a⟩, hclock, ⟨y, b⟩, hticker, hnodup, hx, hy⟩ := hlinks
  obtain ⟨typing, hverify, hmodules⟩ := ticker_compiles
  have hlink := linkAll_of_linkPair? rfl rfl (by decide) hticker
  exact ⟨x, a, y, b, clock_compile hclock,
    compile_eq_ok.mpr ⟨by cbv, typing, _, hverify, hmodules, hlink⟩, hnodup, hx, hy⟩

/-- Another system call in the module imported changes the fingerprint of the one that imports it,
and the slot of the import. -/
theorem fingerprints_identify_clocks : ∃ x a y b, clock.compile {} = .ok [x, a] ∧
    ticker.compile {} = .ok [y, b] ∧
    Set.InjOn Fingerprint.ofImage (images [x, a] ∪ images [y, b]) ∧
    a.follow? [x, a] [0] = some x ∧ b.follow? [y, b] [0] = some y ∧ x.image ≠ y.image ∧
    a.fingerprint ≠ b.fingerprint ∧ ∃ f g, Header.importAt a.image 0 = .ok f ∧
      Header.importAt b.image 0 = .ok g ∧ f.bytes ≠ g.bytes := by
  obtain ⟨x, a, y, b, hclock, hticker, hnodup, hx, hy⟩ := clocks_link
  have h := contentAddressed_of_compile hclock
  have h' := contentAddressed_of_compile hticker
  have hinj : Set.InjOn Fingerprint.ofImage (images [x, a] ∪ images [y, b]) := by
    rw [← images_append]
    refine injOn_images (fun lm hlm => ?_) hnodup
    rcases List.mem_append.mp hlm with hlm | hlm
    · exact h.fingerprint lm hlm
    · exact h'.fingerprint lm hlm
  have hne : x.image ≠ y.image := by
    intro himage
    have hsame : x.fingerprint = y.fingerprint := by
      rw [h.fingerprint x (by simp), h'.fingerprint y (by simp), himage]
    simp [hsame] at hnodup
  have ha : a ∈ [x, a] := by simp
  have hb : b ∈ [y, b] := by simp
  obtain ⟨a', b', ha', hb', hfingerprint, hslot⟩ :=
    (fingerprints_identify_closure hclock hticker hinj ha hb).2 [] [0] x y hx hy hne
  cases ha'
  cases hb'
  exact ⟨x, a, y, b, hclock, hticker, hinj, hx, hy, hne, hfingerprint, hslot 0 rfl⟩

end Program

end StackCode
