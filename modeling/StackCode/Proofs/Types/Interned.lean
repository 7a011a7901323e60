import StackCode.Proofs.Types.Coherent

/-!
# What interning adds

Interning a kind pushes an unfinished entry, interns the normal form of the kind, and then the
reference to the new type, and each of these steps fills in what an earlier one left open.  Here the
outcome is computed once for each way it can go: a kind brings itself, its normal form if that is
new, and a reference to each of the two.  All entries that are added are finished ones, so a
coherent table stays coherent.

## Main results

* `TypeTable.internReference_of_self`, `TypeTable.internReference_of_known`,
  `TypeTable.internReference_of_unknown`: what interning a reference adds.
* `TypeTable.intern_of_normal`, `TypeTable.intern_of_known`, `TypeTable.intern_of_unknown`: what
  interning any other kind adds.
-/

namespace StackCode

namespace TypeTable

variable {t u : TypeTable} {e : TypeEntry} {type target : TypeId} {kind : TypeKind}

/-! ## References -/

section References

variable (hnew : t.find? (.reference target) = none) (htarget : target.index < t.size)

include hnew htarget

/-- A reference to a type that stands for itself. -/
theorem internReference_of_self (hself : t.standIn target = target) :
    t.internReference target =
      (t.add ⟨.reference target, .word, ⟨t.size⟩, ⟨t.size⟩, none⟩, ⟨t.size⟩) := by
  have hstand : (t.add ⟨.reference target, .word, ⟨t.size⟩, ⟨t.size⟩, none⟩).standIn target =
      target := ((extends_add _ _).standIn_eq htarget).trans hself
  simp only [internReference, hnew, push_eq, hstand, if_true]

/-- A reference to a type with a class the table has references to. -/
theorem internReference_of_known (hne : t.standIn target ≠ target) {normal : TypeId}
    (hknown : t.find? (.reference (t.standIn target)) = some normal) :
    t.internReference target =
      (t.add ⟨.reference target, .word, normal, normal, none⟩, ⟨t.size⟩) := by
  have hstand : (t.add ⟨.reference target, .word, ⟨t.size⟩, ⟨t.size⟩, none⟩).standIn target =
      t.standIn target := (extends_add _ _).standIn_eq htarget
  simp only [internReference, hnew, push_eq, hstand, if_neg hne, internNormalReference, find?_add,
    TypeKind.reference.injEq, hknown, setClass_add_self]

/-- A reference to a type with a class the table has no references to. -/
theorem internReference_of_unknown (hne : t.standIn target ≠ target)
    (hunknown : t.find? (.reference (t.standIn target)) = none) :
    t.internReference target =
      ((t.add ⟨.reference target, .word, ⟨t.size + 1⟩, ⟨t.size + 1⟩, none⟩).add
        ⟨.reference (t.standIn target), .word, ⟨t.size + 1⟩, ⟨t.size + 1⟩, none⟩, ⟨t.size⟩) := by
  have hstand : (t.add ⟨.reference target, .word, ⟨t.size⟩, ⟨t.size⟩, none⟩).standIn target =
      t.standIn target := (extends_add _ _).standIn_eq htarget
  simp only [internReference, hnew, push_eq, hstand, if_neg hne, internNormalReference, find?_add,
    TypeKind.reference.injEq, hunknown, size_add]
  rw [setClass_add_of_lt _ _ _ (by simp), setClass_add_self]

end References

/-- The reference to the type added last, which stands for itself. -/
theorem addReference_of_self (t : TypeTable) (kind : TypeKind) (layout : Layout)
    (hkind : kind.isReference = false) (hnew : t.find? (.reference ⟨t.size⟩) = none) :
    (t.add ⟨kind, layout, ⟨t.size⟩, ⟨t.size⟩, none⟩).addReference ⟨t.size⟩ =
      (t.add ⟨kind, layout, ⟨t.size⟩, ⟨t.size⟩, some ⟨t.size + 1⟩⟩).add
        ⟨.reference ⟨t.size⟩, .word, ⟨t.size + 1⟩, ⟨t.size + 1⟩, none⟩ := by
  have hne : .reference ⟨t.size⟩ ≠ kind := by
    rintro rfl
    cases hkind
  rw [addReference, internReference_of_self (by simp [hnew, hne]) (by simp) (by simp [standIn])]
  simp only [size_add]
  rw [setReference_add_of_lt _ _ _ (by simp), setReference_add_self]

/-! ## Other kinds -/

/-- The kind is made of types of the table, and is neither a primitive nor a reference. -/
structure Formed (t : TypeTable) (kind : TypeKind) : Prop where
  compound : kind.isCompound = true
  notReference : kind.isReference = false
  parts : t.MadeBelow t.size kind

/-- The kind is made by an operation other than the one for references. -/
structure Internable (t : TypeTable) (kind : TypeKind) : Prop extends formed : Formed t kind where
  values : ∀ c ∈ kind.values, c ≠ TypeId.void ∧ c ≠ .null

theorem Formed.reference_ne (h : t.Formed kind) : TypeKind.reference target ≠ kind := by
  rintro rfl
  cases h.notReference

theorem Formed.isAddressable (h : t.Formed kind) : kind.isAddressable = true := by
  obtain ⟨hcompound, hreference, -⟩ := h
  cases kind with
  | primitive p => cases hcompound
  | reference target => cases hreference
  | _ => rfl

/-- A kind made of types of the table is a primitive or a reference, or it is formed. -/
theorem MadeBelow.forms (h : t.MadeBelow t.size kind) :
    (∃ p, kind = .primitive p) ∨ (∃ target, kind = .reference target ∧ target.index < t.size) ∨
      t.Formed kind := by
  cases kind with
  | primitive p => exact .inl ⟨p, rfl⟩
  | reference target => exact .inr (.inl ⟨target, rfl, madeBelow_reference.mp h⟩)
  | _ => exact .inr (.inr ⟨rfl, rfl, h⟩)

/-- The normal form of a kind is made of types of the table too. -/
theorem Coherent.madeBelow_normalize (h : t.Coherent) (hparts : t.MadeBelow t.size kind) :
    t.MadeBelow t.size (t.normalize kind) := by
  cases kind with
  | primitive p => exact hparts
  | _ => exact h.madeBelow_normalForm hparts

theorem Coherent.formed_normalize (h : t.Coherent) (hkind : t.Formed kind) :
    t.Formed (t.normalize kind) := by
  refine ⟨?_, ?_, h.madeBelow_normalize hkind.parts⟩
  · rw [← normalForm_of_isCompound hkind.compound, isCompound_normalForm, hkind.compound]
  · cases kind with
    | reference target => exact hkind.notReference
    | _ => rfl

/-- A normal form is its own normal form. -/
theorem Coherent.normalize_normalize (h : t.Coherent) (hparts : t.MadeBelow t.size kind) :
    t.normalize (t.normalize kind) = t.normalize kind := by
  cases kind with
  | primitive p => rfl
  | _ => exact h.normalForm_normalForm hparts

/-- With a kind its normal form can be interned. -/
theorem Coherent.internable_normalize (h : t.Coherent) (hkind : t.Internable kind) :
    t.Internable (t.normalize kind) := by
  refine ⟨h.formed_normalize hkind.formed, ?_⟩
  rw [← normalForm_of_isCompound hkind.compound]
  exact h.values_normalForm hkind.values

/-- No type of the table is a reference to a type that is not. -/
theorem Coherent.find?_reference_eq_none (h : t.Coherent) (target : TypeId)
    (htarget : t.size ≤ target.index) : t.find? (.reference target) = none := by
  cases hfind : t.find? (.reference target) with
  | none => rfl
  | some type =>
    obtain ⟨e, he, hkind⟩ := (h.indexed _ _).mp hfind
    have hparts := (h.sound he).parts
    rw [hkind, madeBelow_reference] at hparts
    have htype := lt_size_of_found he
    omega

/-- No type of the table is a structure without a declaration. -/
theorem Coherent.find?_struct_eq_none (h : t.Coherent) {decl : Nat}
    (hdecl : t.structs.size ≤ decl) : t.find? (.struct decl) = none := by
  cases hfind : t.find? (.struct decl) with
  | none => rfl
  | some type =>
    obtain ⟨e, he, hkind⟩ := (h.indexed _ _).mp hfind
    have hparts := (h.sound he).parts
    rw [hkind, madeBelow_struct] at hparts
    obtain ⟨s, hs, -⟩ := hparts
    exact absurd (Array.getElem?_eq_some_iff.mp hs).1 (Nat.not_lt.mpr hdecl)

section Kinds

variable (h : t.Coherent) (hkind : t.Formed kind) (hnew : t.find? kind = none)
  {layout : Layout} (hlayout : t.kindLayout kind = .ok layout)

include h hkind hnew hlayout

/-- A normal form brings itself and its reference. -/
theorem intern_of_normal (hnormal : t.normalize kind = kind) :
    t.intern kind =
      ((t.add ⟨kind, layout, ⟨t.size⟩, ⟨t.size⟩, some ⟨t.size + 1⟩⟩).add
        ⟨.reference ⟨t.size⟩, .word, ⟨t.size + 1⟩, ⟨t.size + 1⟩, none⟩, .ok ⟨t.size⟩) := by
  have hnormal' (e : TypeEntry) : (t.add e).normalize kind = kind :=
    ((extends_add _ _).normalize_eq hkind.parts).trans hnormal
  have hself := h.find?_reference_eq_none ⟨t.size⟩ (Nat.le_refl _)
  simp only [intern, hnew, hlayout, push_eq, hnormal', if_true,
    addReference_of_self t kind layout hkind.notReference hself]

/-- A kind with a known normal form brings itself and its reference.  The reference to the normal
form is the class of the new reference. -/
theorem intern_of_known (hne : t.normalize kind ≠ kind) {normal ref : TypeId}
    (hknown : t.find? (t.normalize kind) = some normal)
    (href : t.find? (.reference normal) = some ref) :
    t.intern kind =
      ((t.add ⟨kind, layout, normal, normal, some ⟨t.size + 1⟩⟩).add
        ⟨.reference ⟨t.size⟩, .word, ref, ref, none⟩, .ok ⟨t.size⟩) := by
  have hnormal (e : TypeEntry) : (t.add e).normalize kind = t.normalize kind :=
    (extends_add _ _).normalize_eq hkind.parts
  have hself := h.find?_reference_eq_none ⟨t.size⟩ (Nat.le_refl _)
  have hne' : normal ≠ ⟨t.size⟩ := by
    rintro rfl
    exact Nat.lt_irrefl _ ((h.indexed _ _).mp hknown).lt_size
  simp only [intern, hnew, hlayout, push_eq, hnormal, if_neg hne, internNormal, find?_add, hknown,
    setClass_add_self, addReference]
  have hstand (e : TypeEntry) : (t.add e).standIn ⟨t.size⟩ = e.verification := by
    simp [standIn]
  have hclass (layout : Layout) : (t.add ⟨kind, layout, normal, normal, none⟩).find?
      (.reference ((t.add ⟨kind, layout, normal, normal, none⟩).standIn ⟨t.size⟩)) = some ref := by
    simp [hstand, href, hkind.reference_ne]
  rw [internReference_of_known (by simp [hself, hkind.reference_ne]) (by simp)
    (by rw [hstand]; exact hne') (hclass layout)]
  simp only [size_add]
  rw [setReference_add_of_lt _ _ _ (by simp), setReference_add_self]

/-- A kind with an unknown normal form brings itself, the normal form and both references.  The
reference to the normal form is the class of the last one. -/
theorem intern_of_unknown (hne : t.normalize kind ≠ kind)
    (hunknown : t.find? (t.normalize kind) = none) :
    t.intern kind =
      ((((t.add ⟨kind, layout, ⟨t.size + 1⟩, ⟨t.size + 1⟩, some ⟨t.size + 3⟩⟩).add
        ⟨t.normalize kind, layout, ⟨t.size + 1⟩, ⟨t.size + 1⟩, some ⟨t.size + 2⟩⟩).add
        ⟨.reference ⟨t.size + 1⟩, .word, ⟨t.size + 2⟩, ⟨t.size + 2⟩, none⟩).add
        ⟨.reference ⟨t.size⟩, .word, ⟨t.size + 2⟩, ⟨t.size + 2⟩, none⟩, .ok ⟨t.size⟩) := by
  have hnormal (e : TypeEntry) : (t.add e).normalize kind = t.normalize kind :=
    (extends_add _ _).normalize_eq hkind.parts
  have hform := h.formed_normalize hkind
  have hlayout' (e : TypeEntry) : (t.add e).kindLayout (t.normalize kind) = .ok layout := by
    rw [(extends_add _ _).kindLayout_eq hform.parts, ← normalForm_of_isCompound hkind.compound,
      h.kindLayout_normalForm hkind.parts, hlayout]
  have hself := h.find?_reference_eq_none ⟨t.size⟩ (Nat.le_refl _)
  have hnext := h.find?_reference_eq_none ⟨t.size + 1⟩ (Nat.le_succ _)
  simp only [intern, hnew, hlayout, push_eq, hnormal, if_neg hne, internNormal, find?_add, hunknown,
    hlayout']
  rw [addReference_of_self _ _ layout hform.notReference (by simp [hnext, hkind.reference_ne])]
  simp only [size_add, Nat.add_assoc, Nat.reduceAdd]
  rw [setClass_add_of_lt _ _ _ (by simp only [size_add]; omega), setClass_add_of_lt _ _ _ (by simp),
    setClass_add_self, addReference]
  generalize hwhole : (((t.add _).add _).add _ : TypeTable) = whole
  have hsize : whole.size = t.size + 3 := by simp [← hwhole]
  have hnone : whole.find? (.reference ⟨t.size⟩) = none := by
    simp [← hwhole, hself, hkind.reference_ne, hform.reference_ne]
  have hstand : whole.standIn ⟨t.size⟩ = ⟨t.size + 1⟩ := by
    simp [← hwhole, standIn, Nat.add_assoc]
  have hknown : whole.find? (.reference (whole.standIn ⟨t.size⟩)) = some ⟨t.size + 2⟩ := by
    rw [hstand]
    simp [← hwhole]
  rw [internReference_of_known hnone (by simp [hsize]) (by simp [hstand]) hknown]
  simp only [hsize]
  rw [← hwhole]
  rw [setReference_add_of_lt _ _ _ (by simp only [size_add]; omega),
    setReference_add_of_lt _ _ _ (by simp only [size_add]; omega),
    setReference_add_of_lt _ _ _ (by simp), setReference_add_self]

end Kinds

/-! ## The new entries are sound -/

/-- A reference whose class is the reference to the class of its target. -/
theorem entrySound_reference (h : u.HasPrimitives) (htarget : target.index < type.index)
    {normal : TypeId} (hclass : u.HasKind normal (.reference (u.standIn target))) :
    u.EntrySound type ⟨.reference target, .word, normal, normal, none⟩ where
  parts := madeBelow_reference.mpr htarget
  values := by simp [TypeKind.values]
  layout := rfl
  verification := hclass
  stack := (h.widened_eq hclass rfl).symm
  reference := by simp
  addressable := rfl

/-- A kind other than a reference whose class has its normal form. -/
theorem entrySound_of_internable (h : u.HasPrimitives) (hext : Extends t u)
    (hkind : t.Internable kind) {layout : Layout} (hlayout : t.kindLayout kind = .ok layout)
    (htype : t.size ≤ type.index) {normal ref : TypeId}
    (hclass : u.HasKind normal (t.normalize kind)) (href : u.HasKind ref (.reference type)) :
    u.EntrySound type ⟨kind, layout, normal, normal, some ref⟩ := by
  have hform : u.normalForm kind = t.normalize kind := by
    rw [hext.normalForm_eq hkind.parts, normalForm_of_isCompound hkind.compound]
  have hcompound : (t.normalize kind).isCompound = true := by
    rw [← hform, isCompound_normalForm, hkind.compound]
  refine ⟨(hkind.parts.extends hext).mono htype, hkind.values, ?_, ?_, ?_, ?_, ?_⟩
  · exact (hext.kindLayout_eq hkind.parts).trans hlayout
  · exact hform ▸ hclass
  · exact (h.widened_eq hclass hcompound).symm
  · rintro _ ⟨⟩
    exact href
  · exact hkind.formed.isAddressable.symm

/-- Interning a reference keeps the table coherent. -/
theorem Coherent.internReference (h : t.Coherent) (htarget : target.index < t.size) :
    (t.internReference target).1.Coherent ∧ t.Extends (t.internReference target).1 := by
  cases hfind : t.find? (.reference target) with
  | some type =>
    have hsame : t.internReference target = (t, type) := by
      simp only [TypeTable.internReference, hfind]
    rw [hsame]
    exact ⟨h, .refl t⟩
  | none =>
    by_cases hself : t.standIn target = target
    · rw [internReference_of_self hfind htarget hself]
      have hext := extends_add t ⟨.reference target, .word, ⟨t.size⟩, ⟨t.size⟩, none⟩
      refine ⟨h.extends hext (h.indexed.add hfind) ((soundBeyond_self t _).add ?_), hext⟩
      refine entrySound_reference (hext.hasPrimitives h.primitives) htarget ?_
      rw [hext.standIn_eq htarget, hself]
      simp
    · cases hknown : t.find? (.reference (t.standIn target)) with
      | some normal =>
        rw [internReference_of_known hfind htarget hself hknown]
        have hext := extends_add t ⟨.reference target, .word, normal, normal, none⟩
        refine ⟨h.extends hext (h.indexed.add hfind) ((soundBeyond_self t _).add ?_), hext⟩
        refine entrySound_reference (hext.hasPrimitives h.primitives) htarget ?_
        rw [hext.standIn_eq htarget]
        exact hext.hasKind ((h.indexed _ _).mp hknown)
      | none =>
        rw [internReference_of_unknown hfind htarget hself hknown]
        have hext := (extends_add t
          ⟨.reference target, .word, ⟨t.size + 1⟩, ⟨t.size + 1⟩, none⟩).trans
          (extends_add _ ⟨.reference (t.standIn target), .word, ⟨t.size + 1⟩, ⟨t.size + 1⟩, none⟩)
        have hprim := hext.hasPrimitives h.primitives
        have hstand := h.standIn_lt_size htarget
        refine ⟨h.extends hext ((h.indexed.add hfind).add ?_)
          (((soundBeyond_self t _).add ?_).add ?_), hext⟩
        · simpa [hself] using hknown
        · refine entrySound_reference hprim htarget ?_
          rw [hext.standIn_eq htarget]
          simp
        · refine entrySound_reference hprim (by simp only [size_add]; omega) ?_
          rw [hext.standIn_eq hstand, h.standIn_standIn]
          simp

/-- A kind that is not a reference, once it is a type, has a reference. -/
theorem Coherent.exists_reference (h : t.Coherent) (hkind : t.Formed kind)
    (htype : t.HasKind type kind) : ∃ ref, t.find? (.reference type) = some ref := by
  obtain ⟨e, he, rfl⟩ := htype
  have hsome : e.reference.isSome = true := by
    rw [(h.sound he).addressable]
    exact hkind.isAddressable
  obtain ⟨ref, href⟩ := Option.isSome_iff_exists.mp hsome
  exact ⟨ref, (h.indexed _ _).mpr ((h.sound he).reference ref href)⟩

section Coherence

variable (h : t.Coherent) (hkind : t.Internable kind) (hnew : t.find? kind = none)
  {layout : Layout} (hlayout : t.kindLayout kind = .ok layout)

include h hkind hnew hlayout

theorem coherent_of_normal (hnormal : t.normalize kind = kind) :
    (t.intern kind).1.Coherent ∧ t.Extends (t.intern kind).1 := by
  have hself := h.find?_reference_eq_none ⟨t.size⟩ (Nat.le_refl _)
  rw [intern_of_normal h hkind.formed hnew hlayout hnormal]
  have hext := (extends_add t
    ⟨kind, layout, ⟨t.size⟩, ⟨t.size⟩, some ⟨t.size + 1⟩⟩).trans
    (extends_add _ ⟨.reference ⟨t.size⟩, .word, ⟨t.size + 1⟩, ⟨t.size + 1⟩, none⟩)
  have hprim := hext.hasPrimitives h.primitives
  refine ⟨h.extends hext ((h.indexed.add hnew).add ?_)
    (((soundBeyond_self t _).add ?_).add ?_), hext⟩
  · simpa [hkind.formed.reference_ne] using hself
  · apply entrySound_of_internable hprim hext hkind hlayout
    · exact Nat.le_refl _
    · simp [hnormal]
    · simp
  · exact entrySound_reference hprim (by simp) (by simp [standIn])

theorem coherent_of_known (hne : t.normalize kind ≠ kind) {normal : TypeId}
    (hknown : t.find? (t.normalize kind) = some normal) :
    (t.intern kind).1.Coherent ∧ t.Extends (t.intern kind).1 := by
  have hself := h.find?_reference_eq_none ⟨t.size⟩ (Nat.le_refl _)
  have hclass := (h.indexed _ _).mp hknown
  obtain ⟨ref, href⟩ := h.exists_reference (h.formed_normalize hkind.formed) hclass
  rw [intern_of_known h hkind.formed hnew hlayout hne hknown href]
  have hext := (extends_add t ⟨kind, layout, normal, normal, some ⟨t.size + 1⟩⟩).trans
    (extends_add _ ⟨.reference ⟨t.size⟩, .word, ref, ref, none⟩)
  have hprim := hext.hasPrimitives h.primitives
  refine ⟨h.extends hext ((h.indexed.add hnew).add ?_)
    (((soundBeyond_self t _).add ?_).add ?_), hext⟩
  · simpa [hkind.formed.reference_ne] using hself
  · apply entrySound_of_internable hprim hext hkind hlayout
    · exact Nat.le_refl _
    · exact hext.hasKind hclass
    · simp
  · apply entrySound_reference hprim (by simp)
    have href' := hext.hasKind ((h.indexed _ _).mp href)
    simpa [standIn] using href'

theorem coherent_of_unknown (hne : t.normalize kind ≠ kind)
    (hunknown : t.find? (t.normalize kind) = none) :
    (t.intern kind).1.Coherent ∧ t.Extends (t.intern kind).1 := by
  have hself := h.find?_reference_eq_none ⟨t.size⟩ (Nat.le_refl _)
  have hnext := h.find?_reference_eq_none ⟨t.size + 1⟩ (Nat.le_succ _)
  have hform := h.internable_normalize hkind
  have hidem := h.normalize_normalize hkind.parts
  have hlayout' : t.kindLayout (t.normalize kind) = .ok layout := by
    rw [← normalForm_of_isCompound hkind.compound, h.kindLayout_normalForm hkind.parts, hlayout]
  rw [intern_of_unknown h hkind.formed hnew hlayout hne hunknown]
  have hext := (((extends_add t
    ⟨kind, layout, ⟨t.size + 1⟩, ⟨t.size + 1⟩, some ⟨t.size + 3⟩⟩).trans
    (extends_add _ ⟨t.normalize kind, layout, ⟨t.size + 1⟩, ⟨t.size + 1⟩, some ⟨t.size + 2⟩⟩)).trans
    (extends_add _ ⟨.reference ⟨t.size + 1⟩, .word, ⟨t.size + 2⟩, ⟨t.size + 2⟩, none⟩)).trans
    (extends_add _ ⟨.reference ⟨t.size⟩, .word, ⟨t.size + 2⟩, ⟨t.size + 2⟩, none⟩)
  have hprim := hext.hasPrimitives h.primitives
  refine ⟨h.extends hext ((((h.indexed.add hnew).add ?_).add ?_).add ?_)
    (((((soundBeyond_self t _).add ?_).add ?_).add ?_).add ?_), hext⟩
  · simpa [hne] using hunknown
  · simpa [hkind.formed.reference_ne, hform.formed.reference_ne] using hnext
  · simpa [hkind.formed.reference_ne, hform.formed.reference_ne] using hself
  · apply entrySound_of_internable hprim hext hkind hlayout
    · exact Nat.le_refl _
    · simp [Nat.add_assoc]
    · simp [Nat.add_assoc]
  · apply entrySound_of_internable hprim hext hform hlayout'
    · simp
    · simp [hidem, Nat.add_assoc]
    · simp [Nat.add_assoc]
  · exact entrySound_reference hprim (by simp) (by simp [standIn, Nat.add_assoc])
  · exact entrySound_reference hprim (by simp only [size_add]; omega)
      (by simp [standIn, Nat.add_assoc])

end Coherence

/-- A primitive is there already. -/
theorem Coherent.intern_primitive (h : t.Coherent) (p : Primitive) :
    t.intern (.primitive p) = (t, .ok p.id) := by
  simp only [TypeTable.intern, (h.indexed _ _).mpr (h.primitives p)]

/-- Interning any other kind keeps the table coherent. -/
theorem Coherent.intern (h : t.Coherent) (hkind : t.Internable kind) :
    (t.intern kind).1.Coherent ∧ t.Extends (t.intern kind).1 := by
  cases hfind : t.find? kind with
  | some type =>
    have hsame : t.intern kind = (t, .ok type) := by simp only [TypeTable.intern, hfind]
    rw [hsame]
    exact ⟨h, .refl t⟩
  | none =>
    cases hlayout : t.kindLayout kind with
    | error cause =>
      have hfails : t.intern kind = (t, .error cause) := by
        simp only [TypeTable.intern, hfind, hlayout]
      rw [hfails]
      exact ⟨h, .refl t⟩
    | ok layout =>
      by_cases hnormal : t.normalize kind = kind
      · exact coherent_of_normal h hkind hfind hlayout hnormal
      · cases hknown : t.find? (t.normalize kind) with
        | some normal => exact coherent_of_known h hkind hfind hlayout hnormal hknown
        | none => exact coherent_of_unknown h hkind hfind hlayout hnormal hknown

end TypeTable

end StackCode
