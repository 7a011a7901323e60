import StackCode.Proofs.Types.Extension

/-!
# Coherent type tables

In a finished table every entry accounts for its type: the kind is made of older types, the layout
is the layout of the kind, the class has the normal form of the kind, and the reference is there
exactly for the types that values can be behind.  The index leads from each kind to its one type.
An entry stays sound when the table grows, so it is enough to look at the entries an operation adds.

Normalizing is done one level deep, with the classes the components already have.  That these
classes are normal themselves is a fact about the whole table, by induction on the age of a type.

## Main definitions

* `TypeTable.normalForm`: the kind of the class of a type.
* `TypeTable.EntrySound`: an entry accounts for its type.
* `TypeTable.Coherent`: a finished table.

## Main results

* `TypeTable.EntrySound.extends`: a sound entry stays sound.
* `TypeTable.Coherent.standIn_standIn`: a class is its own class.
* `TypeTable.Coherent.componentLayout_standIn`: a type is laid out as its class.
-/

namespace StackCode

/-- The type a value of a class has on the operand stack. -/
def TypeId.widened (type : TypeId) : TypeId :=
  if type = .int8 ∨ type = .int16 then .int32 else type

namespace TypeKind

/-- The components of a kind that values of the kind are stored with or take as arguments. -/
def values : TypeKind → List TypeId
  | array element _ | span element => [element]
  | function params _ => params
  | _ => []

/-- Whether there are references to values of the kind. -/
def isAddressable : TypeKind → Bool
  | primitive .void | primitive .null | reference _ => false
  | _ => true

/-- Whether the kind is made from other types by an operation of the table. -/
def isCompound : TypeKind → Bool
  | primitive _ => false
  | _ => true

end TypeKind

namespace TypeTable

variable {t u : TypeTable} {e : TypeEntry} {type : TypeId} {kind : TypeKind}

/-- The kind of the type that stands for a type of this kind. -/
def normalForm (t : TypeTable) : TypeKind → TypeKind
  | .primitive p => .primitive p.verification
  | kind => t.normalize kind

/-- The entry accounts for the type. -/
structure EntrySound (t : TypeTable) (type : TypeId) (e : TypeEntry) : Prop where
  /-- The kind is made of older types. -/
  parts : t.MadeBelow type.index e.kind
  values : ∀ c ∈ e.kind.values, c ≠ .void ∧ c ≠ .null
  layout : t.kindLayout e.kind = .ok e.layout
  verification : t.HasKind e.verification (t.normalForm e.kind)
  stack : e.stack = e.verification.widened
  reference : ∀ ref, e.reference = some ref → t.HasKind ref (.reference type)
  addressable : e.reference.isSome = e.kind.isAddressable

/-- The index leads from each kind to its one type. -/
def Indexed (t : TypeTable) : Prop :=
  ∀ (kind : TypeKind) (type : TypeId), t.find? kind = some type ↔ t.HasKind type kind

/-- A finished table. -/
structure Coherent (t : TypeTable) : Prop where
  indexed : t.Indexed
  sound : ∀ {type : TypeId} {e : TypeEntry}, t.entry? type = some e → t.EntrySound type e
  primitives : t.HasPrimitives

section Decidability

instance : Decidable (t.HasKind type kind) :=
  decidable_of_iff ((t.entry? type).map TypeEntry.kind = some kind) (by simp [HasKind])

instance {bound : Nat} : Decidable (t.MadeBelow bound kind) :=
  decidable_of_iff ((t.parts? kind).any (·.all (·.index < bound)) = true)
    (by simp [MadeBelow, Option.any_eq_true])

instance : Decidable (t.EntrySound type e) :=
  decidable_of_iff
    (t.MadeBelow type.index e.kind ∧ (∀ c ∈ e.kind.values, c ≠ .void ∧ c ≠ .null) ∧
      t.kindLayout e.kind = .ok e.layout ∧ t.HasKind e.verification (t.normalForm e.kind) ∧
      e.stack = e.verification.widened ∧ (∀ ref ∈ e.reference, t.HasKind ref (.reference type)) ∧
      e.reference.isSome = e.kind.isAddressable)
    ⟨fun ⟨parts, values, layout, verification, stack, reference, addressable⟩ =>
      ⟨parts, values, layout, verification, stack, reference, addressable⟩,
     fun ⟨parts, values, layout, verification, stack, reference, addressable⟩ =>
      ⟨parts, values, layout, verification, stack, reference, addressable⟩⟩

end Decidability

/-! ## Growing tables -/

/-- Kinds keep their normal forms in a table that has grown. -/
theorem Extends.normalForm_eq (h : Extends t u) (hkind : t.MadeBelow t.size kind) :
    u.normalForm kind = t.normalForm kind := by
  cases kind with
  | primitive p => rfl
  | _ => exact h.normalize_eq hkind

/-- A sound entry stays sound. -/
theorem EntrySound.extends (h : t.EntrySound type e) (htype : type.index < t.size)
    (hext : Extends t u) : u.EntrySound type e where
  parts := h.parts.extends hext
  values := h.values
  layout := (hext.kindLayout_eq (h.parts.mono (Nat.le_of_lt htype))).trans h.layout
  verification := by
    rw [hext.normalForm_eq (h.parts.mono (Nat.le_of_lt htype))]
    exact hext.hasKind h.verification
  stack := h.stack
  reference ref href := hext.hasKind (h.reference ref href)
  addressable := h.addressable

/-- A kind has one id. -/
theorem Indexed.unique (h : t.Indexed) {a b : TypeId} (ha : t.HasKind a kind)
    (hb : t.HasKind b kind) : a = b :=
  Option.some.inj (((h kind a).mpr ha).symm.trans ((h kind b).mpr hb))

/-- A kind that was not found leads to the entry added for it. -/
theorem Indexed.add (h : t.Indexed) (hnew : t.find? e.kind = none) : (t.add e).Indexed := by
  intro kind ⟨i⟩
  rw [find?_add, hasKind_add]
  by_cases hkind : kind = e.kind
  · subst hkind
    have hold : ¬ t.HasKind ⟨i⟩ e.kind := by
      rw [← h e.kind, hnew]
      exact Option.some_ne_none _ ∘ Eq.symm
    by_cases hi : i = t.size
    · simp [hi]
    · simp [hi, hold, Ne.symm hi]
  · by_cases hi : i = t.size
    · have hold : ¬ t.find? kind = some ⟨i⟩ := by
        intro hfound
        have hlt := ((h kind ⟨i⟩).mp hfound).lt_size
        exact absurd hi (Nat.ne_of_lt hlt)
      simpa [hkind, hi, Ne.symm hkind] using hi ▸ hold
    · simpa [hkind, hi] using h kind ⟨i⟩

/-- New entries of different kinds are found by them. -/
theorem Indexed.addAll {es : List TypeEntry} (h : t.Indexed)
    (hnew : ∀ e ∈ es, t.find? e.kind = none) (hdistinct : (es.map TypeEntry.kind).Nodup) :
    (es.foldl TypeTable.add t).Indexed := by
  induction es generalizing t with
  | nil => exact h
  | cons e es ih =>
    rw [List.map_cons, List.nodup_cons] at hdistinct
    obtain ⟨he, hrest⟩ := List.forall_mem_cons.mp hnew
    refine ih (h.add he) (fun e' he' => ?_) hdistinct.2
    have hne : e'.kind ≠ e.kind := fun heq => hdistinct.1 (heq ▸ List.mem_map_of_mem he')
    simpa [hne] using hrest e' he'

/-- The entries that `u` has beyond those of `t` are sound in `w`. -/
def SoundBeyond (t u w : TypeTable) : Prop :=
  ∀ (type : TypeId) (e : TypeEntry), t.size ≤ type.index → u.entry? type = some e →
    w.EntrySound type e

theorem soundBeyond_self (t w : TypeTable) : SoundBeyond t t w := by
  intro type e hle he
  exact absurd (lt_size_of_found he) (Nat.not_lt.mpr hle)

theorem SoundBeyond.add {w : TypeTable} (h : SoundBeyond t u w)
    (he : w.EntrySound ⟨u.size⟩ e) : SoundBeyond t (u.add e) w := by
  intro ⟨i⟩ e' hle hentry
  rw [entry?_add] at hentry
  by_cases hi : i = u.size
  · rw [if_pos hi] at hentry
    cases hentry
    exact hi ▸ he
  · rw [if_neg hi] at hentry
    exact h _ _ hle hentry

/-- A table stays coherent if the index does and the new entries are sound. -/
theorem Coherent.extends (h : t.Coherent) (hext : Extends t u) (hindexed : u.Indexed)
    (hnew : SoundBeyond t u u) : u.Coherent where
  indexed := hindexed
  sound {type e} he := by
    by_cases hold : type.index < t.size
    · obtain ⟨e', he'⟩ := exists_entry hold
      obtain rfl : e' = e := Option.some.inj ((hext.entry he').symm.trans he)
      exact (h.sound he').extends hold hext
    · exact hnew _ _ (Nat.le_of_not_lt hold) he
  primitives := hext.hasPrimitives h.primitives

/-! ## Normal forms -/

/-- A normal form can be referred to exactly if the kind can. -/
@[simp] theorem isAddressable_normalForm (t : TypeTable) (kind : TypeKind) :
    (t.normalForm kind).isAddressable = kind.isAddressable := by
  cases kind with
  | primitive p => cases p <;> rfl
  | _ => rfl

@[simp] theorem isCompound_normalForm (t : TypeTable) (kind : TypeKind) :
    (t.normalForm kind).isCompound = kind.isCompound := by
  cases kind <;> rfl

theorem normalForm_of_isCompound (h : kind.isCompound = true) :
    t.normalForm kind = t.normalize kind := by
  cases kind with
  | primitive p => cases h
  | _ => rfl

/-- A type of a compound kind is as wide on the operand stack as anywhere. -/
theorem HasPrimitives.widened_eq (h : t.HasPrimitives) (hkind : t.HasKind type kind)
    (hcompound : kind.isCompound = true) : type.widened = type := by
  have hne : ∀ p : Primitive, type ≠ p.id := by
    rintro p rfl
    rw [hkind.unique (h p)] at hcompound
    cases hcompound
  exact if_neg fun hnarrow => hnarrow.elim (hne .int8) (hne .int16)

/-- Normalizing again changes nothing if the classes of the parts are their own classes. -/
theorem normalForm_normalForm_of_parts {bound : Nat} (hkind : t.MadeBelow bound kind)
    (hparts : ∀ c : TypeId, c.index < bound → t.standIn (t.standIn c) = t.standIn c) :
    t.normalForm (t.normalForm kind) = t.normalForm kind := by
  cases kind with
  | primitive p => cases p <;> rfl
  | reference target => simp [normalForm, normalize, hparts _ (madeBelow_reference.mp hkind)]
  | array element length => simp [normalForm, normalize, hparts _ (madeBelow_array.mp hkind)]
  | span element => simp [normalForm, normalize, hparts _ (madeBelow_span.mp hkind)]
  | function params result =>
    obtain ⟨hresult, hparams⟩ := madeBelow_function.mp hkind
    have hmap : params.map (t.standIn ∘ t.standIn) = params.map t.standIn :=
      List.map_congr_left fun param hparam => hparts param (hparams param hparam)
    simp [normalForm, normalize, hparts _ hresult, hmap]
  | struct decl => rfl

/-- Normalizing keeps the layout if the parts are laid out as their classes. -/
theorem kindLayout_normalForm_of_parts {bound : Nat} (hkind : t.MadeBelow bound kind)
    (hparts : ∀ c : TypeId, c.index < bound →
      t.componentLayout (t.standIn c) = t.componentLayout c) :
    t.kindLayout (t.normalForm kind) = t.kindLayout kind := by
  cases kind with
  | primitive p => cases p <;> rfl
  | array element length =>
    simp only [normalForm, normalize, kindLayout, hparts _ (madeBelow_array.mp hkind)]
  | _ => rfl

namespace Coherent

/-- The class of a type has its normal form for a kind. -/
theorem hasKind_standIn (h : t.Coherent) (hkind : t.HasKind type kind) :
    t.HasKind (t.standIn type) (t.normalForm kind) := by
  obtain ⟨e, he, rfl⟩ := hkind
  rw [standIn_eq he]
  exact (h.sound he).verification

/-- The class of a type is in the table if the type is. -/
theorem standIn_lt_size (h : t.Coherent) (htype : type.index < t.size) :
    (t.standIn type).index < t.size := by
  obtain ⟨kind, hkind⟩ := exists_hasKind htype
  exact (h.hasKind_standIn hkind).lt_size

/-- The class of a type is its own class.  The classes of its parts, which are older, make its kind
a normal form. -/
theorem standIn_standIn (h : t.Coherent) (type : TypeId) :
    t.standIn (t.standIn type) = t.standIn type := by
  obtain ⟨i⟩ := type
  induction i using Nat.strongRecOn with
  | ind i ih =>
    cases he : t.entry? ⟨i⟩ with
    | none => simp [standIn, he]
    | some e =>
      have hidem := normalForm_normalForm_of_parts (h.sound he).parts fun c hc => ih c.index hc
      have hclass := h.hasKind_standIn ⟨e, he, rfl⟩
      apply h.indexed.unique _ hclass
      rw [← hidem]
      exact h.hasKind_standIn hclass

/-- The layout that is stored is that of the kind. -/
theorem componentLayout_eq (h : t.Coherent) (hkind : t.HasKind type kind) :
    t.componentLayout type = t.kindLayout kind := by
  obtain ⟨e, he, rfl⟩ := hkind
  rw [componentLayout, he, (h.sound he).layout]

/-- A type is laid out as its class. -/
theorem componentLayout_standIn (h : t.Coherent) (type : TypeId) :
    t.componentLayout (t.standIn type) = t.componentLayout type := by
  obtain ⟨i⟩ := type
  induction i using Nat.strongRecOn with
  | ind i ih =>
    cases he : t.entry? ⟨i⟩ with
    | none => simp [standIn, he]
    | some e =>
      have hkind : t.HasKind ⟨i⟩ e.kind := ⟨e, he, rfl⟩
      rw [h.componentLayout_eq (h.hasKind_standIn hkind), h.componentLayout_eq hkind]
      exact kindLayout_normalForm_of_parts (h.sound he).parts fun c hc => ih c.index hc

/-- The parts of a kind are types of the table. -/
theorem madeBelow (h : t.Coherent) (hkind : t.HasKind type kind) : t.MadeBelow t.size kind := by
  have hlt := hkind.lt_size
  obtain ⟨e, he, rfl⟩ := hkind
  exact (h.sound he).parts.mono (Nat.le_of_lt hlt)

/-- Normal forms are their own normal forms. -/
theorem normalForm_normalForm (h : t.Coherent) (hkind : t.MadeBelow t.size kind) :
    t.normalForm (t.normalForm kind) = t.normalForm kind :=
  normalForm_normalForm_of_parts hkind fun c _ => h.standIn_standIn c

/-- Normal forms have the layout of the kind. -/
theorem kindLayout_normalForm (h : t.Coherent) (hkind : t.MadeBelow t.size kind) :
    t.kindLayout (t.normalForm kind) = t.kindLayout kind :=
  kindLayout_normalForm_of_parts hkind fun c _ => h.componentLayout_standIn c

/-- Normal forms are made of known types. -/
theorem madeBelow_normalForm (h : t.Coherent) (hkind : t.MadeBelow t.size kind) :
    t.MadeBelow t.size (t.normalForm kind) := by
  cases kind with
  | primitive p => exact madeBelow_primitive
  | reference target =>
    exact madeBelow_reference.mpr (h.standIn_lt_size (madeBelow_reference.mp hkind))
  | array element length =>
    exact madeBelow_array.mpr (h.standIn_lt_size (madeBelow_array.mp hkind))
  | span element => exact madeBelow_span.mpr (h.standIn_lt_size (madeBelow_span.mp hkind))
  | function params result =>
    obtain ⟨hresult, hparams⟩ := madeBelow_function.mp hkind
    refine madeBelow_function.mpr ⟨h.standIn_lt_size hresult, fun c hc => ?_⟩
    obtain ⟨param, hparam, rfl⟩ := List.mem_map.mp hc
    exact h.standIn_lt_size (hparams param hparam)
  | struct decl => exact hkind

/-- A primitive that stands for no other primitive stands for no other type. -/
theorem eq_of_standIn_eq (h : t.Coherent) {p : Primitive}
    (hp : ∀ q : Primitive, q.verification = p → q = p) (hclass : t.standIn type = p.id) :
    type = p.id := by
  cases he : t.entry? type with
  | none => simpa [standIn, he] using hclass
  | some e =>
    have hkind : t.HasKind type e.kind := ⟨e, he, rfl⟩
    have hnormal := h.hasKind_standIn hkind
    rw [hclass] at hnormal
    have hform := hnormal.unique (h.primitives p)
    cases hk : e.kind with
    | primitive q =>
      rw [hk] at hform hkind
      obtain rfl := hp q (TypeKind.primitive.inj hform)
      exact h.indexed.unique hkind (h.primitives q)
    | _ =>
      rw [hk] at hform
      cases hform

theorem values_normalForm (h : t.Coherent)
    (hvalues : ∀ c ∈ kind.values, c ≠ TypeId.void ∧ c ≠ .null) :
    ∀ c ∈ (t.normalForm kind).values, c ≠ TypeId.void ∧ c ≠ .null := by
  have hvoid : ∀ q : Primitive, q.verification = .void → q = .void := by
    intro q
    cases q <;> decide
  have hnull : ∀ q : Primitive, q.verification = .null → q = .null := by
    intro q
    cases q <;> decide
  have hclass : ∀ c : TypeId, c ≠ .void ∧ c ≠ .null →
      t.standIn c ≠ .void ∧ t.standIn c ≠ .null := fun c hc =>
    ⟨fun hc' => hc.1 (h.eq_of_standIn_eq hvoid hc'), fun hc' => hc.2 (h.eq_of_standIn_eq hnull hc')⟩
  cases kind with
  | array element length =>
    simp only [TypeKind.values, List.mem_singleton, forall_eq] at hvalues
    simpa [normalForm, normalize, TypeKind.values] using hclass element hvalues
  | span element =>
    simp only [TypeKind.values, List.mem_singleton, forall_eq] at hvalues
    simpa [normalForm, normalize, TypeKind.values] using hclass element hvalues
  | function params result =>
    intro c hc
    obtain ⟨param, hparam, rfl⟩ := List.mem_map.mp hc
    exact hclass param (hvalues param hparam)
  | _ => exact fun c hc => absurd hc List.not_mem_nil

end Coherent

end TypeTable

end StackCode
