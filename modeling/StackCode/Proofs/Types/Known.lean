import StackCode.Proofs.Endings
import StackCode.Proofs.Types.Classes
import StackCode.Typing.Merge

/-!
# Lookups of known types

A lookup of a type that the table has succeeds, and in a finished table everything it answers is in
the table again: the parts of a kind, the class of a type, its form on the stack, the references to
it and the fields of a structure.

## Main definitions

* `TypeTable.Knows`: the table has these types.

## Main results

* `TypeTable.kind_ends` and its companions: a lookup of a known type succeeds.
* `TypeTable.Coherent.lt_size_of_hasClass` and its companions: what a lookup answers is known.
-/

namespace StackCode

namespace TypeTable

variable {ε : Type} {Q : Fault ε → Prop} {t : TypeTable} {type : TypeId}

/-- The table has these types. -/
def Knows (t : TypeTable) (types : List TypeId) : Prop := ∀ type ∈ types, type.index < t.size

section Lists

variable {types types' : List TypeId}

theorem knows_nil : t.Knows [] := List.forall_mem_nil _

theorem knows_cons : t.Knows (type :: types) ↔ type.index < t.size ∧ t.Knows types :=
  List.forall_mem_cons

theorem knows_singleton : t.Knows [type] ↔ type.index < t.size := List.forall_mem_singleton

theorem knows_append : t.Knows (types ++ types') ↔ t.Knows types ∧ t.Knows types' :=
  List.forall_mem_append

theorem knows_reverse : t.Knows types.reverse ↔ t.Knows types :=
  forall_congr' fun _ => by rw [List.mem_reverse]

end Lists

section Lookup

variable (h : type.index < t.size)

include h

theorem kind_ends : Ends (t.HasKind type) Q (t.kind type : Checked ε _) := by
  obtain ⟨kind, hkind⟩ := exists_hasKind h
  exact .of_eq_ok (kind_eq_ok.mpr hkind) hkind

theorem verificationType_ends : Ends (t.HasClass type) Q (t.verificationType type) := by
  obtain ⟨standIn, hclass⟩ := exists_hasClass h
  exact .of_eq_ok (verificationType_eq_ok.mpr hclass) hclass

theorem stackType_ends : Ends (t.HasStack type) Q (t.stackType type) := by
  obtain ⟨stack, hstack⟩ := exists_hasStack h
  exact .of_eq_ok (stackType_eq_ok.mpr hstack) hstack

theorem layout_ends : Ends (t.HasLayout type) Q (t.layout type) := by
  obtain ⟨layout, hlayout⟩ := exists_hasLayout h
  exact .of_eq_ok (layout_eq_ok.mpr hlayout) hlayout

theorem slots_ends : Ends (t.HasSlots type) Q (t.slots type) :=
  (layout_ends h).bind fun layout hlayout => .pure ⟨layout, hlayout, rfl⟩

theorem referent?_ends :
    Ends (fun target? => ∀ target, target? = some target → t.HasKind type (.reference target)) Q
      (t.referent? type) := by
  refine (kind_ends h).bind fun kind hkind => .pure fun target htarget => ?_
  cases kind with
  | reference target' =>
    cases htarget
    exact hkind
  | _ => cases htarget

theorem isReference_ends : Ends (fun _ => True) Q (t.isReference type) :=
  (kind_ends h).bind fun _ _ => .pure trivial

/-- Whether a known type carries addresses is told by its kind. -/
theorem carriesAddress_ends :
    Ends (fun carries => ∃ kind, t.HasKind type kind ∧ kind.carriesAddress = carries) Q
      (t.carriesAddress type) :=
  (kind_ends h).bind fun kind hkind => .pure ⟨kind, hkind, rfl⟩

end Lookup

namespace Coherent

variable {standIn stack target element : TypeId} {kind : TypeKind}

theorem lt_size_of_hasClass (h : t.Coherent) (hclass : t.HasClass type standIn) :
    standIn.index < t.size :=
  (h.hasClass_self hclass).lt_size

theorem lt_size_of_hasStack (h : t.Coherent) (hstack : t.HasStack type stack) :
    stack.index < t.size :=
  (h.hasStack_self hstack).lt_size

theorem lt_size_of_referenceTo? (h : t.Coherent) {ref : TypeId}
    (href : t.referenceTo? type = some ref) : ref.index < t.size := by
  obtain ⟨e, he, href⟩ := Option.bind_eq_some_iff.mp href
  exact ((h.sound he).reference ref href).lt_size

/-- There is a type of references to each type that values can be behind. -/
theorem exists_referenceTo? (h : t.Coherent) (hkind : t.HasKind type kind)
    (haddressable : kind.isAddressable = true) : ∃ ref, t.referenceTo? type = some ref := by
  obtain ⟨e, he, rfl⟩ := hkind
  rw [← (h.sound he).addressable] at haddressable
  obtain ⟨ref, href⟩ := Option.isSome_iff_exists.mp haddressable
  exact ⟨ref, Option.bind_eq_some_iff.mpr ⟨e, he, href⟩⟩

/-- Types are made of values. -/
theorem value_of_hasKind (h : t.Coherent) (hkind : t.HasKind type kind)
    (helement : element ∈ kind.values) : element ≠ .void ∧ element ≠ .null := by
  obtain ⟨e, he, rfl⟩ := hkind
  exact (h.sound he).values element helement

theorem lt_size_of_field? (h : t.Coherent) {index : Nat} {field : Field}
    (hfield : t.field? type index = some field) : field.type.index < t.size := by
  obtain ⟨decl, hdecl, hfield⟩ := Option.bind_eq_some_iff.mp hfield
  obtain ⟨e, he, hdecl⟩ := Option.bind_eq_some_iff.mp hdecl
  cases hkind : e.kind with
  | struct number =>
    rw [hkind] at hdecl
    obtain ⟨decl', hdecl', hfields⟩ := madeBelow_struct.mp (h.madeBelow ⟨e, he, hkind⟩)
    cases hdecl.symm.trans hdecl'
    exact hfields field (List.mem_of_getElem? hfield)
  | _ =>
    rw [hkind] at hdecl
    cases hdecl

theorem lt_size_primitive (h : t.Coherent) (p : Primitive) : p.id.index < t.size :=
  HasKind.lt_size (h.primitives p)

/-- Whether a value is assignable to a known type is always answered. -/
theorem assignable_ends (h : t.Coherent) {source : TypeId} (htarget : target.index < t.size) :
    Ends (fun _ => True) Q (t.assignable source target : Checked ε _) := by
  refine (verificationType_ends htarget).bind fun standIn hclass => ?_
  split
  · exact .pure trivial
  · split
    · exact isReference_ends (h.lt_size_of_hasClass hclass)
    · exact .pure trivial

/-- The elements of a container are of a known type that has values. -/
theorem elementType?_ends (h : t.Coherent) (htype : type.index < t.size) :
    Ends (fun element? => ∀ element, element? = some element →
        element.index < t.size ∧ element ≠ .void ∧ element ≠ .null) Q
      (t.elementType? type : Checked ε _) := by
  refine (kind_ends htype).bind fun kind hkind => ?_
  cases kind with
  | span element =>
    refine .pure fun element' helement => ?_
    cases helement
    exact ⟨madeBelow_span.mp (h.madeBelow hkind),
      h.value_of_hasKind hkind (List.mem_singleton_self _)⟩
  | reference target =>
    refine (kind_ends (madeBelow_reference.mp (h.madeBelow hkind))).bind fun kind' hkind' => ?_
    cases kind' with
    | array element length =>
      refine .pure fun element' helement => ?_
      cases helement
      exact ⟨madeBelow_array.mp (h.madeBelow hkind'),
        h.value_of_hasKind hkind' (List.mem_singleton_self _)⟩
    | _ => exact .pure fun _ helement => by cases helement
  | _ => exact .pure fun _ helement => by cases helement

end Coherent

/-- The join of two known types is always answered, also if the first is not null. -/
theorem join?_ends {a b : TypeId} (ha : a.index < t.size) (hb : b.index < t.size) :
    Ends (fun _ => True) Q (t.join? a b : Checked ε _) := by
  have hsecond : Ends (fun _ => True) Q (if b = .null then do
      if ← t.isReference a then return some a else return none
      else return none : Checked ε (Option TypeId)) := by
    split
    · refine (isReference_ends ha).bind fun _ _ => ?_
      split
      · exact .pure trivial
      · exact .pure trivial
    · exact .pure trivial
  unfold join?
  split
  · exact .pure trivial
  · dsimp only
    split
    · refine (isReference_ends hb).bind fun _ _ => ?_
      split
      · exact .pure trivial
      · exact hsecond
    · exact hsecond

end TypeTable

end StackCode
