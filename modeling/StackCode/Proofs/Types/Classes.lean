import Mathlib.Algebra.GroupWithZero.Nat
import StackCode.Proofs.Types.Canonical

/-!
# Classes and stack types

Verification tells types apart only by their class, and the operand stack holds classes with narrow
integers widened.  A class is its own class, takes the room of the types it stands for, and the
reference to it stands for the references to them.  Widening changes the size of a value but not the
slots it takes.

## Main definitions

* `TypeTable.HasStack`, `TypeTable.HasSlots`: what an entry says of a type.
* `TypeTable.HasTotalSlots`: the slots of several values.

## Main results

* `TypeTable.Coherent.hasClass_self`, `TypeTable.Coherent.hasStack_self`: classes and stack types
  stand for themselves.
* `TypeTable.Coherent.hasClass_reference`: classes of references.
* `TypeTable.Coherent.hasSlots_stack`, `TypeTable.Coherent.hasSlots_of_assignable`: a value takes
  the same slots in a location and on the operand stack.
-/

namespace StackCode

namespace TypeTable

variable {ε : Type} {t : TypeTable} {type standIn stack : TypeId} {kind : TypeKind}

/-- The table has the type, and its values have the type `stack` on the operand stack. -/
def HasStack (t : TypeTable) (type stack : TypeId) : Prop :=
  ∃ e, t.entry? type = some e ∧ e.stack = stack

/-- The table has the type, with this layout. -/
def HasLayout (t : TypeTable) (type : TypeId) (layout : Layout) : Prop :=
  ∃ e, t.entry? type = some e ∧ e.layout = layout

/-- The table has the type, and its values take `slots` slots. -/
def HasSlots (t : TypeTable) (type : TypeId) (slots : Nat) : Prop :=
  ∃ layout, t.HasLayout type layout ∧ layout.slots = slots

/-- The table has the types, and values of them take `total` slots together. -/
def HasTotalSlots (t : TypeTable) (types : List TypeId) (total : Nat) : Prop :=
  ∃ slots, List.Forall₂ t.HasSlots types slots ∧ slots.sum = total

theorem stackType_eq_ok : (t.stackType type : Checked ε _) = .ok stack ↔ t.HasStack type stack := by
  simp only [stackType, bind_eq_ok, entry_eq_ok, pure_eq_ok, HasStack]

theorem layout_eq_ok {layout : Layout} :
    (t.layout type : Checked ε _) = .ok layout ↔ t.HasLayout type layout := by
  simp only [TypeTable.layout, bind_eq_ok, entry_eq_ok, pure_eq_ok, HasLayout]

theorem slots_eq_ok {slots : Nat} :
    (t.slots type : Checked ε _) = .ok slots ↔ t.HasSlots type slots := by
  simp only [TypeTable.slots, bind_eq_ok, layout_eq_ok, pure_eq_ok, HasSlots]

theorem HasClass.unique {a b : TypeId} (ha : t.HasClass type a) (hb : t.HasClass type b) :
    a = b := by
  obtain ⟨e, he, rfl⟩ := ha
  obtain ⟨e', he', rfl⟩ := hb
  rw [Option.some.inj (he.symm.trans he')]

theorem HasSlots.unique {m n : Nat} (hm : t.HasSlots type m) (hn : t.HasSlots type n) : m = n := by
  obtain ⟨_, ⟨e, he, rfl⟩, rfl⟩ := hm
  obtain ⟨_, ⟨e', he', rfl⟩, rfl⟩ := hn
  rw [Option.some.inj (he.symm.trans he')]

theorem exists_hasClass (h : type.index < t.size) : ∃ standIn, t.HasClass type standIn := by
  obtain ⟨e, he⟩ := exists_entry h
  exact ⟨_, e, he, rfl⟩

theorem exists_hasStack (h : type.index < t.size) : ∃ stack, t.HasStack type stack := by
  obtain ⟨e, he⟩ := exists_entry h
  exact ⟨_, e, he, rfl⟩

theorem exists_hasLayout (h : type.index < t.size) : ∃ layout, t.HasLayout type layout := by
  obtain ⟨e, he⟩ := exists_entry h
  exact ⟨_, e, he, rfl⟩

theorem exists_hasSlots (h : type.index < t.size) : ∃ slots, t.HasSlots type slots := by
  obtain ⟨layout, hlayout⟩ := exists_hasLayout h
  exact ⟨_, layout, hlayout, rfl⟩

theorem HasClass.lt_size (h : t.HasClass type standIn) : type.index < t.size := by
  obtain ⟨e, he, -⟩ := h
  exact lt_size_of_found he

theorem HasStack.lt_size (h : t.HasStack type stack) : type.index < t.size := by
  obtain ⟨e, he, -⟩ := h
  exact lt_size_of_found he

theorem HasSlots.lt_size {slots : Nat} (h : t.HasSlots type slots) : type.index < t.size := by
  obtain ⟨_, ⟨e, he, -⟩, -⟩ := h
  exact lt_size_of_found he

theorem HasClass.standIn_eq (h : t.HasClass type standIn) : t.standIn type = standIn := by
  obtain ⟨e, he, rfl⟩ := h
  exact TypeTable.standIn_eq he

theorem hasClass_standIn (h : type.index < t.size) : t.HasClass type (t.standIn type) := by
  obtain ⟨e, he⟩ := exists_entry h
  exact ⟨e, he, (TypeTable.standIn_eq he).symm⟩

section TotalSlots

variable {types types' : List TypeId} {m n : Nat}

theorem hasTotalSlots_nil : t.HasTotalSlots [] 0 := ⟨[], .nil, rfl⟩

/-- The slots of a list are those of its first type and of the rest. -/
theorem hasTotalSlots_cons :
    t.HasTotalSlots (type :: types) n ↔
      ∃ first rest, t.HasSlots type first ∧ t.HasTotalSlots types rest ∧ first + rest = n := by
  simp only [HasTotalSlots, List.forall₂_cons_left_iff]
  constructor
  · rintro ⟨_, ⟨first, slots, hfirst, hslots, rfl⟩, rfl⟩
    exact ⟨first, slots.sum, hfirst, ⟨slots, hslots, rfl⟩, by simp⟩
  · rintro ⟨first, _, hfirst, ⟨slots, hslots, rfl⟩, rfl⟩
    exact ⟨_, ⟨first, slots, hfirst, hslots, rfl⟩, by simp⟩

theorem hasTotalSlots_singleton : t.HasTotalSlots [type] n ↔ t.HasSlots type n := by
  rw [hasTotalSlots_cons]
  constructor
  · rintro ⟨first, _, hfirst, ⟨_, ⟨⟩, rfl⟩, rfl⟩
    simpa using hfirst
  · exact fun h => ⟨n, 0, h, hasTotalSlots_nil, rfl⟩

/-- The slots of two lists add up. -/
theorem hasTotalSlots_append :
    t.HasTotalSlots (types ++ types') n ↔
      ∃ first rest, t.HasTotalSlots types first ∧ t.HasTotalSlots types' rest ∧
        first + rest = n := by
  induction types generalizing n with
  | nil =>
    constructor
    · exact fun h => ⟨0, n, hasTotalSlots_nil, h, Nat.zero_add n⟩
    · rintro ⟨_, rest, ⟨_, ⟨⟩, rfl⟩, hrest, rfl⟩
      simpa using hrest
  | cons type types ih =>
    rw [List.cons_append, hasTotalSlots_cons]
    constructor
    · rintro ⟨first, _, hfirst, hothers, rfl⟩
      obtain ⟨mid, rest, hmid, hrest, rfl⟩ := ih.mp hothers
      exact ⟨first + mid, rest, hasTotalSlots_cons.mpr ⟨first, mid, hfirst, hmid, rfl⟩, hrest,
        Nat.add_assoc _ _ _⟩
    · rintro ⟨_, rest, hfront, hrest, rfl⟩
      obtain ⟨first, mid, hfirst, hmid, rfl⟩ := hasTotalSlots_cons.mp hfront
      exact ⟨first, mid + rest, hfirst, ih.mpr ⟨mid, rest, hmid, hrest, rfl⟩,
        (Nat.add_assoc _ _ _).symm⟩

theorem HasTotalSlots.unique (h : t.HasTotalSlots types m) (h' : t.HasTotalSlots types n) :
    m = n := by
  induction types generalizing m n with
  | nil =>
    obtain ⟨_, ⟨⟩, rfl⟩ := h
    obtain ⟨_, ⟨⟩, rfl⟩ := h'
    rfl
  | cons type types ih =>
    obtain ⟨first, rest, hfirst, hrest, rfl⟩ := hasTotalSlots_cons.mp h
    obtain ⟨first', rest', hfirst', hrest', rfl⟩ := hasTotalSlots_cons.mp h'
    rw [hfirst.unique hfirst', ih hrest hrest']

/-- Corresponding types take the same slots together if each takes the slots of its counterpart. -/
theorem HasTotalSlots.of_forall₂ {R : TypeId → TypeId → Prop}
    (hR : ∀ {a b : TypeId} {slots : Nat}, R a b → t.HasSlots b slots → t.HasSlots a slots)
    (h : List.Forall₂ R types types') (htotal : t.HasTotalSlots types' n) :
    t.HasTotalSlots types n := by
  induction h generalizing n with
  | nil => exact htotal
  | cons hab _ ih =>
    obtain ⟨first, rest, hfirst, hrest, rfl⟩ := hasTotalSlots_cons.mp htotal
    exact hasTotalSlots_cons.mpr ⟨first, rest, hR hab hfirst, ih hrest, rfl⟩

end TotalSlots

namespace Coherent

/-- The kind of a class is the normal form of the kind. -/
theorem hasKind_class (h : t.Coherent) (hkind : t.HasKind type kind)
    (hclass : t.HasClass type standIn) : t.HasKind standIn (t.normalForm kind) := by
  rw [← hclass.standIn_eq]
  exact h.hasKind_standIn hkind

/-- A class stands for itself. -/
theorem hasClass_self (h : t.Coherent) (hclass : t.HasClass type standIn) :
    t.HasClass standIn standIn := by
  have heq := hclass.standIn_eq
  have hself := hasClass_standIn (h.standIn_lt_size hclass.lt_size)
  rwa [h.standIn_standIn, heq] at hself

/-- A class is laid out as the types it stands for. -/
theorem hasLayout_class (h : t.Coherent) (hclass : t.HasClass type standIn) {layout : Layout}
    (hlayout : t.HasLayout type layout) : t.HasLayout standIn layout := by
  have hsame := h.componentLayout_standIn type
  rw [hclass.standIn_eq] at hsame
  obtain ⟨e, he, rfl⟩ := hlayout
  obtain ⟨e', he', -⟩ := h.hasClass_self hclass
  simp only [componentLayout, he, he', Except.ok.injEq] at hsame
  exact ⟨e', he', hsame⟩

/-- The reference to the class of a type stands for the reference to the type.  With the type its
class is addressable, and one type only can be the reference to the class. -/
theorem hasClass_reference (h : t.Coherent) (hclass : t.HasClass type standIn) {ref : TypeId}
    (href : t.referenceTo? type = some ref) :
    ∃ normal, t.HasClass ref normal ∧ t.referenceTo? standIn = some normal := by
  obtain ⟨e, he, href'⟩ := Option.bind_eq_some_iff.mp href
  have hkind := (h.sound he).reference ref href'
  have hnormal := h.hasKind_standIn hkind
  have hclassKind := h.hasKind_class ⟨e, he, rfl⟩ hclass
  obtain ⟨e', he', hkind'⟩ := hclassKind
  have hsome : e'.reference.isSome = true := by
    rw [(h.sound he').addressable, hkind', isAddressable_normalForm, ← (h.sound he).addressable,
      href']
    rfl
  obtain ⟨normal, href''⟩ := Option.isSome_iff_exists.mp hsome
  have hsame : normal = t.standIn ref := by
    apply h.indexed.unique ((h.sound he').reference normal href'')
    rw [← hclass.standIn_eq]
    exact hnormal
  refine ⟨normal, hsame ▸ hasClass_standIn hkind.lt_size, ?_⟩
  simp [referenceTo?, he', href'']

/-- The stack type of a type is its class, or a 32-bit integer for the narrow ones. -/
theorem hasStack_iff (h : t.Coherent) (hclass : t.HasClass type standIn) :
    t.HasStack type stack ↔ stack = standIn.widened := by
  obtain ⟨e, he, rfl⟩ := hclass
  rw [HasStack, ← (h.sound he).stack]
  simp [he, eq_comm]

/-- Primitives stand for each other as declared. -/
theorem hasClass_primitive (h : t.Coherent) (p : Primitive) :
    t.HasClass p.id p.verification.id := by
  have hp := h.primitives p
  obtain ⟨standIn, hclass⟩ := exists_hasClass (HasKind.lt_size hp)
  rwa [h.indexed.unique (h.primitives p.verification) (h.hasKind_class hp hclass)]

theorem hasLayout_primitive (h : t.Coherent) (p : Primitive) : t.HasLayout p.id p.layout := by
  obtain ⟨e, he, hkind⟩ := h.primitives p
  have hlayout := (h.sound he).layout
  rw [hkind] at hlayout
  exact ⟨e, he, (Except.ok.inj hlayout).symm⟩

/-- Widening does not change the class of a stack type, which is the type itself. -/
theorem hasClass_widened (h : t.Coherent) (hclass : t.HasClass type standIn) :
    t.HasClass standIn.widened standIn.widened := by
  rw [TypeId.widened]
  split
  · exact h.hasClass_primitive .int32
  · exact h.hasClass_self hclass

/-- A stack type has itself on the stack. -/
theorem hasStack_self (h : t.Coherent) (hstack : t.HasStack type stack) :
    t.HasStack stack stack := by
  obtain ⟨standIn, hclass⟩ := exists_hasClass hstack.lt_size
  obtain rfl := (h.hasStack_iff hclass).mp hstack
  refine (h.hasStack_iff (h.hasClass_widened hclass)).mpr ?_
  by_cases hnarrow : standIn = .int8 ∨ standIn = .int16
  · simp [TypeId.widened, hnarrow]
  · simp [TypeId.widened, hnarrow]

/-- The class of a type has its slots. -/
theorem hasSlots_class (h : t.Coherent) (hclass : t.HasClass type standIn) {slots : Nat}
    (hslots : t.HasSlots type slots) : t.HasSlots standIn slots := by
  obtain ⟨layout, hlayout, rfl⟩ := hslots
  exact ⟨layout, h.hasLayout_class hclass hlayout, rfl⟩

/-- Types of one class take the same slots. -/
theorem hasSlots_of_class (h : t.Coherent) {a b : TypeId} (ha : t.HasClass a standIn)
    (hb : t.HasClass b standIn) {slots : Nat} (hslots : t.HasSlots b slots) :
    t.HasSlots a slots := by
  obtain ⟨slots', hslots'⟩ := exists_hasSlots ha.lt_size
  rwa [(h.hasSlots_class hb hslots).unique (h.hasSlots_class ha hslots')]

/-- Widening a class does not change its slots. -/
theorem hasSlots_widened (h : t.Coherent) {slots : Nat} (hslots : t.HasSlots standIn slots) :
    t.HasSlots standIn.widened slots := by
  by_cases hnarrow : standIn = .int8 ∨ standIn = .int16
  · have hone : t.HasSlots standIn 1 := by
      rcases hnarrow with rfl | rfl
      · exact ⟨_, h.hasLayout_primitive .int8, rfl⟩
      · exact ⟨_, h.hasLayout_primitive .int16, rfl⟩
    rw [hslots.unique hone, TypeId.widened, if_pos hnarrow]
    exact ⟨_, h.hasLayout_primitive .int32, rfl⟩
  · rwa [TypeId.widened, if_neg hnarrow]

/-- A value takes the same slots on the operand stack. -/
theorem hasSlots_stack (h : t.Coherent) (hstack : t.HasStack type stack) {slots : Nat}
    (hslots : t.HasSlots type slots) : t.HasSlots stack slots := by
  obtain ⟨standIn, hclass⟩ := exists_hasClass hstack.lt_size
  rw [(h.hasStack_iff hclass).mp hstack]
  exact h.hasSlots_widened (h.hasSlots_class hclass hslots)

/-- A reference takes one slot. -/
theorem hasSlots_reference (h : t.Coherent) (href : t.IsReference type) : t.HasSlots type 1 := by
  obtain ⟨target, e, he, hkind⟩ := href
  have hlayout := (h.sound he).layout
  rw [hkind] at hlayout
  exact ⟨.word, ⟨e, he, (Except.ok.inj hlayout).symm⟩, rfl⟩

/-- A value that may be stored in a location takes the slots of the location. -/
theorem hasSlots_of_assignable (h : t.Coherent) {source target : TypeId}
    (hassign : t.Assignable source target) {slots : Nat} (hslots : t.HasSlots target slots) :
    t.HasSlots source slots := by
  obtain ⟨standIn, hclass, hcases⟩ := hassign
  have hstandIn := h.hasSlots_class hclass hslots
  rcases hcases with rfl | ⟨rfl, href⟩ | ⟨rfl, hnarrow⟩
  · exact hstandIn
  · rw [hstandIn.unique (h.hasSlots_reference href)]
    exact ⟨_, h.hasLayout_primitive .null, rfl⟩
  · have hwide := h.hasSlots_widened hstandIn
    rwa [TypeId.widened, if_pos hnarrow] at hwide

/-- A value may be stored in every location of its class. -/
theorem assignable_stack (h : t.Coherent) {a b : TypeId} (ha : t.HasClass a standIn)
    (hb : t.HasClass b standIn) (hstack : t.HasStack a stack) : t.Assignable stack b := by
  refine ⟨standIn, hb, ?_⟩
  rw [(h.hasStack_iff ha).mp hstack, TypeId.widened]
  by_cases hnarrow : standIn = .int8 ∨ standIn = .int16
  · exact Or.inr (Or.inr ⟨if_pos hnarrow, hnarrow⟩)
  · exact Or.inl (if_neg hnarrow)

end Coherent

end TypeTable

end StackCode
