import StackCode.Proofs.Types.Lookup

/-!
# Extending a type table

Interning only ever adds entries at the end of a table.  It does write into entries it has just
added: an entry is pushed before the class of the type and the reference to it are known.  Read as a
whole, though, each operation adds finished entries one after the other, and `TypeTable.add` is that
one step.

A table that extends another answers every question about the types of the smaller one in the same
way.  The questions about a kind are asked through its parts, so they are stable for kinds whose
parts the smaller table has.

## Main definitions

* `TypeTable.add`: one more entry.
* `TypeTable.Extends`: a table has all entries and structures of another, unchanged.
* `TypeTable.parts?`, `TypeTable.MadeBelow`: the types a kind is made of.

## Main results

* `TypeTable.push_eq`, `TypeTable.setClass_add_self`, `TypeTable.setReference_add_self`: pushing an
  entry and completing it later is adding the finished entry.
* `TypeTable.Extends.normalize_eq`, `TypeTable.Extends.kindLayout_eq`: normal forms and layouts of
  kinds are stable.
-/

namespace StackCode

section Modify

variable {α : Type} (xs : Array α) (a : α) (f : α → α)

/-- Changing the last entry of an array. -/
theorem modify_push_self : (xs.push a).modify xs.size f = xs.push (f a) := by
  apply Array.ext_getElem?
  intro j
  by_cases hj : j = xs.size
  · simp only [Array.getElem?_modify, Array.getElem?_push, hj, if_true, Option.map_some]
  · simp only [Array.getElem?_modify, Array.getElem?_push, hj, Ne.symm hj, if_false]

/-- Changing an entry before the last. -/
theorem modify_push_of_lt {i : Nat} (hi : i < xs.size) :
    (xs.push a).modify i f = (xs.modify i f).push a := by
  apply Array.ext_getElem?
  intro j
  by_cases hj : j = xs.size
  · simp only [Array.getElem?_modify, Array.getElem?_push, Array.size_modify, hj, if_true,
      Nat.ne_of_lt hi, if_false]
  · simp only [Array.getElem?_modify, Array.getElem?_push, Array.size_modify, hj, if_false]

end Modify

namespace TypeTable

variable {t u v : TypeTable} {e : TypeEntry} {type : TypeId} {kind : TypeKind}

/-! ## One more entry -/

/-- The table with one more entry, which is found under its kind. -/
def add (t : TypeTable) (e : TypeEntry) : TypeTable :=
  { t with
    entries := t.entries.push e
    index := (e.kind, ⟨t.size⟩) :: t.index }

@[simp] theorem size_add (t : TypeTable) (e : TypeEntry) : (t.add e).size = t.size + 1 :=
  Array.size_push e

@[simp] theorem structs_add (t : TypeTable) (e : TypeEntry) : (t.add e).structs = t.structs := rfl

@[simp] theorem entry?_add (t : TypeTable) (e : TypeEntry) (type : TypeId) :
    TypeTable.entry? (t.add e) type =
      if type.index = t.size then some e else t.entry? type :=
  Array.getElem?_push

@[simp] theorem find?_add (t : TypeTable) (e : TypeEntry) (kind : TypeKind) :
    (t.add e).find? kind = if kind = e.kind then some ⟨t.size⟩ else t.find? kind := by
  by_cases h : kind = e.kind
  · simp [find?, add, h]
  · simp [find?, add, List.lookup_cons, h, beq_eq_false_iff_ne.mpr h]

/-- Pushing adds an entry that stands for itself. -/
theorem push_eq (t : TypeTable) (kind : TypeKind) (layout : Layout) :
    t.push kind layout = (t.add ⟨kind, layout, ⟨t.size⟩, ⟨t.size⟩, none⟩, ⟨t.size⟩) := rfl

/-- The entry added last is given its class. -/
theorem setClass_add_self (t : TypeTable) (e : TypeEntry) (standIn : TypeId) :
    (t.add e).setClass ⟨t.size⟩ standIn =
      t.add { e with verification := standIn, stack := standIn } := by
  simp only [setClass, add, size, modify_push_self]

/-- An entry before the last is given its class. -/
theorem setClass_add_of_lt (t : TypeTable) (e : TypeEntry) (standIn : TypeId)
    (h : type.index < t.size) :
    (t.add e).setClass type standIn = (t.setClass type standIn).add e := by
  have hmodify := modify_push_of_lt t.entries e
    (fun e => { e with verification := standIn, stack := standIn }) h
  simp only [setClass, add, size, hmodify, Array.size_modify]

/-- The entry added last is given the type of references to it. -/
theorem setReference_add_self (t : TypeTable) (e : TypeEntry) (ref : TypeId) :
    (t.add e).setReference ⟨t.size⟩ ref = t.add { e with reference := some ref } := by
  simp only [setReference, add, size, modify_push_self]

/-- An entry before the last is given the type of references to it. -/
theorem setReference_add_of_lt (t : TypeTable) (e : TypeEntry) (ref : TypeId)
    (h : type.index < t.size) :
    (t.add e).setReference type ref = (t.setReference type ref).add e := by
  have hmodify := modify_push_of_lt t.entries e (fun e => { e with reference := some ref }) h
  simp only [setReference, add, size, hmodify, Array.size_modify]

/-! ## Entries and positions -/

theorem lt_size_of_found (h : t.entry? type = some e) : type.index < t.size :=
  (Array.getElem?_eq_some_iff.mp h).1

theorem exists_entry (h : type.index < t.size) : ∃ e, t.entry? type = some e :=
  ⟨_, Array.getElem?_eq_getElem h⟩

theorem HasKind.lt_size (h : t.HasKind type kind) : type.index < t.size := by
  obtain ⟨e, he, -⟩ := h
  exact lt_size_of_found he

theorem exists_hasKind (h : type.index < t.size) : ∃ kind, t.HasKind type kind := by
  obtain ⟨e, he⟩ := exists_entry h
  exact ⟨_, e, he, rfl⟩

theorem contains_iff : t.contains type = true ↔ type.index < t.size := decide_eq_true_iff

@[simp] theorem hasKind_add :
    (t.add e).HasKind type kind ↔
      if type.index = t.size then e.kind = kind else t.HasKind type kind := by
  by_cases h : type.index = t.size <;> simp [HasKind, h]

theorem standIn_eq (h : t.entry? type = some e) : t.standIn type = e.verification := by
  rw [standIn, h]

/-! ## Extension -/

/-- `u` has all entries and structures of `t`, unchanged. -/
structure Extends (t u : TypeTable) : Prop where
  entry : ∀ {type : TypeId} {e : TypeEntry}, t.entry? type = some e → u.entry? type = some e
  struct : ∀ {decl : Nat} {s : StructDecl}, t.structs[decl]? = some s → u.structs[decl]? = some s

theorem Extends.refl (t : TypeTable) : Extends t t := ⟨id, id⟩

theorem Extends.trans (htu : Extends t u) (huv : Extends u v) : Extends t v :=
  ⟨fun h => huv.entry (htu.entry h), fun h => huv.struct (htu.struct h)⟩

theorem extends_add (t : TypeTable) (e : TypeEntry) : Extends t (t.add e) where
  entry {type _} h := by
    have hne : type.index ≠ t.size := Nat.ne_of_lt (lt_size_of_found h)
    simpa [hne] using h
  struct h := h

/-- Types keep their kinds in a table that has grown. -/
theorem Extends.hasKind (h : Extends t u) (hkind : t.HasKind type kind) : u.HasKind type kind := by
  obtain ⟨e, he, rfl⟩ := hkind
  exact ⟨e, h.entry he, rfl⟩

theorem Extends.hasPrimitives (h : Extends t u) (hp : t.HasPrimitives) : u.HasPrimitives :=
  fun p => h.hasKind (hp p)

/-- Types keep their classes in a table that has grown. -/
theorem Extends.standIn_eq (h : Extends t u) (htype : type.index < t.size) :
    u.standIn type = t.standIn type := by
  obtain ⟨e, he⟩ := exists_entry htype
  rw [TypeTable.standIn_eq he, TypeTable.standIn_eq (h.entry he)]

/-- Types keep their layouts in a table that has grown. -/
theorem Extends.componentLayout_eq (h : Extends t u) (htype : type.index < t.size) :
    u.componentLayout type = t.componentLayout type := by
  obtain ⟨e, he⟩ := exists_entry htype
  rw [componentLayout, componentLayout, he, h.entry he]

/-! ## The parts of a kind -/

/-- The types a kind is made of: its components, and the types of the fields of a structure. -/
def parts? (t : TypeTable) : TypeKind → Option (List TypeId)
  | .primitive _ => some []
  | .reference target => some [target]
  | .array element _ | .span element => some [element]
  | .function params result => some (result :: params)
  | .struct decl => (t.structs[decl]?).map fun s => s.fields.map Field.type

/-- The kind is made of types older than `bound`. -/
def MadeBelow (t : TypeTable) (bound : Nat) (kind : TypeKind) : Prop :=
  ∃ parts, t.parts? kind = some parts ∧ ∀ part ∈ parts, part.index < bound

section MadeBelow

variable {bound : Nat}

@[simp] theorem madeBelow_primitive {p : Primitive} : t.MadeBelow bound (.primitive p) :=
  ⟨[], rfl, by simp⟩

@[simp] theorem madeBelow_reference {target : TypeId} :
    t.MadeBelow bound (.reference target) ↔ target.index < bound := by
  simp [MadeBelow, parts?]

@[simp] theorem madeBelow_array {element : TypeId} {length : Nat} :
    t.MadeBelow bound (.array element length) ↔ element.index < bound := by
  simp [MadeBelow, parts?]

@[simp] theorem madeBelow_span {element : TypeId} :
    t.MadeBelow bound (.span element) ↔ element.index < bound := by
  simp [MadeBelow, parts?]

@[simp] theorem madeBelow_function {params : List TypeId} {result : TypeId} :
    t.MadeBelow bound (.function params result) ↔
      result.index < bound ∧ ∀ param ∈ params, param.index < bound := by
  simp [MadeBelow, parts?]

@[simp] theorem madeBelow_struct {decl : Nat} :
    t.MadeBelow bound (.struct decl) ↔
      ∃ s, t.structs[decl]? = some s ∧ ∀ f ∈ s.fields, f.type.index < bound := by
  simp [MadeBelow, parts?]

/-- What is made of older types is made of types below any higher bound. -/
theorem MadeBelow.mono {bound' : Nat} (h : t.MadeBelow bound kind) (hle : bound ≤ bound') :
    t.MadeBelow bound' kind := by
  obtain ⟨parts, hparts, hlt⟩ := h
  exact ⟨parts, hparts, fun part hpart => Nat.lt_of_lt_of_le (hlt part hpart) hle⟩

/-- What a kind is made of stays in a table that has grown. -/
theorem MadeBelow.extends (h : t.MadeBelow bound kind) (hext : Extends t u) :
    u.MadeBelow bound kind := by
  cases kind with
  | struct decl =>
    rw [madeBelow_struct] at h ⊢
    obtain ⟨s, hs, hfields⟩ := h
    exact ⟨s, hext.struct hs, hfields⟩
  | _ => exact h

end MadeBelow

/-- The normal form of a kind is stable. -/
theorem Extends.normalize_eq (h : Extends t u) (hkind : t.MadeBelow t.size kind) :
    u.normalize kind = t.normalize kind := by
  cases kind with
  | primitive p => rfl
  | reference target => simp [normalize, h.standIn_eq (madeBelow_reference.mp hkind)]
  | array element length => simp [normalize, h.standIn_eq (madeBelow_array.mp hkind)]
  | span element => simp [normalize, h.standIn_eq (madeBelow_span.mp hkind)]
  | function params result =>
    obtain ⟨hresult, hparams⟩ := madeBelow_function.mp hkind
    have hmap : params.map u.standIn = params.map t.standIn :=
      List.map_congr_left fun param hparam => h.standIn_eq (hparams param hparam)
    simp [normalize, h.standIn_eq hresult, hmap]
  | struct decl => rfl

/-- Fields have the same extent in a table that has grown. -/
theorem Extends.extent_eq (h : Extends t u) {fields : List Field}
    (hfields : ∀ f ∈ fields, f.type.index < t.size) (align last : Nat) :
    u.extent fields align last = t.extent fields align last := by
  induction fields generalizing align last with
  | nil => rfl
  | cons f fields ih =>
    obtain ⟨hf, hrest⟩ := List.forall_mem_cons.mp hfields
    simp only [extent, h.componentLayout_eq hf, ih hrest]

/-- The layout of a kind is stable. -/
theorem Extends.kindLayout_eq (h : Extends t u) (hkind : t.MadeBelow t.size kind) :
    u.kindLayout kind = t.kindLayout kind := by
  cases kind with
  | array element length => simp only [kindLayout, h.componentLayout_eq (madeBelow_array.mp hkind)]
  | struct decl =>
    obtain ⟨s, hs, hfields⟩ := madeBelow_struct.mp hkind
    simp only [kindLayout, hs, h.struct hs, h.extent_eq hfields]
  | _ => rfl

end TypeTable

end StackCode
