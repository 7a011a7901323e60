import StackCode.Types.Table

/-!
# Interning types

Each kind has one id.  Asking for a kind that is in the table gives its id; asking for a new one
adds an entry for it, then for its normal form, in which each component is replaced by the type that
stands for it in verification, and then for the reference to it.  A normal form is its own normal
form, so interning one adds nothing beyond its entry and the reference to it.

A structure is declared before it is interned.  If its rounded size is too large the declaration
stays behind, so the name is taken, but no type is added.

## Main definitions

* `TypeTable.initial`: the table of the primitives and the references to them.
* `TypeTable.reference`, `TypeTable.array`, `TypeTable.span`, `TypeTable.function`,
  `TypeTable.declareStruct`: the operations that add types.
-/

namespace StackCode

namespace TypeTable

/-- Adds an entry that stands for itself and has no reference.  Ids are words, so this is exact for
a table of fewer than `wordLimit` entries; a full table takes no more. -/
def push (t : TypeTable) (kind : TypeKind) (layout : Layout) : TypeTable × TypeId :=
  let type : TypeId := ⟨t.entries.size⟩
  ({ t with
      entries := t.entries.push ⟨kind, layout, type, type, none⟩
      index := (kind, type) :: t.index }, type)

/-- Lets another type stand for a type, in verification and on the stack. -/
def setClass (t : TypeTable) (type standIn : TypeId) : TypeTable :=
  { t with
    entries := t.entries.modify type.index fun e =>
      { e with verification := standIn, stack := standIn } }

/-- Records the type of references to a type. -/
def setReference (t : TypeTable) (type ref : TypeId) : TypeTable :=
  { t with entries := t.entries.modify type.index fun e => { e with reference := some ref } }

/-- The type that stands for a component of a kind. -/
def standIn (t : TypeTable) (type : TypeId) : TypeId :=
  match t.entry? type with
  | some e => e.verification
  | none => type

/-- The kind with each component replaced by the type that stands for it. -/
def normalize (t : TypeTable) : TypeKind → TypeKind
  | .reference target => .reference (t.standIn target)
  | .array element length => .array (t.standIn element) length
  | .span element => .span (t.standIn element)
  | .function params result => .function (params.map t.standIn) (t.standIn result)
  | kind => kind

/-- Interns the reference to a type that stands for itself. -/
def internNormalReference (t : TypeTable) (target : TypeId) : TypeTable × TypeId :=
  match t.find? (.reference target) with
  | some type => (t, type)
  | none => t.push (.reference target) .word

/-- Interns the reference to a type, and after it the reference to the type that stands for it. -/
def internReference (t : TypeTable) (target : TypeId) : TypeTable × TypeId :=
  match t.find? (.reference target) with
  | some type => (t, type)
  | none =>
    let (t, type) := t.push (.reference target) .word
    if t.standIn target = target then (t, type)
    else
      let (t, normal) := t.internNormalReference (t.standIn target)
      (t.setClass type normal, type)

/-- Interns the reference to a type and records it in the entry of the type. -/
def addReference (t : TypeTable) (type : TypeId) : TypeTable :=
  let (t, ref) := t.internReference type
  t.setReference type ref

/-- The layout of a component of a kind. -/
def componentLayout (t : TypeTable) (type : TypeId) : Except TypeError Layout :=
  match t.entry? type with
  | some e => .ok e.layout
  | none => .error .layoutOverflow

/-- The largest alignment of some fields, and the end of the last of them. -/
def extent (t : TypeTable) : List Field → (align last : Nat) → Except TypeError (Nat × Nat)
  | [], align, last => .ok (align, last)
  | f :: fs, align, _ => do
    let l ← t.componentLayout f.type
    if f.offset + l.size < wordLimit then t.extent fs (max align l.align) (f.offset + l.size)
    else .error .layoutOverflow

/-- The layout of a kind. -/
def kindLayout (t : TypeTable) : TypeKind → Except TypeError Layout
  | .primitive p => .ok p.layout
  | .reference _ | .function .. => .ok .word
  | .span _ => .ok ⟨8, 4⟩
  | .array element length => do
    let l ← t.componentLayout element
    if l.size * length < wordLimit then .ok ⟨l.size * length, l.align⟩ else .error .layoutOverflow
  | .struct decl =>
    match t.structs[decl]? with
    | none => .error .layoutOverflow
    | some s => do
      let (align, last) ← t.extent s.fields 1 0
      match Layout.alignUp? last align with
      | some size => .ok ⟨size, align⟩
      | none => .error .layoutOverflow

/-- Interns a kind, other than a reference, that is its own normal form. -/
def internNormal (t : TypeTable) (kind : TypeKind) : TypeTable × Except TypeError TypeId :=
  match t.find? kind with
  | some type => (t, .ok type)
  | none =>
    match t.kindLayout kind with
    | .error e => (t, .error e)
    | .ok layout =>
      let (t, type) := t.push kind layout
      (t.addReference type, .ok type)

/-- Interns a kind other than a reference. -/
def intern (t : TypeTable) (kind : TypeKind) : TypeTable × Except TypeError TypeId :=
  match t.find? kind with
  | some type => (t, .ok type)
  | none =>
    match t.kindLayout kind with
    | .error e => (t, .error e)
    | .ok layout =>
      let (t, type) := t.push kind layout
      if t.normalize kind = kind then (t.addReference type, .ok type)
      else
        match t.internNormal (t.normalize kind) with
        | (t, .error e) => (t, .error e)
        | (t, .ok normal) => ((t.setClass type normal).addReference type, .ok type)

/-- The primitives, without references to them. -/
def primitives : TypeTable :=
  { entries := (Primitive.all.map fun p =>
      (⟨.primitive p, p.layout, p.verification.id, p.stack.id, none⟩ : TypeEntry)).toArray
    index := (Primitive.all.map fun p => (.primitive p, p.id)).reverse
    structs := #[] }

/-- The table every program starts from: the primitives, and references to all of them but `void`
and `null`. -/
def initial : TypeTable :=
  (Primitive.all.filter fun p => p ≠ .void ∧ p ≠ .null).foldl (fun t p => t.addReference p.id)
    primitives

instance : Inhabited TypeTable := ⟨initial⟩

/-- Refuses an id outside the table. -/
def check (t : TypeTable) (type : TypeId) : Except TypeError Unit :=
  if t.contains type then .ok () else .error (.unknownType type)

/-- Refuses an id outside the table, and a type without values that can be stored. -/
def checkValue (t : TypeTable) (type : TypeId) : Except TypeError Unit := do
  t.check type
  if type = .void ∨ type = .null then .error (.invalidElement type)

/-- Interns the type of references to `target`. -/
def reference (t : TypeTable) (target : TypeId) : TypeTable × Except TypeError TypeId :=
  match t.check target with
  | .error e => (t, .error e)
  | .ok () =>
    let (t, type) := t.internReference target
    (t, .ok type)

/-- Interns the type of arrays of `length` elements. -/
def array (t : TypeTable) (element : TypeId) (length : Nat) : TypeTable × Except TypeError TypeId :=
  match t.checkValue element with
  | .error e => (t, .error e)
  | .ok () => t.intern (.array element length)

/-- Interns the type of spans of elements. -/
def span (t : TypeTable) (element : TypeId) : TypeTable × Except TypeError TypeId :=
  match t.checkValue element with
  | .error e => (t, .error e)
  | .ok () => t.intern (.span element)

/-- Interns a function type. -/
def function (t : TypeTable) (params : List TypeId) (result : TypeId) :
    TypeTable × Except TypeError TypeId :=
  match (do params.forM t.checkValue; t.check result) with
  | .error e => (t, .error e)
  | .ok () => t.intern (.function params result)

/-- Places fields one after the other, each at the least aligned offset from `offset` on. -/
def placeFields (t : TypeTable) : List (String × TypeId) → (offset : Nat) →
    Except TypeError (List Field)
  | [], _ => .ok []
  | (name, type) :: fields, offset => do
    t.checkValue type
    let l ← t.componentLayout type
    match Layout.alignUp? offset l.align with
    | none => .error .layoutOverflow
    | some offset =>
      if offset + l.size < wordLimit then do
        let fields ← t.placeFields fields (offset + l.size)
        return ⟨name, type, offset⟩ :: fields
      else .error .layoutOverflow

/-- Declares a structure and interns its type.  Structures are numbered without end, which is exact
for fewer than `wordLimit` of them: their numbers are words. -/
def declareStruct (t : TypeTable) (name : String) (fields : List (String × TypeId)) :
    TypeTable × Except TypeError TypeId :=
  if t.structs.toList.any fun s => s.name = name then (t, .error (.duplicateStruct name))
  else
    match t.placeFields fields 0 with
    | .error e => (t, .error e)
    | .ok fields =>
      let decl := t.structs.size
      { t with structs := t.structs.push ⟨name, fields⟩ }.intern (.struct decl)

end TypeTable

end StackCode
