import StackCode.Fault

/-!
# Type tables

A table holds one entry for each type it has interned.  An entry gives the kind and layout of the
type, the type that stands for it in verification, the type it has on the operand stack, and the
type of references to it where there is one.  An index leads from a kind to the id it was interned
under.

Looking up a type that is not in the table is a fault.  Names, structures, fields and the type of
references are also asked for ids of unknown origin, and those queries have an answer for every id.

## Main definitions

* `TypeEntry`, `TypeTable`: the table.
* `TypeTable.kind`, `TypeTable.layout`, `TypeTable.slots`, `TypeTable.verificationType`,
  `TypeTable.stackType`: what an entry says.
* `TypeTable.referenceTo?`, `TypeTable.structDecl?`, `TypeTable.field?`, `TypeTable.name`: queries
  without faults.
-/

namespace StackCode

/-- What a table knows about a type. -/
structure TypeEntry where
  kind : TypeKind
  layout : Layout
  /-- The type that stands for this one in verification. -/
  verification : TypeId
  /-- The type of a value of this type on the operand stack. -/
  stack : TypeId
  /-- The type of references to this one. -/
  reference : Option TypeId
deriving DecidableEq, Repr

/-- A table of interned types. -/
structure TypeTable where
  entries : Array TypeEntry
  /-- The ids of the interned kinds, the newest first. -/
  index : List (TypeKind × TypeId)
  structs : Array StructDecl
deriving DecidableEq, Repr

namespace TypeTable

/-- The number of types in the table. -/
def size (t : TypeTable) : Nat := t.entries.size

/-- Whether the table has a type of this id. -/
def contains (t : TypeTable) (type : TypeId) : Bool := type.index < t.entries.size

/-- The entry of a type. -/
def entry? (t : TypeTable) (type : TypeId) : Option TypeEntry := t.entries[type.index]?

/-- The id of the type of a kind, if it is interned. -/
def find? (t : TypeTable) (kind : TypeKind) : Option TypeId := t.index.lookup kind

section Lookup

variable {ε : Type}

/-- The entry of a type that should be in the table. -/
def entry (t : TypeTable) (type : TypeId) : Checked ε TypeEntry :=
  match t.entry? type with
  | some e => .ok e
  | none => .error (.dangling type)

/-- The kind of a type. -/
def kind (t : TypeTable) (type : TypeId) : Checked ε TypeKind := do
  return (← t.entry type).kind

/-- The layout of a type. -/
def layout (t : TypeTable) (type : TypeId) : Checked ε Layout := do
  return (← t.entry type).layout

/-- The slots a value of a type takes. -/
def slots (t : TypeTable) (type : TypeId) : Checked ε Nat := do
  return (← t.layout type).slots

/-- The type that stands for a type in verification. -/
def verificationType (t : TypeTable) (type : TypeId) : Checked ε TypeId := do
  return (← t.entry type).verification

/-- The type of a value on the operand stack. -/
def stackType (t : TypeTable) (type : TypeId) : Checked ε TypeId := do
  return (← t.entry type).stack

/-- The target of a reference type; nothing for other types. -/
def referent? (t : TypeTable) (type : TypeId) : Checked ε (Option TypeId) := do
  return (← t.kind type).referent?

/-- Whether a type is a reference type. -/
def isReference (t : TypeTable) (type : TypeId) : Checked ε Bool := do
  return (← t.kind type).isReference

/-- Whether values of a type hold an address. -/
def carriesAddress (t : TypeTable) (type : TypeId) : Checked ε Bool := do
  return (← t.kind type).carriesAddress

end Lookup

/-- The type of references to a type: none for references, `void`, `null` and unknown ids. -/
def referenceTo? (t : TypeTable) (type : TypeId) : Option TypeId := do
  (← t.entry? type).reference

/-- The declaration of a structure type. -/
def structDecl? (t : TypeTable) (type : TypeId) : Option StructDecl := do
  match (← t.entry? type).kind with
  | .struct decl => t.structs[decl]?
  | _ => none

/-- A field of a structure type. -/
def field? (t : TypeTable) (owner : TypeId) (index : Nat) : Option Field := do
  (← t.structDecl? owner).fields[index]?

/-- The printed name of a kind, given the names of its components. -/
def kindName (t : TypeTable) (name : TypeId → String) : TypeKind → String
  | .primitive p => p.name
  | .reference target => "ref<" ++ name target ++ ">"
  | .array element length => name element ++ s!"[{length}]"
  | .span element => "span<" ++ name element ++ ">"
  | .function params result => "fn(" ++ ", ".intercalate (params.map name) ++ ") -> " ++ name result
  | .struct decl =>
    match t.structs[decl]? with
    | some s => s.name
    | none => "<struct>"

/-- The printed name of an id without a type. -/
def unknownName (type : TypeId) : String := s!"<type {type.index}>"

/-- The printed name of a type.  The components of a type are older than the type itself, so the
name is built from names of smaller ids. -/
def name (t : TypeTable) (type : TypeId) : String :=
  match t.entry? type with
  | none => unknownName type
  | some e =>
    t.kindName (fun c => if c.index < type.index then t.name c else unknownName c) e.kind
termination_by type.index

/-- Whether `source`, a type on the operand stack, may be stored in a location of type `target`:
they agree in verification, or a 32-bit value is narrowed to a smaller class, or null becomes a
reference. -/
def assignable {ε : Type} (t : TypeTable) (source target : TypeId) : Checked ε Bool := do
  let target ← t.verificationType target
  if source = target then return true
  if source = .null then t.isReference target
  else return source = .int32 ∧ (target = .int8 ∨ target = .int16)

/-- The type of a stack position where two paths meet with types `a` and `b`: null joins with any
reference, and every type with itself. -/
def join? {ε : Type} (t : TypeTable) (a b : TypeId) : Checked ε (Option TypeId) := do
  if a = b then return some a
  if a = .null then
    if ← t.isReference b then return some b
  if b = .null then
    if ← t.isReference a then return some a
  return none

end TypeTable

end StackCode
