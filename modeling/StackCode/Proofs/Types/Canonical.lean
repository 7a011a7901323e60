import StackCode.Proofs.Types.Interned

/-!
# Interning is canonical

The tables that the operations build are coherent: the first one is, and no operation, whether it
succeeds or fails, adds an entry that is not sound or touches one that is there.  So a kind has one
id in the life of a table, and asking for it again changes nothing.

## Main definitions

* `TypeTable.Request`: a call of an operation.
* `TypeTable.Canonical`: what holds of the ids of a table.

## Main results

* `TypeTable.Built.coherent`: a table built by its operations is coherent.
* `TypeTable.interning_canonical`: ids are canonical and later calls keep them.
-/

namespace StackCode

namespace TypeTable

variable {t : TypeTable} {type target : TypeId} {kind : TypeKind}

/-! ## The first table -/

theorem coherent_initial : initial.Coherent where
  indexed := by
    have hadds : initial = initial.entries.toList.foldl add ⟨#[], [], #[]⟩ := by decide
    rw [hadds]
    refine Indexed.addAll ?_ (fun _ _ => rfl) (by decide)
    intro kind type
    simp [find?, HasKind, entry?]
  sound {type e} he := by
    have hall : ∀ i : Fin initial.size, ∀ e ∈ initial.entry? ⟨i⟩, initial.EntrySound ⟨i⟩ e := by
      decide
    exact hall ⟨type.index, lt_size_of_found he⟩ e he
  primitives := Built.initial.hasPrimitives

/-! ## Operations -/

/-- A call of an operation of the table. -/
inductive Request where
  | reference (target : TypeId)
  | array (element : TypeId) (length : Nat)
  | span (element : TypeId)
  | function (params : List TypeId) (result : TypeId)
  | declareStruct (name : String) (fields : List (String × TypeId))

namespace Request

/-- The table after the call, and its answer. -/
def run : Request → TypeTable → TypeTable × Except TypeError TypeId
  | reference target, t => t.reference target
  | array element length, t => t.array element length
  | span element, t => t.span element
  | function params result, t => t.function params result
  | declareStruct name fields, t => t.declareStruct name fields

/-- The kind that is asked for; each declaration makes a kind of its own. -/
def kind? : Request → Option TypeKind
  | reference target => some (.reference target)
  | array element length => some (.array element length)
  | span element => some (.span element)
  | function params result => some (.function params result)
  | declareStruct .. => none

end Request

theorem check_eq_ok : t.check type = .ok () ↔ type.index < t.size := by
  rw [check, ← contains_iff]
  by_cases h : t.contains type = true <;> simp [h]

theorem checkValue_eq_ok :
    t.checkValue type = .ok () ↔ type.index < t.size ∧ type ≠ .void ∧ type ≠ .null := by
  rw [checkValue, bind_eq_ok, ← not_or, ← check_eq_ok]
  by_cases h : type = .void ∨ type = .null
  · simp [h]
  · simp only [h, if_false, not_false_iff, and_true]
    exact ⟨fun ⟨_, hcheck, _⟩ => hcheck, fun hcheck => ⟨(), hcheck, rfl⟩⟩

/-- The fields of a placed structure have types of the table, with values that can be stored. -/
theorem value_of_placeFields {fields : List (String × TypeId)} {offset : Nat}
    {placed : List Field} (h : t.placeFields fields offset = .ok placed) :
    ∀ f ∈ placed, f.type.index < t.size ∧ f.type ≠ .void ∧ f.type ≠ .null := by
  induction fields generalizing offset placed with
  | nil =>
    cases h
    simp
  | cons field fields ih =>
    obtain ⟨name, type⟩ := field
    obtain ⟨⟨⟩, hcheck, h⟩ := bind_eq_ok.mp h
    obtain ⟨layout, -, h⟩ := bind_eq_ok.mp h
    split at h
    · cases h
    · split at h
      · obtain ⟨rest, hrest, h⟩ := bind_eq_ok.mp h
        cases h
        intro f hf
        rcases List.mem_cons.mp hf with rfl | hf
        · exact checkValue_eq_ok.mp hcheck
        · exact ih hrest f hf
      · cases h

theorem lt_size_of_placeFields {fields : List (String × TypeId)} {offset : Nat}
    {placed : List Field} (h : t.placeFields fields offset = .ok placed) :
    ∀ f ∈ placed, f.type.index < t.size :=
  fun f hf => (value_of_placeFields h f hf).1

/-- Declaring a structure touches no type. -/
theorem Coherent.declare (h : t.Coherent) (s : StructDecl) :
    ({ t with structs := t.structs.push s } : TypeTable).Coherent ∧
      t.Extends { t with structs := t.structs.push s } := by
  have hext : t.Extends { t with structs := t.structs.push s } := by
    refine ⟨fun he => he, fun {decl s'} hs => ?_⟩
    have hlt : decl < t.structs.size := (Array.getElem?_eq_some_iff.mp hs).1
    rw [Array.getElem?_push_lt hlt, ← hs, Array.getElem?_eq_getElem hlt]
  refine ⟨h.extends hext h.indexed ?_, hext⟩
  intro type e hle he
  exact absurd (lt_size_of_found (t := t) he) (Nat.not_lt.mpr hle)

/-- Every operation keeps a table coherent and its entries unchanged. -/
theorem Coherent.run (h : t.Coherent) (request : Request) :
    (request.run t).1.Coherent ∧ t.Extends (request.run t).1 := by
  have hsame : t.Coherent ∧ t.Extends t := ⟨h, .refl t⟩
  cases request with
  | reference target =>
    dsimp only [Request.run, TypeTable.reference]
    split
    · exact hsame
    · next hcheck => exact h.internReference (check_eq_ok.mp hcheck)
  | array element length =>
    dsimp only [Request.run, TypeTable.array]
    split
    · exact hsame
    · next hcheck =>
      obtain ⟨hlt, hvalue⟩ := checkValue_eq_ok.mp hcheck
      exact h.intern ⟨⟨rfl, rfl, madeBelow_array.mpr hlt⟩, by simpa [TypeKind.values] using hvalue⟩
  | span element =>
    dsimp only [Request.run, TypeTable.span]
    split
    · exact hsame
    · next hcheck =>
      obtain ⟨hlt, hvalue⟩ := checkValue_eq_ok.mp hcheck
      exact h.intern ⟨⟨rfl, rfl, madeBelow_span.mpr hlt⟩, by simpa [TypeKind.values] using hvalue⟩
  | function params result =>
    dsimp only [Request.run, TypeTable.function]
    split
    · exact hsame
    · next hcheck =>
      obtain ⟨⟨⟩, hparams, hresult⟩ := bind_eq_ok.mp hcheck
      have hvalues := fun param hparam => checkValue_eq_ok.mp (forM_eq_ok.mp hparams param hparam)
      refine h.intern ⟨⟨rfl, rfl, madeBelow_function.mpr ⟨check_eq_ok.mp hresult, ?_⟩⟩, ?_⟩
      · exact fun param hparam => (hvalues param hparam).1
      · exact fun param hparam => (hvalues param hparam).2
  | declareStruct name fields =>
    dsimp only [Request.run, TypeTable.declareStruct]
    split
    · exact hsame
    · split
      · exact hsame
      · next placed hplaced =>
        obtain ⟨hdeclared, hext⟩ := h.declare ⟨name, placed⟩
        have hfields := lt_size_of_placeFields hplaced
        have hkind : Internable { t with structs := t.structs.push ⟨name, placed⟩ }
            (.struct t.structs.size) :=
          ⟨⟨rfl, rfl, madeBelow_struct.mpr ⟨_, Array.getElem?_push_size, hfields⟩⟩,
            by simp [TypeKind.values]⟩
        obtain ⟨hcoherent, hext'⟩ := hdeclared.intern hkind
        exact ⟨hcoherent, hext.trans hext'⟩

/-- **A table built by its operations is coherent.** -/
theorem Built.coherent (h : t.Built) : t.Coherent := by
  induction h with
  | initial => exact coherent_initial
  | reference _ target ih => exact (ih.run (.reference target)).1
  | array _ element length ih => exact (ih.run (.array element length)).1
  | span _ element ih => exact (ih.run (.span element)).1
  | function _ params result ih => exact (ih.run (.function params result)).1
  | declareStruct _ name fields ih => exact (ih.run (.declareStruct name fields)).1

/-! ## Canonical ids -/

/-- The ids of the table are canonical: kinds and ids correspond, and every id that an entry holds
leads where it should. -/
structure Canonical (t : TypeTable) : Prop where
  unique : ∀ {a b : TypeId} {kind : TypeKind}, t.HasKind a kind → t.HasKind b kind → a = b
  indexed : ∀ (kind : TypeKind) (type : TypeId), t.find? kind = some type ↔ t.HasKind type kind
  /-- A type is made of older types. -/
  older : ∀ {type : TypeId} {kind : TypeKind}, t.HasKind type kind → t.MadeBelow type.index kind
  verification : ∀ {type : TypeId} {e : TypeEntry}, t.entry? type = some e →
    t.contains e.verification = true
  stack : ∀ {type : TypeId} {e : TypeEntry}, t.entry? type = some e → t.contains e.stack = true
  addressable : ∀ {type : TypeId}, t.contains type = true →
    ((t.referenceTo? type).isSome = true ↔
      type ≠ .void ∧ type ≠ .null ∧ ¬ t.IsReference type)
  reference : ∀ {type ref : TypeId}, t.referenceTo? type = some ref →
    t.HasKind ref (.reference type)

/-- A type on the operand stack is a type of the table. -/
theorem Coherent.stack_lt_size (h : t.Coherent) {e : TypeEntry} (he : t.entry? type = some e) :
    e.stack.index < t.size := by
  rw [(h.sound he).stack, TypeId.widened]
  split
  · exact HasKind.lt_size (h.primitives .int32)
  · exact (h.sound he).verification.lt_size

theorem Coherent.isAddressable_iff (h : t.Coherent) (hkind : t.HasKind type kind) :
    kind.isAddressable = true ↔ type ≠ .void ∧ type ≠ .null ∧ ¬ t.IsReference type := by
  have hid : ∀ p : Primitive, type = p.id ↔ kind = .primitive p := fun p =>
    ⟨fun heq => hkind.unique (heq ▸ h.primitives p),
      fun heq => h.indexed.unique (heq ▸ hkind) (h.primitives p)⟩
  have href : t.IsReference type ↔ ∃ target, kind = .reference target :=
    exists_congr fun target => ⟨hkind.unique, fun heq => heq ▸ hkind⟩
  rw [Ne, Ne, show TypeId.void = Primitive.void.id from rfl,
    show TypeId.null = Primitive.null.id from rfl, hid, hid, href]
  cases kind with
  | primitive p => cases p <;> simp [TypeKind.isAddressable]
  | _ => simp [TypeKind.isAddressable]

theorem Coherent.canonical (h : t.Coherent) : t.Canonical where
  unique := h.indexed.unique
  indexed := h.indexed
  older := by
    rintro type _ ⟨e, he, rfl⟩
    exact (h.sound he).parts
  verification he := contains_iff.mpr (h.sound he).verification.lt_size
  stack he := contains_iff.mpr (h.stack_lt_size he)
  addressable {type} htype := by
    obtain ⟨e, he⟩ := exists_entry (contains_iff.mp htype)
    rw [← h.isAddressable_iff ⟨e, he, rfl⟩, ← (h.sound he).addressable]
    simp [referenceTo?, he]
  reference {type ref} href := by
    obtain ⟨e, he, href⟩ := Option.bind_eq_some_iff.mp href
    exact (h.sound he).reference ref href

/-- Asking for a kind that is a type already gives the type and changes nothing. -/
theorem Coherent.run_of_hasKind (h : t.Coherent) {request : Request}
    (hrequest : request.kind? = some kind) (hkind : t.HasKind type kind) :
    request.run t = (t, .ok type) := by
  have hfind := (h.indexed _ _).mpr hkind
  have hlt := hkind.lt_size
  obtain ⟨hparts, hvalues⟩ : t.MadeBelow t.size kind ∧
      ∀ c ∈ kind.values, c ≠ TypeId.void ∧ c ≠ .null := by
    obtain ⟨e, he, rfl⟩ := hkind
    exact ⟨(h.sound he).parts.mono (Nat.le_of_lt hlt), (h.sound he).values⟩
  cases request with
  | reference target =>
    cases hrequest
    have hcheck := check_eq_ok.mpr (madeBelow_reference.mp hparts)
    simp only [Request.run, TypeTable.reference, hcheck, TypeTable.internReference, hfind]
  | array element length =>
    cases hrequest
    have hcheck := checkValue_eq_ok.mpr
      ⟨madeBelow_array.mp hparts, hvalues element (by simp [TypeKind.values])⟩
    simp only [Request.run, TypeTable.array, hcheck, TypeTable.intern, hfind]
  | span element =>
    cases hrequest
    have hcheck := checkValue_eq_ok.mpr
      ⟨madeBelow_span.mp hparts, hvalues element (by simp [TypeKind.values])⟩
    simp only [Request.run, TypeTable.span, hcheck, TypeTable.intern, hfind]
  | function params result =>
    cases hrequest
    obtain ⟨hresult, hparams⟩ := madeBelow_function.mp hparts
    have hcheck : (do params.forM t.checkValue; t.check result) = .ok () :=
      bind_eq_ok.mpr ⟨(), forM_eq_ok.mpr fun param hparam =>
        checkValue_eq_ok.mpr ⟨hparams param hparam, hvalues param hparam⟩, check_eq_ok.mpr hresult⟩
    simp only [Request.run, TypeTable.function, hcheck, TypeTable.intern, hfind]
  | declareStruct name fields => cases hrequest

/-- **Interning is canonical and monotone.**  In a table built by its operations kinds and ids
correspond.  Every further call, failing ones included, keeps all entries as they are, and a call
for a kind that is there answers with its id and leaves the table alone. -/
theorem interning_canonical (h : t.Built) :
    t.Canonical ∧ ∀ request : Request,
      t.Extends (request.run t).1 ∧
      ∀ (kind : TypeKind) (type : TypeId), request.kind? = some kind → t.HasKind type kind →
        request.run t = (t, .ok type) := by
  refine ⟨h.coherent.canonical, fun request => ⟨(h.coherent.run request).2, ?_⟩⟩
  intro kind type hrequest hkind
  exact h.coherent.run_of_hasKind hrequest hkind

/-- A table with spans of bytes, after a call that was refused. -/
def byteSpans : TypeTable := ((initial.span .uint8).1.array .void 3).1

/-- Spans of bytes keep their id. -/
theorem interning_canonical_byteSpans :
    byteSpans.Built ∧ byteSpans.Canonical ∧
      byteSpans.HasKind ⟨24⟩ (.span .uint8) ∧
      byteSpans.span .uint8 = (byteSpans, .ok ⟨24⟩) ∧
      byteSpans.Extends (byteSpans.declareStruct "view" [("bytes", ⟨24⟩)]).1 := by
  have hbuilt : byteSpans.Built := .array (.span .initial .uint8) .void 3
  have hkind : byteSpans.HasKind ⟨24⟩ (.span .uint8) := by decide
  obtain ⟨hcanonical, hcalls⟩ := interning_canonical hbuilt
  exact ⟨hbuilt, hcanonical, hkind, (hcalls (.span .uint8)).2 _ _ rfl hkind,
    (hcalls (.declareStruct "view" [("bytes", ⟨24⟩)])).1⟩

end TypeTable

end StackCode
