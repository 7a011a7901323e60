import StackCode.Proofs.Types.Canonical

/-!
# Interning as a nested computation

Interning can be read as one computation that calls itself: once the entry of a kind is pushed, the
normal form of the kind is interned and becomes the class of the new type, and then the reference to
the new type is interned and recorded.  Each of these calls may fail in turn, and would leave the
pushed entry behind unfinished.  So may a lookup: a kind might be made of types that are not there.
Neither happens in a table that is finished, and what is left of the calls is what
`TypeTable.intern` and `TypeTable.internReference` do.

## Main definitions

* `TypeTable.nest`: interning as a computation that calls itself.
* `TypeTable.Request.serve`: the operations on top of it.

## Main results

* `TypeTable.nest_reference`, `TypeTable.Coherent.nest_intern`,
  `TypeTable.Coherent.nest_of_parts`: the nested computation interns as the plain one does.
* `TypeTable.Coherent.serve_eq`: so do the operations.
-/

namespace StackCode

namespace TypeTable

variable {t u : TypeTable} {type target : TypeId} {kind : TypeKind}

/-! ## Lookups that can miss -/

/-- The type that stands for a component of a kind, if the component is there. -/
def class? (t : TypeTable) (type : TypeId) : Option TypeId := do
  return (← t.entry? type).verification

/-- The kind with each component replaced by the type that stands for it, if all of them are
there. -/
def normalize? (t : TypeTable) : TypeKind → Option TypeKind
  | .reference target => do return .reference (← t.class? target)
  | .array element length => do return .array (← t.class? element) length
  | .span element => do return .span (← t.class? element)
  | .function params result => do return .function (← params.mapM t.class?) (← t.class? result)
  | kind => some kind

/-- The largest alignment of some fields, and the end of the last of them, if their types are
there. -/
def extent? (t : TypeTable) : List Field → (align last : Nat) →
    Option (Except TypeError (Nat × Nat))
  | [], align, last => some (.ok (align, last))
  | f :: fs, align, _ => do
    let l := (← t.entry? f.type).layout
    if f.offset + l.size < wordLimit then t.extent? fs (max align l.align) (f.offset + l.size)
    else some (.error .layoutOverflow)

/-- The layout of a kind, if what it is made of is there. -/
def kindLayout? (t : TypeTable) : TypeKind → Option (Except TypeError Layout)
  | .primitive p => some (.ok p.layout)
  | .reference _ | .function .. => some (.ok .word)
  | .span _ => some (.ok ⟨8, 4⟩)
  | .array element length => do
    let l := (← t.entry? element).layout
    if l.size * length < wordLimit then some (.ok ⟨l.size * length, l.align⟩)
    else some (.error .layoutOverflow)
  | .struct decl => do
    let s ← t.structs[decl]?
    match ← t.extent? s.fields 1 0 with
    | .error e => some (.error e)
    | .ok (align, last) =>
      match Layout.alignUp? last align with
      | some size => some (.ok ⟨size, align⟩)
      | none => some (.error .layoutOverflow)

theorem class?_eq (h : type.index < t.size) : t.class? type = some (t.standIn type) := by
  obtain ⟨e, he⟩ := exists_entry h
  rw [class?, standIn_eq he, he]
  rfl

theorem mapM_class?_eq {types : List TypeId} (h : ∀ type ∈ types, type.index < t.size) :
    types.mapM t.class? = some (types.map t.standIn) := by
  induction types with
  | nil => rfl
  | cons type types ih =>
    obtain ⟨htype, htypes⟩ := List.forall_mem_cons.mp h
    rw [List.mapM_cons, class?_eq htype, ih htypes]
    rfl

/-- The normal form of a kind of known parts is found. -/
theorem normalize?_eq (h : t.MadeBelow t.size kind) :
    t.normalize? kind = some (t.normalize kind) := by
  cases kind with
  | reference target => rw [normalize?, class?_eq (madeBelow_reference.mp h)]; rfl
  | array element length => rw [normalize?, class?_eq (madeBelow_array.mp h)]; rfl
  | span element => rw [normalize?, class?_eq (madeBelow_span.mp h)]; rfl
  | function params result =>
    obtain ⟨hresult, hparams⟩ := madeBelow_function.mp h
    rw [normalize?, mapM_class?_eq hparams, class?_eq hresult]
    rfl
  | primitive p => rfl
  | struct decl => rfl

theorem extent?_eq {fields : List Field} (h : ∀ f ∈ fields, f.type.index < t.size)
    (align last : Nat) : t.extent? fields align last = some (t.extent fields align last) := by
  induction fields generalizing align last with
  | nil => rfl
  | cons f fields ih =>
    obtain ⟨hf, hfields⟩ := List.forall_mem_cons.mp h
    obtain ⟨e, he⟩ := exists_entry hf
    simp only [extent?, extent, componentLayout, he, bind, Option.bind, Except.bind]
    split
    · exact ih hfields _ _
    · rfl

/-- The layout of a kind of known parts is found. -/
theorem kindLayout?_eq (h : t.MadeBelow t.size kind) :
    t.kindLayout? kind = some (t.kindLayout kind) := by
  cases kind with
  | array element length =>
    obtain ⟨e, he⟩ := exists_entry (madeBelow_array.mp h)
    simp only [kindLayout?, kindLayout, componentLayout, he, bind, Option.bind, Except.bind]
    split <;> rfl
  | struct decl =>
    obtain ⟨s, hs, hfields⟩ := madeBelow_struct.mp h
    simp only [kindLayout?, kindLayout, hs, extent?_eq hfields, bind, Option.bind, Except.bind]
    cases t.extent s.fields 1 0 with
    | error e => rfl
    | ok extent =>
      dsimp only
      cases Layout.alignUp? extent.2 extent.1 <;> rfl
  | _ => rfl

/-! ## The nested computation -/

/-- The table after a computation and its answer; nothing if it nests too deep, or looks up what is
not there. -/
abbrev Outcome := Option (TypeTable × Except TypeError TypeId)

/-- Gives a new type its class: the normal form of its kind is interned first. -/
def classify (intern : TypeTable → TypeKind → Outcome) (t : TypeTable) (type : TypeId)
    (kind : TypeKind) : Outcome :=
  match t.normalize? kind with
  | none => none
  | some normal =>
    if normal = kind then some (t, .ok type)
    else
      match intern t normal with
      | some (t, .ok standIn) => some (t.setClass type standIn, .ok type)
      | failed => failed

/-- Records the reference to a new type, which is interned first; references have none. -/
def refer (intern : TypeTable → TypeKind → Outcome) (t : TypeTable) (type : TypeId)
    (kind : TypeKind) : Outcome :=
  if kind.isReference then some (t, .ok type)
  else
    match intern t (.reference type) with
    | some (t, .ok ref) => some (t.setReference type ref, .ok type)
    | failed => failed

/-- What is left to do for a type once its entry is pushed. -/
def complete (intern : TypeTable → TypeKind → Outcome) (t : TypeTable) (type : TypeId)
    (kind : TypeKind) : Outcome :=
  match classify intern t type kind with
  | some (t, .ok _) => refer intern t type kind
  | failed => failed

/-- Interns a kind by calls of its own, up to a depth.  There is no id left for another type in a
table that is `full`. -/
def nest (full : Nat → Bool) : (depth : Nat) → TypeTable → TypeKind → Outcome
  | 0, _, _ => none
  | depth + 1, t, kind =>
    match t.find? kind with
    | some type => some (t, .ok type)
    | none =>
      match t.kindLayout? kind with
      | none => none
      | some (.error e) => some (t, .error e)
      | some (.ok layout) =>
        if full t.size then some (t, .error .layoutOverflow)
        else complete (nest full depth) (t.push kind layout).1 (t.push kind layout).2 kind

/-! ## Interning by nested calls -/

section Nest

variable {full : Nat → Bool} {depth : Nat}

theorem nest_of_known (h : t.find? kind = some type) :
    t.nest full (depth + 1) kind = some (t, .ok type) := by
  simp only [nest, h]

theorem nest_of_refused (hnew : t.find? kind = none) (hparts : t.MadeBelow t.size kind)
    {e : TypeError} (hlayout : t.kindLayout kind = .error e) :
    t.nest full (depth + 1) kind = some (t, .error e) := by
  simp only [nest, hnew, kindLayout?_eq hparts, hlayout]

/-- A new kind with a layout is pushed, if there is room. -/
theorem nest_of_new (hnew : t.find? kind = none) (hparts : t.MadeBelow t.size kind)
    {layout : Layout} (hlayout : t.kindLayout kind = .ok layout) (hroom : full t.size = false) :
    t.nest full (depth + 1) kind =
      complete (nest full depth) (t.push kind layout).1 ⟨t.size⟩ kind := by
  simp only [nest, hnew, kindLayout?_eq hparts, hlayout, hroom]
  rfl

theorem complete_of_self {intern : TypeTable → TypeKind → Outcome}
    (hnormal : t.normalize? kind = some kind) :
    complete intern t type kind = refer intern t type kind := by
  simp only [complete, classify, hnormal, if_true]

/-- The new type gets the class that was interned for it. -/
theorem complete_of_ok {intern : TypeTable → TypeKind → Outcome} {normal : TypeKind}
    {standIn : TypeId} (hnormal : t.normalize? kind = some normal) (hne : normal ≠ kind)
    (hintern : intern t normal = some (u, .ok standIn)) :
    complete intern t type kind = refer intern (u.setClass type standIn) type kind := by
  simp only [complete, classify, hnormal, if_neg hne, hintern]

/-- If the class of a new type is refused, so is the type. -/
theorem complete_of_error {intern : TypeTable → TypeKind → Outcome} {normal : TypeKind}
    {e : TypeError} (hnormal : t.normalize? kind = some normal) (hne : normal ≠ kind)
    (hintern : intern t normal = some (u, .error e)) :
    complete intern t type kind = some (u, .error e) := by
  simp only [complete, classify, hnormal, if_neg hne, hintern]

/-- The computation that has succeeded. -/
def succeeded (answer : TypeTable × TypeId) : Outcome := some (answer.1, .ok answer.2)

/-- A reference to a type that stands for itself. -/
theorem nest_normalReference (htarget : target.index < t.size) (hself : t.standIn target = target)
    (hroom : full t.size = false) :
    t.nest full (depth + 1) (.reference target) = succeeded (t.internNormalReference target) := by
  cases hfind : t.find? (.reference target) with
  | some type => rw [nest_of_known hfind, internNormalReference, hfind]; rfl
  | none =>
    have hext := extends_add t ⟨.reference target, .word, ⟨t.size⟩, ⟨t.size⟩, none⟩
    have hparts : t.MadeBelow t.size (.reference target) := madeBelow_reference.mpr htarget
    rw [nest_of_new hfind hparts rfl hroom, internNormalReference, hfind, push_eq, complete_of_self]
    · rfl
    · rw [normalize?_eq ((hparts.extends hext).mono (by simp)), hext.normalize_eq hparts, normalize,
        hself]

/-- A reference to a type, the class of which stands for itself.  The class is interned one level
down, and is a reference itself. -/
theorem nest_reference (htarget : target.index < t.size)
    (hclass : (t.standIn target).index < t.size)
    (hself : t.standIn (t.standIn target) = t.standIn target) (hroom : full t.size = false)
    (hroom' : full (t.size + 1) = false) :
    t.nest full (depth + 2) (.reference target) = succeeded (t.internReference target) := by
  cases hfind : t.find? (.reference target) with
  | some type => rw [nest_of_known hfind, internReference, hfind]; rfl
  | none =>
    have hparts : t.MadeBelow t.size (.reference target) := madeBelow_reference.mpr htarget
    rw [nest_of_new hfind hparts rfl hroom, internReference, hfind, push_eq]
    generalize hu : t.add ⟨.reference target, .word, ⟨t.size⟩, ⟨t.size⟩, none⟩ = u
    have hext : t.Extends u := hu ▸ extends_add t _
    have hsize : u.size = t.size + 1 := hu ▸ size_add t _
    have hstand : u.standIn target = t.standIn target := hext.standIn_eq htarget
    have hnormal : u.normalize? (.reference target) = some (.reference (t.standIn target)) := by
      rw [normalize?_eq ((hparts.extends hext).mono (by omega)), hext.normalize_eq hparts,
        normalize]
    dsimp only
    rw [hstand]
    by_cases hsame : t.standIn target = target
    · rw [if_pos hsame, complete_of_self (by rw [hnormal, hsame])]
      rfl
    · rw [if_neg hsame, complete_of_ok hnormal (by simpa using hsame)
        (nest_normalReference (by omega) (by rw [hext.standIn_eq hclass, hself])
          (by rw [hsize, hroom']))]
      rfl

/-- The reference to a type that stands for itself is recorded. -/
theorem refer_eq (hkind : kind.isReference = false) (htype : type.index < t.size)
    (hclass : (t.standIn type).index < t.size)
    (hself : t.standIn (t.standIn type) = t.standIn type) (hroom : full t.size = false)
    (hroom' : full (t.size + 1) = false) :
    refer (nest full (depth + 2)) t type kind = some (t.addReference type, .ok type) := by
  rw [refer, hkind, nest_reference htype hclass hself hroom hroom']
  rfl

/-- The type added last stands for itself until it gets a class. -/
theorem standIn_push (t : TypeTable) (kind : TypeKind) (layout : Layout) :
    (t.push kind layout).1.standIn ⟨t.size⟩ = ⟨t.size⟩ := by
  simp [push_eq, standIn]

/-- A kind that is its own normal form. -/
theorem nest_normal (hparts : t.MadeBelow t.size kind) (hkind : kind.isReference = false)
    (hnormal : t.normalize kind = kind) (hroom : ∀ n ≤ t.size + 2, full n = false) :
    t.nest full (depth + 3) kind = some (t.internNormal kind) := by
  cases hfind : t.find? kind with
  | some type => rw [nest_of_known hfind, internNormal, hfind]
  | none =>
    cases hlayout : t.kindLayout kind with
    | error e => simp only [nest_of_refused hfind hparts hlayout, internNormal, hfind, hlayout]
    | ok layout =>
      have hext : t.Extends (t.push kind layout).1 := extends_add t _
      have hsize : (t.push kind layout).1.size = t.size + 1 := size_add t _
      have hself := standIn_push t kind layout
      rw [nest_of_new hfind hparts hlayout (hroom _ (Nat.le_add_right _ 2)), complete_of_self,
        refer_eq hkind]
      · simp only [internNormal, hfind, hlayout]
        rfl
      · rw [hsize]
        exact Nat.lt_succ_self _
      · rw [hself, hsize]
        exact Nat.lt_succ_self _
      · rw [hself, hself]
      · exact hroom _ (by omega)
      · exact hroom _ (by omega)
      · rw [normalize?_eq ((hparts.extends hext).mono (by omega)), hext.normalize_eq hparts,
          hnormal]

theorem standIn_setClass_self (htype : type.index < t.size) (standIn : TypeId) :
    (t.setClass type standIn).standIn type = standIn := by
  obtain ⟨e, he⟩ := exists_entry htype
  refine standIn_eq (e := { e with verification := standIn, stack := standIn }) ?_
  unfold entry? at he ⊢
  rw [setClass, Array.getElem?_modify, if_pos rfl, he]
  rfl

theorem standIn_setClass_of_ne {c : TypeId} (h : c ≠ type) (standIn : TypeId) :
    (t.setClass type standIn).standIn c = t.standIn c := by
  have hne : type.index ≠ c.index := fun hindex => h (congrArg TypeId.mk hindex.symm)
  rw [TypeTable.standIn, TypeTable.standIn, entry?, entry?, setClass, Array.getElem?_modify,
    if_neg hne]

/-- The class that a type is given still stands for itself. -/
theorem standIn_setClass_standIn (htype : type.index < t.size) {standIn : TypeId}
    (hself : t.standIn standIn = standIn) :
    (t.setClass type standIn).standIn standIn = standIn := by
  by_cases h : standIn = type
  · rw [h, standIn_setClass_self (h ▸ htype)]
  · rw [standIn_setClass_of_ne h, hself]

/-- The type of a normal form stands for itself, whether it is there or added. -/
theorem standIn_of_internNormal (hkind : kind.isReference = false)
    (hnew : t.find? (.reference ⟨t.size⟩) = none)
    (hknown : ∀ type, t.find? kind = some type → type.index < t.size ∧ t.standIn type = type)
    (h : t.internNormal kind = (u, .ok type)) :
    t.size ≤ u.size ∧ u.size ≤ t.size + 2 ∧ type.index < u.size ∧ u.standIn type = type := by
  unfold internNormal at h
  split at h
  · rename_i found hfind
    cases h
    exact ⟨Nat.le_refl _, Nat.le_add_right _ 2, hknown _ hfind⟩
  · split at h
    · cases h
    · rename_i layout _
      dsimp only at h
      rw [push_eq, addReference_of_self t kind layout hkind hnew] at h
      cases h
      refine ⟨by simp only [size_add]; omega, by simp, by simp only [size_add]; omega, ?_⟩
      simp [standIn]

/-- In a finished table a normal form stands for itself. -/
theorem Coherent.standIn_of_normal (h : t.Coherent) (hkind : t.Formed kind)
    (hnormal : t.normalize kind = kind) (hfind : t.find? kind = some type) :
    type.index < t.size ∧ t.standIn type = type := by
  have hhas := (h.indexed _ _).mp hfind
  have hclass := h.hasKind_standIn hhas
  rw [normalForm_of_isCompound hkind.compound, hnormal] at hclass
  exact ⟨hhas.lt_size, h.indexed.unique hclass hhas⟩

section New

variable (h : t.Coherent) (hkind : t.Formed kind) (hnew : t.find? kind = none)
  {layout : Layout} (hlayout : t.kindLayout kind = .ok layout)

include h hkind hnew hlayout

/-- What is left to do for a new kind is done as by the plain computation.  The new type gets its
class, which stands for itself, and then its reference. -/
theorem Coherent.complete_eq (hroom : ∀ n ≤ t.size + 4, full n = false) :
    complete (nest full (depth + 3)) (t.push kind layout).1 ⟨t.size⟩ kind =
      some (t.intern kind) := by
  have hform := h.formed_normalize hkind
  have hidem := h.normalize_normalize hkind.parts
  have hunknown := h.find?_reference_eq_none ⟨t.size + 1⟩ (Nat.le_succ _)
  have hself := standIn_push t kind layout
  rw [TypeTable.intern, hnew, hlayout]
  generalize hpush : t.push kind layout = pushed at hself ⊢
  obtain ⟨u, new⟩ := pushed
  obtain ⟨hu, rfl⟩ := Prod.mk.inj ((push_eq t kind layout).symm.trans hpush)
  have hext : t.Extends u := hu ▸ extends_add t _
  have hsize : u.size = t.size + 1 := hu ▸ size_add t _
  have hnormalize : u.normalize kind = t.normalize kind := hext.normalize_eq hkind.parts
  have hnormal? : u.normalize? kind = some (t.normalize kind) := by
    rw [normalize?_eq ((hkind.parts.extends hext).mono (by omega)), hnormalize]
  simp only [hpush, hnormalize] at hself ⊢
  by_cases hnormal : t.normalize kind = kind
  · rw [if_pos hnormal, complete_of_self (by rw [hnormal?, hnormal]),
      refer_eq hkind.notReference (by simp [hsize]) (by simp [hself, hsize])
        (by rw [hself, hself]) (hroom _ (by omega)) (hroom _ (by omega))]
  rw [if_neg hnormal]
  have hnest : u.nest full (depth + 3) (t.normalize kind) =
      some (u.internNormal (t.normalize kind)) := by
    refine nest_normal ((hform.parts.extends hext).mono (by omega)) hform.notReference ?_
      fun n hn => hroom n (by omega)
    rw [hext.normalize_eq hform.parts, hidem]
  cases hanswer : u.internNormal (t.normalize kind) with
  | mk v answer =>
    rw [hanswer] at hnest
    cases answer with
    | error e => rw [complete_of_error hnormal? hnormal hnest]
    | ok standIn =>
      have hknown : ∀ type, u.find? (t.normalize kind) = some type →
          type.index < u.size ∧ u.standIn type = type := by
        intro type hfind
        rw [← hu, find?_add, if_neg hnormal] at hfind
        obtain ⟨hlt, hstand⟩ := h.standIn_of_normal hform hidem hfind
        exact ⟨by omega, by rw [hext.standIn_eq hlt, hstand]⟩
      obtain ⟨hle, hle', hlt, hstand⟩ := standIn_of_internNormal hform.notReference
        (by simp [← hu, hunknown, hkind.reference_ne]) hknown hanswer
      have htype : (⟨t.size⟩ : TypeId).index < v.size := Nat.lt_of_lt_of_le (by simp [hsize]) hle
      have hsize' : (v.setClass ⟨t.size⟩ standIn).size = v.size := Array.size_modify
      rw [complete_of_ok hnormal? hnormal hnest, refer_eq hkind.notReference]
      · rwa [hsize']
      · rwa [standIn_setClass_self htype, hsize']
      · rw [standIn_setClass_self htype, standIn_setClass_standIn htype hstand]
      · exact hroom _ (by omega)
      · exact hroom _ (by omega)

/-- A new kind with a layout becomes the next type. -/
theorem Coherent.intern_of_new :
    (t.intern kind).2 = .ok ⟨t.size⟩ ∧ (t.intern kind).1.HasKind ⟨t.size⟩ kind := by
  by_cases hnormal : t.normalize kind = kind
  · rw [intern_of_normal h hkind hnew hlayout hnormal]
    simp
  · cases hknown : t.find? (t.normalize kind) with
    | none =>
      rw [intern_of_unknown h hkind hnew hlayout hnormal hknown]
      have hlast : t.size ≠ t.size + 1 + 1 + 1 := by omega
      have hthird : t.size ≠ t.size + 1 + 1 := by omega
      simp [hlast, hthird]
    | some normal =>
      obtain ⟨ref, href⟩ :=
        h.exists_reference (h.formed_normalize hkind) ((h.indexed _ _).mp hknown)
      rw [intern_of_known h hkind hnew hlayout hnormal hknown href]
      simp

end New

/-- The answer of interning is a type of the kind. -/
theorem Coherent.hasKind_intern (h : t.Coherent) (hkind : t.Formed kind)
    (hanswer : (t.intern kind).2 = .ok type) : (t.intern kind).1.HasKind type kind := by
  cases hfind : t.find? kind with
  | some known =>
    have hsame : t.intern kind = (t, .ok known) := by simp only [TypeTable.intern, hfind]
    rw [hsame] at hanswer ⊢
    cases hanswer
    exact (h.indexed _ _).mp hfind
  | none =>
    cases hlayout : t.kindLayout kind with
    | error e =>
      simp only [TypeTable.intern, hfind, hlayout] at hanswer
      cases hanswer
    | ok layout =>
      obtain ⟨hnew, hhas⟩ := h.intern_of_new hkind hfind hlayout
      cases hnew.symm.trans hanswer
      exact hhas

/-- **Nested calls intern a kind** as the plain computation does, if the table is finished and has
room. -/
theorem Coherent.nest_intern (h : t.Coherent) (hkind : t.Formed kind)
    (hroom : ∀ n ≤ t.size + 4, full n = false) :
    t.nest full (depth + 4) kind = some (t.intern kind) := by
  cases hfind : t.find? kind with
  | some type => rw [nest_of_known hfind, TypeTable.intern, hfind]
  | none =>
    cases hlayout : t.kindLayout kind with
    | error e =>
      simp only [nest_of_refused hfind hkind.parts hlayout, TypeTable.intern, hfind, hlayout]
    | ok layout =>
      rw [nest_of_new hfind hkind.parts hlayout (hroom _ (Nat.le_add_right _ 4)),
        h.complete_eq hkind hfind hlayout hroom]

end Nest

/-! ## Operations -/

/-- The kind that a call asks for, and the table that it is interned in.  A structure is declared
first; the parts of every other kind are checked. -/
def Request.vet (t : TypeTable) : Request → Except TypeError (TypeTable × TypeKind)
  | reference target => do
    t.check target
    return (t, .reference target)
  | array element length => do
    t.checkValue element
    return (t, .array element length)
  | span element => do
    t.checkValue element
    return (t, .span element)
  | function params result => do
    params.forM t.checkValue
    t.check result
    return (t, .function params result)
  | declareStruct name fields =>
    if t.structs.toList.any fun s => s.name = name then .error (.duplicateStruct name)
    else do
      let placed ← t.placeFields fields 0
      return ({ t with structs := t.structs.push ⟨name, placed⟩ }, .struct t.structs.size)

/-- Interns a kind of any form. -/
def internAny (t : TypeTable) : TypeKind → TypeTable × Except TypeError TypeId
  | .reference target => ((t.internReference target).1, .ok (t.internReference target).2)
  | kind => t.intern kind

/-- A call is vetted, and then interns its kind. -/
theorem Request.run_eq (request : Request) (t : TypeTable) :
    request.run t =
      match request.vet t with
      | .error e => (t, .error e)
      | .ok (u, kind) => u.internAny kind := by
  cases request with
  | reference target =>
    simp only [run, TypeTable.reference, vet, bind, Except.bind]
    cases t.check target <;> rfl
  | array element length =>
    simp only [run, TypeTable.array, vet, bind, Except.bind]
    cases t.checkValue element <;> rfl
  | span element =>
    simp only [run, TypeTable.span, vet, bind, Except.bind]
    cases t.checkValue element <;> rfl
  | function params result =>
    simp only [run, TypeTable.function, vet, bind, Except.bind]
    cases params.forM t.checkValue with
    | error e => rfl
    | ok _ =>
      dsimp only
      cases t.check result <;> rfl
  | declareStruct name fields =>
    simp only [run, TypeTable.declareStruct, vet, bind, Except.bind]
    split
    · rfl
    · cases t.placeFields fields 0 <;> rfl

/-- A kind that a call can ask for: its parts are there, and those that are to have values have
some. -/
def Askable (t : TypeTable) (kind : TypeKind) : Prop :=
  (∃ target, kind = .reference target ∧ target.index < t.size) ∨ t.Internable kind

/-- What may be asked for is made of known types. -/
theorem Askable.parts (h : t.Askable kind) : t.MadeBelow t.size kind := by
  rcases h with ⟨target, rfl, htarget⟩ | h
  · exact madeBelow_reference.mpr htarget
  · exact h.parts

theorem internAny_of_formed (h : t.Formed kind) : t.internAny kind = t.intern kind := by
  cases kind with
  | reference target => cases h.notReference
  | _ => rfl

/-- A call that is vetted asks for a kind in the same table, or in one with another structure. -/
theorem askable_of_vet {request : Request} (hvet : request.vet t = .ok (u, kind)) :
    u.Askable kind ∧ (u = t ∨ ∃ s, u = { t with structs := t.structs.push s }) := by
  cases request with
  | reference target =>
    obtain ⟨⟨⟩, hcheck, hpure⟩ := bind_eq_ok.mp hvet
    cases hpure
    exact ⟨.inl ⟨target, rfl, check_eq_ok.mp hcheck⟩, .inl rfl⟩
  | array element length =>
    obtain ⟨⟨⟩, hcheck, hpure⟩ := bind_eq_ok.mp hvet
    cases hpure
    obtain ⟨hlt, hvalue⟩ := checkValue_eq_ok.mp hcheck
    exact ⟨.inr ⟨⟨rfl, rfl, madeBelow_array.mpr hlt⟩, by simpa [TypeKind.values] using hvalue⟩,
      .inl rfl⟩
  | span element =>
    obtain ⟨⟨⟩, hcheck, hpure⟩ := bind_eq_ok.mp hvet
    cases hpure
    obtain ⟨hlt, hvalue⟩ := checkValue_eq_ok.mp hcheck
    exact ⟨.inr ⟨⟨rfl, rfl, madeBelow_span.mpr hlt⟩, by simpa [TypeKind.values] using hvalue⟩,
      .inl rfl⟩
  | function params result =>
    obtain ⟨⟨⟩, hparams, hvet⟩ := bind_eq_ok.mp hvet
    obtain ⟨⟨⟩, hresult, hpure⟩ := bind_eq_ok.mp hvet
    cases hpure
    have hvalues := fun param hparam => checkValue_eq_ok.mp (forM_eq_ok.mp hparams param hparam)
    refine ⟨.inr ⟨⟨rfl, rfl, madeBelow_function.mpr ⟨check_eq_ok.mp hresult, ?_⟩⟩, ?_⟩, .inl rfl⟩
    · exact fun param hparam => (hvalues param hparam).1
    · exact fun param hparam => (hvalues param hparam).2
  | declareStruct name fields =>
    simp only [Request.vet] at hvet
    split at hvet
    · cases hvet
    · obtain ⟨placed, hplaced, hpure⟩ := bind_eq_ok.mp hvet
      cases hpure
      have hparts : ∀ f ∈ placed, f.type.index < t.size := lt_size_of_placeFields hplaced
      refine ⟨.inr ⟨⟨rfl, rfl, ?_⟩, by simp [TypeKind.values]⟩, .inr ⟨_, rfl⟩⟩
      exact madeBelow_struct.mpr ⟨_, Array.getElem?_push_size, hparts⟩

/-- What a call asks for can be interned, and the types of the table are the same as before. -/
theorem Coherent.vetted (h : t.Coherent) {request : Request}
    (hvet : request.vet t = .ok (u, kind)) :
    u.Coherent ∧ u.Askable kind ∧ u.entries = t.entries ∧ u.index = t.index := by
  obtain ⟨hkind, rfl | ⟨s, rfl⟩⟩ := askable_of_vet hvet
  · exact ⟨h, hkind, rfl, rfl⟩
  · exact ⟨(h.declare s).1, hkind, rfl, rfl⟩

/-- **Nested calls intern a kind of any form** made of types of the table. -/
theorem Coherent.nest_of_parts (h : t.Coherent) (hparts : t.MadeBelow t.size kind)
    {full : Nat → Bool} (hroom : ∀ n ≤ t.size + 4, full n = false) (depth : Nat) :
    t.nest full (depth + 4) kind = some (t.internAny kind) := by
  rcases hparts.forms with ⟨p, rfl⟩ | ⟨target, rfl, htarget⟩ | hkind
  · rw [nest_of_known ((h.indexed _ _).mpr (h.primitives p))]
    exact congrArg some (h.intern_primitive p).symm
  · exact nest_reference htarget (h.standIn_lt_size htarget) (h.standIn_standIn target)
      (hroom _ (by omega)) (hroom _ (by omega))
  · rw [internAny_of_formed hkind]
    exact h.nest_intern hkind hroom

/-- Four levels intern whatever may be asked for. -/
theorem Coherent.nest_any (h : t.Coherent) (hkind : t.Askable kind) {full : Nat → Bool}
    (hroom : ∀ n ≤ t.size + 4, full n = false) (depth : Nat) :
    t.nest full (depth + 4) kind = some (t.internAny kind) :=
  h.nest_of_parts hkind.parts hroom depth

/-- The answer for a function type is a type of the kind. -/
theorem Coherent.hasKind_function (h : t.Coherent) {params : List TypeId} {result : TypeId}
    (hanswer : (t.function params result).2 = .ok type) :
    (t.function params result).1.HasKind type (.function params result) := by
  have hrun := Request.run_eq (.function params result) t
  cases hvet : Request.vet t (.function params result) with
  | error e =>
    rw [hvet] at hrun
    cases (congrArg Prod.snd hrun).symm.trans hanswer
  | ok vetted =>
    obtain ⟨_, -, hrest⟩ := bind_eq_ok.mp hvet
    obtain ⟨_, -, hpure⟩ := bind_eq_ok.mp hrest
    cases hpure
    rcases (h.vetted hvet).2.1 with ⟨_, ⟨⟩, _⟩ | hkind
    rw [hvet] at hrun
    change t.function params result = t.intern _ at hrun
    rw [hrun] at hanswer ⊢
    exact h.hasKind_intern hkind.formed hanswer

theorem Built.run (h : t.Built) (request : Request) : (request.run t).1.Built := by
  cases request with
  | reference target => exact h.reference target
  | array element length => exact h.array element length
  | span element => exact h.span element
  | function params result => exact h.function params result
  | declareStruct name fields => exact h.declareStruct name fields

/-- The call served by nested interning. -/
def Request.serve (full : Nat → Bool) (request : Request) (t : TypeTable) : Outcome :=
  match request.vet t with
  | .error e => some (t, .error e)
  | .ok (u, kind) => u.nest full 4 kind

/-- **Calls are served as they run**, while there is room for four more types. -/
theorem Coherent.serve_eq (h : t.Coherent) {full : Nat → Bool}
    (hroom : ∀ n ≤ t.size + 4, full n = false) (request : Request) :
    request.serve full t = some (request.run t) := by
  rw [Request.serve, Request.run_eq]
  cases hvet : request.vet t with
  | error e => rfl
  | ok vetted =>
    obtain ⟨u, kind⟩ := vetted
    obtain ⟨hcoherent, hkind, hentries, -⟩ := h.vetted hvet
    have hsize : u.size = t.size := congrArg Array.size hentries
    exact hcoherent.nest_any hkind (hsize ▸ hroom) 0

end TypeTable

end StackCode
