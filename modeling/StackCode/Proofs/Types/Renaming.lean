import Mathlib.Data.Set.Function
import StackCode.Proofs.Types.Placed

/-!
# Types under other ids

A table may hold the types of another under other ids: built in another order, with other names, or
with more types.  The entries of the two then correspond, and so do the types of the fields of
structures.  Layouts and offsets are not part of this, because they follow: a table that was built
by its operations lays out every type from the layouts of older types.

Such a renaming says nothing of ids that name no type.  It is completed by sending those to ids that
name no type either, so that every lookup in one table has a counterpart in the other.

## Main definitions

* `TypeTable.Renamed`: a table holds the types of another under other ids.
* `TypeRenaming`: an injective renaming of all ids that fixes the primitives.
* `TypeTable.Carried`: every lookup of one table corresponds to one of the other.

## Main results

* `TypeTable.Renamed.componentLayout_eq`: types keep their layouts under other ids.
* `TypeTable.Renamed.carried`: a renaming that is completed carries every lookup.
-/

namespace StackCode

attribute [ext] TypeEntry

/-- The kind with its types renamed by `ρ`, and the numbers of structures by `σ`. -/
def TypeKind.rename (ρ : TypeId → TypeId) (σ : Nat → Nat) : TypeKind → TypeKind
  | primitive p => primitive p
  | reference target => reference (ρ target)
  | array element length => array (ρ element) length
  | span element => span (ρ element)
  | function params result => function (params.map ρ) (ρ result)
  | struct decl => struct (σ decl)

/-- The field is of the renamed type and at the same offset. -/
structure Field.Renamed (ρ : TypeId → TypeId) (f f' : Field) : Prop where
  type : f'.type = ρ f.type
  offset : f'.offset = f.offset

namespace TypeTable

/-- The table `t'` holds the types of `t` under other ids: `ρ` renames types and `σ` renumbers
structures. -/
structure Renamed (ρ : TypeId → TypeId) (σ : Nat → Nat) (t t' : TypeTable) : Prop where
  injOn : Set.InjOn ρ {id | t.contains id = true}
  primitive : ∀ p : Primitive, ρ p.id = p.id
  entry : ∀ {id : TypeId} {e : TypeEntry}, t.entry? id = some e →
    ∃ e', t'.entry? (ρ id) = some e' ∧ e'.kind = e.kind.rename ρ σ ∧
      e'.verification = ρ e.verification ∧ e'.stack = ρ e.stack ∧
      e'.reference = e.reference.map ρ
  fieldTypes : ∀ {id : TypeId} {e : TypeEntry} {decl : Nat}, t.entry? id = some e →
    e.kind = .struct decl →
    (t'.structs[σ decl]?).map (fun s => s.fields.map Field.type) =
      (t.structs[decl]?).map fun s => s.fields.map fun f => ρ f.type

variable {ρ : TypeId → TypeId} {σ : Nat → Nat} {t t' : TypeTable} {id : TypeId}
  {fields fields' : List Field} {offset : Nat}

/-- A table that has grown holds the types it had under their own ids. -/
theorem Extends.renamed (hext : t.Extends t') (h : t.Coherent) :
    Renamed (fun type => type) (fun decl => decl) t t' where
  injOn := Set.injOn_id _
  primitive _ := rfl
  entry {type e} he := by
    have hkind : e.kind.rename (fun type => type) (fun decl => decl) = e.kind := by
      cases e.kind <;> simp [TypeKind.rename]
    exact ⟨e, hext.entry he, hkind.symm, rfl, rfl, Option.map_id'.symm⟩
  fieldTypes {type e decl} he hkind := by
    obtain ⟨parts, hparts, -⟩ := (h.sound he).parts
    rw [hkind] at hparts
    obtain ⟨s, hs, -⟩ := Option.map_eq_some_iff.mp hparts
    rw [hs, hext.struct hs]

/-! ### Layouts -/

/-- Placed fields of corresponding types have the same offsets. -/
theorem FieldsPlaced.renamed (h : t.FieldsPlaced fields offset)
    (h' : t'.FieldsPlaced fields' offset)
    (htypes : fields'.map Field.type = fields.map fun f => ρ f.type)
    (hlayouts : ∀ f ∈ fields, t'.componentLayout (ρ f.type) = t.componentLayout f.type) :
    List.Forall₂ (Field.Renamed ρ) fields fields' := by
  induction fields generalizing fields' offset with
  | nil =>
    rw [List.map_eq_nil_iff.mp htypes]
    exact .nil
  | cons f fields ih =>
    obtain ⟨f', fields', rfl, htype, hrest⟩ := List.map_eq_cons_iff.mp htypes
    obtain ⟨hf, hfs⟩ := List.forall_mem_cons.mp hlayouts
    obtain ⟨layout, hlayout, halign, hplaced⟩ := h
    obtain ⟨layout', hlayout', halign', hplaced'⟩ := h'
    rw [htype, hf, hlayout] at hlayout'
    cases hlayout'
    rw [halign] at halign'
    have hoffset : f'.offset = f.offset := (Option.some.inj halign').symm
    rw [hoffset] at hplaced'
    exact .cons ⟨htype, hoffset⟩ (ih hplaced hplaced' hrest hfs)

theorem extent_eq_of_renamed (h : List.Forall₂ (Field.Renamed ρ) fields fields')
    (hlayouts : ∀ f ∈ fields, t'.componentLayout (ρ f.type) = t.componentLayout f.type)
    (align last : Nat) : t'.extent fields' align last = t.extent fields align last := by
  induction h generalizing align last with
  | nil => rfl
  | cons hf _ ih =>
    obtain ⟨hlayout, hrest⟩ := List.forall_mem_cons.mp hlayouts
    simp only [extent, hf.type, hf.offset, hlayout, ih hrest]

namespace Renamed

variable (h : Renamed ρ σ t t') (ht : t.Built) (ht' : t'.Built)

include h ht ht'

/-- The fields of a structure type correspond, if the types of the fields keep their layouts. -/
theorem fields_renamed {e : TypeEntry} {decl : Nat} (he : t.entry? id = some e)
    (hkind : e.kind = .struct decl)
    (hlayouts : ∀ c : TypeId, c.index < id.index → t'.componentLayout (ρ c) = t.componentLayout c) :
    ∃ s s', t.structs[decl]? = some s ∧ t'.structs[σ decl]? = some s' ∧
      (∀ f ∈ s.fields, f.type.index < id.index) ∧
      List.Forall₂ (Field.Renamed ρ) s.fields s'.fields := by
  have hparts := (ht.coherent.sound he).parts
  rw [hkind] at hparts
  obtain ⟨s, hs, hbelow⟩ := madeBelow_struct.mp hparts
  have htypes := h.fieldTypes he hkind
  rw [hs] at htypes
  obtain ⟨s', hs', htypes⟩ := Option.map_eq_some_iff.mp htypes
  have hplaced := (ht.structsPlaced decl s hs).1
  have hplaced' := (ht'.structsPlaced (σ decl) s' hs').1
  exact ⟨s, s', hs, hs', hbelow,
    hplaced.renamed hplaced' htypes fun f hf => hlayouts f.type (hbelow f hf)⟩

/-- **Types keep their layouts under other ids.**  A type is laid out from the layouts of older
types. -/
theorem componentLayout_eq (hid : id.index < t.size) :
    t'.componentLayout (ρ id) = t.componentLayout id := by
  induction hn : id.index using Nat.strong_induction_on generalizing id with
  | _ n ih =>
    obtain ⟨e, he⟩ := exists_entry hid
    obtain ⟨e', he', hkind, -⟩ := h.entry he
    have hbelow : ∀ c : TypeId, c.index < id.index →
        t'.componentLayout (ρ c) = t.componentLayout c :=
      fun c hc => ih c.index (hn ▸ hc) (hc.trans hid) rfl
    have hsound := ht.coherent.sound he
    have hlayout : t'.kindLayout e'.kind = t.kindLayout e.kind := by
      have hparts := hsound.parts
      rw [hkind]
      cases hk : e.kind with
      | array element length =>
        rw [hk] at hparts
        simp only [TypeKind.rename, kindLayout, hbelow element (madeBelow_array.mp hparts)]
      | struct decl =>
        obtain ⟨s, s', hs, hs', hfields, hrenamed⟩ := h.fields_renamed ht ht' he hk hbelow
        have hextent := extent_eq_of_renamed hrenamed fun f hf => hbelow f.type (hfields f hf)
        simp only [TypeKind.rename, kindLayout, hs, hs', hextent]
      | _ => rfl
    rw [hsound.layout, (ht'.coherent.sound he').layout] at hlayout
    rw [componentLayout, componentLayout, he, he']
    exact hlayout

end Renamed

end TypeTable

/-! ### Complete renamings -/

/-- A renaming of all ids that tells ids apart and fixes the primitives, and one of the numbers of
structures. -/
structure TypeRenaming where
  type : TypeId → TypeId
  decl : Nat → Nat
  injective : Function.Injective type
  primitive : ∀ p : Primitive, type p.id = p.id

/-- The entry with its types renamed. -/
def TypeEntry.rename (r : TypeRenaming) (e : TypeEntry) : TypeEntry where
  kind := e.kind.rename r.type r.decl
  layout := e.layout
  verification := r.type e.verification
  stack := r.type e.stack
  reference := e.reference.map r.type

namespace TypeTable

/-- Every lookup in `t` corresponds to one in `t'`. -/
structure Carried (r : TypeRenaming) (t t' : TypeTable) : Prop where
  entry : ∀ id, t'.entry? (r.type id) = (t.entry? id).map (TypeEntry.rename r)
  field : ∀ owner index, Option.Rel (Field.Renamed r.type) (t.field? owner index)
    (t'.field? (r.type owner) index)

variable {ρ ρ' : TypeId → TypeId} {σ : Nat → Nat} {t t' : TypeTable} {id : TypeId} {kind : TypeKind}
  {e : TypeEntry}

theorem rename_congr (hkind : t.MadeBelow t.size kind)
    (hsame : ∀ c : TypeId, c.index < t.size → ρ c = ρ' c) : kind.rename ρ σ = kind.rename ρ' σ := by
  cases kind with
  | primitive p => rfl
  | reference target => simp only [TypeKind.rename, hsame target (madeBelow_reference.mp hkind)]
  | array element length => simp only [TypeKind.rename, hsame element (madeBelow_array.mp hkind)]
  | span element => simp only [TypeKind.rename, hsame element (madeBelow_span.mp hkind)]
  | function params result =>
    obtain ⟨hresult, hparams⟩ := madeBelow_function.mp hkind
    have hmap : params.map ρ = params.map ρ' :=
      List.map_congr_left fun c hc => hsame c (hparams c hc)
    simp only [TypeKind.rename, hsame result hresult, hmap]
  | struct decl => rfl

/-- The renaming of the types of a table, with other ids sent behind the other table. -/
def completed (ρ : TypeId → TypeId) (t t' : TypeTable) (id : TypeId) : TypeId :=
  if t.contains id then ρ id else ⟨t'.size + id.index⟩

theorem completed_of_lt (hid : id.index < t.size) : completed ρ t t' id = ρ id :=
  if_pos (contains_iff.mpr hid)

theorem completed_of_not_lt (hid : ¬ id.index < t.size) :
    completed ρ t t' id = ⟨t'.size + id.index⟩ :=
  if_neg (mt contains_iff.mp hid)

theorem entry?_eq_none (hid : t.size ≤ id.index) : t.entry? id = none :=
  Array.getElem?_eq_none hid

theorem field?_eq_none {index : Nat} (hid : t.size ≤ id.index) : t.field? id index = none := by
  simp [field?, structDecl?, entry?_eq_none hid]

namespace Renamed

variable (h : Renamed ρ σ t t')

include h

theorem lt_size (hid : id.index < t.size) : (ρ id).index < t'.size := by
  obtain ⟨e, he⟩ := exists_entry hid
  obtain ⟨e', he', -⟩ := h.entry he
  exact lt_size_of_found he'

theorem completed_injective : Function.Injective (completed ρ t t') := by
  intro a b hab
  by_cases ha : a.index < t.size <;> by_cases hb : b.index < t.size
  · rw [completed_of_lt ha, completed_of_lt hb] at hab
    exact h.injOn (contains_iff.mpr ha) (contains_iff.mpr hb) hab
  · rw [completed_of_lt ha, completed_of_not_lt hb] at hab
    have hlt := h.lt_size ha
    rw [hab] at hlt
    exact absurd hlt (Nat.not_lt.mpr (Nat.le_add_right _ _))
  · rw [completed_of_not_lt ha, completed_of_lt hb] at hab
    have hlt := h.lt_size hb
    rw [← hab] at hlt
    exact absurd hlt (Nat.not_lt.mpr (Nat.le_add_right _ _))
  · rw [completed_of_not_lt ha, completed_of_not_lt hb, TypeId.mk.injEq] at hab
    obtain ⟨a⟩ := a
    obtain ⟨b⟩ := b
    exact congrArg TypeId.mk (Nat.add_left_cancel hab)

theorem completed_primitive (hcoherent : t.Coherent) (p : Primitive) :
    completed ρ t t' p.id = p.id := by
  rw [completed_of_lt (HasKind.lt_size (hcoherent.primitives p)), h.primitive p]

end Renamed

/-- The renaming, completed. -/
def Renamed.complete (h : Renamed ρ σ t t') (ht : t.Built) : TypeRenaming where
  type := completed ρ t t'
  decl := σ
  injective := h.completed_injective
  primitive := h.completed_primitive ht.coherent

namespace Renamed

variable (h : Renamed ρ σ t t') (ht : t.Built) (ht' : t'.Built)

include h ht ht'

/-- The entry of a type of the table, renamed. -/
theorem entry_complete (he : t.entry? id = some e) :
    t'.entry? (ρ id) = some (e.rename (h.complete ht)) := by
  have hcoherent := ht.coherent
  have hsound := hcoherent.sound he
  have hid := lt_size_of_found he
  have hsame : ∀ c : TypeId, c.index < t.size → ρ c = completed ρ t t' c :=
    fun c hc => (completed_of_lt hc).symm
  obtain ⟨e', he', hkind, hverification, hstack, hreference⟩ := h.entry he
  have hlayout := h.componentLayout_eq ht ht' hid
  rw [componentLayout, componentLayout, he, he'] at hlayout
  rw [rename_congr (hsound.parts.mono (Nat.le_of_lt hid)) hsame] at hkind
  rw [hsame _ hsound.verification.lt_size] at hverification
  rw [hsame _ (hcoherent.stack_lt_size he)] at hstack
  have href : e.reference.map ρ = e.reference.map (completed ρ t t') :=
    Option.map_congr fun ref href => hsame ref (hsound.reference ref href).lt_size
  rw [href] at hreference
  rw [he']
  exact congrArg some (TypeEntry.ext hkind (Except.ok.inj hlayout) hverification hstack hreference)

/-- The fields of a type of the table, renamed. -/
theorem field_complete (he : t.entry? id = some e) (index : Nat) :
    Option.Rel (Field.Renamed (completed ρ t t')) (t.field? id index) (t'.field? (ρ id) index) := by
  have hid := lt_size_of_found he
  obtain ⟨e', he', hkind, -⟩ := h.entry he
  cases hk : e.kind with
  | struct decl =>
    rw [hk] at hkind
    have hlayouts : ∀ c : TypeId, c.index < id.index →
        t'.componentLayout (ρ c) = t.componentLayout c :=
      fun c hc => h.componentLayout_eq ht ht' (hc.trans hid)
    obtain ⟨s, s', hs, hs', hbelow, hfields⟩ := h.fields_renamed ht ht' he hk hlayouts
    have hdecl : t.field? id index = s.fields[index]? := by simp [field?, structDecl?, he, hk, hs]
    have hdecl' : t'.field? (ρ id) index = s'.fields[index]? := by
      simp [field?, structDecl?, he', hkind, TypeKind.rename, hs']
    have hrel := rel_getElem?_of_forall₂ hfields index
    rw [hdecl, hdecl']
    generalize hf : s.fields[index]? = field at hrel ⊢
    generalize s'.fields[index]? = field' at hrel ⊢
    cases hrel with
    | none => exact .none
    | some hfield =>
      have hlt := (hbelow _ (List.mem_of_getElem? hf)).trans hid
      exact .some ⟨hfield.type.trans (completed_of_lt hlt).symm, hfield.offset⟩
  | _ =>
    rw [hk] at hkind
    have hnone : t.field? id index = none := by simp [field?, structDecl?, he, hk]
    have hnone' : t'.field? (ρ id) index = none := by
      simp [field?, structDecl?, he', hkind, TypeKind.rename]
    rw [hnone, hnone']
    exact .none

/-- **A renaming that is completed carries every lookup.** -/
theorem carried : Carried (h.complete ht) t t' where
  entry id := by
    by_cases hid : id.index < t.size
    · obtain ⟨e, he⟩ := exists_entry hid
      show t'.entry? (completed ρ t t' id) = _
      rw [completed_of_lt hid, he, h.entry_complete ht ht' he, Option.map_some]
    · show t'.entry? (completed ρ t t' id) = _
      rw [completed_of_not_lt hid, entry?_eq_none (Nat.le_of_not_lt hid),
        entry?_eq_none (Nat.le_add_right _ _), Option.map_none]
  field owner index := by
    by_cases hid : owner.index < t.size
    · obtain ⟨e, he⟩ := exists_entry hid
      show Option.Rel _ _ (t'.field? (completed ρ t t' owner) index)
      rw [completed_of_lt hid]
      exact h.field_complete ht ht' he index
    · show Option.Rel _ _ (t'.field? (completed ρ t t' owner) index)
      rw [completed_of_not_lt hid, field?_eq_none (Nat.le_of_not_lt hid),
        field?_eq_none (Nat.le_add_right _ _)]
      exact .none

end Renamed

end TypeTable

end StackCode
