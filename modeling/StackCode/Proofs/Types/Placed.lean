import StackCode.Proofs.Types.Canonical

/-!
# Placed fields

The fields of a structure stand one after the other, each at the least offset that is aligned for
its type.  The layouts of the types of the fields are fixed when the structure is declared, so this
can be read off the finished table.  The offsets then follow from the types of the fields.

## Main definitions

* `TypeTable.FieldsPlaced`: fields that stand one after the other.

## Main results

* `TypeTable.Built.fields_induct`: what holds of the fields of every structure.
* `TypeTable.Built.structsPlaced`: the fields of every structure stand one after the other.
* `TypeTable.Built.value_of_mem`: the fields of every structure have values that can be stored.
-/

namespace StackCode

namespace TypeTable

variable {t u : TypeTable} {kind : TypeKind} {fields : List Field} {offset : Nat}

/-! ### Structures are declared only -/

@[simp] theorem structs_internNormalReference (t : TypeTable) (target : TypeId) :
    (t.internNormalReference target).1.structs = t.structs := by
  unfold internNormalReference
  split <;> rfl

@[simp] theorem structs_internReference (t : TypeTable) (target : TypeId) :
    (t.internReference target).1.structs = t.structs := by
  unfold internReference
  split
  · rfl
  · dsimp only
    split
    · rfl
    · exact structs_internNormalReference _ _

@[simp] theorem structs_addReference (t : TypeTable) (type : TypeId) :
    (t.addReference type).structs = t.structs :=
  structs_internReference t type

@[simp] theorem structs_internNormal (t : TypeTable) (kind : TypeKind) :
    (t.internNormal kind).1.structs = t.structs := by
  unfold internNormal
  split
  · rfl
  · split
    · rfl
    · exact structs_addReference _ _

@[simp] theorem structs_intern (t : TypeTable) (kind : TypeKind) :
    (t.intern kind).1.structs = t.structs := by
  unfold intern
  split
  · rfl
  split
  · rfl
  dsimp only
  split
  · exact structs_addReference _ _
  rename_i layout _ _
  have hnormal := structs_internNormal (t.push kind layout).1
    ((t.push kind layout).1.normalize kind)
  split
  · rename_i hfail
    rw [hfail] at hnormal
    exact hnormal
  · rename_i hok
    rw [hok] at hnormal
    exact (structs_addReference _ _).trans hnormal

/-! ### Placed fields -/

/-- The fields stand one after the other from `offset` on, each at the least aligned offset. -/
def FieldsPlaced (t : TypeTable) : List Field → (offset : Nat) → Prop
  | [], _ => True
  | f :: fs, offset => ∃ layout, t.componentLayout f.type = .ok layout ∧
      Layout.alignUp? offset layout.align = some f.offset ∧
      t.FieldsPlaced fs (f.offset + layout.size)

theorem FieldsPlaced.extends (h : t.FieldsPlaced fields offset) (hext : Extends t u)
    (hfields : ∀ f ∈ fields, f.type.index < t.size) : u.FieldsPlaced fields offset := by
  induction fields generalizing offset with
  | nil => trivial
  | cons f fs ih =>
    obtain ⟨hf, hfs⟩ := List.forall_mem_cons.mp hfields
    obtain ⟨layout, hlayout, halign, hrest⟩ := h
    exact ⟨layout, (hext.componentLayout_eq hf).trans hlayout, halign, ih hrest hfs⟩

/-- What the operation that places fields does. -/
theorem fieldsPlaced_of_placeFields {declared : List (String × TypeId)}
    (h : t.placeFields declared offset = .ok fields) : t.FieldsPlaced fields offset := by
  induction declared generalizing offset fields with
  | nil =>
    cases h
    trivial
  | cons field declared ih =>
    obtain ⟨name, type⟩ := field
    obtain ⟨⟨⟩, -, h⟩ := bind_eq_ok.mp h
    obtain ⟨layout, hlayout, h⟩ := bind_eq_ok.mp h
    split at h
    · cases h
    rename_i next hnext
    split at h
    · obtain ⟨rest, hrest, h⟩ := bind_eq_ok.mp h
      cases h
      exact ⟨layout, hlayout, hnext, ih hrest⟩
    · cases h

/-- The fields of every declared structure are placed, and have types of the table. -/
def StructsPlaced (t : TypeTable) : Prop :=
  ∀ (decl : Nat) (s : StructDecl), t.structs[decl]? = some s →
    t.FieldsPlaced s.fields 0 ∧ ∀ f ∈ s.fields, f.type.index < t.size

theorem Extends.size_le (h : Extends t u) : t.size ≤ u.size := by
  refine Nat.le_of_not_lt fun hlt => ?_
  obtain ⟨e, he⟩ : ∃ e, t.entry? ⟨u.size⟩ = some e := exists_entry hlt
  exact Nat.lt_irrefl _ (lt_size_of_found (h.entry he))

theorem structs_initial : initial.structs = #[] := rfl

/-- What holds of fields when they are placed, and still holds when the table has grown, holds of
the fields of every structure of a table built by its operations.  An operation other than a
declaration leaves the structures as they are. -/
theorem Built.fields_induct {P : TypeTable → List Field → Prop}
    (hplace : ∀ {t : TypeTable} {declared : List (String × TypeId)} {fields : List Field},
      t.placeFields declared 0 = .ok fields → P t fields)
    (hgrow : ∀ {t u : TypeTable} {fields : List Field}, Extends t u → P t fields → P u fields)
    (h : t.Built) : ∀ (decl : Nat) (s : StructDecl), t.structs[decl]? = some s → P t s.fields := by
  have hkeep {t u : TypeTable} (hext : Extends t u) (hstructs : u.structs = t.structs)
      (ih : ∀ (decl : Nat) (s : StructDecl), t.structs[decl]? = some s → P t s.fields)
      (decl : Nat) (s : StructDecl) (hs : u.structs[decl]? = some s) : P u s.fields :=
    hgrow hext (ih decl s (hstructs ▸ hs))
  induction h with
  | initial =>
    intro decl s hs
    rw [structs_initial] at hs
    cases hs
  | reference ht target ih =>
    refine hkeep (ht.coherent.run (.reference target)).2 ?_ ih
    dsimp only [Request.run, TypeTable.reference]
    split
    · rfl
    · exact structs_internReference _ _
  | array ht element length ih =>
    refine hkeep (ht.coherent.run (.array element length)).2 ?_ ih
    dsimp only [Request.run, TypeTable.array]
    split
    · rfl
    · exact structs_intern _ _
  | span ht element ih =>
    refine hkeep (ht.coherent.run (.span element)).2 ?_ ih
    dsimp only [Request.run, TypeTable.span]
    split
    · rfl
    · exact structs_intern _ _
  | function ht params result ih =>
    refine hkeep (ht.coherent.run (.function params result)).2 ?_ ih
    dsimp only [Request.run, TypeTable.function]
    split
    · rfl
    · exact structs_intern _ _
  | declareStruct ht name fields ih =>
    have hext := (ht.coherent.run (.declareStruct name fields)).2
    dsimp only [Request.run, TypeTable.declareStruct] at hext ⊢
    split
    · exact ih
    · split
      · exact ih
      · rename_i hname _ placed hplaced
        rw [if_neg hname, hplaced] at hext
        intro decl s hs
        rw [structs_intern, Array.getElem?_push] at hs
        split at hs
        · cases hs
          exact hgrow hext (hplace hplaced)
        · exact hgrow hext (ih decl s hs)

/-- **The fields of every structure are placed**, in a table built by its operations. -/
theorem Built.structsPlaced (h : t.Built) : t.StructsPlaced := by
  refine h.fields_induct (P := fun t fields => t.FieldsPlaced fields 0 ∧
    ∀ f ∈ fields, f.type.index < t.size) (fun hplaced => ?_) fun hext hfields => ?_
  · exact ⟨fieldsPlaced_of_placeFields hplaced, lt_size_of_placeFields hplaced⟩
  · exact ⟨hfields.1.extends hext hfields.2,
      fun f hf => Nat.lt_of_lt_of_le (hfields.2 f hf) hext.size_le⟩

/-- **The fields of every structure have values that can be stored.** -/
theorem Built.value_of_mem (h : t.Built) {decl : Nat} {s : StructDecl} {f : Field}
    (hs : t.structs[decl]? = some s) (hf : f ∈ s.fields) : f.type ≠ .void ∧ f.type ≠ .null := by
  refine h.fields_induct (P := fun _ fields => ∀ f ∈ fields, f.type ≠ .void ∧ f.type ≠ .null)
    (fun hplaced f hf => ?_) (fun _ hfields => hfields) decl s hs f hf
  exact (value_of_placeFields hplaced f hf).2

end TypeTable

end StackCode
