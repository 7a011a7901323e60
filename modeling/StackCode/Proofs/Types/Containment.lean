import StackCode.Proofs.Types.Classes
import StackCode.Proofs.Types.Placed

/-!
# Fields inside their structure

The fields of a structure lie inside it: placement moves forward only, as every alignment is
positive, and a structure ends where its last field ends, or later.

## Main definitions

* `TypeTable.HasSize`: the size of a type.

## Main results

* `TypeTable.Coherent.align_pos`: alignments are positive.
* `TypeTable.Built.field_contained`: a field ends inside its structure.
-/

namespace StackCode

theorem Layout.le_of_alignUp? {value align rounded : Nat} (hpos : 0 < align)
    (h : Layout.alignUp? value align = some rounded) : value ≤ rounded := by
  unfold alignUp? at h
  split at h
  · cases h
    have hdiv := Nat.div_add_mod (value + (align - 1)) align
    have hmod := Nat.mod_lt (value + (align - 1)) hpos
    rw [Nat.mul_comm] at hdiv
    omega
  · cases h

namespace TypeTable

variable {t : TypeTable} {type : TypeId} {layout : Layout} {fields : List Field}

/-- The table has the type, and its values take `size` bytes. -/
def HasSize (t : TypeTable) (type : TypeId) (size : Nat) : Prop :=
  ∃ layout, t.HasLayout type layout ∧ layout.size = size

theorem HasLayout.unique {layout' : Layout} (h : t.HasLayout type layout)
    (h' : t.HasLayout type layout') : layout = layout' := by
  obtain ⟨e, he, rfl⟩ := h
  obtain ⟨e', he', rfl⟩ := h'
  rw [Option.some.inj (he.symm.trans he')]

theorem componentLayout_eq_ok : t.componentLayout type = .ok layout ↔ t.HasLayout type layout := by
  unfold componentLayout HasLayout
  cases t.entry? type <;> simp

theorem Coherent.kindLayout_eq (h : t.Coherent) {kind : TypeKind} (hkind : t.HasKind type kind)
    (hlayout : t.HasLayout type layout) : t.kindLayout kind = .ok layout := by
  rw [← h.componentLayout_eq hkind]
  exact componentLayout_eq_ok.mpr hlayout

theorem le_align_of_extent {align last align' last' : Nat}
    (h : t.extent fields align last = .ok (align', last')) : align ≤ align' := by
  induction fields generalizing align last with
  | nil =>
    cases h
    exact Nat.le_refl _
  | cons f fs ih =>
    obtain ⟨l, -, h⟩ := bind_eq_ok.mp h
    split at h
    · exact Nat.le_trans (Nat.le_max_left _ _) (ih h)
    · cases h

/-- The layout of a structure comes from the extent of its fields. -/
theorem Coherent.extent_eq_ok (h : t.Coherent) {decl : Nat} {s : StructDecl}
    (hkind : t.HasKind type (.struct decl)) (hs : t.structs[decl]? = some s)
    (hlayout : t.HasLayout type layout) :
    ∃ last, t.extent s.fields 1 0 = .ok (layout.align, last) ∧
      Layout.alignUp? last layout.align = some layout.size := by
  have hstruct := h.kindLayout_eq hkind hlayout
  simp only [kindLayout, hs] at hstruct
  obtain ⟨⟨align, last⟩, hextent, hstruct⟩ := bind_eq_ok.mp hstruct
  split at hstruct
  · rename_i size hsize
    cases hstruct
    exact ⟨last, hextent, hsize⟩
  · cases hstruct

/-- **Alignments are positive.**  An array is aligned as its elements, which are of an older type.
-/
theorem Coherent.align_pos (h : t.Coherent) (hlayout : t.HasLayout type layout) :
    0 < layout.align := by
  obtain ⟨i⟩ := type
  induction i using Nat.strongRecOn generalizing layout with
  | ind i ih =>
    obtain ⟨e, he, rfl⟩ := hlayout
    have hkindLayout := (h.sound he).layout
    have hparts := (h.sound he).parts
    cases hkind : e.kind with
    | primitive p =>
      rw [hkind] at hkindLayout
      rw [← Except.ok.inj hkindLayout]
      cases p <;> decide
    | array element length =>
      rw [hkind] at hkindLayout hparts
      obtain ⟨l, hl, hkindLayout⟩ := bind_eq_ok.mp hkindLayout
      have hpos := ih element.index (madeBelow_array.mp hparts) (componentLayout_eq_ok.mp hl)
      split at hkindLayout
      · rw [← Except.ok.inj hkindLayout]
        exact hpos
      · cases hkindLayout
    | struct decl =>
      cases hs : t.structs[decl]? with
      | none =>
        rw [hkind, kindLayout, hs] at hkindLayout
        cases hkindLayout
      | some s =>
        obtain ⟨last, hextent, -⟩ := h.extent_eq_ok ⟨e, he, hkind⟩ hs ⟨e, he, rfl⟩
        exact le_align_of_extent hextent
    | _ =>
      rw [hkind] at hkindLayout
      rw [← Except.ok.inj hkindLayout]
      decide

/-- Placed fields end before their extent does. -/
theorem FieldsPlaced.end_le {offset align align' last : Nat}
    (hplaced : t.FieldsPlaced fields offset)
    (hpos : ∀ f ∈ fields, ∀ l, t.componentLayout f.type = .ok l → 0 < l.align)
    (h : t.extent fields align offset = .ok (align', last)) :
    offset ≤ last ∧
      ∀ f ∈ fields, ∀ l, t.componentLayout f.type = .ok l → f.offset + l.size ≤ last := by
  induction fields generalizing offset align with
  | nil =>
    cases h
    exact ⟨Nat.le_refl _, List.forall_mem_nil _⟩
  | cons f fs ih =>
    obtain ⟨hf, hfs⟩ := List.forall_mem_cons.mp hpos
    obtain ⟨l, hl, halign, hrest⟩ := hplaced
    obtain ⟨l', hl', h⟩ := bind_eq_ok.mp h
    cases hl.symm.trans hl'
    split at h
    · obtain ⟨hend, hends⟩ := ih hrest hfs h
      refine ⟨?_, List.forall_mem_cons.mpr ⟨fun l' hl' => ?_, hends⟩⟩
      · have hle := Layout.le_of_alignUp? (hf l hl) halign
        omega
      · cases hl.symm.trans hl'
        exact hend
    · cases h

theorem field?_eq_some {owner : TypeId} {index : Nat} {field : Field}
    (h : t.field? owner index = some field) :
    ∃ decl s, t.HasKind owner (.struct decl) ∧ t.structs[decl]? = some s ∧ field ∈ s.fields := by
  obtain ⟨s, hs, hfield⟩ := Option.bind_eq_some_iff.mp h
  obtain ⟨e, he, hs⟩ := Option.bind_eq_some_iff.mp hs
  split at hs
  · rename_i decl hkind
    exact ⟨decl, s, ⟨e, he, hkind⟩, hs, List.mem_of_getElem? hfield⟩
  · cases hs

/-- **A field ends inside its structure.**  It ends where the last one does or before, and the size
is rounded up from there. -/
theorem Built.field_contained (h : t.Built) {owner : TypeId} {index : Nat} {field : Field}
    (hfield : t.field? owner index = some field) :
    ∃ inner outer, t.HasSize field.type inner ∧ t.HasSize owner outer ∧
      field.offset + inner ≤ outer := by
  have hcoherent := h.coherent
  obtain ⟨decl, s, hkind, hs, hmem⟩ := field?_eq_some hfield
  obtain ⟨hplaced, hknown⟩ := h.structsPlaced decl s hs
  obtain ⟨inner, hinner⟩ := exists_hasLayout (hknown field hmem)
  obtain ⟨outer, houter⟩ := exists_hasLayout hkind.lt_size
  obtain ⟨last, hextent, hsize⟩ := hcoherent.extent_eq_ok hkind hs houter
  have hpos : ∀ f ∈ s.fields, ∀ l, t.componentLayout f.type = .ok l → 0 < l.align :=
    fun f _ l hl => hcoherent.align_pos (componentLayout_eq_ok.mp hl)
  obtain ⟨-, hends⟩ := hplaced.end_le hpos hextent
  refine ⟨inner.size, outer.size, ⟨inner, hinner, rfl⟩, ⟨outer, houter, rfl⟩, ?_⟩
  exact Nat.le_trans (hends field hmem inner (componentLayout_eq_ok.mpr hinner))
    (Layout.le_of_alignUp? (hcoherent.align_pos houter) hsize)

end TypeTable

end StackCode
