import Mathlib.Order.Bounds.Basic
import StackCode.Proofs.Endings
import StackCode.Proofs.Types.Containment

/-!
# Layouts

The layout of a type follows from its kind alone.  An array is its elements one after the other; the
fields of a structure come in the order of their declaration, each at the least offset that suits
its alignment, and the structure is rounded up to the greatest alignment of its fields.  Sizes are
words: a structure is refused exactly if one of the numbers on the way to its layout, computed
without a bound, is none.

Every alignment in a table is 1, 2, 4 or 8, so rounding up can be done with a mask.

## Main definitions

* `Layout.RoundsTo`, `Layout.roundUp`, `Layout.maskUp`: rounding up, as a property, of unbounded
  numbers and of words.
* `TypeTable.Packed`: fields at their least aligned offsets.
* `TypeTable.LaysOut`: the layout of a structure.
* `Layout.demands`, `Layout.Overflows`: the numbers on the way to the layout of a structure.

## Main results

* `TypeTable.Built.wellAligned`: sizes are multiples of alignments.
* `TypeTable.Coherent.declareStruct_cases`: which structures are refused.
-/

namespace StackCode

namespace Layout

/-! ### Rounding up -/

/-- `n` is the least multiple of `align` that is not below `value`. -/
def RoundsTo (value align n : Nat) : Prop := IsLeast {m | align ∣ m ∧ value ≤ m} n

/-- The value rounded up to a multiple of `align`, by way of `value + (align - 1)`. -/
def roundUp (value align : Nat) : Nat := (value + (align - 1)) / align * align

/-- Rounding up words: the bits below the alignment are cleared. -/
def maskUp (value align : UInt32) : UInt32 := (value + (align - 1)) &&& ~~~(align - 1)

variable {value align rounded : Nat}

/-- Rounding up adds less than the alignment. -/
theorem roundUp_le : roundUp value align ≤ value + (align - 1) := Nat.div_mul_le_self _ _

/-- Rounding up gives the least multiple that is not below the number. -/
theorem roundsTo_roundUp (h : 0 < align) : RoundsTo value align (roundUp value align) := by
  have hmod := Nat.mod_lt (value + (align - 1)) h
  have hdiv := Nat.div_add_mod' (value + (align - 1)) align
  refine ⟨⟨Nat.dvd_mul_left _ _, ?_⟩, ?_⟩
  · simp only [roundUp]
    omega
  · rintro m ⟨⟨k, rfl⟩, hle⟩
    have hk : (value + (align - 1)) / align ≤ k := by
      apply Nat.le_of_lt_succ
      rw [Nat.div_lt_iff_lt_mul h, Nat.succ_mul, Nat.mul_comm]
      omega
    rw [roundUp, Nat.mul_comm align]
    exact Nat.mul_le_mul_right align hk

/-- Rounding up in words is exact if the sum on the way is a word. -/
theorem alignUp?_eq_some :
    alignUp? value align = some rounded ↔
      value + (align - 1) < wordLimit ∧ roundUp value align = rounded := by
  unfold alignUp?
  split <;> simp_all [roundUp]

theorem alignUp?_eq_none : alignUp? value align = none ↔ wordLimit ≤ value + (align - 1) := by
  unfold alignUp?
  split <;> simp_all

theorem RoundsTo.of_alignUp? (hpos : 0 < align) (h : alignUp? value align = some rounded) :
    RoundsTo value align rounded := by
  obtain ⟨-, rfl⟩ := alignUp?_eq_some.mp h
  exact roundsTo_roundUp hpos

/-! ### Rounding up with a mask -/

/-- The alignments there are. -/
def IsAlignment (align : Nat) : Prop := align = 1 ∨ align = 2 ∨ align = 4 ∨ align = 8

/-- Clearing the lowest `k` bits is shifting them out. -/
theorem toNat_and_not {word mask : UInt32} {k : Nat}
    (hmask : ∀ i, mask.toNat.testBit i = decide (i < k)) :
    (word &&& ~~~mask).toNat = word.toNat >>> k <<< k := by
  apply Nat.eq_of_testBit_eq
  intro i
  have hnot : (UInt32.size - 1 - mask.toNat).testBit i = (decide (i < 32) && !decide (i < k)) := by
    rw [← hmask, Nat.sub_sub, Nat.add_comm 1]
    exact Nat.testBit_two_pow_sub_succ mask.toNat_lt i
  rw [UInt32.toNat_and, UInt32.toNat_not, Nat.testBit_and, hnot, Nat.testBit_shiftLeft,
    Nat.testBit_shiftRight]
  by_cases hk : i < k
  · simp [hk]
  · by_cases hi : i < 32
    · simp [hi, hk, Nat.add_sub_cancel' (Nat.le_of_not_lt hk), Nat.le_of_not_lt hk]
    · have hword : word.toNat.testBit i = false :=
        Nat.testBit_lt_two_pow (Nat.lt_of_lt_of_le word.toNat_lt
          (Nat.pow_le_pow_right (by decide) (Nat.le_of_not_lt hi)))
      simp [hi, hk, hword, Nat.add_sub_cancel' (Nat.le_of_not_lt hk)]

/-- A mask rounds up to a power of two. -/
theorem toNat_maskUp {value align : UInt32} (k : Nat) (halign : align.toNat = 1 <<< k)
    (hfit : value.toNat + (align.toNat - 1) < wordLimit) :
    (maskUp value align).toNat = roundUp value.toNat align.toNat := by
  rw [Nat.one_shiftLeft] at halign
  have hone : 1 ≤ align := by
    rw [UInt32.le_iff_toNat_le, halign]
    exact Nat.two_pow_pos k
  have hlow : (align - 1).toNat = align.toNat - 1 := UInt32.toNat_sub_of_le align 1 hone
  have hadd : (value + (align - 1)).toNat = value.toNat + (align.toNat - 1) := by
    rw [UInt32.toNat_add, hlow]
    exact Nat.mod_eq_of_lt hfit
  rw [maskUp, toNat_and_not (k := k), hadd, Nat.shiftLeft_eq, Nat.shiftRight_eq_div_pow, roundUp,
    halign]
  intro i
  rw [hlow, halign, Nat.testBit_two_pow_sub_one]

/-- Words are rounded with a mask. -/
theorem alignUp?_toNat {value : UInt32} (halign : IsAlignment align)
    (hfit : value.toNat + (align - 1) < wordLimit) :
    alignUp? value.toNat align = some (maskUp value (.ofNat align)).toNat := by
  refine alignUp?_eq_some.mpr ⟨hfit, Eq.symm ?_⟩
  rcases halign with rfl | rfl | rfl | rfl
  · exact toNat_maskUp 0 rfl hfit
  · exact toNat_maskUp 1 rfl hfit
  · exact toNat_maskUp 2 rfl hfit
  · exact toNat_maskUp 3 rfl hfit

theorem IsAlignment.max {a b : Nat} (ha : IsAlignment a) (hb : IsAlignment b) :
    IsAlignment (Max.max a b) := by
  rcases Nat.le_total a b with h | h
  · rwa [Nat.max_eq_right h]
  · rwa [Nat.max_eq_left h]

/-- The alignment is a small power of two, and the size is a multiple of it. -/
structure WellAligned (l : Layout) : Prop where
  align : IsAlignment l.align
  size : l.align ∣ l.size

/-- The greatest alignment of some layouts, and of `align`. -/
def maxAlign (align : Nat) (layouts : List Layout) : Nat :=
  (layouts.map Layout.align).foldl max align

/-- The largest of some alignments is one. -/
theorem isAlignment_maxAlign {layouts : List Layout} (halign : IsAlignment align)
    (h : ∀ l ∈ layouts, IsAlignment l.align) : IsAlignment (maxAlign align layouts) := by
  induction layouts generalizing align with
  | nil => exact halign
  | cons l ls ih =>
    obtain ⟨hl, hls⟩ := List.forall_mem_cons.mp h
    exact ih (halign.max hl) hls

/-- The numbers on the way to the layout of a structure, from the layouts of its fields.  The fields
before them end at `floor`, and `align` is their greatest alignment.  A field is rounded up to its
offset by way of a larger number, and has an end; the end of the last field is rounded up to the
size. -/
def demands : List Layout → (floor align : Nat) → List Nat
  | [], floor, align => [floor + (align - 1), roundUp floor align]
  | l :: ls, floor, align =>
    let offset := roundUp floor l.align
    (floor + (l.align - 1)) :: offset :: (offset + l.size) ::
      demands ls (offset + l.size) (max align l.align)

/-- A number on the way to the layout of a structure is no word. -/
def Overflows (layouts : List Layout) (floor align : Nat) : Prop :=
  ∃ n ∈ demands layouts floor align, wordLimit ≤ n

theorem overflows_nil {floor : Nat} :
    Overflows [] floor align ↔ wordLimit ≤ floor + (align - 1) := by
  have hround : roundUp floor align ≤ floor + (align - 1) := roundUp_le
  simp only [Overflows, demands, List.mem_cons, List.not_mem_nil, or_false, exists_eq_or_imp,
    exists_eq_left]
  omega

/-- The numbers on the way to a layout, field by field. -/
theorem overflows_cons {l : Layout} {layouts : List Layout} {floor : Nat} :
    Overflows (l :: layouts) floor align ↔
      wordLimit ≤ floor + (l.align - 1) ∨ wordLimit ≤ roundUp floor l.align + l.size ∨
        Overflows layouts (roundUp floor l.align + l.size) (max align l.align) := by
  have hend : wordLimit ≤ roundUp floor l.align → wordLimit ≤ roundUp floor l.align + l.size :=
    Nat.le_add_right_of_le
  simp only [Overflows, demands, List.mem_cons, exists_eq_or_imp]
  tauto

end Layout

namespace TypeTable

open Layout (RoundsTo maxAlign IsAlignment Overflows)

variable {t : TypeTable} {type : TypeId} {layout : Layout} {fields : List Field}
  {layouts : List Layout} {floor finish : Nat}

/-! ### Packed fields -/

/-- Fields of the given layouts stand one after the other from `floor` to `finish`, each at the
least offset that is aligned for it. -/
inductive Packed (t : TypeTable) : (floor : Nat) → List Field → List Layout → (finish : Nat) → Prop
  | nil {floor : Nat} : Packed t floor [] [] floor
  | cons {floor finish : Nat} {f : Field} {fs : List Field} {l : Layout} {ls : List Layout}
      (layout : t.HasLayout f.type l) (offset : RoundsTo floor l.align f.offset)
      (rest : Packed t (f.offset + l.size) fs ls finish) :
      Packed t floor (f :: fs) (l :: ls) finish

namespace Packed

theorem forall₂ (h : t.Packed floor fields layouts finish) :
    List.Forall₂ (fun f l => t.HasLayout f.type l) fields layouts := by
  induction h with
  | nil => exact .nil
  | cons layout _ _ ih => exact .cons layout ih

/-- Packed fields end at the floor or after it. -/
theorem le_finish (h : t.Packed floor fields layouts finish) : floor ≤ finish := by
  induction h with
  | nil => exact Nat.le_refl _
  | cons _ offset _ ih =>
    have hle := offset.1.2
    omega

theorem le_offset (h : t.Packed floor fields layouts finish) : ∀ f ∈ fields, floor ≤ f.offset := by
  induction h with
  | nil => simp
  | cons _ offset _ ih =>
    have hle := offset.1.2
    refine List.forall_mem_cons.mpr ⟨hle, fun g hg => ?_⟩
    have hge := ih g hg
    omega

/-- Offsets are aligned. -/
theorem aligned (h : t.Packed floor fields layouts finish) :
    ∀ f ∈ fields, ∃ l, t.HasLayout f.type l ∧ l.align ∣ f.offset := by
  induction h with
  | nil => simp
  | cons layout offset _ ih => exact List.forall_mem_cons.mpr ⟨⟨_, layout, offset.1.1⟩, ih⟩

/-- A field ends before the next ones start. -/
theorem apart (h : t.Packed floor fields layouts finish) :
    fields.Pairwise fun f g => ∃ l, t.HasLayout f.type l ∧ f.offset + l.size ≤ g.offset := by
  induction h with
  | nil => exact .nil
  | cons layout _ rest ih => exact .cons (fun g hg => ⟨_, layout, rest.le_offset g hg⟩) ih

/-- Packed fields end where the last one does, or before. -/
theorem inside (h : t.Packed floor fields layouts finish) :
    ∀ f ∈ fields, ∃ l, t.HasLayout f.type l ∧ f.offset + l.size ≤ finish := by
  induction h with
  | nil => simp
  | cons layout _ rest ih => exact List.forall_mem_cons.mpr ⟨⟨_, layout, rest.le_finish⟩, ih⟩

end Packed

/-- The two computations over the fields of a structure, which place them and which find their
extent, agree. -/
theorem Coherent.packed (h : t.Coherent) {align align' : Nat}
    (hplaced : t.FieldsPlaced fields floor)
    (hextent : t.extent fields align floor = .ok (align', finish)) :
    ∃ layouts, t.Packed floor fields layouts finish ∧ align' = maxAlign align layouts := by
  induction fields generalizing floor align with
  | nil =>
    cases hextent
    exact ⟨[], .nil, rfl⟩
  | cons f fs ih =>
    obtain ⟨l, hl, hoffset, hrest⟩ := hplaced
    obtain ⟨l', hl', hextent⟩ := bind_eq_ok.mp hextent
    cases hl.symm.trans hl'
    split at hextent
    · obtain ⟨ls, hls, halign⟩ := ih hrest hextent
      have hlayout := componentLayout_eq_ok.mp hl
      exact ⟨l :: ls, .cons hlayout (.of_alignUp? (h.align_pos hlayout) hoffset) hls, halign⟩
    · cases hextent

/-- The layout of a structure: its fields are packed, the alignment is their greatest one, and the
size is the end of the last field, rounded up. -/
structure LaysOut (t : TypeTable) (s : StructDecl) (layout : Layout) : Prop where
  packed : ∃ layouts finish, t.Packed 0 s.fields layouts finish ∧
    layout.align = maxAlign 1 layouts ∧ RoundsTo finish layout.align layout.size
  aligned : ∀ f ∈ s.fields, ∃ l, t.HasLayout f.type l ∧ l.align ∣ f.offset
  apart : s.fields.Pairwise fun f g => ∃ l, t.HasLayout f.type l ∧ f.offset + l.size ≤ g.offset
  inside : ∀ f ∈ s.fields, ∃ l, t.HasLayout f.type l ∧ f.offset + l.size ≤ layout.size

/-- A structure has the layout of its fields. -/
theorem Built.laysOut (h : t.Built) {decl : Nat} (hkind : t.HasKind type (.struct decl))
    (hlayout : t.HasLayout type layout) :
    ∃ s, t.structs[decl]? = some s ∧ t.LaysOut s layout := by
  have hcoherent := h.coherent
  obtain ⟨e, he, hstruct⟩ := hkind
  have hparts := (hcoherent.sound he).parts
  rw [hstruct, madeBelow_struct] at hparts
  obtain ⟨s, hs, -⟩ := hparts
  obtain ⟨hplaced, -⟩ := h.structsPlaced decl s hs
  obtain ⟨finish, hextent, hsize⟩ := hcoherent.extent_eq_ok ⟨e, he, hstruct⟩ hs hlayout
  obtain ⟨layouts, hpacked, halign⟩ := hcoherent.packed hplaced hextent
  have hround := RoundsTo.of_alignUp? (hcoherent.align_pos hlayout) hsize
  refine ⟨s, hs, ⟨layouts, finish, hpacked, halign, hround⟩, hpacked.aligned, hpacked.apart, ?_⟩
  intro f hf
  obtain ⟨l, hl, hle⟩ := hpacked.inside f hf
  exact ⟨l, hl, Nat.le_trans hle hround.1.2⟩

/-- An array has the layout of its elements, one after the other. -/
theorem Coherent.array_layout (h : t.Coherent) {element : TypeId} {length : Nat}
    (hkind : t.HasKind type (.array element length)) (hlayout : t.HasLayout type layout) :
    ∃ inner, t.HasLayout element inner ∧ layout.size = inner.size * length ∧
      layout.align = inner.align := by
  have harray := h.kindLayout_eq hkind hlayout
  obtain ⟨inner, hinner, harray⟩ := bind_eq_ok.mp harray
  split at harray
  · cases harray
    exact ⟨inner, componentLayout_eq_ok.mp hinner, rfl, rfl⟩
  · cases harray

/-- **Sizes are multiples of alignments, which are small powers of two.** -/
theorem Built.wellAligned (h : t.Built) (hlayout : t.HasLayout type layout) :
    layout.WellAligned := by
  have hcoherent := h.coherent
  obtain ⟨i⟩ := type
  induction i using Nat.strongRecOn generalizing layout with
  | ind i ih =>
    obtain ⟨e, he, rfl⟩ := id hlayout
    have hkind : t.HasKind ⟨i⟩ e.kind := ⟨e, he, rfl⟩
    have hkindLayout := (hcoherent.sound he).layout
    have hparts := (hcoherent.sound he).parts
    cases hcase : e.kind with
    | primitive p =>
      rw [hcase] at hkindLayout
      rw [← Except.ok.inj hkindLayout]
      constructor
      · cases p <;> simp [Primitive.layout, IsAlignment]
      · cases p <;> decide
    | array element length =>
      rw [hcase] at hkind hparts
      obtain ⟨inner, hinner, hsize, halign⟩ := hcoherent.array_layout hkind hlayout
      have hwell := ih element.index (madeBelow_array.mp hparts) hinner
      constructor
      · rw [halign]
        exact hwell.align
      · rw [halign, hsize]
        exact Nat.dvd_mul_right_of_dvd hwell.size length
    | struct decl =>
      rw [hcase] at hkind hparts
      obtain ⟨s, hs, hlaysOut⟩ := h.laysOut hkind hlayout
      obtain ⟨layouts, finish, hpacked, halign, hround⟩ := hlaysOut.packed
      obtain ⟨s', hs', hfields⟩ := madeBelow_struct.mp hparts
      cases hs.symm.trans hs'
      refine ⟨?_, hround.1.1⟩
      rw [halign]
      apply Layout.isAlignment_maxAlign (.inl rfl)
      intro l hl
      obtain ⟨f, hf, hfl⟩ := mem_of_forall₂ hpacked.forall₂ hl
      exact (ih f.type.index (hfields f hf) hfl).align
    | _ =>
      rw [hcase] at hkindLayout
      rw [← Except.ok.inj hkindLayout]
      constructor
      · simp [Layout.word, IsAlignment]
      · decide

/-! ### Refused structures -/

variable {declared : List (String × TypeId)}

/-- Fields are placed, and have an extent, unless one of their offsets or ends is no word. -/
theorem placeFields_ends (floor align : Nat)
    (hvalues : ∀ f ∈ declared, f.2.index < t.size ∧ f.2 ≠ .void ∧ f.2 ≠ .null)
    (hlayouts : List.Forall₂ (fun f l => t.HasLayout f.2 l) declared layouts) :
    Ends (fun placed => ∃ align' last, t.extent placed align floor = .ok (align', last) ∧
        (Overflows layouts floor align ↔ wordLimit ≤ last + (align' - 1)))
      (fun e => e = .layoutOverflow ∧ Overflows layouts floor align)
      (t.placeFields declared floor) := by
  induction hlayouts generalizing floor align with
  | nil => exact .ok ⟨align, floor, rfl, Layout.overflows_nil⟩
  | @cons f l fs ls hlayout _ ih =>
    obtain ⟨hf, hfs⟩ := List.forall_mem_cons.mp hvalues
    have hcomponent := componentLayout_eq_ok.mpr hlayout
    refine .bind (.of_eq_ok (checkValue_eq_ok.mpr hf) trivial) fun _ (_ : True) => ?_
    refine .bind (.of_eq_ok hcomponent rfl) fun _ hl => ?_
    subst hl
    rw [Layout.overflows_cons]
    split
    · next hoffset => exact .error ⟨rfl, .inl (Layout.alignUp?_eq_none.mp hoffset)⟩
    next hoffset =>
    obtain ⟨hfit, rfl⟩ := Layout.alignUp?_eq_some.mp hoffset
    split
    · next hend =>
      refine .bind (.mono (ih _ _ hfs) (fun _ h => h) fun e he => ⟨he.1, .inr (.inr he.2)⟩) ?_
      rintro placed ⟨align', last, hextent, hiff⟩
      refine .pure ⟨align', last, ?_, ?_⟩
      · rw [extent, hcomponent]
        exact (if_pos hend).trans hextent
      · rw [← hiff]
        simp [Nat.not_le.mpr hfit, Nat.not_le.mpr hend]
    · next hend => exact .error ⟨rfl, .inr (.inl (Nat.le_of_not_lt hend))⟩

theorem any_name_eq_false {name : String} (hname : ∀ s ∈ t.structs, s.name ≠ name) :
    (t.structs.toList.any fun s => s.name = name) = false := by
  rw [List.any_eq_false]
  intro s hs
  simpa using hname s (Array.mem_toList_iff.mp hs)

section Declared

variable (h : t.Coherent) {name : String} {placed : List Field}
  (hname : ∀ s ∈ t.structs, s.name ≠ name) (hplaced : t.placeFields declared 0 = .ok placed)

include h hname hplaced

/-- The declaration of a structure without a layout stays behind. -/
theorem Coherent.declareStruct_of_error {e : TypeError}
    (hlayout : TypeTable.kindLayout { t with structs := t.structs.push ⟨name, placed⟩ }
      (.struct t.structs.size) = .error e) :
    t.declareStruct name declared =
      ({ t with structs := t.structs.push ⟨name, placed⟩ }, .error e) := by
  have hnew : TypeTable.find? { t with structs := t.structs.push ⟨name, placed⟩ }
      (.struct t.structs.size) = none := h.find?_struct_eq_none (Nat.le_refl _)
  simp only [declareStruct, any_name_eq_false hname, hplaced, Bool.false_eq_true, if_false,
    TypeTable.intern, hnew, hlayout]

/-- A structure with a layout brings itself and its reference. -/
theorem Coherent.declareStruct_of_ok {layout : Layout}
    (hlayout : TypeTable.kindLayout { t with structs := t.structs.push ⟨name, placed⟩ }
      (.struct t.structs.size) = .ok layout) :
    (t.declareStruct name declared).2 = .ok ⟨t.size⟩ ∧
      (t.declareStruct name declared).1.size = t.size + 2 := by
  have hfields : ∀ f ∈ placed, f.type.index < t.size := lt_size_of_placeFields hplaced
  have hkind : Formed { t with structs := t.structs.push ⟨name, placed⟩ }
      (.struct t.structs.size) :=
    ⟨rfl, rfl, madeBelow_struct.mpr ⟨_, Array.getElem?_push_size, hfields⟩⟩
  have hnew : TypeTable.find? { t with structs := t.structs.push ⟨name, placed⟩ }
      (.struct t.structs.size) = none := h.find?_struct_eq_none (Nat.le_refl _)
  simp only [declareStruct, any_name_eq_false hname, hplaced, Bool.false_eq_true, if_false,
    intern_of_normal (h.declare ⟨name, placed⟩).1 hkind hnew hlayout rfl, size_add]
  exact ⟨rfl, rfl⟩

/-- A structure with placed fields is interned as soon as it has a layout. -/
theorem Coherent.declareStruct_eq :
    (t.declareStruct name declared).2 =
      (TypeTable.kindLayout { t with structs := t.structs.push ⟨name, placed⟩ }
        (.struct t.structs.size)).map fun _ => ⟨t.size⟩ := by
  cases hlayout : TypeTable.kindLayout { t with structs := t.structs.push ⟨name, placed⟩ }
      (.struct t.structs.size) with
  | error e => exact congrArg Prod.snd (h.declareStruct_of_error hname hplaced hlayout)
  | ok layout => exact (h.declareStruct_of_ok hname hplaced hlayout).1

end Declared

/-- **A structure is refused exactly if its layout overflows.**  Otherwise it brings two types. -/
theorem Coherent.declareStruct_cases (h : t.Coherent) {name : String}
    (hname : ∀ s ∈ t.structs, s.name ≠ name)
    (hvalues : ∀ f ∈ declared, f.2.index < t.size ∧ f.2 ≠ .void ∧ f.2 ≠ .null)
    (hlayouts : List.Forall₂ (fun f l => t.HasLayout f.2 l) declared layouts) :
    ((t.declareStruct name declared).2 = .ok ⟨t.size⟩ ∧
      (t.declareStruct name declared).1.size = t.size + 2 ∧ ¬ Overflows layouts 0 1) ∨
    ((t.declareStruct name declared).2 = .error .layoutOverflow ∧
      (t.declareStruct name declared).1.size = t.size ∧ Overflows layouts 0 1) := by
  have hends := placeFields_ends 0 1 hvalues hlayouts
  cases hplaced : t.placeFields declared 0 with
  | error e =>
    obtain ⟨rfl, hover⟩ := hends.cause hplaced
    refine .inr ?_
    simp only [declareStruct, any_name_eq_false hname, hplaced, Bool.false_eq_true, if_false]
    exact ⟨trivial, trivial, hover⟩
  | ok placed =>
    obtain ⟨align, last, hextent, hiff⟩ := hends.result hplaced
    rw [← (h.declare ⟨name, placed⟩).2.extent_eq (lt_size_of_placeFields hplaced)] at hextent
    cases hround : Layout.alignUp? last align with
    | none =>
      have hlayout : TypeTable.kindLayout { t with structs := t.structs.push ⟨name, placed⟩ }
          (.struct t.structs.size) = .error .layoutOverflow := by
        simp only [kindLayout, Array.getElem?_push_size, hextent, bind, Except.bind, hround]
      rw [h.declareStruct_of_error hname hplaced hlayout]
      exact .inr ⟨rfl, rfl, hiff.mpr (Layout.alignUp?_eq_none.mp hround)⟩
    | some size =>
      have hlayout : TypeTable.kindLayout { t with structs := t.structs.push ⟨name, placed⟩ }
          (.struct t.structs.size) = .ok ⟨size, align⟩ := by
        simp only [kindLayout, Array.getElem?_push_size, hextent, bind, Except.bind, hround]
      obtain ⟨hanswer, hsize⟩ := h.declareStruct_of_ok hname hplaced hlayout
      refine .inl ⟨hanswer, hsize, fun hover => ?_⟩
      exact Nat.not_le.mpr (Layout.alignUp?_eq_some.mp hround).1 (hiff.mp hover)

end TypeTable

end StackCode
