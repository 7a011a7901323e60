import StackCode.Proofs.Types.Classes
import StackCode.Proofs.Types.Towers

/-!
# Verification types are normal forms

A type can be written out as a tree: its kind, with each component written out in turn, down to
primitives and declared structures.  Two ids with one tree are one id.  Verification does not tell
integers of one width apart, wherever they stand in a type, which is a function on trees.  The table
does not compute it on trees: it takes each class from the classes of the components, when the type
is interned.  The two agree, whatever the order in which types came into the table, as long as there
are ids left; a type that has taken the last id may have to do without its class.

## Main definitions

* `TypeTree`, `TypeTree.norm`: types written out, and their normal forms.
* `TypeTable.tree`: the tree of an id.

## Main results

* `TypeTable.Coherent.tree_standIn`: the tree of a class is the normal form of the tree.
* `TypeTable.Coherent.eq_of_tree_eq`: the tree of a type determines its id.
* `TypeTable.classes_are_normal_forms`: the laws of classes and stack types.
* `TypeTable.unfinished_array_stands_for_itself`: an array that has taken the last id.
-/

namespace StackCode

/-- A type written out. -/
inductive TypeTree where
  | primitive (p : Primitive)
  | reference (target : TypeTree)
  | array (element : TypeTree) (length : Nat)
  | span (element : TypeTree)
  | function (params : List TypeTree) (result : TypeTree)
  | struct (decl : Nat)
  /-- An id without a type. -/
  | dangling (type : TypeId)

/-- The tree with integers of one width made the same.  Structures are left alone. -/
def TypeTree.norm : TypeTree → TypeTree
  | primitive .bool | primitive .int8 | primitive .uint8 => primitive .int8
  | primitive .int16 | primitive .uint16 => primitive .int16
  | primitive .int32 | primitive .uint32 => primitive .int32
  | primitive .int64 | primitive .uint64 => primitive .int64
  | primitive p => primitive p
  | reference target => reference target.norm
  | array element length => array element.norm length
  | span element => span element.norm
  | function params result => function (params.map norm) result.norm
  | struct decl => struct decl
  | dangling type => dangling type

/-- The tree of a kind, given the trees of its components. -/
def TypeKind.unfold (tree : TypeId → TypeTree) : TypeKind → TypeTree
  | primitive p => .primitive p
  | reference target => .reference (tree target)
  | array element length => .array (tree element) length
  | span element => .span (tree element)
  | function params result => .function (params.map tree) (tree result)
  | struct decl => .struct decl

namespace TypeTable

variable {t : TypeTable} {type : TypeId} {kind : TypeKind}

/-- The tree of a type.  The components of a type are older than the type itself. -/
def tree (t : TypeTable) (type : TypeId) : TypeTree :=
  match t.entry? type with
  | none => .dangling type
  | some e => e.kind.unfold fun c => if c.index < type.index then t.tree c else .dangling c
termination_by type.index

theorem tree_of_none (h : t.entry? type = none) : t.tree type = .dangling type := by
  rw [tree, h]

/-- Trees of kinds agree if the trees of their components do. -/
theorem unfold_congr {bound : Nat} (hkind : t.MadeBelow bound kind) {f g : TypeId → TypeTree}
    (h : ∀ c : TypeId, c.index < bound → f c = g c) : kind.unfold f = kind.unfold g := by
  cases kind with
  | reference target => rw [TypeKind.unfold, TypeKind.unfold, h _ (madeBelow_reference.mp hkind)]
  | array element length => rw [TypeKind.unfold, TypeKind.unfold, h _ (madeBelow_array.mp hkind)]
  | span element => rw [TypeKind.unfold, TypeKind.unfold, h _ (madeBelow_span.mp hkind)]
  | function params result =>
    obtain ⟨hresult, hparams⟩ := madeBelow_function.mp hkind
    rw [TypeKind.unfold, TypeKind.unfold, h _ hresult,
      List.map_congr_left fun c hc => h c (hparams c hc)]
  | primitive p => rfl
  | struct decl => rfl

/-- A type that is made of older types has the tree of its kind. -/
theorem tree_of_madeBelow (hkind : t.HasKind type kind) (hparts : t.MadeBelow type.index kind) :
    t.tree type = kind.unfold t.tree := by
  obtain ⟨e, he, rfl⟩ := hkind
  rw [tree, he]
  exact unfold_congr hparts fun c hc => if_pos hc

/-- Lists with one image are one list if the function determines the elements. -/
theorem eq_of_map_eq {α β : Type} {f : α → β} {l l' : List α}
    (hf : ∀ a ∈ l, ∀ b, f a = f b → a = b) (h : l.map f = l'.map f) : l = l' := by
  induction l generalizing l' with
  | nil =>
    symm
    simpa using h
  | cons a l ih =>
    cases l' with
    | nil => simp at h
    | cons b l' =>
      rw [List.map_cons, List.map_cons, List.cons.injEq] at h
      obtain ⟨ha, hl⟩ := List.forall_mem_cons.mp hf
      rw [ha b h.1, ih hl h.2]

/-- Kinds with one tree are one kind if their components are determined by their trees. -/
theorem eq_of_unfold_eq {bound : Nat} (hkind : t.MadeBelow bound kind) {f : TypeId → TypeTree}
    (hf : ∀ c : TypeId, c.index < bound → ∀ d : TypeId, f c = f d → c = d) {kind' : TypeKind}
    (h : kind.unfold f = kind'.unfold f) : kind = kind' := by
  cases kind with
  | primitive p => cases kind' <;> simp_all [TypeKind.unfold]
  | reference target =>
    cases kind' <;> simp only [TypeKind.unfold, TypeTree.reference.injEq, reduceCtorEq] at h
    rw [hf _ (madeBelow_reference.mp hkind) _ h]
  | array element length =>
    cases kind' <;> simp only [TypeKind.unfold, TypeTree.array.injEq, reduceCtorEq] at h
    rw [hf _ (madeBelow_array.mp hkind) _ h.1, h.2]
  | span element =>
    cases kind' <;> simp only [TypeKind.unfold, TypeTree.span.injEq, reduceCtorEq] at h
    rw [hf _ (madeBelow_span.mp hkind) _ h]
  | function params result =>
    cases kind' <;> simp only [TypeKind.unfold, TypeTree.function.injEq, reduceCtorEq] at h
    obtain ⟨hresult, hparams⟩ := madeBelow_function.mp hkind
    rw [eq_of_map_eq (fun c hc => hf c (hparams c hc)) h.1, hf _ hresult _ h.2]
  | struct decl => cases kind' <;> simp_all [TypeKind.unfold]

/-- Normalizing a kind normalizes its tree if the classes of its components have normal trees. -/
theorem unfold_normalForm {bound : Nat} (hkind : t.MadeBelow bound kind)
    (h : ∀ c : TypeId, c.index < bound → t.tree (t.standIn c) = (t.tree c).norm) :
    (t.normalForm kind).unfold t.tree = (kind.unfold t.tree).norm := by
  cases kind with
  | primitive p =>
    cases p <;> simp [normalForm, Primitive.verification, TypeKind.unfold, TypeTree.norm]
  | reference target =>
    simp [normalForm, normalize, TypeKind.unfold, TypeTree.norm, h _ (madeBelow_reference.mp hkind)]
  | array element length =>
    simp [normalForm, normalize, TypeKind.unfold, TypeTree.norm, h _ (madeBelow_array.mp hkind)]
  | span element =>
    simp [normalForm, normalize, TypeKind.unfold, TypeTree.norm, h _ (madeBelow_span.mp hkind)]
  | function params result =>
    obtain ⟨hresult, hparams⟩ := madeBelow_function.mp hkind
    simpa [normalForm, normalize, TypeKind.unfold, TypeTree.norm, h _ hresult] using
      fun c hc => h c (hparams c hc)
  | struct decl => simp [normalForm, normalize, TypeKind.unfold, TypeTree.norm]

namespace Coherent

/-- The tree of a type is the tree of its kind. -/
theorem tree_eq (h : t.Coherent) (hkind : t.HasKind type kind) :
    t.tree type = kind.unfold t.tree := by
  obtain ⟨e, he, rfl⟩ := hkind
  exact tree_of_madeBelow ⟨e, he, rfl⟩ (h.sound he).parts

/-- **The tree of a class is the normal form of the tree.** -/
theorem tree_standIn (h : t.Coherent) (type : TypeId) :
    t.tree (t.standIn type) = (t.tree type).norm := by
  obtain ⟨i⟩ := type
  induction i using Nat.strongRecOn with
  | ind i ih =>
    cases he : t.entry? ⟨i⟩ with
    | none => simp [standIn, he, tree_of_none he, TypeTree.norm]
    | some e =>
      have hkind : t.HasKind ⟨i⟩ e.kind := ⟨e, he, rfl⟩
      rw [h.tree_eq hkind, h.tree_eq (h.hasKind_standIn hkind)]
      exact unfold_normalForm (h.sound he).parts fun c hc => ih c.index hc

/-- **The tree of a type determines its id.** -/
theorem eq_of_tree_eq (h : t.Coherent) {a b : TypeId} (htree : t.tree a = t.tree b) : a = b := by
  obtain ⟨i⟩ := a
  induction i using Nat.strongRecOn generalizing b with
  | ind i ih =>
    cases ha : t.entry? ⟨i⟩ with
    | none =>
      rw [tree_of_none ha] at htree
      cases hb : t.entry? b with
      | none => simpa [tree_of_none hb] using htree
      | some e =>
        rw [h.tree_eq ⟨e, hb, rfl⟩] at htree
        cases hk : e.kind <;> simp [hk, TypeKind.unfold] at htree
    | some e =>
      have hkind : t.HasKind ⟨i⟩ e.kind := ⟨e, ha, rfl⟩
      rw [h.tree_eq hkind] at htree
      cases hb : t.entry? b with
      | none =>
        rw [tree_of_none hb] at htree
        cases hk : e.kind <;> simp [hk, TypeKind.unfold] at htree
      | some e' =>
        have hkind' : t.HasKind b e'.kind := ⟨e', hb, rfl⟩
        rw [h.tree_eq hkind'] at htree
        have hsame := eq_of_unfold_eq (h.sound ha).parts (fun c hc d hcd => ih c.index hc hcd) htree
        exact h.indexed.unique hkind (hsame ▸ hkind')

end Coherent

/-! ## The laws of classes -/

/-- What verification makes of the type `a`: its class `standIn` and its stack type `stack`. -/
structure ClassLaws (ε : Type) (t : TypeTable) (a standIn stack : TypeId) : Prop where
  verificationType_eq : (t.verificationType a : Checked ε _) = .ok standIn
  stackType_eq : (t.stackType a : Checked ε _) = .ok stack
  /-- The tree is the kind with the trees of its components. -/
  tree_unfolds : ∀ kind, (t.kind a : Checked ε _) = .ok kind → t.tree a = kind.unfold t.tree
  tree_class : t.tree standIn = (t.tree a).norm
  class_class : (t.verificationType standIn : Checked ε _) = .ok standIn
  class_reference : ∀ ref, t.referenceTo? a = some ref →
    ∃ normal, (t.verificationType ref : Checked ε _) = .ok normal ∧
      t.referenceTo? standIn = some normal
  stack_class : stack = if standIn = .int8 ∨ standIn = .int16 then .int32 else standIn
  stack_stack : (t.stackType stack : Checked ε _) = .ok stack
  layout_class : ∃ layout, (t.layout a : Checked ε _) = .ok layout ∧
    (t.layout standIn : Checked ε _) = .ok layout
  slots_stack : ∃ slots, (t.slots a : Checked ε _) = .ok slots ∧
    (t.slots stack : Checked ε _) = .ok slots

theorem Coherent.classLaws {ε : Type} (h : t.Coherent) {a standIn stack : TypeId}
    (hclass : t.HasClass a standIn) (hstack : t.HasStack a stack) :
    t.ClassLaws ε a standIn stack := by
  obtain ⟨layout, hlayout⟩ := exists_hasLayout hclass.lt_size
  obtain ⟨slots, hslots⟩ := exists_hasSlots hclass.lt_size
  refine ⟨verificationType_eq_ok.mpr hclass, stackType_eq_ok.mpr hstack, ?_, ?_, ?_, ?_, ?_, ?_, ?_,
    ?_⟩
  · intro kind hkind
    exact h.tree_eq (kind_eq_ok.mp hkind)
  · rw [← hclass.standIn_eq, h.tree_standIn]
  · exact verificationType_eq_ok.mpr (h.hasClass_self hclass)
  · intro ref href
    obtain ⟨normal, hnormal, href'⟩ := h.hasClass_reference hclass href
    exact ⟨normal, verificationType_eq_ok.mpr hnormal, href'⟩
  · exact (h.hasStack_iff hclass).mp hstack
  · exact stackType_eq_ok.mpr (h.hasStack_self hstack)
  · exact ⟨layout, layout_eq_ok.mpr hlayout, layout_eq_ok.mpr (h.hasLayout_class hclass hlayout)⟩
  · exact ⟨slots, slots_eq_ok.mpr hslots, slots_eq_ok.mpr (h.hasSlots_stack hstack hslots)⟩

/-- **Classes are normal forms.**  In a table that calls lead to and that has ids left, the class of
a type is the type whose tree is the normal form of the tree, and so two types have one class
exactly if their trees have one normal form.  A value of a type may be stored in every location of
the same class. -/
theorem classes_are_normal_forms {ε : Type} (h : t.Reached) (hids : t.size < wordLimit)
    {a b : TypeId} (ha : t.contains a = true) (hb : t.contains b = true) :
    ∃ standIn standIn' stack : TypeId,
      t.ClassLaws ε a standIn stack ∧
      (t.verificationType b : Checked ε _) = .ok standIn' ∧
      (standIn = standIn' ↔ (t.tree a).norm = (t.tree b).norm) ∧
      (standIn = standIn' → (t.assignable stack b : Checked ε _) = .ok true) := by
  have hcoherent := ((reached_iff_built hids).mp h).coherent
  obtain ⟨standIn, hclass⟩ := exists_hasClass (contains_iff.mp ha)
  obtain ⟨standIn', hclass'⟩ := exists_hasClass (contains_iff.mp hb)
  obtain ⟨stack, hstack⟩ := exists_hasStack (contains_iff.mp ha)
  refine ⟨standIn, standIn', stack, hcoherent.classLaws hclass hstack,
    verificationType_eq_ok.mpr hclass', ?_, ?_⟩
  · rw [← hcoherent.tree_standIn a, ← hcoherent.tree_standIn b, hclass.standIn_eq,
      hclass'.standIn_eq]
    exact ⟨fun heq => heq ▸ rfl, hcoherent.eq_of_tree_eq⟩
  · rintro rfl
    exact assignable_eq_true.mpr (hcoherent.assignable_stack hclass hclass' hstack)

/-- A table with arrays of bytes and arrays of truth values. -/
def smallArrays : TypeTable := ((initial.array .uint8 3).1.array .bool 3).1

/-- The two kinds of arrays have one class, so their trees have one normal form. -/
theorem smallArrays_are_normal_forms :
    smallArrays.Reached ∧ smallArrays.size < wordLimit ∧ smallArrays.contains ⟨24⟩ = true ∧
      smallArrays.contains ⟨28⟩ = true ∧ smallArrays.ClassLaws Empty ⟨24⟩ ⟨25⟩ ⟨25⟩ ∧
      (smallArrays.tree ⟨24⟩).norm = (smallArrays.tree ⟨28⟩).norm := by
  have hids : smallArrays.size < wordLimit := by decide
  have hreached : smallArrays.Reached :=
    (reached_iff_built hids).mpr (.array (.array .initial .uint8 3) .bool 3)
  have ha : smallArrays.contains ⟨24⟩ = true := by decide
  have hb : smallArrays.contains ⟨28⟩ = true := by decide
  obtain ⟨standIn, standIn', stack, hlaws, hclass', hiff, -⟩ :=
    classes_are_normal_forms (ε := Empty) hreached hids ha hb
  obtain rfl : ⟨25⟩ = standIn := HasClass.unique (by exact ⟨_, rfl, rfl⟩)
    (verificationType_eq_ok.mp hlaws.verificationType_eq)
  obtain rfl : ⟨25⟩ = standIn' := HasClass.unique (by exact ⟨_, rfl, rfl⟩)
    (verificationType_eq_ok.mp hclass')
  obtain rfl : stack = ⟨25⟩ := hlaws.stack_class
  exact ⟨hreached, hids, ha, hb, hlaws, hiff.mp rfl⟩

/-- **An array that has taken the last id** stands for itself, though its tree is no normal form. -/
theorem unfinished_array_stands_for_itself :
    ∃ (t : TypeTable) (a : TypeId), t.Reached ∧ t.size = wordLimit ∧ t.contains a = true ∧
      (t.verificationType a : Checked Empty _) = .ok a ∧ t.tree a ≠ (t.tree a).norm := by
  obtain ⟨t, top, count, htower, hlast⟩ := exists_tower_below_limit
  have hreached := htower.unfinished_array hlast
  rw [push_eq] at hreached
  generalize hu : t.add ⟨.array .uint8 77, ⟨77, 1⟩, ⟨t.size⟩, ⟨t.size⟩, none⟩ = u at hreached
  have hsize : u.size = t.size + 1 := hu ▸ size_add t _
  have hentry : u.entry? ⟨t.size⟩ =
      some ⟨.array .uint8 77, ⟨77, 1⟩, ⟨t.size⟩, ⟨t.size⟩, none⟩ := by simp [← hu]
  have hext : t.Extends u := hu ▸ extends_add t _
  have hbyte : t.HasKind .uint8 (.primitive .uint8) := htower.built.coherent.primitives .uint8
  have helement : u.tree .uint8 = .primitive .uint8 :=
    tree_of_madeBelow (hext.hasKind hbyte) madeBelow_primitive
  have htree : u.tree ⟨t.size⟩ = .array (.primitive .uint8) 77 := by
    rw [tree_of_madeBelow ⟨_, hentry, rfl⟩ (madeBelow_array.mpr hbyte.lt_size), TypeKind.unfold,
      helement]
  refine ⟨u, ⟨t.size⟩, hreached, by rw [hsize, htower.size, hlast], ?_, ?_, ?_⟩
  · exact contains_iff.mpr (hsize ▸ Nat.lt_succ_self _)
  · exact verificationType_eq_ok.mpr ⟨_, hentry, rfl⟩
  · simp [htree, TypeTree.norm]

end TypeTable

end StackCode
