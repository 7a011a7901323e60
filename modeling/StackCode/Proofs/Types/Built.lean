import StackCode.Types.Interning

/-!
# Tables built by their operations

A type table starts with the primitives and changes only by interning references, arrays, spans and
function types and by declaring structures.  None of these operations, whether it succeeds or fails,
touches the kind or the layout of a type that is in the table already.  So in every table that was
built this way each primitive is found at its own id.

## Main definitions

* `TypeTable.Built`: the tables the operations lead to.
* `TypeTable.Keeps`: a table has all types of another, with their kinds and layouts.
* `TypeTable.HasPrimitives`: each primitive stands at its id.

## Main results

* `TypeTable.Built.hasPrimitives`: a table built by its operations has the primitives.
-/

namespace StackCode

namespace TypeTable

/-- The tables that operations lead to; an operation that fails counts too. -/
inductive Built : TypeTable → Prop
  | initial : Built initial
  | reference {t : TypeTable} (h : Built t) (target : TypeId) : Built (t.reference target).1
  | array {t : TypeTable} (h : Built t) (element : TypeId) (length : Nat) :
      Built (t.array element length).1
  | span {t : TypeTable} (h : Built t) (element : TypeId) : Built (t.span element).1
  | function {t : TypeTable} (h : Built t) (params : List TypeId) (result : TypeId) :
      Built (t.function params result).1
  | declareStruct {t : TypeTable} (h : Built t) (name : String) (fields : List (String × TypeId)) :
      Built (t.declareStruct name fields).1

/-- Every type of `t` is in `u` under the same id, with the same kind and layout. -/
def Keeps (t u : TypeTable) : Prop :=
  ∀ (i : Nat) (e : TypeEntry), t.entries[i]? = some e →
    ∃ e', u.entries[i]? = some e' ∧ e'.kind = e.kind ∧ e'.layout = e.layout

theorem Keeps.refl (t : TypeTable) : Keeps t t := fun _ e h => ⟨e, h, rfl, rfl⟩

theorem Keeps.trans {t u v : TypeTable} (htu : Keeps t u) (huv : Keeps u v) : Keeps t v := by
  intro i e h
  obtain ⟨e', h', hkind, hlayout⟩ := htu i e h
  obtain ⟨e'', h'', hkind', hlayout'⟩ := huv i e' h'
  exact ⟨e'', h'', hkind'.trans hkind, hlayout'.trans hlayout⟩

section Operations

variable (t : TypeTable)

theorem keeps_push (kind : TypeKind) (layout : Layout) : t.Keeps (t.push kind layout).1 := by
  intro i e h
  have hlt : i < t.entries.size := (Array.getElem?_eq_some_iff.mp h).1
  refine ⟨e, ?_, rfl, rfl⟩
  rw [push, Array.getElem?_push_lt hlt]
  exact (Array.getElem?_eq_getElem hlt).symm.trans h

/-- Changing an entry other than in its kind and layout keeps it. -/
theorem keeps_modify (type : TypeId) {f : TypeEntry → TypeEntry}
    (hf : ∀ e, (f e).kind = e.kind ∧ (f e).layout = e.layout) :
    t.Keeps { t with entries := t.entries.modify type.index f } := by
  intro i e h
  by_cases hi : type.index = i
  · exact ⟨f e, by simp [Array.getElem?_modify, hi, h], hf e⟩
  · exact ⟨e, by simp [Array.getElem?_modify, hi, h], rfl, rfl⟩

theorem keeps_setClass (type standIn : TypeId) : t.Keeps (t.setClass type standIn) :=
  t.keeps_modify type fun _ => ⟨rfl, rfl⟩

theorem keeps_setReference (type ref : TypeId) : t.Keeps (t.setReference type ref) :=
  t.keeps_modify type fun _ => ⟨rfl, rfl⟩

theorem keeps_internNormalReference (target : TypeId) :
    t.Keeps (t.internNormalReference target).1 := by
  unfold internNormalReference
  split
  · exact .refl t
  · exact t.keeps_push _ _

theorem keeps_internReference (target : TypeId) : t.Keeps (t.internReference target).1 := by
  unfold internReference
  split
  · exact .refl t
  · have hpush := t.keeps_push (.reference target) .word
    generalize t.push (.reference target) .word = pushed at hpush ⊢
    dsimp only
    split
    · exact hpush
    · exact hpush.trans ((keeps_internNormalReference _ _).trans (keeps_setClass _ _ _))

theorem keeps_addReference (type : TypeId) : t.Keeps (t.addReference type) :=
  (t.keeps_internReference type).trans (keeps_setReference _ _ _)

theorem keeps_internNormal (kind : TypeKind) : t.Keeps (t.internNormal kind).1 := by
  unfold internNormal
  split
  · exact .refl t
  · split
    · exact .refl t
    · exact (t.keeps_push kind _).trans (keeps_addReference _ _)

theorem keeps_intern (kind : TypeKind) : t.Keeps (t.intern kind).1 := by
  unfold intern
  split
  · exact .refl t
  · split
    · exact .refl t
    · rename_i layout _
      have hpush := t.keeps_push kind layout
      generalize t.push kind layout = pushed at hpush ⊢
      dsimp only
      split
      · exact hpush.trans (keeps_addReference _ _)
      · have hnormal := pushed.1.keeps_internNormal (pushed.1.normalize kind)
        split
        · rename_i hfail
          rw [hfail] at hnormal
          exact hpush.trans hnormal
        · rename_i hok
          rw [hok] at hnormal
          exact hpush.trans (hnormal.trans ((keeps_setClass _ _ _).trans (keeps_addReference _ _)))

theorem keeps_reference (target : TypeId) : t.Keeps (t.reference target).1 := by
  unfold reference
  split
  · exact .refl t
  · exact t.keeps_internReference target

theorem keeps_array (element : TypeId) (length : Nat) : t.Keeps (t.array element length).1 := by
  unfold array
  split
  · exact .refl t
  · exact t.keeps_intern _

theorem keeps_span (element : TypeId) : t.Keeps (t.span element).1 := by
  unfold span
  split
  · exact .refl t
  · exact t.keeps_intern _

theorem keeps_function (params : List TypeId) (result : TypeId) :
    t.Keeps (t.function params result).1 := by
  unfold function
  split
  · exact .refl t
  · exact t.keeps_intern _

theorem keeps_declareStruct (name : String) (fields : List (String × TypeId)) :
    t.Keeps (t.declareStruct name fields).1 := by
  unfold declareStruct
  split
  · exact .refl t
  · split
    · exact .refl t
    · exact fun i e h => keeps_intern _ _ i e h

end Operations

theorem keeps_initial : primitives.Keeps initial := by
  have fold : ∀ (ps : List Primitive) (t : TypeTable),
      t.Keeps (ps.foldl (fun t p => t.addReference p.id) t) := by
    intro ps
    induction ps with
    | nil => exact .refl
    | cons p ps ih => exact fun t => (t.keeps_addReference p.id).trans (ih _)
  exact fold _ _

/-- Every table starts with the primitives. -/
theorem Built.keeps_primitives {t : TypeTable} (h : Built t) : primitives.Keeps t := by
  induction h with
  | initial => exact keeps_initial
  | reference _ target ih => exact ih.trans (keeps_reference _ target)
  | array _ element length ih => exact ih.trans (keeps_array _ element length)
  | span _ element ih => exact ih.trans (keeps_span _ element)
  | function _ params result ih => exact ih.trans (keeps_function _ params result)
  | declareStruct _ name fields ih => exact ih.trans (keeps_declareStruct _ name fields)

/-- Each primitive stands at its id. -/
def HasPrimitives (t : TypeTable) : Prop :=
  ∀ p : Primitive, ∃ e, t.entry? p.id = some e ∧ e.kind = .primitive p

/-- **A table built by its operations has the primitives.** -/
theorem Built.hasPrimitives {t : TypeTable} (h : Built t) : t.HasPrimitives := by
  intro p
  have hp : primitives.entries[p.index]? =
      some ⟨.primitive p, p.layout, p.verification.id, p.stack.id, none⟩ := by
    cases p <;> rfl
  obtain ⟨e, he, hkind, -⟩ := h.keeps_primitives p.index _ hp
  exact ⟨e, he, hkind⟩

end TypeTable

end StackCode
