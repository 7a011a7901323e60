import StackCode.Proofs.Sequencing
import StackCode.Proofs.Types.Built

/-!
# Lookups in a type table

A lookup answers only for types of the table.  This module states what the answers say as facts
about entries, independent of the errors the surrounding computation can end with.

## Main definitions

* `TypeTable.HasKind`, `TypeTable.HasClass`: what an entry says of a type.
* `TypeTable.IsReference`: references.
* `TypeTable.Assignable`: when a stack type may be stored in a location.

## Main results

* `TypeTable.kind_eq_ok` and its companions: a lookup succeeds exactly with these facts.
* `TypeTable.HasPrimitives.not_isReference`: a primitive is no reference.
-/

namespace StackCode

namespace TypeTable

variable {ε : Type} {t : TypeTable} {type : TypeId}

/-- The table has the type, with this kind. -/
def HasKind (t : TypeTable) (type : TypeId) (kind : TypeKind) : Prop :=
  ∃ e, t.entry? type = some e ∧ e.kind = kind

/-- The table has the type, and `standIn` stands for it in verification. -/
def HasClass (t : TypeTable) (type standIn : TypeId) : Prop :=
  ∃ e, t.entry? type = some e ∧ e.verification = standIn

/-- The table has the type, as a reference type. -/
def IsReference (t : TypeTable) (type : TypeId) : Prop :=
  ∃ target, t.HasKind type (.reference target)

/-- A stack type may be stored in a location of type `target`: it is the class of the target, or a
32-bit integer and the class is narrower, or null and the class is a reference. -/
def Assignable (t : TypeTable) (source target : TypeId) : Prop :=
  ∃ standIn, t.HasClass target standIn ∧
    (source = standIn ∨ source = .null ∧ t.IsReference standIn ∨
      source = .int32 ∧ (standIn = .int8 ∨ standIn = .int16))

theorem HasKind.unique {k k' : TypeKind} (h : t.HasKind type k) (h' : t.HasKind type k') :
    k = k' := by
  obtain ⟨e, he, rfl⟩ := h
  obtain ⟨e', he', rfl⟩ := h'
  rw [Option.some.inj (he.symm.trans he')]

theorem entry_eq_ok {e : TypeEntry} :
    (t.entry type : Checked ε _) = .ok e ↔ t.entry? type = some e := by
  unfold entry
  cases t.entry? type <;> simp

theorem kind_eq_ok {kind : TypeKind} :
    (t.kind type : Checked ε _) = .ok kind ↔ t.HasKind type kind := by
  simp only [TypeTable.kind, bind_eq_ok, entry_eq_ok, pure_eq_ok, HasKind]

theorem verificationType_eq_ok {standIn : TypeId} :
    (t.verificationType type : Checked ε _) = .ok standIn ↔ t.HasClass type standIn := by
  simp only [verificationType, bind_eq_ok, entry_eq_ok, pure_eq_ok, HasClass]

theorem referent?_eq_ok {target? : Option TypeId} :
    (t.referent? type : Checked ε _) = .ok target? ↔
      ∃ kind, t.HasKind type kind ∧ kind.referent? = target? := by
  simp only [referent?, bind_eq_ok, kind_eq_ok, pure_eq_ok]

theorem isReference_eq_ok {b : Bool} :
    (t.isReference type : Checked ε _) = .ok b ↔
      ∃ kind, t.HasKind type kind ∧ kind.isReference = b := by
  simp only [isReference, bind_eq_ok, kind_eq_ok, pure_eq_ok]

theorem isReference_eq_true :
    (t.isReference type : Checked ε _) = .ok true ↔ t.IsReference type := by
  rw [isReference_eq_ok]
  constructor
  · rintro ⟨kind, hkind, h⟩
    cases kind with
    | reference target => exact ⟨target, hkind⟩
    | _ => cases h
  · exact fun ⟨target, h⟩ => ⟨_, h, rfl⟩

theorem assignable_eq_true {source target : TypeId} :
    (t.assignable source target : Checked ε _) = .ok true ↔ t.Assignable source target := by
  simp only [assignable, bind_eq_ok, verificationType_eq_ok, Assignable]
  refine exists_congr fun standIn => and_congr_right fun _ => ?_
  by_cases hsame : source = standIn
  · simp [hsame, pure, Except.pure]
  · by_cases hnull : source = .null
    · have hint : ¬ TypeId.null = .int32 := by decide
      simp [hnull ▸ hsame, hnull, hint, isReference_eq_true]
    · simp [hsame, hnull, pure, Except.pure]

/-- A primitive is no reference. -/
theorem HasPrimitives.not_isReference (h : t.HasPrimitives) (p : Primitive) :
    ¬ t.IsReference p.id := by
  rintro ⟨target, htarget⟩
  cases HasKind.unique (h p) htarget

end TypeTable

end StackCode
