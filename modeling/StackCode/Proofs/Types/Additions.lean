import StackCode.Proofs.Types.Exhaustion

/-!
# Interning ends, and adds at most four types

Nested interning calls itself for kinds that are no smaller, a normal form and a reference to the
type just added, so that no measure of the kind shows that it ends.  It ends because the classes of
a table are normal already: the normal form of a kind is its own normal form, and the reference to
the class of a type is there or is a normal form too.

## Main definitions

* `TypeTable.additions`: the kinds that a kind brings, in their order.
* `TypeTable.Settles`: how a kind is interned.

## Main results

* `TypeTable.Coherent.kinds_internAny`: interning adds the kinds that it should.
* `TypeTable.interning_adds_at_most_four`: interning ends and adds at most four types.
-/

namespace StackCode

namespace TypeTable

variable {t u v : TypeTable} {type : TypeId} {kind : TypeKind} {full : Nat → Bool}
  {answer : Except TypeError TypeId}

/-! ## The types that a kind brings -/

/-- The normal form of a kind, if it is another kind and no type has it. -/
def newForm? (t : TypeTable) (kind : TypeKind) : Option TypeKind :=
  if t.normalize kind = kind ∨ (t.find? (t.normalize kind)).isSome then none
  else some (t.normalize kind)

/-- The kinds of the types that interning a kind adds, in their order: the kind, its normal form if
that is new, the reference to the normal form, and the reference to the kind.  A reference brings
its normal form only. -/
def additions (t : TypeTable) (kind : TypeKind) : List TypeKind :=
  match t.find? kind, t.kindLayout kind with
  | none, .ok _ =>
    match kind.isReference, t.newForm? kind with
    | true, none => [kind]
    | true, some form => [kind, form]
    | false, none => [kind, .reference ⟨t.size⟩]
    | false, some form => [kind, form, .reference ⟨t.size + 1⟩, .reference ⟨t.size⟩]
  | _, _ => []

theorem length_additions_le (t : TypeTable) (kind : TypeKind) : (t.additions kind).length ≤ 4 := by
  unfold additions
  split
  · split <;> simp
  · simp

theorem newForm?_of_self (h : t.normalize kind = kind) : t.newForm? kind = none :=
  if_pos (.inl h)

theorem newForm?_of_known (h : t.find? (t.normalize kind) = some type) : t.newForm? kind = none :=
  if_pos (.inr (by rw [h]; rfl))

theorem newForm?_of_unknown (hne : t.normalize kind ≠ kind)
    (h : t.find? (t.normalize kind) = none) : t.newForm? kind = some (t.normalize kind) :=
  if_neg (by simp [hne, h])

theorem kinds_internReference {target : TypeId} (htarget : target.index < t.size) :
    (t.internReference target).1.kinds = t.kinds ++ t.additions (.reference target) := by
  cases hfind : t.find? (.reference target) with
  | some type => simp [internReference, additions, hfind]
  | none =>
    simp only [additions, hfind, kindLayout, TypeKind.isReference]
    by_cases hself : t.standIn target = target
    · rw [internReference_of_self hfind htarget hself, newForm?_of_self (by rw [normalize, hself])]
      simp
    · have hne : t.normalize (.reference target) ≠ .reference target := by
        simpa [normalize] using hself
      cases hknown : t.find? (.reference (t.standIn target)) with
      | some normal =>
        rw [internReference_of_known hfind htarget hself hknown, newForm?_of_known hknown]
        simp
      | none =>
        rw [internReference_of_unknown hfind htarget hself hknown, newForm?_of_unknown hne hknown]
        simp [normalize]

theorem Coherent.kinds_intern (h : t.Coherent) (hkind : t.Formed kind) :
    (t.intern kind).1.kinds = t.kinds ++ t.additions kind := by
  cases hfind : t.find? kind with
  | some type => simp [TypeTable.intern, additions, hfind]
  | none =>
    cases hlayout : t.kindLayout kind with
    | error e => simp [TypeTable.intern, additions, hfind, hlayout]
    | ok layout =>
      simp only [additions, hfind, hlayout, hkind.notReference]
      by_cases hself : t.normalize kind = kind
      · rw [intern_of_normal h hkind hfind hlayout hself, newForm?_of_self hself]
        simp
      · cases hknown : t.find? (t.normalize kind) with
        | some normal =>
          obtain ⟨ref, href⟩ :=
            h.exists_reference (h.formed_normalize hkind) ((h.indexed _ _).mp hknown)
          rw [intern_of_known h hkind hfind hlayout hself hknown href, newForm?_of_known hknown]
          simp
        | none =>
          rw [intern_of_unknown h hkind hfind hlayout hself hknown,
            newForm?_of_unknown hself hknown]
          simp

/-- **Interning adds the kinds that it should**, in their order. -/
theorem Coherent.kinds_internAny (h : t.Coherent) (hparts : t.MadeBelow t.size kind) :
    (t.internAny kind).1.kinds = t.kinds ++ t.additions kind := by
  rcases hparts.forms with ⟨p, rfl⟩ | ⟨target, rfl, htarget⟩ | hkind
  · have hfind := (h.indexed _ _).mpr (h.primitives p)
    simp [TypeTable.internAny, h.intern_primitive, additions, hfind]
  · exact kinds_internReference htarget
  · rw [internAny_of_formed hkind]
    exact h.kinds_intern hkind

/-! ## Interning in tables that are reached -/

/-- Interning a kind that is new pushes an entry for it, and goes on in the table `u`. -/
def Pushes (full : Nat → Bool) (t : TypeTable) (kind : TypeKind) (u : TypeTable) : Prop :=
  t.find? kind = none ∧ full t.size = false ∧
    ∃ layout, t.kindLayout? kind = some (.ok layout) ∧ u = (t.push kind layout).1

/-- A kind is interned by calls that come to an end with the table `u` and an answer. -/
structure Settles (t : TypeTable) (kind : TypeKind) (u : TypeTable)
    (answer : Except TypeError TypeId) : Prop where
  /-- Calls do not nest deeper than four levels. -/
  ends : ∀ depth, t.nest isFull (depth + 4) kind = some (u, answer)
  /-- The plain computation does the same, with room for four more types. -/
  plain : t.size + 4 ≤ wordLimit → t.internAny kind = (u, answer)
  keeps : t.Extends u
  structs : u.structs = t.structs
  /-- The types that are added, as far as there are ids for them. -/
  kinds : u.kinds = t.kinds ++ (t.additions kind).take (wordLimit - t.size)
  atMostFour : u.size ≤ t.size + 4
  /-- The normal form that is asked for is its own normal form, and the calls it takes to intern it
  never ask for another. -/
  normalOnce : ∀ v form, t.Pushes isFull kind v → v.normalize? kind = some form →
    v.normalize? form = some form ∧
      ∃ o, ∀ depth, v.nest isFull (depth + 2) form = some o ∧
        v.nestVerbatim isFull (depth + 2) form = some o

/-- The normal form of a kind is interned as it is. -/
theorem Coherent.normalOnce (h : t.Coherent) (hparts : t.MadeBelow t.size kind) {form : TypeKind}
    (hpush : t.Pushes full kind v) (hform : v.normalize? kind = some form) :
    v.normalize? form = some form ∧
      ∃ o, ∀ depth, v.nest full (depth + 2) form = some o ∧
        v.nestVerbatim full (depth + 2) form = some o := by
  obtain ⟨-, -, layout, -, rfl⟩ := hpush
  have hext : t.Extends (t.push kind layout).1 := extends_add t _
  rw [normalize?_push hparts] at hform
  cases hform
  -- the classes of the parts are their own classes, and the new entry is none of the parts
  have hparts' := h.madeBelow_normalize hparts
  have hmade := (hparts'.extends hext).mono hext.size_le
  have hself := (hext.normalize_eq hparts').trans (h.normalize_normalize hparts)
  obtain ⟨o, ho⟩ := exists_nestVerbatim full 0 hmade hself
  refine ⟨by rw [normalize?_eq hmade, hself], o, fun depth => ?_⟩
  have hverbatim := answers_add (answers_nestVerbatim_succ full) 2 depth ho
  rw [Nat.add_comm] at hverbatim
  exact ⟨answers_nestVerbatim _ _ hverbatim, hverbatim⟩

/-- The types that are there after nested interning. -/
theorem Coherent.kinds_nest (h : t.Coherent) (hsize : t.size ≤ wordLimit)
    (hparts : t.MadeBelow t.size kind) (hnest : t.nest isFull 4 kind = some (u, answer)) :
    u.kinds = t.kinds ++ (t.additions kind).take (wordLimit - t.size) := by
  obtain ⟨_, _, hsame, hkinds⟩ := (h.limited_nest hparts hsize 0).kinds_eq
  cases hnest.symm.trans hsame
  have hold : t.kinds.length ≤ wordLimit := t.length_kinds.trans_le hsize
  rw [hkinds, h.kinds_internAny hparts, List.take_append, List.take_of_length_le hold, length_kinds]

theorem size_le_of_kinds {n : Nat} (h : u.kinds = t.kinds ++ (t.additions kind).take n) :
    u.size ≤ t.size + 4 := by
  have hfour := t.length_additions_le kind
  rw [← length_kinds u, h, List.length_append, length_kinds, List.length_take]
  omega

/-- Nested interning in a finished table. -/
theorem Coherent.settles (h : t.Coherent) (hsize : t.size ≤ wordLimit)
    (hparts : t.MadeBelow t.size kind) (hnest : t.nest isFull 4 kind = some (u, answer)) :
    Settles t kind u answer where
  ends depth := by
    rw [Nat.add_comm]
    exact nest_add hnest depth
  plain hroom := by
    have hplain := h.kinds_internAny hparts
    rw [← List.take_length (l := t.additions kind)] at hplain
    have hfit := (size_le_of_kinds hplain).trans hroom
    have hsame := (h.limited_nest hparts hsize 0).eq_of_size_le hfit
    exact Option.some.inj (hsame.symm.trans hnest)
  keeps := (growing_nest _ _ hnest).keeps
  structs := (growing_nest _ _ hnest).structs
  kinds := h.kinds_nest hsize hparts hnest
  atMostFour := size_le_of_kinds (h.kinds_nest hsize hparts hnest)
  normalOnce _ _ hpush hform := h.normalOnce hparts hpush hform

/-- Nested interning in a full table, which looks at no other kind. -/
theorem settles_of_full (hfull : t.size = wordLimit)
    (hnest : t.nest isFull 1 kind = some (t, answer)) : Settles t kind t answer where
  ends depth := by
    rw [Nat.add_comm]
    exact nest_add (nest_add hnest 3) depth
  plain hroom := by omega
  keeps := .refl t
  structs := rfl
  kinds := by simp [hfull]
  atMostFour := Nat.le_add_right _ 4
  normalOnce := by
    rintro v form ⟨-, hroom, -⟩
    simp [isFull, hfull] at hroom

theorem exists_nest_of_full (hfull : t.size = wordLimit) (hparts : t.MadeBelow t.size kind) :
    ∃ answer, t.nest isFull 1 kind = some (t, answer) := by
  rw [nest_succ, level, kindLayout?_eq hparts, isFull, hfull]
  cases t.find? kind with
  | some type => exact ⟨_, rfl⟩
  | none =>
    cases t.kindLayout kind with
    | error e => exact ⟨_, rfl⟩
    | ok layout => exact ⟨_, rfl⟩

theorem settles_of_coherent_or_full (h : t.Coherent ∧ t.size ≤ wordLimit ∨ t.size = wordLimit)
    (hparts : t.MadeBelow t.size kind) : ∃ u answer, Settles t kind u answer := by
  rcases h with ⟨hcoherent, hsize⟩ | hfull
  · obtain ⟨u, answer, hnest, -⟩ := (hcoherent.limited_nest hparts hsize 0).kinds_eq
    exact ⟨u, answer, hcoherent.settles hsize hparts hnest⟩
  · obtain ⟨answer, hnest⟩ := exists_nest_of_full hfull hparts
    exact ⟨t, answer, settles_of_full hfull hnest⟩

/-- **Interning ends and adds at most four types.**  In every table that calls lead to, each kind
that is made of types of the table is interned by calls that come to an end, and so is the kind that
a call asks for, in the table where its structure is declared. -/
theorem interning_adds_at_most_four (h : t.Reached) :
    (∀ kind, t.MadeBelow t.size kind → ∃ u answer, Settles t kind u answer) ∧
      ∀ (request : Request) (u : TypeTable) (kind : TypeKind), request.vet t = .ok (u, kind) →
        ∃ v answer, Settles u kind v answer := by
  refine ⟨fun kind hparts => settles_of_coherent_or_full h.coherent_or_full hparts, ?_⟩
  intro request u kind hvet
  refine settles_of_coherent_or_full ?_ (askable_of_vet hvet).1.parts
  rw [size_of_vet hvet]
  exact h.coherent_or_full.imp_left fun ⟨hcoherent, hsize⟩ => ⟨(hcoherent.vetted hvet).1, hsize⟩

/-- A table with a structure, after a call that was refused. -/
def handles : TypeTable :=
  ((initial.declareStruct "handle" [("slot", .uint16), ("live", .bool)]).1.array .void 2).1

/-- The type of functions that take a byte and a handle. -/
def handleCheck : TypeKind := .function [.uint8, ⟨24⟩] .bool

/-- A function type with another normal form brings four types, and interning the normal form does
not ask for another. -/
theorem interning_adds_at_most_four_handles :
    handles.Reached ∧ handles.MadeBelow handles.size handleCheck ∧
      (∃ u answer, Settles handles handleCheck u answer ∧
        u.kinds = handles.kinds ++ [handleCheck, .function [.int8, ⟨24⟩] .int8, .reference ⟨27⟩,
          .reference ⟨26⟩] ∧
        ∃ o, (handles.push handleCheck .word).1.nestVerbatim isFull 2
          (.function [.int8, ⟨24⟩] .int8) = some o) ∧
      ∃ v kind w answer, Request.vet handles (.declareStruct "pair" [("left", ⟨24⟩)]) =
        .ok (v, kind) ∧ Settles v kind w answer := by
  have hbuilt : handles.Built := .array (.declareStruct .initial _ _) .void 2
  have hreached : handles.Reached := hbuilt.reached (by decide)
  have hparts : handles.MadeBelow handles.size handleCheck := by decide
  obtain ⟨hkinds, hrequests⟩ := interning_adds_at_most_four hreached
  obtain ⟨u, answer, hsettles⟩ := hkinds handleCheck hparts
  refine ⟨hreached, hparts, ⟨u, answer, hsettles, ?_, ?_⟩, ?_⟩
  · rw [hsettles.kinds]
    decide
  · have hpush : handles.Pushes isFull handleCheck (handles.push handleCheck .word).1 :=
      ⟨by decide, by decide, .word, by decide, rfl⟩
    obtain ⟨-, o, ho⟩ :=
      hsettles.normalOnce _ (.function [.int8, ⟨24⟩] .int8) hpush (by decide)
    exact ⟨o, (ho 0).2⟩
  · obtain ⟨w, answer, hdeclared⟩ := hrequests (.declareStruct "pair" [("left", ⟨24⟩)]) _ _ rfl
    exact ⟨_, _, w, answer, rfl, hdeclared⟩

end TypeTable

end StackCode
