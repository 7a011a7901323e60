import StackCode.Proofs.Types.Layouts
import StackCode.Proofs.Types.Nested

/-!
# Calls that fail

A call that fails leaves every type of the table as it is, and the next id too.  A kind is refused
for its parts or for its layout, before its entry is pushed; what comes after that does not fail, as
a normal form is laid out as the kind it belongs to.  The one thing a failing call can leave behind
is the declaration of a structure, which is made before the layout is known: all fields have been
placed by then, so that only the rounding of the size can fail.

## Main definitions

* `TypeTable.OnlyRounds`: structures that have no layout for the rounding of their size alone.
* `TypeTable.SameAnswers`: tables in which every lookup has the same answer.

## Main results

* `TypeTable.Coherent.onlyRounds_of_kindLayout`: what a failing call leaves behind.
* `TypeTable.Coherent.answer_declare`: a declaration left behind does not change the next answers.
* `TypeTable.failed_calls_keep_types`: failing calls change nothing that has an id.
-/

namespace StackCode

namespace Layout

variable {value align n : Nat}

/-- A word is rounded up to a word.  The limit is a multiple of the alignment, so a number that
passes it is rounded to it or more. -/
theorem alignUp?_of_roundsTo (halign : IsAlignment align) (h : RoundsTo value align n)
    (hn : n < wordLimit) : alignUp? value align = some n := by
  have hpos : 0 < align := by
    rcases halign with rfl | rfl | rfl | rfl <;> decide
  obtain rfl : n = roundUp value align := h.unique (roundsTo_roundUp hpos)
  refine alignUp?_eq_some.mpr ⟨?_, rfl⟩
  rcases halign with rfl | rfl | rfl | rfl <;> simp only [roundUp, wordLimit] at * <;> omega

end Layout

namespace TypeTable

open Layout (RoundsTo maxAlign)

variable {t u : TypeTable} {type : TypeId} {kind : TypeKind} {name : String}
  {declared : List (String × TypeId)} {placed : List Field}

/-! ## Structures without a layout -/

/-- A new structure of values, the fields of which are words apart, while the end of the last,
rounded up, is no word. -/
structure OnlyRounds (t : TypeTable) (name : String) (declared : List (String × TypeId))
    (placed : List Field) : Prop where
  fresh : ∀ s ∈ t.structs, s.name ≠ name
  fields : placed.map (fun f => (f.name, f.type)) = declared
  values : ∀ f ∈ placed, f.type.index < t.size ∧ f.type ≠ .void ∧ f.type ≠ .null
  rounds : ∃ layouts finish, t.Packed 0 placed layouts finish ∧ finish < wordLimit ∧
    wordLimit ≤ finish + (maxAlign 1 layouts - 1)

/-- Placed fields are packed. -/
theorem Coherent.packed_of_placeFields (h : t.Coherent) {floor : Nat} (align : Nat)
    (hfloor : floor < wordLimit) (hplaced : t.placeFields declared floor = .ok placed) :
    placed.map (fun f => (f.name, f.type)) = declared ∧
      ∃ layouts finish, t.Packed floor placed layouts finish ∧ finish < wordLimit ∧
        t.extent placed align floor = .ok (maxAlign align layouts, finish) := by
  induction declared generalizing floor align placed with
  | nil =>
    cases hplaced
    exact ⟨rfl, [], floor, .nil, hfloor, rfl⟩
  | cons field declared ih =>
    obtain ⟨name, type⟩ := field
    obtain ⟨⟨⟩, -, hplaced⟩ := bind_eq_ok.mp hplaced
    obtain ⟨l, hl, hplaced⟩ := bind_eq_ok.mp hplaced
    split at hplaced
    · cases hplaced
    next offset hoffset =>
    split at hplaced
    · next hend =>
      obtain ⟨rest, hrest, hpure⟩ := bind_eq_ok.mp hplaced
      cases pure_eq_ok.mp hpure
      obtain ⟨hfields, layouts, finish, hpacked, hfinish, hextent⟩ :=
        ih (max align l.align) hend hrest
      have hlayout := componentLayout_eq_ok.mp hl
      refine ⟨by rw [List.map_cons, hfields], l :: layouts, finish, ?_, hfinish, ?_⟩
      · exact .cons hlayout (.of_alignUp? (h.align_pos hlayout) hoffset) hpacked
      · rw [extent, hl]
        exact (if_pos hend).trans hextent
    · cases hplaced

/-- Packed fields are placed where they are. -/
theorem Built.placeFields_of_packed (h : t.Built) {floor finish : Nat} {layouts : List Layout}
    (hpacked : t.Packed floor placed layouts finish) (hfinish : finish < wordLimit)
    (hvalues : ∀ f ∈ placed, f.type.index < t.size ∧ f.type ≠ .void ∧ f.type ≠ .null) :
    t.placeFields (placed.map fun f => (f.name, f.type)) floor = .ok placed := by
  induction hpacked with
  | nil => rfl
  | @cons floor finish f fs l ls hlayout hoffset hrest ih =>
    obtain ⟨hf, hfs⟩ := List.forall_mem_cons.mp hvalues
    have hend : f.offset + l.size < wordLimit := Nat.lt_of_le_of_lt hrest.le_finish hfinish
    have hround : Layout.alignUp? floor l.align = some f.offset :=
      Layout.alignUp?_of_roundsTo (h.wellAligned hlayout).align hoffset (by omega)
    rw [List.map_cons, placeFields, checkValue_eq_ok.mpr hf, componentLayout_eq_ok.mpr hlayout]
    simp only [bind, Except.bind, hround, if_pos hend, ih hfinish hfs]
    rfl

/-- A structure whose declaration stays behind has no layout for the rounding of its size. -/
theorem Coherent.onlyRounds_of_kindLayout (h : t.Coherent) (hfresh : ∀ s ∈ t.structs, s.name ≠ name)
    (hplaced : t.placeFields declared 0 = .ok placed) {e : TypeError}
    (hlayout : TypeTable.kindLayout { t with structs := t.structs.push ⟨name, placed⟩ }
      (.struct t.structs.size) = .error e) :
    e = .layoutOverflow ∧ t.OnlyRounds name declared placed := by
  obtain ⟨hfields, layouts, finish, hpacked, hfinish, hextent⟩ :=
    h.packed_of_placeFields 1 (by decide) hplaced
  rw [← (h.declare ⟨name, placed⟩).2.extent_eq (lt_size_of_placeFields hplaced)] at hextent
  simp only [kindLayout, Array.getElem?_push_size, hextent, bind, Except.bind] at hlayout
  split at hlayout
  · cases hlayout
  next hround =>
  cases hlayout
  exact ⟨rfl, hfresh, hfields, value_of_placeFields hplaced, layouts, finish, hpacked, hfinish,
    Layout.alignUp?_eq_none.mp hround⟩

theorem Built.vet_of_onlyRounds (h : t.Built) (hrounds : t.OnlyRounds name declared placed) :
    Request.vet t (.declareStruct name declared) =
      .ok ({ t with structs := t.structs.push ⟨name, placed⟩ }, .struct t.structs.size) := by
  obtain ⟨layouts, finish, hpacked, hfinish, -⟩ := hrounds.rounds
  have hplaced := h.placeFields_of_packed hpacked hfinish hrounds.values
  rw [hrounds.fields] at hplaced
  simp only [Request.vet, any_name_eq_false hrounds.fresh, hplaced]
  rfl

/-! ## The answers of a table -/

/-- Every lookup has the same answer in both tables. -/
structure SameAnswers (t u : TypeTable) : Prop where
  contains : ∀ type, u.contains type = t.contains type
  entry? : ∀ type, u.entry? type = t.entry? type
  kind : ∀ {ε : Type} type, (u.kind type : Checked ε _) = t.kind type
  layout : ∀ {ε : Type} type, (u.layout type : Checked ε _) = t.layout type
  slots : ∀ {ε : Type} type, (u.slots type : Checked ε _) = t.slots type
  verificationType : ∀ {ε : Type} type,
    (u.verificationType type : Checked ε _) = t.verificationType type
  stackType : ∀ {ε : Type} type, (u.stackType type : Checked ε _) = t.stackType type
  referent? : ∀ {ε : Type} type, (u.referent? type : Checked ε _) = t.referent? type
  isReference : ∀ {ε : Type} type, (u.isReference type : Checked ε _) = t.isReference type
  carriesAddress : ∀ {ε : Type} type, (u.carriesAddress type : Checked ε _) = t.carriesAddress type
  referenceTo? : ∀ type, u.referenceTo? type = t.referenceTo? type
  assignable : ∀ {ε : Type} source target,
    (u.assignable source target : Checked ε _) = t.assignable source target
  join? : ∀ {ε : Type} a b, (u.join? a b : Checked ε _) = t.join? a b
  structDecl? : ∀ type, u.structDecl? type = t.structDecl? type
  field? : ∀ owner index, u.field? owner index = t.field? owner index
  name : ∀ type, u.name type = t.name type

theorem SameAnswers.refl (t : TypeTable) : SameAnswers t t := by
  constructor <;> intros <;> rfl

section Declare

variable (h : t.Coherent) (s : StructDecl)

include h

/-- The declaration of a type is not the one that is added. -/
theorem Coherent.structs_push_of_hasKind {decl : Nat} (hkind : t.HasKind type (.struct decl)) :
    (t.structs.push s)[decl]? = t.structs[decl]? := by
  obtain ⟨s', hs', -⟩ := madeBelow_struct.mp (h.madeBelow hkind)
  have hlt := (Array.getElem?_eq_some_iff.mp hs').1
  rw [Array.getElem?_push_lt hlt, Array.getElem?_eq_getElem hlt]

theorem Coherent.structDecl?_declare (type : TypeId) :
    TypeTable.structDecl? { t with structs := t.structs.push s } type = t.structDecl? type := by
  refine Option.bind_congr fun e he => ?_
  cases hkind : e.kind with
  | struct decl => exact h.structs_push_of_hasKind s ⟨e, he, hkind⟩
  | _ => rfl

/-- A name is built from names of older types. -/
theorem Coherent.name_declare (type : TypeId) :
    TypeTable.name { t with structs := t.structs.push s } type = t.name type := by
  obtain ⟨i⟩ := type
  induction i using Nat.strongRecOn with
  | ind i ih =>
    have hentry : TypeTable.entry? { t with structs := t.structs.push s } ⟨i⟩ = t.entry? ⟨i⟩ := rfl
    rw [TypeTable.name, TypeTable.name, hentry]
    cases he : t.entry? ⟨i⟩ with
    | none => rfl
    | some e =>
      have hnames : (fun c : TypeId => if c.index < i then
          TypeTable.name { t with structs := t.structs.push s } c else unknownName c) =
          fun c => if c.index < i then t.name c else unknownName c := by
        funext c
        split
        · next hlt => exact ih c.index hlt
        · rfl
      dsimp only
      rw [hnames]
      cases hkind : e.kind with
      | struct decl => simp only [kindName, h.structs_push_of_hasKind s ⟨e, he, hkind⟩]
      | _ => rfl

/-- A declaration without a type changes no answer. -/
theorem Coherent.sameAnswers_declare :
    SameAnswers t { t with structs := t.structs.push s } where
  contains _ := rfl
  entry? _ := rfl
  kind _ := rfl
  layout _ := rfl
  slots _ := rfl
  verificationType _ := rfl
  stackType _ := rfl
  referent? _ := rfl
  isReference _ := rfl
  carriesAddress _ := rfl
  referenceTo? _ := rfl
  assignable _ _ := rfl
  join? _ _ := rfl
  structDecl? := h.structDecl?_declare s
  field? owner _ := by rw [TypeTable.field?, h.structDecl?_declare s owner, TypeTable.field?]
  name := h.name_declare s

end Declare

/-! ## The next answers -/

/-- **The answer to a kind** that can be asked for: its id, if it has one, and the next one
otherwise, unless it has no layout. -/
theorem Coherent.answer_eq (h : t.Coherent) (hkind : t.Askable kind) :
    (t.internAny kind).2 =
      match t.find? kind with
      | some type => .ok type
      | none => (t.kindLayout kind).map fun _ => ⟨t.size⟩ := by
  rcases hkind with ⟨target, rfl, htarget⟩ | hkind
  · simp only [internAny, kindLayout, Except.map]
    cases hfind : t.find? (.reference target) with
    | some type => simp only [TypeTable.internReference, hfind]
    | none =>
      simp only [TypeTable.internReference, hfind]
      split <;> rfl
  · rw [internAny_of_formed hkind.formed]
    cases hfind : t.find? kind with
    | some type => simp only [TypeTable.intern, hfind]
    | none =>
      cases hlayout : t.kindLayout kind with
      | error e => simp only [TypeTable.intern, hfind, hlayout, Except.map]
      | ok layout => exact (h.intern_of_new hkind.formed hfind hlayout).1

/-- A kind that is refused has no layout, and the table stays as it is. -/
theorem Coherent.refused_of_internAny (h : t.Coherent) (hkind : t.Askable kind) {e : TypeError}
    (he : (t.internAny kind).2 = .error e) :
    t.kindLayout kind = .error e ∧ (t.internAny kind).1 = t := by
  rw [h.answer_eq hkind] at he
  cases hfind : t.find? kind with
  | some type =>
    rw [hfind] at he
    cases he
  | none =>
    rw [hfind] at he
    cases hlayout : t.kindLayout kind with
    | ok layout =>
      rw [hlayout] at he
      cases he
    | error cause =>
      rw [hlayout] at he
      cases he
      refine ⟨rfl, ?_⟩
      rcases hkind with ⟨target, rfl, -⟩ | hkind
      · cases hlayout
      · rw [internAny_of_formed hkind.formed]
        simp only [TypeTable.intern, hfind, hlayout]

theorem placeFields_declare (t : TypeTable) (s : StructDecl) (declared : List (String × TypeId))
    (offset : Nat) :
    TypeTable.placeFields { t with structs := t.structs.push s } declared offset =
      t.placeFields declared offset := by
  induction declared generalizing offset with
  | nil => rfl
  | cons field declared ih =>
    simp only [placeFields, ih]
    rfl

/-- Calls for kinds other than structures are vetted for the entries of the table. -/
theorem Request.vet_of_entries {request : Request}
    (hrequest : ∀ name fields, request ≠ .declareStruct name fields)
    (hentries : u.entries = t.entries) :
    request.vet u = (request.vet t).map fun vetted => (u, vetted.2) := by
  have hcheck : u.check = t.check := by
    funext type
    rw [check, check, contains, contains, hentries]
  have hvalue : u.checkValue = t.checkValue := by
    funext type
    rw [checkValue, checkValue, hcheck]
  cases request with
  | reference target =>
    simp only [vet, hcheck, bind, Except.bind]
    cases t.check target <;> rfl
  | array element length =>
    simp only [vet, hvalue, bind, Except.bind]
    cases t.checkValue element <;> rfl
  | span element =>
    simp only [vet, hvalue, bind, Except.bind]
    cases t.checkValue element <;> rfl
  | function params result =>
    simp only [vet, hcheck, hvalue, bind, Except.bind]
    cases params.forM t.checkValue with
    | error e => rfl
    | ok _ =>
      dsimp only
      cases t.check result <;> rfl
  | declareStruct name fields => exact absurd rfl (hrequest name fields)

/-- Kinds other than structures have the answers that the entries and the index give. -/
theorem Coherent.answer_of_extends (h : t.Coherent) (hu : u.Coherent) (hext : t.Extends u)
    (hentries : u.entries = t.entries) (hindex : u.index = t.index) {next : Request}
    (hnext : ∀ name fields, next ≠ .declareStruct name fields) :
    (next.run u).2 = (next.run t).2 := by
  have hvet' := Request.vet_of_entries hnext hentries
  have hsame := Request.vet_of_entries hnext (rfl : t.entries = t.entries)
  rw [Request.run_eq, Request.run_eq]
  cases hvet : next.vet t with
  | error e =>
    rw [hvet', hvet]
    rfl
  | ok vetted =>
    obtain ⟨t', kind⟩ := vetted
    rw [hvet] at hvet' hsame
    cases hsame
    have hkind := (h.vetted hvet).2.1
    have hkind' := (hu.vetted hvet').2.1
    have hfind : u.find? kind = t.find? kind := by rw [find?, find?, hindex]
    have hsize : u.size = t.size := congrArg Array.size hentries
    rw [hvet']
    dsimp only [Except.map]
    rw [hu.answer_eq hkind', h.answer_eq hkind, hext.kindLayout_eq hkind.parts, hfind, hsize]

/-- A structure of another name has the layout, and the id, that it would have had. -/
theorem Coherent.declareStruct_declare (h : t.Coherent) (s : StructDecl) (hname : s.name ≠ name) :
    (TypeTable.declareStruct { t with structs := t.structs.push s } name declared).2 =
      (t.declareStruct name declared).2 := by
  obtain ⟨hdeclared, hext⟩ := h.declare s
  by_cases hfresh : ∀ s' ∈ t.structs, s'.name ≠ name
  · have hfresh' : ∀ s' ∈ t.structs.push s, s'.name ≠ name := by
      intro s' hs'
      rcases Array.mem_push.mp hs' with hs' | rfl
      · exact hfresh s' hs'
      · exact hname
    cases hplaced : t.placeFields declared 0 with
    | error e =>
      simp only [declareStruct, any_name_eq_false hfresh, placeFields_declare, hplaced,
        any_name_eq_false (t := { t with structs := t.structs.push s }) hfresh']
      rfl
    | ok placed =>
      have hparts : ∀ f ∈ placed, f.type.index < t.size := lt_size_of_placeFields hplaced
      have hextent := (h.declare ⟨name, placed⟩).2.extent_eq hparts 1 0
      have hextent' := (hext.trans (hdeclared.declare ⟨name, placed⟩).2).extent_eq hparts 1 0
      rw [h.declareStruct_eq hfresh hplaced,
        hdeclared.declareStruct_eq hfresh' ((placeFields_declare t s declared 0).trans hplaced)]
      simp only [kindLayout, Array.getElem?_push_size, hextent, hextent']
      rfl
  · have htaken : (t.structs.toList.any fun s' => s'.name = name) = true := by
      rw [List.any_eq_true]
      simpa using hfresh
    have htaken' : ((t.structs.push s).toList.any fun s' => s'.name = name) = true := by
      rw [Array.toList_push, List.any_append, htaken, Bool.true_or]
    simp only [declareStruct, htaken, htaken', if_true]

/-- A declaration that is left behind takes its name, and changes no other answer. -/
theorem Coherent.answer_declare (h : t.Coherent) (s : StructDecl) (next : Request)
    (hname : ∀ fields, next ≠ .declareStruct s.name fields) :
    (next.run { t with structs := t.structs.push s }).2 = (next.run t).2 := by
  obtain ⟨hdeclared, hext⟩ := h.declare s
  by_cases hstruct : ∃ name fields, next = .declareStruct name fields
  · obtain ⟨name, fields, rfl⟩ := hstruct
    exact h.declareStruct_declare s fun hsame => hname fields (by rw [hsame])
  · exact h.answer_of_extends hdeclared hext rfl rfl
      fun name fields heq => hstruct ⟨name, fields, heq⟩

/-! ## Failing calls -/

/-- What a failing call has kept of a table.  All entries and the index are as they were, so that
every lookup has the same answer, and so has every further call that does not declare a structure of
the same name.  The declaration of a structure is left behind, without a type, if all that fails is
the rounding of its size; otherwise nothing has changed. -/
structure Keeping (t : TypeTable) (request : Request) (e : TypeError) (u : TypeTable) : Prop where
  entries : u.entries = t.entries
  index : u.index = t.index
  answers : SameAnswers t u
  next : ∀ next : Request, (∀ name declared fields, request = .declareStruct name declared →
    next ≠ .declareStruct name fields) → (next.run u).2 = (next.run t).2
  behind : ∀ name declared placed, request = .declareStruct name declared →
    t.OnlyRounds name declared placed → e = .layoutOverflow ∧
      u.structs = t.structs.push ⟨name, placed⟩ ∧ ∀ type, ¬ u.HasKind type (.struct t.structs.size)
  same : (∀ name declared placed, request = .declareStruct name declared →
    ¬ t.OnlyRounds name declared placed) → u = t

theorem keeping_self {request : Request} {e : TypeError}
    (h : ∀ name declared placed, request = .declareStruct name declared →
      ¬ t.OnlyRounds name declared placed) : Keeping t request e t where
  entries := rfl
  index := rfl
  answers := .refl t
  next _ _ := rfl
  behind name declared placed hrequest hrounds := absurd hrounds (h name declared placed hrequest)
  same _ := rfl

/-- A declaration that stays behind keeps everything else. -/
theorem Built.keeping_declare (h : t.Built) (hrounds : t.OnlyRounds name declared placed) :
    Keeping t (.declareStruct name declared) .layoutOverflow
      { t with structs := t.structs.push ⟨name, placed⟩ } where
  entries := rfl
  index := rfl
  answers := h.coherent.sameAnswers_declare _
  next next hnext := h.coherent.answer_declare _ next fun fields => hnext name declared fields rfl
  behind := by
    rintro _ _ placed' ⟨⟩ hrounds'
    have hvet := (h.vet_of_onlyRounds hrounds).symm.trans (h.vet_of_onlyRounds hrounds')
    refine ⟨rfl, ?_, fun type hkind => ?_⟩
    · exact congrArg TypeTable.structs (Prod.mk.inj (Except.ok.inj hvet)).1
    · obtain ⟨s, hs, -⟩ := madeBelow_struct.mp (h.coherent.madeBelow (t := t) hkind)
      simp at hs
  same hnot := absurd hrounds (hnot name declared placed rfl)

/-- **A failing call** keeps everything that has an id. -/
theorem Built.keeping_run (h : t.Built) {request : Request} {e : TypeError}
    (he : (request.run t).2 = .error e) : Keeping t request e (request.run t).1 := by
  rw [Request.run_eq] at he ⊢
  cases hvet : request.vet t with
  | error cause =>
    refine keeping_self ?_
    rintro name declared placed rfl hrounds
    cases hvet.symm.trans (h.vet_of_onlyRounds hrounds)
  | ok vetted =>
    obtain ⟨u, kind⟩ := vetted
    rw [hvet] at he
    obtain ⟨hcoherent, hkind, -, -⟩ := h.coherent.vetted hvet
    obtain ⟨hlayout, htable⟩ := hcoherent.refused_of_internAny hkind he
    dsimp only
    rw [htable]
    by_cases hstruct : ∃ name declared, request = .declareStruct name declared
    · -- the fields are placed, so that the rounding of the size has failed
      obtain ⟨name, declared, rfl⟩ := hstruct
      simp only [Request.vet] at hvet
      split at hvet
      · cases hvet
      next hfresh =>
      obtain ⟨placed, hplaced, hpure⟩ := bind_eq_ok.mp hvet
      cases hpure
      have hfresh' : ∀ s ∈ t.structs, s.name ≠ name := by
        intro s hs hname
        exact hfresh (List.any_eq_true.mpr ⟨s, Array.mem_toList_iff.mpr hs, decide_eq_true hname⟩)
      obtain ⟨rfl, hrounds⟩ := h.coherent.onlyRounds_of_kindLayout hfresh' hplaced hlayout
      exact h.keeping_declare hrounds
    · have hsame := Request.vet_of_entries
        (fun name fields heq => hstruct ⟨name, fields, heq⟩) (rfl : t.entries = t.entries)
      rw [hvet] at hsame
      cases hsame
      exact keeping_self fun name declared _ heq => absurd ⟨name, declared, heq⟩ hstruct

/-- There is no id left for another type in a table of this size. -/
def isFull (size : Nat) : Bool := wordLimit ≤ size

/-- A table with an array of nearly all the bytes that words can count. -/
def attics : TypeTable := (initial.array .uint8 4294967290).1

/-- A hatch before the array leaves room for both, but not for rounding their end up. -/
theorem attics_onlyRounds :
    attics.OnlyRounds "Attic" [("hatch", .int32), ("floor", ⟨24⟩)]
      [⟨"hatch", .int32, 0⟩, ⟨"floor", ⟨24⟩, 4⟩] where
  fresh := by decide
  fields := rfl
  values := by decide
  rounds := by
    refine ⟨[⟨4, 4⟩, ⟨4294967290, 1⟩], 4294967294,
      .cons ⟨_, rfl, rfl⟩ ?_ (.cons ⟨_, rfl, rfl⟩ ?_ .nil), by decide, by decide⟩
    · exact .of_alignUp? (by decide) rfl
    · exact .of_alignUp? (by decide) rfl

end TypeTable

end StackCode
