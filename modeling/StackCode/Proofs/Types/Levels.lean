import StackCode.Proofs.Types.Failures

/-!
# The levels of nested interning

A call of nested interning makes at most two calls of its own: one for the normal form of the kind,
and then one for the reference to the new type.  So one level of it can be looked at with any other
computations below it, and what the whole computation does follows level by level.  More depth does
not change an answer, types are only added, and a kind that is its own normal form is interned
without asking for another normal form.

## Main definitions

* `TypeTable.level`: one level, with the computations below it.
* `TypeTable.nestVerbatim`: nested interning that has no answers for normal forms.
* `TypeTable.Grows`: a table has all types of another, and has more of them after these.

## Main results

* `TypeTable.nest_add`: an answer stays the same at every greater depth.
* `TypeTable.exists_nestVerbatim`: a normal form is interned as it is.
* `TypeTable.growing_nest`: nested interning only adds types.
-/

namespace StackCode

namespace TypeTable

variable {t u v : TypeTable} {type : TypeId} {kind : TypeKind} {full : Nat → Bool} {depth : Nat}
  {o : TypeTable × Except TypeError TypeId}

/-! ## One level of calls -/

/-- A computation that interns kinds. -/
abbrev Interner := TypeTable → TypeKind → Outcome

variable {forms forms' references references' : Interner}

/-- What comes after a computation that does not fail. -/
def andThen (next : TypeTable → TypeId → Outcome) : Outcome → Outcome
  | some (t, .ok type) => next t type
  | failed => failed

/-- One level of nested interning: normal forms and references are left to other computations. -/
def level (full : Nat → Bool) (forms references : Interner) (t : TypeTable) (kind : TypeKind) :
    Outcome :=
  match t.find? kind with
  | some type => some (t, .ok type)
  | none =>
    match t.kindLayout? kind with
    | none => none
    | some (.error e) => some (t, .error e)
    | some (.ok layout) =>
      if full t.size then some (t, .error .layoutOverflow)
      else andThen (fun u _ => refer references u ⟨t.size⟩ kind)
        (classify forms (t.push kind layout).1 ⟨t.size⟩ kind)

theorem nest_succ (full : Nat → Bool) (depth : Nat) (t : TypeTable) (kind : TypeKind) :
    t.nest full (depth + 1) kind = level full (nest full depth) (nest full depth) t kind := rfl

/-- A kind that is its own normal form stands for itself; for any other its normal form is interned.
-/
theorem classify_eq (forms : Interner) (t : TypeTable) (type : TypeId) (kind : TypeKind) :
    classify forms t type kind =
      match t.normalize? kind with
      | none => none
      | some form =>
        if form = kind then some (t, .ok type)
        else andThen (fun u standIn => some (u.setClass type standIn, .ok type))
          (forms t form) := rfl

theorem refer_eq_andThen (references : Interner) (t : TypeTable) (type : TypeId) (kind : TypeKind) :
    refer references t type kind =
      if kind.isReference then some (t, .ok type)
      else andThen (fun u ref => some (u.setReference type ref, .ok type))
        (references t (.reference type)) := rfl

theorem andThen_eq_some {next : TypeTable → TypeId → Outcome} {x : Outcome} :
    andThen next x = some o ↔
      (∃ u type, x = some (u, .ok type) ∧ next u type = some o) ∨
        ∃ u e, x = some (u, .error e) ∧ o = (u, .error e) := by
  rcases x with _ | ⟨u, e | type⟩
  · simp [andThen]
  · simp [andThen, eq_comm]
  · simp [andThen]

/-- What one level can do. -/
theorem level_cases (h : level full forms references t kind = some o) :
    (∃ type, t.find? kind = some type ∧ o = (t, .ok type)) ∨
    t.find? kind = none ∧
      ((∃ e, t.kindLayout? kind = some (.error e) ∧ o = (t, .error e)) ∨
      ∃ layout, t.kindLayout? kind = some (.ok layout) ∧
        ((full t.size = true ∧ o = (t, .error .layoutOverflow)) ∨
        full t.size = false ∧
          andThen (fun u _ => refer references u ⟨t.size⟩ kind)
            (classify forms (t.push kind layout).1 ⟨t.size⟩ kind) = some o)) := by
  unfold level at h
  split at h
  · next type hfind =>
    cases h
    exact .inl ⟨type, hfind, rfl⟩
  · next hfind =>
    refine .inr ⟨hfind, ?_⟩
    split at h
    · cases h
    · next e hlayout =>
      cases h
      exact .inl ⟨e, hlayout, rfl⟩
    · next layout hlayout =>
      refine .inr ⟨layout, hlayout, ?_⟩
      split at h
      · next hfull =>
        cases h
        exact .inl ⟨hfull, rfl⟩
      · next hroom => exact .inr ⟨Bool.eq_false_iff.mpr hroom, h⟩

theorem classify_cases (h : classify forms t type kind = some o) :
    ∃ form, t.normalize? kind = some form ∧
      ((form = kind ∧ o = (t, .ok type)) ∨
      form ≠ kind ∧
        andThen (fun u standIn => some (u.setClass type standIn, .ok type)) (forms t form) =
          some o) := by
  rw [classify_eq] at h
  split at h
  · cases h
  · next form hform =>
    refine ⟨form, hform, ?_⟩
    split at h
    · next hsame =>
      cases h
      exact .inl ⟨hsame, rfl⟩
    · next hne => exact .inr ⟨hne, h⟩

theorem refer_cases (h : refer references t type kind = some o) :
    (kind.isReference = true ∧ o = (t, .ok type)) ∨
      kind.isReference = false ∧
        andThen (fun u ref => some (u.setReference type ref, .ok type))
          (references t (.reference type)) = some o := by
  rw [refer_eq_andThen] at h
  split at h
  · next hkind =>
    cases h
    exact .inl ⟨hkind, rfl⟩
  · next hkind => exact .inr ⟨Bool.eq_false_iff.mpr hkind, h⟩

/-! ## Deeper calls -/

/-- A sequence keeps its answer if its parts do. -/
theorem andThen_mono {next next' : TypeTable → TypeId → Outcome} {x x' : Outcome}
    (hx : ∀ c, x = some c → x' = some c)
    (hnext : ∀ u type, next u type = some o → next' u type = some o)
    (h : andThen next x = some o) : andThen next' x' = some o := by
  obtain ⟨u, type, hanswer, h⟩ | ⟨u, e, hanswer, rfl⟩ := andThen_eq_some.mp h
  · exact andThen_eq_some.mpr (.inl ⟨u, type, hx _ hanswer, hnext u type h⟩)
  · exact andThen_eq_some.mpr (.inr ⟨u, e, hx _ hanswer, rfl⟩)

/-- The second computation has all answers of the first. -/
def Answers (f g : Interner) : Prop :=
  ∀ ⦃t : TypeTable⦄ ⦃kind : TypeKind⦄ ⦃o : TypeTable × Except TypeError TypeId⦄,
    f t kind = some o → g t kind = some o

/-- Classes are found as before if more kinds are answered. -/
theorem Answers.classify (hforms : Answers forms forms')
    (h : classify forms t type kind = some o) : classify forms' t type kind = some o := by
  obtain ⟨form, hform, ⟨rfl, rfl⟩ | ⟨hne, h⟩⟩ := classify_cases h
  · simp only [classify_eq, hform, if_true]
  · simp only [classify_eq, hform, if_neg hne]
    exact andThen_mono (fun c hc => hforms hc) (fun _ _ h => h) h

/-- References are found as before if more kinds are answered. -/
theorem Answers.refer (hreferences : Answers references references')
    (h : refer references t type kind = some o) : refer references' t type kind = some o := by
  obtain ⟨hkind, rfl⟩ | ⟨hkind, h⟩ := refer_cases h
  · rw [refer_eq_andThen, if_pos hkind]
  · rw [refer_eq_andThen, hkind]
    exact andThen_mono (fun c hc => hreferences hc) (fun _ _ h => h) h

/-- A level with more answers below it has more answers. -/
theorem Answers.level (hforms : Answers forms forms')
    (hreferences : Answers references references') :
    Answers (level full forms references) (level full forms' references') := by
  intro t kind o h
  obtain ⟨type, hfind, rfl⟩ | ⟨hfind, ⟨e, hlayout, rfl⟩ | ⟨layout, hlayout, hnew⟩⟩ := level_cases h
  · simp only [TypeTable.level, hfind]
  · simp only [TypeTable.level, hfind, hlayout]
  · obtain ⟨hfull, rfl⟩ | ⟨hroom, hnew⟩ := hnew
    · simp only [TypeTable.level, hfind, hlayout, hfull, if_true]
    · simp only [TypeTable.level, hfind, hlayout, hroom]
      exact andThen_mono (fun c hc => hforms.classify hc) (fun u _ h => hreferences.refer h) hnew

theorem answers_none (f : Interner) : Answers (fun _ _ => none) f := fun _ _ _ h => nomatch h

/-- More levels answer whatever fewer levels answer. -/
theorem answers_add {f : Nat → Interner} (hstep : ∀ depth, Answers (f depth) (f (depth + 1)))
    (depth more : Nat) : Answers (f depth) (f (depth + more)) := by
  induction more with
  | zero => exact fun _ _ _ h => h
  | succ more ih => exact fun _ _ _ h => hstep _ (ih h)

theorem answers_nest_succ (full : Nat → Bool) (depth : Nat) :
    Answers (nest full depth) (nest full (depth + 1)) := by
  induction depth with
  | zero => exact answers_none _
  | succ depth ih => exact ih.level ih

/-- An answer stays the same at every greater depth. -/
theorem nest_add (h : t.nest full depth kind = some o) (more : Nat) :
    t.nest full (depth + more) kind = some o :=
  answers_add (answers_nest_succ full) depth more h

/-! ## Normal forms are interned as they are -/

/-- Nested interning without answers for normal forms: a kind that is not its own normal form has to
be there already. -/
def nestVerbatim (full : Nat → Bool) : (depth : Nat) → Interner
  | 0 => fun _ _ => none
  | depth + 1 => level full (fun _ _ => none) (nestVerbatim full depth)

/-- Interning without normal forms answers as interning does. -/
theorem answers_nestVerbatim (full : Nat → Bool) (depth : Nat) :
    Answers (nestVerbatim full depth) (nest full depth) := by
  induction depth with
  | zero => exact answers_none _
  | succ depth ih => exact (answers_none _).level ih

theorem answers_nestVerbatim_succ (full : Nat → Bool) (depth : Nat) :
    Answers (nestVerbatim full depth) (nestVerbatim full (depth + 1)) := by
  induction depth with
  | zero => exact answers_none _
  | succ depth ih => exact (answers_none _).level ih

/-- A level has an answer if what is left to do for a new kind has one. -/
theorem exists_level (hparts : t.MadeBelow t.size kind)
    (hnormal : ∀ layout, (t.push kind layout).1.normalize? kind = some kind)
    (hrefer : ∀ layout, ∃ o, refer references (t.push kind layout).1 ⟨t.size⟩ kind = some o) :
    ∃ o, level full forms references t kind = some o := by
  unfold level
  cases t.find? kind with
  | some type => exact ⟨_, rfl⟩
  | none =>
    rw [kindLayout?_eq hparts]
    cases t.kindLayout kind with
    | error e => exact ⟨_, rfl⟩
    | ok layout =>
      dsimp only
      split
      · exact ⟨_, rfl⟩
      · simp only [classify_eq, hnormal layout, if_true]
        exact hrefer layout

/-- The parts of a new type are found when its normal form is. -/
theorem normalize?_push (hparts : t.MadeBelow t.size kind) (layout : Layout) :
    (t.push kind layout).1.normalize? kind = some (t.normalize kind) := by
  have hext : t.Extends (t.push kind layout).1 := extends_add t _
  rw [normalize?_eq ((hparts.extends hext).mono hext.size_le), hext.normalize_eq hparts]

/-- A reference to a type that stands for itself is interned as it is.  A reference is not referred
to, so there is no call below this one. -/
theorem exists_nestVerbatim_reference (full : Nat → Bool) (depth : Nat) {target : TypeId}
    (htarget : target.index < t.size) (hself : t.standIn target = target) :
    ∃ o, nestVerbatim full (depth + 1) t (.reference target) = some o := by
  have hparts : t.MadeBelow t.size (.reference target) := madeBelow_reference.mpr htarget
  refine exists_level hparts (fun layout => ?_) fun layout => ?_
  · rw [normalize?_push hparts, normalize, hself]
  · exact ⟨_, rfl⟩

/-- **A normal form is interned as it is**: its own normal form is not asked for.  The new type has
no class yet, so that the reference to it is its own normal form. -/
theorem exists_nestVerbatim (full : Nat → Bool) (depth : Nat) (hparts : t.MadeBelow t.size kind)
    (hnormal : t.normalize kind = kind) : ∃ o, nestVerbatim full (depth + 2) t kind = some o := by
  refine exists_level hparts (fun layout => ?_) fun layout => ?_
  · rw [normalize?_push hparts, hnormal]
  · rw [refer_eq_andThen]
    split
    · exact ⟨_, rfl⟩
    · have hlt : (⟨t.size⟩ : TypeId).index < (t.push kind layout).1.size := by simp [push_eq]
      obtain ⟨⟨u, e | ref⟩, hanswer⟩ :=
        exists_nestVerbatim_reference full depth hlt (standIn_push t kind layout)
      · exact ⟨_, by rw [hanswer]; rfl⟩
      · exact ⟨_, by rw [hanswer]; rfl⟩

/-! ## What calls leave behind -/

/-- The kinds of the types of a table, in the order of their ids. -/
def kinds (t : TypeTable) : List TypeKind := t.entries.toList.map TypeEntry.kind

@[simp] theorem length_kinds (t : TypeTable) : t.kinds.length = t.size := by simp [kinds, size]

@[simp] theorem kinds_add (t : TypeTable) (e : TypeEntry) :
    (t.add e).kinds = t.kinds ++ [e.kind] := by
  simp [kinds, add]

theorem kinds_modify (t : TypeTable) (i : Nat) {f : TypeEntry → TypeEntry}
    (hf : ∀ e, (f e).kind = e.kind) :
    kinds { t with entries := t.entries.modify i f } = t.kinds := by
  refine List.ext_getElem? fun j => ?_
  simp only [kinds, List.getElem?_map, Array.getElem?_toList, Array.getElem?_modify]
  split
  · rw [Option.map_map]
    exact congrArg (fun g => Option.map g _) (funext hf)
  · rfl

@[simp] theorem kinds_setClass (t : TypeTable) (type standIn : TypeId) :
    (t.setClass type standIn).kinds = t.kinds :=
  t.kinds_modify type.index fun _ => rfl

@[simp] theorem kinds_setReference (t : TypeTable) (type ref : TypeId) :
    (t.setReference type ref).kinds = t.kinds :=
  t.kinds_modify type.index fun _ => rfl

/-- `u` has the types of `t`, unchanged, and maybe more of them after these. -/
structure Grows (t u : TypeTable) : Prop where
  keeps : t.Extends u
  structs : u.structs = t.structs
  kinds : t.kinds <+: u.kinds

theorem Grows.refl (t : TypeTable) : Grows t t := ⟨.refl t, rfl, List.prefix_rfl⟩

theorem Grows.trans (htu : Grows t u) (huv : Grows u v) : Grows t v :=
  ⟨htu.keeps.trans huv.keeps, huv.structs.trans htu.structs, htu.kinds.trans huv.kinds⟩

theorem grows_push (t : TypeTable) (kind : TypeKind) (layout : Layout) :
    Grows t (t.push kind layout).1 :=
  ⟨extends_add t _, rfl, by simp [push_eq]⟩

/-- Entries that are new may still change. -/
theorem Grows.modify (h : Grows t u) {i : Nat} (hi : t.size ≤ i) {f : TypeEntry → TypeEntry}
    (hf : ∀ e, (f e).kind = e.kind) : Grows t { u with entries := u.entries.modify i f } where
  keeps := by
    refine ⟨fun {type e} he => ?_, fun hs => h.keeps.struct hs⟩
    have hne : i ≠ type.index := Nat.ne_of_gt (Nat.lt_of_lt_of_le (lt_size_of_found he) hi)
    exact (Array.getElem?_modify.trans (if_neg hne)).trans (h.keeps.entry he)
  structs := h.structs
  kinds := by
    rw [kinds_modify u i hf]
    exact h.kinds

/-- The answers of a computation come with tables that have grown. -/
def Growing (f : Interner) : Prop :=
  ∀ ⦃t : TypeTable⦄ ⦃kind : TypeKind⦄ ⦃o : TypeTable × Except TypeError TypeId⦄,
    f t kind = some o → Grows t o.1

/-! The entry of the new type does change while its class and its reference are looked for, so that
only the kinds of the types before these calls can be compared with those after them.  The entries
that stay are those from before the new type. -/

/-- The types that are there when a class is looked for stay there, the new one among them. -/
theorem Growing.prefix_classify (hforms : Growing forms) (h : classify forms t type kind = some o) :
    t.kinds <+: o.1.kinds := by
  obtain ⟨form, -, ⟨-, rfl⟩ | ⟨-, h⟩⟩ := classify_cases h
  · exact List.prefix_rfl
  · obtain ⟨u, standIn, hintern, ⟨⟩⟩ | ⟨u, e, hintern, rfl⟩ := andThen_eq_some.mp h
    · simpa using (hforms hintern).kinds
    · exact (hforms hintern).kinds

theorem Growing.prefix_refer (hreferences : Growing references)
    (h : refer references t type kind = some o) : t.kinds <+: o.1.kinds := by
  obtain ⟨-, rfl⟩ | ⟨-, h⟩ := refer_cases h
  · exact List.prefix_rfl
  · obtain ⟨u, ref, hintern, ⟨⟩⟩ | ⟨u, e, hintern, rfl⟩ := andThen_eq_some.mp h
    · simpa using (hreferences hintern).kinds
    · exact (hreferences hintern).kinds

/-- Giving a new type its class changes no older one. -/
theorem Growing.classify (hforms : Growing forms) (hgrows : Grows t u) (htype : t.size ≤ type.index)
    (h : classify forms u type kind = some o) : Grows t o.1 := by
  obtain ⟨form, -, ⟨-, rfl⟩ | ⟨-, h⟩⟩ := classify_cases h
  · exact hgrows
  · obtain ⟨v, standIn, hintern, ⟨⟩⟩ | ⟨v, e, hintern, rfl⟩ := andThen_eq_some.mp h
    · exact (hgrows.trans (hforms hintern)).modify htype fun _ => rfl
    · exact hgrows.trans (hforms hintern)

/-- Giving a new type its reference changes no older one. -/
theorem Growing.refer (hreferences : Growing references) (hgrows : Grows t u)
    (htype : t.size ≤ type.index) (h : refer references u type kind = some o) : Grows t o.1 := by
  obtain ⟨-, rfl⟩ | ⟨-, h⟩ := refer_cases h
  · exact hgrows
  · obtain ⟨v, ref, hintern, ⟨⟩⟩ | ⟨v, e, hintern, rfl⟩ := andThen_eq_some.mp h
    · exact (hgrows.trans (hreferences hintern)).modify htype fun _ => rfl
    · exact hgrows.trans (hreferences hintern)

/-- A level only adds types if those below it do. -/
theorem Growing.level (hforms : Growing forms) (hreferences : Growing references) :
    Growing (level full forms references) := by
  intro t kind o h
  obtain ⟨type, -, rfl⟩ | ⟨-, ⟨e, -, rfl⟩ | ⟨layout, -, ⟨-, rfl⟩ | ⟨-, h⟩⟩⟩ := level_cases h
  · exact .refl t
  · exact .refl t
  · exact .refl t
  · have hpush := grows_push t kind layout
    obtain ⟨u, type, hclass, h⟩ | ⟨u, e, hclass, rfl⟩ := andThen_eq_some.mp h
    · have hclassified := hforms.classify hpush (Nat.le_refl _) hclass
      exact hreferences.refer hclassified (Nat.le_refl _) h
    · exact hforms.classify hpush (Nat.le_refl _) hclass

/-- Nested interning only adds types. -/
theorem growing_nest (full : Nat → Bool) (depth : Nat) : Growing (nest full depth) := by
  induction depth with
  | zero => exact fun _ _ _ h => nomatch h
  | succ depth ih => exact ih.level ih

end TypeTable

end StackCode
