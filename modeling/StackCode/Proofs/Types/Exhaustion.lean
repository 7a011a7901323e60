import StackCode.Proofs.Types.Levels

/-!
# Running out of ids

Ids are words, so there is a last one.  Nested interning may find that none is left at any of its
levels, and then stops with what it has added so far, which need not be finished.  But a table that
has come to this is full, and no call changes its types any more.  So every table that calls lead to
is one that the operations build as if ids did not run out, or it is full.

## Main definitions

* `TypeTable.Limited`: what is left of an answer if ids are words.
* `TypeTable.Reached`: the tables that calls lead to if ids are words.

## Main results

* `TypeTable.limits_nest`: running out of ids stops nested interning.
* `TypeTable.Reached.built_or_full`: a table is one of the operations, or full.
* `TypeTable.reached_iff_built`: with ids left, the tables that calls lead to are those of the
  operations.
-/

namespace StackCode

namespace TypeTable

variable {t u : TypeTable} {type : TypeId} {kind : TypeKind} {full : Nat → Bool} {depth : Nat}
  {o : TypeTable × Except TypeError TypeId} {forms forms' references references' : Interner}

/-! ## Computations that stop -/

/-- There is an id for every type. -/
def neverFull (_ : Nat) : Bool := false

/-- What is left of an answer if ids are words.  It is the same if all types have ids; otherwise the
computation stops when there is none left, with the types that it has added so far. -/
inductive Limited : TypeTable × Except TypeError TypeId → Outcome → Prop
  | fits {u : TypeTable} {answer : Except TypeError TypeId} (h : u.size ≤ wordLimit) :
      Limited (u, answer) (some (u, answer))
  | stops {u v : TypeTable} {answer : Except TypeError TypeId} (h : wordLimit < u.size)
      (hkinds : v.kinds = u.kinds.take wordLimit) :
      Limited (u, answer) (some (v, .error .layoutOverflow))

/-- The table that is left has the kinds that there are ids for. -/
theorem Limited.kinds_eq {c : TypeTable × Except TypeError TypeId} {x : Outcome}
    (h : Limited c x) : ∃ u answer, x = some (u, answer) ∧ u.kinds = c.1.kinds.take wordLimit := by
  cases h with
  | fits hfit => exact ⟨_, _, rfl, (List.take_of_length_le (by simpa using hfit)).symm⟩
  | stops _ hkinds => exact ⟨_, _, rfl, hkinds⟩

/-- A computation that stays within the ids has not been stopped. -/
theorem Limited.eq_of_size_le {c : TypeTable × Except TypeError TypeId} {x : Outcome}
    (h : Limited c x) (hfit : c.1.size ≤ wordLimit) : x = some c := by
  cases h with
  | fits _ => rfl
  | stops hmore _ => exact absurd hfit (Nat.not_le.mpr hmore)

/-- A computation that has stopped stays so, whatever would have come after it.  What would have
come next only adds types after those that have no ids. -/
theorem limited_andThen {x x' : Outcome} {next next' : TypeTable → TypeId → Outcome}
    (hx : ∀ c, x = some c → Limited c x') (h : andThen next x = some o)
    (hgrows : ∀ u type, next u type = some o → u.kinds <+: o.1.kinds)
    (hnext : ∀ u type, u.size ≤ wordLimit → next u type = some o → Limited o (next' u type)) :
    Limited o (andThen next' x') := by
  obtain ⟨u, type, hanswer, h⟩ | ⟨u, e, hanswer, rfl⟩ := andThen_eq_some.mp h
  · cases hx _ hanswer with
    | fits hfit => exact hnext u type hfit h
    | stops hmore hkinds =>
      have hprefix := hgrows u type h
      refine .stops (Nat.lt_of_lt_of_le hmore (by simpa using hprefix.length_le)) ?_
      obtain ⟨rest, hrest⟩ := hprefix
      rw [hkinds, ← hrest, List.take_append_of_le_length (by simpa using hmore.le)]
  · cases hx _ hanswer with
    | fits hfit => exact .fits hfit
    | stops hmore hkinds => exact .stops hmore hkinds

/-- The second computation does what is left of the first if ids are words. -/
def Limits (f g : Interner) : Prop :=
  ∀ ⦃t : TypeTable⦄ ⦃kind : TypeKind⦄ ⦃o : TypeTable × Except TypeError TypeId⦄,
    t.size ≤ wordLimit → f t kind = some o → Limited o (g t kind)

/-- Giving a class stops where there are no ids. -/
theorem Limits.classify (hforms : Limits forms forms') (hsize : t.size ≤ wordLimit)
    (h : classify forms t type kind = some o) : Limited o (classify forms' t type kind) := by
  obtain ⟨form, hform, ⟨rfl, rfl⟩ | ⟨hne, h⟩⟩ := classify_cases h
  · simp only [classify_eq, hform, if_true]
    exact .fits hsize
  · simp only [classify_eq, hform, if_neg hne]
    refine limited_andThen (fun c hc => hforms hsize hc) h ?_ ?_
    · rintro u standIn ⟨⟩
      exact (u.kinds_setClass type standIn).symm ▸ List.prefix_rfl
    · rintro u standIn hfit ⟨⟩
      exact .fits (Array.size_modify.trans_le hfit)

theorem Limits.refer (hreferences : Limits references references') (hsize : t.size ≤ wordLimit)
    (h : refer references t type kind = some o) : Limited o (refer references' t type kind) := by
  obtain ⟨hkind, rfl⟩ | ⟨hkind, h⟩ := refer_cases h
  · rw [refer_eq_andThen, if_pos hkind]
    exact .fits hsize
  · rw [refer_eq_andThen, hkind]
    refine limited_andThen (fun c hc => hreferences hsize hc) h ?_ ?_
    · rintro u ref ⟨⟩
      exact (u.kinds_setReference type ref).symm ▸ List.prefix_rfl
    · rintro u ref hfit ⟨⟩
      exact .fits (Array.size_modify.trans_le hfit)

/-- A level stops where there are no ids, if those below it do.  If there is no id for the kind
itself, the table stays as it is. -/
theorem Limits.level (hforms : Limits forms forms') (hreferences : Limits references references')
    (hgrowing : Growing forms) (hgrowing' : Growing references) :
    Limits (level neverFull forms references) (level isFull forms' references') := by
  intro t kind ⟨w, answer⟩ hsize h
  obtain ⟨type, hfind, ⟨⟩⟩ | ⟨hfind, ⟨e, hlayout, ⟨⟩⟩ | ⟨layout, hlayout, ⟨⟨⟩, -⟩ | ⟨-, h⟩⟩⟩ :=
    level_cases h
  · simp only [TypeTable.level, hfind]
    exact .fits hsize
  · simp only [TypeTable.level, hfind, hlayout]
    exact .fits hsize
  · simp only [TypeTable.level, hfind, hlayout]
    have hpushed : (t.push kind layout).1.size = t.size + 1 := size_add t _
    by_cases hlt : t.size < wordLimit
    · rw [if_neg (by simpa [isFull] using hlt)]
      refine limited_andThen (fun c hc => hforms.classify (by omega) hc) h ?_ ?_
      · intro u _ hrefer
        exact hgrowing'.prefix_refer hrefer
      · intro u _ hfit hrefer
        exact hreferences.refer hfit hrefer
    · have hprefix : (t.push kind layout).1.kinds <+: w.kinds := by
        obtain ⟨u, _, hclass, hrefer⟩ | ⟨u, e, hclass, ⟨⟩⟩ := andThen_eq_some.mp h
        · exact (hgrowing.prefix_classify hclass).trans (hgrowing'.prefix_refer hrefer)
        · exact hgrowing.prefix_classify hclass
      rw [if_pos (by simpa [isFull] using hlt)]
      refine .stops ?_ ?_
      · have hle := hprefix.length_le
        rw [length_kinds, length_kinds] at hle
        omega
      · rw [push_eq, kinds_add] at hprefix
        have htake := List.prefix_iff_eq_take.mp ((List.prefix_append _ _).trans hprefix)
        rwa [length_kinds, Nat.le_antisymm hsize (Nat.le_of_not_lt hlt)] at htake

/-- **Running out of ids** stops nested interning, and nothing else is different. -/
theorem limits_nest (depth : Nat) : Limits (nest neverFull depth) (nest isFull depth) := by
  induction depth with
  | zero => exact fun _ _ _ _ h => nomatch h
  | succ depth ih => exact ih.level ih (growing_nest _ _) (growing_nest _ _)

/-- A full table does not change. -/
theorem nest_of_full (hfull : full t.size = true) (h : t.nest full depth kind = some o) :
    o.1 = t := by
  cases depth with
  | zero => cases h
  | succ depth =>
    obtain ⟨type, -, rfl⟩ | ⟨-, ⟨e, -, rfl⟩ | ⟨layout, -, ⟨-, rfl⟩ | ⟨hroom, -⟩⟩⟩ := level_cases h
    · rfl
    · rfl
    · rfl
    · cases hfull.symm.trans hroom

/-! ## The tables that calls lead to -/

/-- The tables that calls lead to if ids are words, at whatever depth they come to an end.  A call
that stops for want of an id counts too, with the entries that it leaves behind; one that is not
vetted leaves nothing. -/
inductive Reached : TypeTable → Prop
  | initial : Reached initial
  | interned {t u v : TypeTable} {request : Request} {kind : TypeKind} {depth : Nat}
      {answer : Except TypeError TypeId} (h : Reached t) (hvet : request.vet t = .ok (u, kind))
      (hnest : u.nest isFull depth kind = some (v, answer)) : Reached v

/-- A call that is vetted leaves the types alone. -/
theorem size_of_vet {request : Request} (hvet : request.vet t = .ok (u, kind)) :
    u.size = t.size := by
  obtain ⟨-, rfl | ⟨s, rfl⟩⟩ := askable_of_vet hvet <;> rfl

/-- In a finished table all types get ids, or the table becomes full. -/
theorem Coherent.limited_nest (h : t.Coherent) (hparts : t.MadeBelow t.size kind)
    (hsize : t.size ≤ wordLimit) (depth : Nat) :
    Limited (t.internAny kind) (t.nest isFull (depth + 4) kind) :=
  limits_nest _ hsize (h.nest_of_parts hparts (fun _ _ => rfl) depth)

/-- **Running out of ids** stops a call of the operations of a finished table. -/
theorem Coherent.limited_serve (h : t.Coherent) (hsize : t.size ≤ wordLimit) (request : Request) :
    Limited (request.run t) (request.serve isFull t) := by
  rw [Request.run_eq, Request.serve]
  cases hvet : request.vet t with
  | error e => exact .fits hsize
  | ok vetted =>
    obtain ⟨hvetted, hkind, -, -⟩ := h.vetted hvet
    exact hvetted.limited_nest hkind.parts ((size_of_vet hvet).trans_le hsize) 0

/-- **A table is one of the operations, or full.** -/
theorem Reached.built_or_full (h : t.Reached) :
    t.Built ∧ t.size ≤ wordLimit ∨ t.size = wordLimit := by
  induction h with
  | initial => exact .inl ⟨.initial, by decide⟩
  | @interned t u v request kind depth answer _ hvet hnest ih =>
    have hsize := size_of_vet hvet
    rcases ih with ⟨hbuilt, hle⟩ | hfull
    · have hrun : request.run t = u.internAny kind := by rw [Request.run_eq, hvet]
      have hinterned : (u.internAny kind).1.Built := hrun ▸ hbuilt.run request
      obtain ⟨hvetted, hkind, -, -⟩ := hbuilt.coherent.vetted hvet
      have hlimited := hvetted.limited_nest hkind.parts (hsize.trans_le hle) depth
      rw [nest_add hnest 4] at hlimited
      generalize u.internAny kind = plain at hlimited hinterned
      cases hlimited with
      | fits hfit => exact .inl ⟨hinterned, hfit⟩
      | stops hmore hkinds =>
        refine .inr ?_
        rw [← length_kinds, hkinds, List.length_take, length_kinds]
        exact Nat.min_eq_left hmore.le
    · obtain rfl : v = u := nest_of_full (by simp [isFull, hsize, hfull]) hnest
      exact .inr (hsize.trans hfull)

/-- A table that calls lead to is coherent or full. -/
theorem Reached.coherent_or_full (h : t.Reached) :
    t.Coherent ∧ t.size ≤ wordLimit ∨ t.size = wordLimit :=
  h.built_or_full.imp_left (And.imp_left Built.coherent)

/-- A call that runs leads to a table that is reached, if there are ids for all types. -/
theorem Reached.run (h : t.Reached) (hcoherent : t.Coherent) (request : Request)
    (hfit : (request.run t).1.size ≤ wordLimit) : (request.run t).1.Reached := by
  have hsize := (hcoherent.run request).2.size_le.trans hfit
  rw [Request.run_eq] at hfit ⊢
  cases hvet : request.vet t with
  | error e => exact h
  | ok vetted =>
    obtain ⟨u, kind⟩ := vetted
    rw [hvet] at hfit
    obtain ⟨hvetted, hkind, -, -⟩ := hcoherent.vetted hvet
    have hlimited := hvetted.limited_nest hkind.parts ((size_of_vet hvet).trans_le hsize) 0
    exact .interned h hvet (hlimited.eq_of_size_le hfit)

/-- The tables of the operations are reached, as long as there are ids for all types. -/
theorem Built.reached (h : t.Built) (hsize : t.size ≤ wordLimit) : t.Reached := by
  have hstep {t : TypeTable} (h : t.Built) (ih : t.size ≤ wordLimit → t.Reached) (request : Request)
      (hfit : (request.run t).1.size ≤ wordLimit) : (request.run t).1.Reached :=
    (ih ((h.coherent.run request).2.size_le.trans hfit)).run h.coherent request hfit
  induction h with
  | initial => exact .initial
  | reference h target ih => exact hstep h ih (.reference target) hsize
  | array h element length ih => exact hstep h ih (.array element length) hsize
  | span h element ih => exact hstep h ih (.span element) hsize
  | function h params result ih => exact hstep h ih (.function params result) hsize
  | declareStruct h name fields ih => exact hstep h ih (.declareStruct name fields) hsize

/-- **With ids left, the tables that calls lead to are those of the operations.** -/
theorem reached_iff_built (hids : t.size < wordLimit) : t.Reached ↔ t.Built := by
  refine ⟨fun h => ?_, fun h => h.reached hids.le⟩
  rcases h.built_or_full with ⟨hbuilt, -⟩ | hfull
  · exact hbuilt
  · exact absurd hfull hids.ne

end TypeTable

end StackCode
