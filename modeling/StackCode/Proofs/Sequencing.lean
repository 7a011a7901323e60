import Mathlib.Data.List.Forall2
import StackCode.Fault

/-!
# Sequences of computations

A sequence of computations succeeds exactly if each of its parts does.  These are the rules by which
proofs take a successful run apart.

## Main results

* `bind_eq_ok`, `mapError_eq_ok`: one computation after another.
* `mapM_eq_ok`, `forM_eq_ok`: a computation for each element of a list.
* `exists_foldlM_eq_ok`, `foldlM_eq_error`: steps of a state along a list.
* `getElem?_of_forall₂`, `mem_of_forall₂`, `exists_forall₂_iff`, `forall₂_trans`,
  `forall₂_eq_map_iff`: corresponding lists.
-/

namespace StackCode

variable {ε δ α β γ : Type}

theorem bind_eq_ok {x : Except ε α} {f : α → Except ε β} {b : β} :
    x >>= f = .ok b ↔ ∃ a, x = .ok a ∧ f a = .ok b := by
  cases x <;> simp [bind, Except.bind]

theorem bind_eq_error {x : Except ε α} {f : α → Except ε β} {e : ε} :
    x >>= f = .error e ↔ x = .error e ∨ ∃ a, x = .ok a ∧ f a = .error e := by
  cases x <;> simp [bind, Except.bind]

theorem pure_eq_ok {a b : α} : (pure a : Except ε α) = .ok b ↔ a = b := by
  simp [pure, Except.pure]

theorem mapError_eq_ok {f : ε → δ} {x : Except ε α} {a : α} :
    x.mapError f = .ok a ↔ x = .ok a := by
  cases x with
  | ok b =>
    constructor <;> intro h <;> cases h <;> rfl
  | error e =>
    constructor <;> intro h <;> cases h

theorem toOption_eq_some {x : Except ε α} {a : α} : x.toOption = some a ↔ x = .ok a := by
  cases x <;> simp [Except.toOption]

/-- Corresponding lists have corresponding elements at each position. -/
theorem getElem?_of_forall₂ {R : α → β → Prop} {l : List α} {r : List β}
    (h : List.Forall₂ R l r) {i : Nat} {a : α} (ha : l[i]? = some a) :
    ∃ b, r[i]? = some b ∧ R a b := by
  induction h generalizing i with
  | nil => cases ha
  | cons hab _ ih =>
    cases i with
    | zero =>
      cases ha
      exact ⟨_, rfl, hab⟩
    | succ i => exact ih ha

theorem rel_getElem?_of_forall₂ {R : α → β → Prop} {l : List α} {r : List β}
    (h : List.Forall₂ R l r) (i : Nat) : Option.Rel R l[i]? r[i]? := by
  induction h generalizing i with
  | nil => exact .none
  | cons hab _ ih =>
    cases i with
    | zero => exact .some hab
    | succ i => exact ih i

theorem any_eq_of_rel {R : α → β → Prop} {x : Option α} {y : Option β} {f : α → Bool}
    {g : β → Bool} (h : Option.Rel R x y) (hfg : ∀ a b, R a b → g b = f a) : y.any g = x.any f := by
  cases h with
  | none => rfl
  | some hab => exact hfg _ _ hab

theorem isSome_eq_of_rel {R : α → β → Prop} {x : Option α} {y : Option β} (h : Option.Rel R x y) :
    y.isSome = x.isSome := by
  cases h <;> rfl

/-- Lists correspond by maps exactly if they are mapped to the same. -/
theorem forall₂_iff_map_eq {f : α → γ} {g : β → γ} {l : List α} {r : List β} :
    List.Forall₂ (fun a b => f a = g b) l r ↔ l.map f = r.map g := by
  rw [← List.forall₂_eq_eq_eq, List.forall₂_map_left_iff, List.forall₂_map_right_iff]

theorem forall₂_eq_map_iff {f : α → β} {l : List α} {r : List β} :
    List.Forall₂ (fun a b => b = f a) l r ↔ r = l.map f := by
  induction l generalizing r with
  | nil => rw [List.forall₂_nil_left_iff, List.map_nil]
  | cons a l ih =>
    rw [List.forall₂_cons_left_iff, List.map_cons]
    constructor
    · rintro ⟨b, rest, rfl, hrest, rfl⟩
      rw [ih.mp hrest]
    · rintro rfl
      exact ⟨f a, l.map f, rfl, ih.mpr rfl, rfl⟩

/-- Corresponding lists correspond along with the positions. -/
theorem forall₂_zipIdx {R : α → β → Prop} {l : List α} {r : List β} (h : List.Forall₂ R l r)
    (start : Nat) : List.Forall₂ (fun a b => R a.1 b.1 ∧ b.2 = a.2) (l.zipIdx start)
      (r.zipIdx start) := by
  induction h generalizing start with
  | nil => exact .nil
  | cons hab _ ih => exact .cons ⟨hab, rfl⟩ (ih (start + 1))

/-- Every element of the second of two corresponding lists corresponds to one of the first. -/
theorem mem_of_forall₂ {R : α → β → Prop} {l : List α} {r : List β} (h : List.Forall₂ R l r)
    {b : β} (hb : b ∈ r) : ∃ a ∈ l, R a b := by
  induction h with
  | nil => cases hb
  | cons hab _ ih =>
    rcases List.mem_cons.mp hb with rfl | hb
    · exact ⟨_, List.mem_cons_self, hab⟩
    · obtain ⟨a, ha, hab⟩ := ih hb
      exact ⟨a, List.mem_cons_of_mem _ ha, hab⟩

/-- A list has a corresponding one if each of its elements has a corresponding one. -/
theorem exists_forall₂_iff {R : α → β → Prop} {l : List α} :
    (∃ r, List.Forall₂ R l r) ↔ ∀ a ∈ l, ∃ b, R a b := by
  induction l with
  | nil => simp
  | cons a l ih =>
    rw [List.forall_mem_cons, ← ih]
    constructor
    · rintro ⟨_, _ | ⟨hab, hrest⟩⟩
      exact ⟨⟨_, hab⟩, _, hrest⟩
    · rintro ⟨⟨b, hab⟩, r, hr⟩
      exact ⟨b :: r, .cons hab hr⟩

/-- The last of elements that correspond. -/
theorem exists_concat_of_forall₂ {R : α → β → Prop} {front : List α} {a : α} {r : List β}
    (h : List.Forall₂ R (front ++ [a]) r) :
    ∃ front' b, r = front' ++ [b] ∧ List.Forall₂ R front front' ∧ R a b := by
  induction front generalizing r with
  | nil =>
    cases h with
    | cons hab hnil =>
      cases hnil
      exact ⟨[], _, rfl, .nil, hab⟩
  | cons x front ih =>
    cases h with
    | cons hx hrest =>
      obtain ⟨front', b, rfl, hfront, hab⟩ := ih hrest
      exact ⟨_ :: front', b, rfl, .cons hx hfront, hab⟩

/-- What corresponds to a list of groups falls into groups. -/
theorem exists_groups_of_forall₂ {R : α → β → Prop} {groups : List (List α)} {r : List β}
    (h : List.Forall₂ R groups.flatten r) :
    ∃ groups', groups'.flatten = r ∧ List.Forall₂ (List.Forall₂ R) groups groups' := by
  induction groups generalizing r with
  | nil =>
    cases h
    exact ⟨[], rfl, .nil⟩
  | cons group groups ih =>
    rw [List.flatten_cons] at h
    have htake := List.forall₂_take group.length h
    have hdrop := List.forall₂_drop group.length h
    rw [List.take_left] at htake
    rw [List.drop_left] at hdrop
    obtain ⟨groups', hflatten, hgroups⟩ := ih hdrop
    refine ⟨r.take group.length :: groups', ?_, .cons htake hgroups⟩
    rw [List.flatten_cons, hflatten, List.take_append_drop]

/-- A relation between lists can be exchanged for one that follows for the elements there are. -/
theorem forall₂_imp_of_mem {R S : α → β → Prop} {l : List α} {r : List β} (h : List.Forall₂ R l r)
    (himp : ∀ a, ∀ b ∈ r, R a b → S a b) : List.Forall₂ S l r := by
  refine List.forall₂_iff_zip.mpr ⟨h.length_eq, fun {a b} hpair => ?_⟩
  exact himp a b (List.of_mem_zip hpair).2 (List.forall₂_zip h hpair)

/-- Correspondences one after the other. -/
theorem forall₂_trans {R : α → β → Prop} {S : β → γ → Prop} {T : α → γ → Prop}
    (h : ∀ a b c, R a b → S b c → T a c) {l : List α} {m : List β} {r : List γ}
    (hlm : List.Forall₂ R l m) (hmr : List.Forall₂ S m r) : List.Forall₂ T l r := by
  induction hlm generalizing r with
  | nil =>
    cases hmr
    exact .nil
  | cons hab _ ih =>
    cases hmr with
    | cons hbc hmr => exact .cons (h _ _ _ hab hbc) (ih hmr)

/-- A list of computations succeeds exactly if each succeeds, with the results in order. -/
theorem mapM_eq_ok {f : α → Except ε β} {l : List α} {r : List β} :
    l.mapM f = .ok r ↔ List.Forall₂ (fun a b => f a = .ok b) l r := by
  induction l generalizing r with
  | nil =>
    rw [List.mapM_nil, pure_eq_ok, List.forall₂_nil_left_iff]
    exact eq_comm
  | cons a l ih =>
    simp only [List.mapM_cons, bind_eq_ok, pure_eq_ok, List.forall₂_cons_left_iff]
    constructor
    · rintro ⟨b, hb, rest, hrest, rfl⟩
      exact ⟨b, rest, hb, ih.mp hrest, rfl⟩
    · rintro ⟨b, rest, hb, hrest, rfl⟩
      exact ⟨b, hb, rest, ih.mpr hrest, rfl⟩

/-- The results of a list of computations, position by position. -/
theorem getElem?_of_mapM {f : α → Except ε β} {l : List α} {r : List β} (h : l.mapM f = .ok r)
    {i : Nat} {a : α} (ha : l[i]? = some a) : ∃ b, r[i]? = some b ∧ f a = .ok b :=
  getElem?_of_forall₂ (mapM_eq_ok.mp h) ha

/-- Every result comes from an element. -/
theorem mem_of_mapM {f : α → Except ε β} {l : List α} {r : List β} (h : l.mapM f = .ok r) {b : β}
    (hb : b ∈ r) : ∃ a ∈ l, f a = .ok b :=
  mem_of_forall₂ (mapM_eq_ok.mp h) hb

/-- A list of computations fails with the error of the first that fails. -/
theorem mapM_eq_error {f : α → Except ε β} {l : List α} {e : ε} :
    l.mapM f = .error e ↔ ∃ (i : Nat) (a : α), l[i]? = some a ∧ f a = .error e ∧
      ∀ j < i, ∀ a', l[j]? = some a' → ∃ b, f a' = .ok b := by
  induction l with
  | nil => simp [pure, Except.pure]
  | cons a l ih =>
    rw [List.mapM_cons, bind_eq_error]
    constructor
    · rintro (ha | ⟨b, hb, hl⟩)
      · exact ⟨0, a, rfl, ha, fun j hj => absurd hj (Nat.not_lt_zero j)⟩
      · obtain ⟨i, a', ha', hfails, hbefore⟩ := ih.mp ((bind_eq_error.mp hl).resolve_right (by
          rintro ⟨_, -, h⟩
          cases h))
        refine ⟨i + 1, a', ha', hfails, fun j hj => ?_⟩
        cases j with
        | zero =>
          rintro _ ⟨⟩
          exact ⟨b, hb⟩
        | succ j => exact hbefore j (Nat.lt_of_succ_lt_succ hj)
    · rintro ⟨i, a', ha', hfails, hbefore⟩
      cases i with
      | zero =>
        cases ha'
        exact .inl hfails
      | succ i =>
        obtain ⟨b, hb⟩ := hbefore 0 (Nat.succ_pos i) a rfl
        refine .inr ⟨b, hb, bind_eq_error.mpr (.inl (ih.mpr ⟨i, a', ha', hfails, ?_⟩))⟩
        exact fun j hj => hbefore (j + 1) (Nat.succ_lt_succ hj)

theorem length_of_mapM {f : α → Except ε β} {l : List α} {r : List β} (h : l.mapM f = .ok r) :
    r.length = l.length :=
  (mapM_eq_ok.mp h).length_eq.symm

theorem forM_eq_ok {f : α → Except ε Unit} {l : List α} :
    l.forM f = .ok () ↔ ∀ a ∈ l, f a = .ok () := by
  induction l with
  | nil => simp [pure, Except.pure]
  | cons a l ih =>
    rw [show (a :: l).forM f = f a >>= fun _ => l.forM f from rfl, bind_eq_ok,
      List.forall_mem_cons]
    exact ⟨fun ⟨(), ha, hl⟩ => ⟨ha, ih.mp hl⟩, fun ⟨ha, hl⟩ => ⟨(), ha, ih.mpr hl⟩⟩

/-- Steps along a list succeed if each does in a state with a property that the steps keep. -/
theorem exists_foldlM_eq_ok {P : β → Prop} {f : β → α → Except ε β} {l : List α} {b : β}
    (hstep : ∀ a ∈ l, ∀ b, P b → ∃ b', f b a = .ok b' ∧ P b') (hb : P b) :
    ∃ b', l.foldlM f b = .ok b' ∧ P b' := by
  induction l generalizing b with
  | nil => exact ⟨b, rfl, hb⟩
  | cons a l ih =>
    obtain ⟨ha, hl⟩ := List.forall_mem_cons.mp hstep
    obtain ⟨mid, hmid, hP⟩ := ha b hb
    obtain ⟨b', hb', hP'⟩ := ih hl hP
    rw [List.foldlM_cons]
    exact ⟨b', bind_eq_ok.mpr ⟨mid, hmid, hb'⟩, hP'⟩

/-- Steps along a list fail with the error of the first that fails. -/
theorem foldlM_eq_error_split {f : β → α → Except ε β} {l : List α} {b : β} {e : ε}
    (h : l.foldlM f b = .error e) :
    ∃ before a after b', l = before ++ a :: after ∧ before.foldlM f b = .ok b' ∧
      f b' a = .error e := by
  induction l generalizing b with
  | nil => cases h
  | cons a l ih =>
    rw [List.foldlM_cons] at h
    rcases bind_eq_error.mp h with ha | ⟨mid, hmid, hl⟩
    · exact ⟨[], a, l, b, rfl, rfl, ha⟩
    · obtain ⟨before, a', after, b', rfl, hbefore, hfails⟩ := ih hl
      refine ⟨a :: before, a', after, b', rfl, ?_, hfails⟩
      rw [List.foldlM_cons]
      exact bind_eq_ok.mpr ⟨mid, hmid, hbefore⟩

/-- Steps along a list fail with the error of one of them. -/
theorem foldlM_eq_error {f : β → α → Except ε β} {l : List α} {b : β} {e : ε}
    (h : l.foldlM f b = .error e) : ∃ a ∈ l, ∃ b', f b' a = .error e := by
  obtain ⟨before, a, after, b', rfl, -, hfails⟩ := foldlM_eq_error_split h
  exact ⟨a, List.mem_append_right _ List.mem_cons_self, b', hfails⟩

end StackCode
