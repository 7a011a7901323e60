import StackCode.Dataflow.Solver
import StackCode.Proofs.Endings

/-!
# What the solver settles on

The solver stops when its queue is empty.  Until then an instruction off the queue is settled: its
latest visit ran on the stack that is recorded now, and each of its ways out leads to an instruction
whose recorded stack lies above the one that left.  So at the end every recorded instruction is
settled.

The order on stacks is a parameter.  All the solver asks of it is that a merge lies above both of
its parts.

## Main definitions

* `Analysis.Bounds`: an order in which merges are upper bounds.
* `Progress.Settled`: the state of an instruction that needs no further visit.
* `Progress.Grows`: how the recorded stacks of a run change.
* `Solution.Fixpoint`: every recorded instruction is settled.
* `Analysis.Carries`: a property of recorded stacks that rules and merges carry on.

## Main results

* `Analysis.solve_fixpoint`: a solution is a fixpoint.
* `Progress.Recorded.visit_ends`, `Progress.Recorded.visit`: what visits keep of the recorded
  stacks.
* `Analysis.solve_recorded`: stacks are recorded only where the ways out of instructions lead.
-/

namespace StackCode

variable {α ε : Type}

/-- An order on stacks in which a merge lies above both stacks that meet. -/
structure Analysis.Bounds (a : Analysis α ε) (le : OperandStack α → OperandStack α → Prop) :
    Prop where
  refl : ∀ s, le s s
  trans : ∀ {s t u}, le s t → le t u → le s u
  recorded_le : ∀ {target recorded incoming merged},
    a.merge target recorded incoming = .ok merged → le recorded merged
  incoming_le : ∀ {target recorded incoming merged},
    a.merge target recorded incoming = .ok merged → le incoming merged

/-- A way out leads to an instruction of the body. -/
theorem Exit.resolve?_lt {size : Nat} {labels : Array Nat} {index target : Nat} {exit : Exit}
    (h : exit.resolve? size labels index = some target) : target < size := by
  cases exit with
  | next =>
    simp only [Exit.resolve?] at h
    split at h <;> simp_all
  | label l =>
    simp only [Exit.resolve?] at h
    split at h
    · split at h <;> simp_all
    · cases h

namespace Progress

section Settling

variable (a : Analysis α ε) (le : OperandStack α → OperandStack α → Prop) (body : Array Instr)
  (labels : Array Nat)

/-- A stack that leaves by an exit of the instruction at `index` arrives below a recorded one. -/
def Arrives (states : Array (Option (OperandStack α))) (index : Nat) (exit : Exit)
    (out : OperandStack α) : Prop :=
  ∃ target stack, exit.resolve? body.size labels index = some target ∧
    states[target]? = some (some stack) ∧ le out stack

/-- The instruction at `index` needs no further visit: its effect is that of its rule on the stack
recorded for it, and what leaves it arrives below a recorded stack. -/
def Settled (states : Array (Option (OperandStack α))) (effects : Array (Option (Effect α)))
    (index : Nat) : Prop :=
  ∀ instr stack, body[index]? = some instr → states[index]? = some (some stack) →
    ∃ v, a.transfer index instr stack = .ok v ∧ effects[index]? = some (some v.effect) ∧
      ∀ exit out, (exit, out) ∈ v.successors → Arrives le body labels states index exit out

/-- What holds of a run between visits. -/
structure Invariant (p : Progress α) : Prop where
  size_states : p.states.size = body.size
  size_effects : p.effects.size = body.size
  start : 0 < body.size → ∃ stack, p.states[0]? = some (some stack) ∧ le .empty stack
  settled : ∀ index, index ∉ p.queue → Settled a le body labels p.states p.effects index
  unrecorded : ∀ index : Nat, p.states[index]? = some none → p.effects[index]? = some none

end Settling

section Growth

variable {a : Analysis α ε} {le : OperandStack α → OperandStack α → Prop}

/-- The recorded stacks of `q` lie above those of `p`, and where they differ the instruction is
queued. -/
structure Grows (le : OperandStack α → OperandStack α → Prop) (p q : Progress α) : Prop where
  size_eq : q.states.size = p.states.size
  effects_eq : q.effects = p.effects
  queue_subset : ∀ i ∈ p.queue, i ∈ q.queue
  recorded : ∀ (i : Nat) s, p.states[i]? = some (some s) →
    ∃ t, q.states[i]? = some (some t) ∧ le s t
  unrecorded : ∀ i : Nat, q.states[i]? = some none → p.states[i]? = some none
  unchanged : ∀ i : Nat, i ∉ q.queue → q.states[i]? = p.states[i]?

theorem Grows.refl (hb : a.Bounds le) (p : Progress α) : Grows le p p where
  size_eq := rfl
  effects_eq := rfl
  queue_subset _ h := h
  recorded _ s h := ⟨s, h, hb.refl s⟩
  unrecorded _ h := h
  unchanged _ _ := rfl

/-- Growth of the recorded stacks is transitive. -/
theorem Grows.trans (hb : a.Bounds le) {p q r : Progress α} (hpq : Grows le p q)
    (hqr : Grows le q r) : Grows le p r where
  size_eq := hqr.size_eq.trans hpq.size_eq
  effects_eq := hqr.effects_eq.trans hpq.effects_eq
  queue_subset i h := hqr.queue_subset i (hpq.queue_subset i h)
  recorded i s h := by
    obtain ⟨t, ht, hst⟩ := hpq.recorded i s h
    obtain ⟨u, hu, htu⟩ := hqr.recorded i t ht
    exact ⟨u, hu, hb.trans hst htu⟩
  unrecorded i h := hpq.unrecorded i (hqr.unrecorded i h)
  unchanged i h := by
    rw [hqr.unchanged i h, hpq.unchanged i fun hq => h (hqr.queue_subset i hq)]

/-- What has arrived stays below the recorded stacks. -/
theorem Grows.arrives (hb : a.Bounds le) {body : Array Instr} {labels : Array Nat} {index : Nat}
    {exit : Exit} {out : OperandStack α} {p q : Progress α} (hg : Grows le p q)
    (h : Arrives le body labels p.states index exit out) :
    Arrives le body labels q.states index exit out := by
  obtain ⟨target, stack, hresolve, hstack, hle⟩ := h
  obtain ⟨stack', hstack', hle'⟩ := hg.recorded target stack hstack
  exact ⟨target, stack', hresolve, hstack', hb.trans hle hle'⟩

/-- Recording a higher stack makes the recorded stacks grow.  The instruction whose stack is
replaced is queued. -/
theorem update_grows (hb : a.Bounds le) {p : Progress α} {target : Nat} {stack : OperandStack α}
    (hle : ∀ s, p.states[target]? = some (some s) → le s stack) :
    Grows le p (p.update target stack) where
  size_eq := by simp [update]
  effects_eq := rfl
  queue_subset i h := by
    simp only [update]
    split
    · exact h
    · exact List.mem_append_left _ h
  recorded i s h := by
    by_cases hi : target = i
    · subst hi
      have hlt : target < p.states.size := (Array.getElem?_eq_some_iff.mp h).1
      exact ⟨stack, by simp [update, hlt], hle s h⟩
    · exact ⟨s, by simpa [update, Array.getElem?_setIfInBounds_ne hi] using h, hb.refl s⟩
  unrecorded i h := by
    by_cases hi : target = i
    · subst hi
      rw [update, Array.getElem?_setIfInBounds_self] at h
      split at h <;> simp at h
    · simpa [update, Array.getElem?_setIfInBounds_ne hi] using h
  unchanged i h := by
    have hi : target ≠ i := by
      rintro rfl
      apply h
      simp only [update]
      split
      · assumption
      · simp
    simp [update, Array.getElem?_setIfInBounds_ne hi]

variable [DecidableEq α]

/-- Taking in a stack makes the recorded stacks grow, and the stack arrives. -/
theorem record_grows (hb : a.Bounds le) {p q : Progress α} {target : Nat}
    {incoming : OperandStack α} (htarget : target < p.states.size)
    (h : p.record a target incoming = .ok q) :
    Grows le p q ∧ ∃ stack, q.states[target]? = some (some stack) ∧ le incoming stack := by
  have arrived : ∀ stack : OperandStack α,
      (p.update target stack).states[target]? = some (some stack) := by
    intro stack
    simp [update, htarget]
  unfold record at h
  split at h
  · rename_i hnone
    exact absurd htarget (Nat.not_lt.mpr (Array.getElem?_eq_none_iff.mp hnone))
  · rename_i hnone
    cases h
    refine ⟨update_grows hb fun s hs => ?_, incoming, arrived incoming, hb.refl incoming⟩
    rw [hnone] at hs
    cases hs
  · rename_i recorded hsome
    split at h
    · cases h
    · rename_i merged hmerge
      split at h
      · rename_i hsame
        cases h
        exact ⟨.refl hb p, recorded, hsome, hsame ▸ hb.incoming_le hmerge⟩
      · cases h
        refine ⟨update_grows hb fun s hs => ?_, merged, arrived merged, hb.incoming_le hmerge⟩
        obtain rfl : recorded = s := by simpa [hsome] using hs
        exact hb.recorded_le hmerge

/-- Taking in the stacks that leave an instruction makes the recorded stacks grow, and each of them
arrives. -/
theorem propagate_grows (hb : a.Bounds le) {body : Array Instr} {labels : Array Nat} {index : Nat}
    {successors : List (Exit × OperandStack α)} {p q : Progress α}
    (hsize : p.states.size = body.size)
    (h : propagate a body.size labels index successors p = .ok q) :
    Grows le p q ∧ ∀ exit out, (exit, out) ∈ successors →
      Arrives le body labels q.states index exit out := by
  induction successors generalizing p with
  | nil =>
    cases h
    exact ⟨.refl hb _, fun _ _ hmem => nomatch hmem⟩
  | cons s rest ih =>
    obtain ⟨exit, out⟩ := s
    unfold propagate at h
    split at h
    · cases h
    · rename_i target hresolve
      split at h
      · cases h
      · rename_i p₁ hrecord
        have htarget : target < p.states.size := hsize ▸ Exit.resolve?_lt hresolve
        obtain ⟨hgrows, stack, hstack, hle⟩ := record_grows hb htarget hrecord
        obtain ⟨hgrows', harrives⟩ := ih (hgrows.size_eq.trans hsize) h
        refine ⟨hgrows.trans hb hgrows', fun exit' out' hmem => ?_⟩
        rcases List.mem_cons.mp hmem with heq | hmem
        -- what has arrived stays below the recorded stack while the rest is taken in
        · obtain ⟨rfl, rfl⟩ := Prod.mk.inj heq
          exact hgrows'.arrives hb ⟨target, stack, hresolve, hstack, hle⟩
        · exact harrives exit' out' hmem

end Growth

section Run

variable [DecidableEq α] {a : Analysis α ε} {le : OperandStack α → OperandStack α → Prop}
  {body : Array Instr} {labels : Array Nat}

omit [DecidableEq α] in
theorem invariant_start (hb : a.Bounds le) : Invariant a le body labels (start body.size) where
  size_states := by simp [start]
  size_effects := by simp [start]
  start h := ⟨.empty, by simp [start, h], hb.refl _⟩
  settled index hindex instr stack hinstr hstack := by
    have hlt : index < body.size := (Array.getElem?_eq_some_iff.mp hinstr).1
    have hpos : body.size ≠ 0 := by omega
    have hne : 0 ≠ index := by
      rintro rfl
      simp [start, hpos] at hindex
    simp only [start, Array.getElem?_setIfInBounds_ne hne, Array.getElem?_replicate, hlt,
      if_true] at hstack
    cases hstack
  unrecorded index hstate := by
    have hlt : index < body.size := by
      have := (Array.getElem?_eq_some_iff.mp hstate).1
      simpa [start] using this
    simp [start, hlt]

/-- **A visit keeps the invariant.**  The visited instruction is settled unless its own stack
changed on the way, and then it is queued again. -/
theorem visit_invariant (hb : a.Bounds le) {index : Nat} {rest : List Nat} {p q : Progress α}
    (hp : Invariant a le body labels p) (hqueue : p.queue = index :: rest)
    (h : visit a body labels index rest p = .ok q) : Invariant a le body labels q := by
  unfold visit at h
  split at h
  · rename_i instr stack hinstr hstack
    split at h
    · cases h
    · rename_i v hv
      obtain ⟨hgrows, harrives⟩ := propagate_grows hb (by exact hp.size_states) h
      have heffects : q.effects = p.effects.setIfInBounds index (some v.effect) :=
        hgrows.effects_eq
      have hlt : index < body.size := (Array.getElem?_eq_some_iff.mp hinstr).1
      refine ⟨hgrows.size_eq.trans hp.size_states, ?_, fun hpos => ?_, fun i hi => ?_,
        fun i hi => ?_⟩
      · rw [heffects, Array.size_setIfInBounds, hp.size_effects]
      · obtain ⟨s, hs, hle⟩ := hp.start hpos
        obtain ⟨t, ht, hle'⟩ := hgrows.recorded 0 s hs
        exact ⟨t, ht, hb.trans hle hle'⟩
      · have hsame : q.states[i]? = p.states[i]? := hgrows.unchanged i hi
        intro instr' stack' hinstr' hstack'
        rw [hsame] at hstack'
        by_cases hindex : index = i
        -- `i` is not queued again, so the visit ran on the stack that is still recorded for it
        · subst hindex
          rw [hinstr] at hinstr'
          rw [hstack] at hstack'
          cases hinstr'
          cases hstack'
          refine ⟨v, hv, ?_, harrives⟩
          rw [heffects, Array.getElem?_setIfInBounds_self, if_pos (hp.size_effects ▸ hlt)]
        -- any other instruction was settled before, and what leaves it arrives as it did
        · have hpqueue : i ∉ p.queue := by
            rw [hqueue]
            intro hmem
            rcases List.mem_cons.mp hmem with heq | hmem
            · exact hindex heq.symm
            · exact hi (hgrows.queue_subset i hmem)
          obtain ⟨v', hv', heffect, harrives'⟩ := hp.settled i hpqueue instr' stack' hinstr' hstack'
          refine ⟨v', hv', ?_, fun exit out hmem => hgrows.arrives hb (harrives' exit out hmem)⟩
          rw [heffects, Array.getElem?_setIfInBounds_ne hindex, heffect]
      · have hnone : p.states[i]? = some none := hgrows.unrecorded i hi
        have hindex : index ≠ i := by
          rintro rfl
          rw [hstack] at hnone
          cases hnone
        rw [heffects, Array.getElem?_setIfInBounds_ne hindex, hp.unrecorded i hnone]
  -- nothing is recorded for the instruction, so there is nothing to settle
  · rename_i hnone
    cases h
    refine ⟨hp.size_states, hp.size_effects, hp.start, fun i hi => ?_, hp.unrecorded⟩
    by_cases hindex : i = index
    · subst hindex
      intro instr stack hinstr hstack
      exact absurd hstack (hnone instr stack hinstr)
    · refine hp.settled i ?_
      rw [hqueue]
      intro hmem
      rcases List.mem_cons.mp hmem with heq | hmem
      · exact hindex heq
      · exact hi hmem

/-- A run keeps what its visits keep, and ends with an empty queue. -/
theorem run_preserves {P : Progress α → Prop}
    (hvisit : ∀ {index rest p q}, P p → p.queue = index :: rest →
      visit a body labels index rest p = .ok q → P q)
    {p q : Progress α} (hp : P p) (h : run a body labels p = .ok q) : P q ∧ q.queue = [] := by
  fun_induction run a body labels p with
  | case1 p hqueue =>
    cases h
    exact ⟨hp, hqueue⟩
  | case2 p index rest hqueue e hv => cases h
  | case3 p index rest hqueue p' hv ih => exact ih (hvisit hp hqueue hv) h

end Run

end Progress

/-- Every recorded instruction of a solution is settled, and the first instruction is recorded. -/
structure Solution.Fixpoint (a : Analysis α ε) (le : OperandStack α → OperandStack α → Prop)
    (body : Array Instr) (labels : Array Nat) (s : Solution α) : Prop where
  size_states : s.states.size = body.size
  size_effects : s.effects.size = body.size
  start : 0 < body.size → ∃ stack, s.states[0]? = some (some stack) ∧ le .empty stack
  settled : ∀ index, Progress.Settled a le body labels s.states s.effects index
  unrecorded : ∀ index : Nat, s.states[index]? = some none → s.effects[index]? = some none

variable [DecidableEq α] {a : Analysis α ε} {body : Array Instr} {labels : Array Nat}
  {s : Solution α}

/-- **A solution is a fixpoint**, in every order that bounds the merges of the analysis. -/
theorem Analysis.solve_fixpoint {le : OperandStack α → OperandStack α → Prop} (hb : a.Bounds le)
    (h : a.solve body labels = .ok s) : s.Fixpoint a le body labels := by
  unfold Analysis.solve at h
  split at h
  · cases h
  · rename_i p hrun
    cases h
    obtain ⟨hp, hqueue⟩ := Progress.run_preserves (Progress.visit_invariant hb)
      (Progress.invariant_start hb) hrun
    refine ⟨hp.size_states, hp.size_effects, hp.start, fun index => ?_, hp.unrecorded⟩
    exact hp.settled index (by simp [hqueue])

section Recorded

/-- A way out of the instruction at `index`: it leads to an instruction for which the stack has the
property `P`, or to none, and then the error has the property `Q`. -/
structure Analysis.Leads (a : Analysis α ε) (body : Array Instr) (labels : Array Nat)
    (P : Nat → OperandStack α → Prop) (Q : ε → Prop) (index : Nat) (exit : Exit)
    (out : OperandStack α) : Prop where
  unresolved : exit.resolve? body.size labels index = none → Q (a.unresolved index exit)
  target : ∀ {target}, exit.resolve? body.size labels index = some target → P target out

/-- The rules of the instructions and the merges carry the property `P` of recorded stacks on, and
their errors have the property `Q`. -/
structure Analysis.Carries (a : Analysis α ε) (body : Array Instr) (labels : Array Nat)
    (P : Nat → OperandStack α → Prop) (Q : ε → Prop) : Prop where
  transfer : ∀ {index instr stack}, body[index]? = some instr → P index stack →
    Ends (fun v => ∀ exit out, (exit, out) ∈ v.successors →
      a.Leads body labels P Q index exit out) Q (a.transfer index instr stack)
  merge : ∀ {target recorded incoming}, P target recorded → P target incoming →
    Ends (P target) Q (a.merge target recorded incoming)

namespace Progress

variable {p q : Progress α}

/-- Every recorded stack has a property. -/
def Recorded (P : Nat → OperandStack α → Prop) (p : Progress α) : Prop :=
  ∀ (i : Nat) stack, p.states[i]? = some (some stack) → P i stack

variable {P : Nat → OperandStack α → Prop}

omit [DecidableEq α] in
theorem recorded_start {size : Nat} (h : 0 < size → P 0 .empty) :
    Recorded P (start size) := by
  intro i stack hstack
  by_cases hi : 0 = i
  · subst hi
    have hpos : 0 < size := by
      have hlt := (Array.getElem?_eq_some_iff.mp hstack).1
      simpa [start] using hlt
    obtain rfl : .empty = stack := by simpa [start, hpos] using hstack
    exact h hpos
  · simp [start, Array.getElem?_setIfInBounds_ne hi, Array.getElem?_replicate] at hstack

omit [DecidableEq α] in
theorem Recorded.update {target : Nat} {stack : OperandStack α} (hp : Recorded P p)
    (h : P target stack) : Recorded P (p.update target stack) := by
  intro i stack' hstack'
  by_cases hi : target = i
  · subst hi
    have hlt : target < p.states.size := by
      have hlt := (Array.getElem?_eq_some_iff.mp hstack').1
      simpa [Progress.update] using hlt
    obtain rfl : stack = stack' := by simpa [Progress.update, hlt] using hstack'
    exact h
  · rw [Progress.update, Array.getElem?_setIfInBounds_ne hi] at hstack'
    exact hp i stack' hstack'

theorem Recorded.record {Q : ε → Prop} {target : Nat} {incoming : OperandStack α}
    (hmerge : ∀ {target recorded incoming}, P target recorded → P target incoming →
      Ends (P target) Q (a.merge target recorded incoming))
    (hp : Recorded P p) (hincoming : P target incoming) :
    Ends (Recorded P) Q (p.record a target incoming) := by
  unfold Progress.record
  split
  · exact .ok hp
  · exact .ok (hp.update hincoming)
  · rename_i recorded hrecorded
    have hends := hmerge (hp target recorded hrecorded) hincoming
    split
    · rename_i e hmerged
      exact .error (hends.cause hmerged)
    · rename_i merged hmerged
      split
      · exact .ok hp
      · exact .ok (hp.update (hends.result hmerged))

/-- Taking in the stacks that leave an instruction, if all have the property. -/
theorem Recorded.propagate {Q : ε → Prop} {index : Nat}
    {successors : List (Exit × OperandStack α)}
    (hmerge : ∀ {target recorded incoming}, P target recorded → P target incoming →
      Ends (P target) Q (a.merge target recorded incoming))
    (hp : Recorded P p)
    (hexits : ∀ exit out, (exit, out) ∈ successors →
      a.Leads body labels P Q index exit out) :
    Ends (Recorded P) Q (Progress.propagate a body.size labels index successors p) := by
  induction successors generalizing p with
  | nil => exact .ok hp
  | cons successor successors ih =>
    obtain ⟨exit, out⟩ := successor
    have hhead := hexits exit out List.mem_cons_self
    unfold Progress.propagate
    split
    · rename_i hresolve
      exact .error (hhead.unresolved hresolve)
    · rename_i target hresolve
      have hends := hp.record hmerge (hhead.target hresolve)
      split
      · rename_i e hrecord
        exact .error (hends.cause hrecord)
      · rename_i mid hrecord
        exact ih (hends.result hrecord)
          fun exit out hmem => hexits exit out (List.mem_cons_of_mem _ hmem)

/-- What the rules of the instructions and the merges carry on, a visit carries on, and its errors
are theirs. -/
theorem Recorded.visit_ends {Q : ε → Prop} {index : Nat} {rest : List Nat}
    (ha : a.Carries body labels P Q) (hp : Recorded P p) :
    Ends (Recorded P) Q (Progress.visit a body labels index rest p) := by
  unfold Progress.visit
  split
  · rename_i instr stack hinstr hstack
    have hends := ha.transfer hinstr (hp index stack hstack)
    split
    · rename_i e htransfer
      exact .error (hends.cause htransfer)
    · rename_i v htransfer
      refine Recorded.propagate ha.merge ?_ (hends.result htransfer)
      exact fun i s hs => hp i s hs
  · exact .ok fun i s hs => hp i s hs

/-- What the rules of the instructions and the merges keep, a visit keeps. -/
theorem Recorded.visit {index : Nat} {rest : List Nat}
    (hmerge : ∀ {target recorded incoming merged}, a.merge target recorded incoming = .ok merged →
      P target incoming → P target merged)
    (htransfer : ∀ {index instr stack v exit out target}, body[index]? = some instr →
      P index stack → a.transfer index instr stack = .ok v → (exit, out) ∈ v.successors →
      exit.resolve? body.size labels index = some target → P target out)
    (hp : Recorded P p) (h : Progress.visit a body labels index rest p = .ok q) : Recorded P q := by
  have hcarries : a.Carries body labels P fun _ => True := by
    constructor
    · intro index instr stack hinstr hstack
      refine Ends.iff_forall.mpr
        ⟨fun v hv exit out hmem => ⟨fun _ => trivial, ?_⟩, fun _ _ => trivial⟩
      exact fun hresolve => htransfer hinstr hstack hv hmem hresolve
    · intro target recorded incoming _ hincoming
      exact Ends.iff_forall.mpr ⟨fun _ hmerged => hmerge hmerged hincoming, fun _ _ => trivial⟩
  exact (hp.visit_ends hcarries).result h

end Progress

variable {P : Nat → Prop}

/-- A property of the first instruction that passes along every way out holds of all instructions
for which the solver records a stack. -/
theorem Analysis.solve_recorded (hzero : P 0)
    (hexits : ∀ {index instr stack v exit out target}, P index → body[index]? = some instr →
      a.transfer index instr stack = .ok v → (exit, out) ∈ v.successors →
      exit.resolve? body.size labels index = some target → P target)
    (h : a.solve body labels = .ok s) {index : Nat} {stack : OperandStack α}
    (hstack : s.states[index]? = some (some stack)) : P index := by
  unfold Analysis.solve at h
  split at h
  · cases h
  · rename_i p hrun
    cases h
    have hrecorded := Progress.run_preserves (P := Progress.Recorded fun i _ => P i)
      (fun hp _ hvisit => hp.visit (fun _ htarget => htarget)
        (fun hinstr hindex hv hmem hresolve => hexits hindex hinstr hv hmem hresolve) hvisit)
      (Progress.recorded_start fun _ => hzero) hrun
    exact hrecorded.1 index stack hstack

end Recorded

section Remarks

/-- Taking in a stack leaves no remark. -/
theorem Progress.record_findings {p q : Progress α} {target : Nat} {incoming : OperandStack α}
    (h : p.record a target incoming = .ok q) : q.findings = p.findings := by
  unfold Progress.record at h
  split at h
  · cases h
    rfl
  · cases h
    rfl
  · split at h
    · cases h
    · split at h
      · cases h
        rfl
      · cases h
        rfl

theorem Progress.propagate_findings {size index : Nat} {successors : List (Exit × OperandStack α)}
    {p q : Progress α} (h : propagate a size labels index successors p = .ok q) :
    q.findings = p.findings := by
  induction successors generalizing p with
  | nil =>
    cases h
    rfl
  | cons successor successors ih =>
    unfold propagate at h
    split at h
    · cases h
    · split at h
      · cases h
      · rename_i mid hmid
        exact (ih h).trans (record_findings hmid)

/-- Where no instruction is remarked on, the solver remarks on nothing. -/
theorem Analysis.solve_findings
    (hsilent : ∀ {index instr stack v}, a.transfer index instr stack = .ok v → v.findings = [])
    (h : a.solve body labels = .ok s) : s.findings = #[] := by
  unfold Analysis.solve at h
  split at h
  · cases h
  · rename_i p hrun
    cases h
    refine (Progress.run_preserves (P := fun p => p.findings = #[]) ?_ rfl hrun).1
    intro index rest p q hp _ hvisit
    unfold Progress.visit at hvisit
    split at hvisit
    · split at hvisit
      · cases hvisit
      · rename_i v hv
        rw [Progress.propagate_findings hvisit, hsilent hv, hp]
        rfl
    · cases hvisit
      exact hp

end Remarks

end StackCode
