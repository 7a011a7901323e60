import StackCode.Proofs.Dataflow.Worklist

/-!
# How often a run visits an instruction

A visit queues an instruction only if it records a first stack for it or replaces the recorded one.
A replacement lowers the rank of the stack and keeps its size.  So of the visits of an instruction
all but one are paid for by a fall of the rank, and if ranks are at most sizes, an instruction is
visited at most once more often than its stack has values.

## Main definitions

* `Analysis.Descends`: how recorded stacks are replaced.
* `Progress.Changed`, `Progress.Advances`: what visits change, and what they queue.
* `Progress.Counted`: the visits so far are paid for.

## Main results

* `Progress.visit_advances`: what a visit changes and queues.
* `Progress.Counted.visit`: a visit is paid for.
* `Worklist.Visited.counted`: so are all visits of a run.
-/

namespace StackCode

variable {α ε : Type}

/-- A stack that replaces a recorded one is related to it by `lt`, under which ranks fall and sizes
stay. -/
structure Analysis.Descends (a : Analysis α ε) (lt : OperandStack α → OperandStack α → Prop) :
    Prop where
  trans : ∀ {s t u}, lt s t → lt t u → lt s u
  merge : ∀ {target recorded incoming merged}, a.merge target recorded incoming = .ok merged →
    merged ≠ recorded → lt recorded merged
  rank_lt : ∀ {s t}, lt s t → a.rank t < a.rank s
  size_eq : ∀ {s t}, lt s t → t.size = s.size
  rank_le : ∀ s, a.rank s ≤ s.size

namespace Progress

variable {lt : OperandStack α → OperandStack α → Prop} {p q r : Progress α} {i : Nat}
  {pushed pushed' : List Nat}

/-! ### Changes of stacks -/

/-- A stack is recorded for the instruction at `i` where there was none, or the recorded one is
replaced. -/
inductive Changed (lt : OperandStack α → OperandStack α → Prop) (p q : Progress α) (i : Nat) : Prop
  | first {s : OperandStack α} (before : p.states[i]? = some none)
      (after : q.states[i]? = some (some s))
  | replaced {s s' : OperandStack α} (before : p.states[i]? = some (some s))
      (after : q.states[i]? = some (some s')) (hlt : lt s s')

/-- A recorded stack is not taken back. -/
theorem Changed.exists_after (h : Changed lt p q i) : ∃ s, q.states[i]? = some (some s) := by
  cases h with
  | first _ after => exact ⟨_, after⟩
  | replaced _ after _ => exact ⟨_, after⟩

theorem Changed.trans (htrans : ∀ {s t u}, lt s t → lt t u → lt s u) (h : Changed lt p q i)
    (h' : Changed lt q r i) : Changed lt p r i := by
  cases h with
  | first before after =>
    cases h' with
    | first before' _ => cases after.symm.trans before'
    | replaced _ after' _ => exact .first before after'
  | replaced before after hlt =>
    cases h' with
    | first before' _ => cases after.symm.trans before'
    | replaced before' after' hlt' =>
      cases after.symm.trans before'
      exact .replaced before after' (htrans hlt hlt')

theorem Changed.congr_left (h : Changed lt q r i) (hsame : q.states[i]? = p.states[i]?) :
    Changed lt p r i := by
  cases h with
  | first before after => exact .first (hsame ▸ before) after
  | replaced before after hlt => exact .replaced (hsame ▸ before) after hlt

theorem Changed.congr_right (h : Changed lt p q i) (hsame : r.states[i]? = q.states[i]?) :
    Changed lt p r i := by
  cases h with
  | first before after => exact .first before (hsame.trans after)
  | replaced before after hlt => exact .replaced before (hsame.trans after) hlt

/-- From `p` to `q` the instructions `pushed` are queued, each once.  Their stacks have changed, and
every instruction whose stack has changed is queued. -/
structure Advances (lt : OperandStack α → OperandStack α → Prop) (p q : Progress α)
    (pushed : List Nat) : Prop where
  queue : q.queue = p.queue ++ pushed
  nodup : pushed.Nodup
  fresh : ∀ i ∈ pushed, i ∉ p.queue
  cause : ∀ i ∈ pushed, Changed lt p q i
  states : ∀ i : Nat, q.states[i]? = p.states[i]? ∨ i ∈ q.queue ∧ Changed lt p q i

theorem Advances.refl (p : Progress α) : Advances lt p p [] where
  queue := (List.append_nil _).symm
  nodup := List.Pairwise.nil
  fresh := by simp
  cause := by simp
  states _ := .inl rfl

theorem Advances.trans (htrans : ∀ {s t u}, lt s t → lt t u → lt s u)
    (h : Advances lt p q pushed) (h' : Advances lt q r pushed') :
    Advances lt p r (pushed ++ pushed') where
  queue := by rw [h'.queue, h.queue, List.append_assoc]
  nodup := by
    refine List.nodup_append.mpr ⟨h.nodup, h'.nodup, ?_⟩
    rintro i hi j hj rfl
    exact h'.fresh i hj (h.queue ▸ List.mem_append_right _ hi)
  fresh i hi := by
    rcases List.mem_append.mp hi with hi | hi
    · exact h.fresh i hi
    · intro hmem
      exact h'.fresh i hi (h.queue ▸ List.mem_append_left _ hmem)
  cause i hi := by
    rcases List.mem_append.mp hi with hi | hi
    · rcases h'.states i with hsame | ⟨-, hchanged⟩
      · exact (h.cause i hi).congr_right hsame
      · exact (h.cause i hi).trans htrans hchanged
    · rcases h.states i with hsame | ⟨-, hchanged⟩
      · exact (h'.cause i hi).congr_left hsame
      · exact hchanged.trans htrans (h'.cause i hi)
  states i := by
    rcases h'.states i with hsame' | ⟨hmem', hchanged'⟩
    · rcases h.states i with hsame | ⟨hmem, hchanged⟩
      · exact .inl (hsame'.trans hsame)
      · refine .inr ⟨?_, hchanged.congr_right hsame'⟩
        rw [h'.queue]
        exact List.mem_append_left _ hmem
    · refine .inr ⟨hmem', ?_⟩
      rcases h.states i with hsame | ⟨-, hchanged⟩
      · exact hchanged'.congr_left hsame
      · exact hchanged.trans htrans hchanged'

/-- Recording a stack queues the instruction, unless it is queued. -/
theorem update_advances {target : Nat} {stack : OperandStack α}
    (hchanged : Changed lt p (p.update target stack) target) :
    ∃ pushed, Advances lt p (p.update target stack) pushed := by
  have hstates : ∀ i, i ≠ target → (p.update target stack).states[i]? = p.states[i]? := by
    intro i hi
    simp [update, Array.getElem?_setIfInBounds_ne (Ne.symm hi)]
  by_cases hmem : target ∈ p.queue
  · have hqueue : (p.update target stack).queue = p.queue := by simp [update, hmem]
    refine ⟨[], by rw [hqueue, List.append_nil], .nil, by simp, by simp, fun i => ?_⟩
    by_cases hi : i = target
    · subst hi
      exact .inr ⟨hqueue ▸ hmem, hchanged⟩
    · exact .inl (hstates i hi)
  · have hqueue : (p.update target stack).queue = p.queue ++ [target] := by simp [update, hmem]
    refine ⟨[target], hqueue, by simp, by simpa using hmem, by simpa using hchanged, fun i => ?_⟩
    by_cases hi : i = target
    · subst hi
      exact .inr ⟨by simp [hqueue], hchanged⟩
    · exact .inl (hstates i hi)

variable [DecidableEq α] {a : Analysis α ε} {body : Array Instr} {labels : Array Nat}

theorem record_advances (ha : a.Descends lt) {target : Nat} {incoming : OperandStack α}
    (h : p.record a target incoming = .ok q) : ∃ pushed, Advances lt p q pushed := by
  have hafter (stack : OperandStack α) {x : Option (OperandStack α)}
      (hbefore : p.states[target]? = some x) :
      (p.update target stack).states[target]? = some (some stack) := by
    have hlt : target < p.states.size := (Array.getElem?_eq_some_iff.mp hbefore).1
    simp [update, hlt]
  unfold record at h
  split at h
  · cases h
    exact ⟨[], .refl p⟩
  · rename_i hnone
    cases h
    exact update_advances (.first hnone (hafter _ hnone))
  · rename_i recorded hsome
    split at h
    · cases h
    · rename_i merged hmerge
      split at h
      · cases h
        exact ⟨[], .refl p⟩
      · rename_i hne
        cases h
        exact update_advances (.replaced hsome (hafter _ hsome) (ha.merge hmerge hne))

theorem propagate_advances (ha : a.Descends lt) {size index : Nat}
    {successors : List (Exit × OperandStack α)}
    (h : propagate a size labels index successors p = .ok q) :
    ∃ pushed, Advances lt p q pushed := by
  induction successors generalizing p with
  | nil =>
    cases h
    exact ⟨[], .refl _⟩
  | cons successor successors ih =>
    unfold propagate at h
    split at h
    · cases h
    · split at h
      · cases h
      · rename_i mid hrecord
        obtain ⟨pushed, hpushed⟩ := record_advances ha hrecord
        obtain ⟨pushed', hpushed'⟩ := ih h
        exact ⟨pushed ++ pushed', hpushed.trans ha.trans hpushed'⟩

/-- **A visit queues the instructions whose stacks it changes.** -/
theorem visit_advances (ha : a.Descends lt) {index : Nat} {rest : List Nat}
    (h : visit a body labels index rest p = .ok q) :
    ∃ pushed, Advances lt { p with queue := rest } q pushed := by
  unfold visit at h
  split at h
  · split at h
    · cases h
    · obtain ⟨pushed, hpushed⟩ := propagate_advances ha h
      exact ⟨pushed, hpushed.queue, hpushed.nodup, hpushed.fresh,
        fun i hi => (hpushed.cause i hi).congr_left rfl,
        fun i => (hpushed.states i).imp id fun hi => ⟨hi.1, hi.2.congr_left rfl⟩⟩
  · cases h
    exact ⟨[], .refl _⟩

/-! ### Counting visits -/

/-- The visits so far, with those to come of queued instructions, are paid for by the falls of the
ranks of the recorded stacks.  An instruction without a stack is not visited. -/
structure Counted (a : Analysis α ε) (visits : List Nat) (p : Progress α) : Prop where
  recorded : ∀ (i : Nat) s, p.states[i]? = some (some s) →
    visits.count i + (if i ∈ p.queue then 1 else 0) + a.rank s ≤ s.size + 1
  unrecorded : ∀ i : Nat, (∀ s, p.states[i]? ≠ some (some s)) → i ∉ visits ∧ i ∉ p.queue

omit [DecidableEq α] in
theorem counted_start (ha : a.Descends lt) (size : Nat) : Counted a [] (start size) where
  recorded i s _ := by
    have hrank := ha.rank_le s
    rw [List.count_nil]
    split <;> omega
  unrecorded i hnone := by
    refine ⟨List.not_mem_nil, fun hmem => ?_⟩
    by_cases hzero : size = 0
    · simp [start, hzero] at hmem
    · simp only [start, hzero, if_false, List.mem_singleton] at hmem
      subst hmem
      exact hnone .empty (by simp [start, Nat.pos_of_ne_zero hzero])

omit [DecidableEq α] in
/-- An instruction whose stack is the same is not queued. -/
theorem Advances.not_mem_pushed (ha : a.Descends lt) (h : Advances lt p q pushed)
    (hsame : q.states[i]? = p.states[i]?) : i ∉ pushed := by
  intro hi
  cases h.cause i hi with
  | first before after => cases (hsame.symm.trans after).symm.trans before
  | replaced before after hlt =>
    cases (hsame.symm.trans after).symm.trans before
    exact Nat.lt_irrefl _ (ha.rank_lt hlt)

omit [DecidableEq α] in
/-- The first of the queue is visited now, and the rest later. -/
theorem count_pop (i : Nat) {index : Nat} {rest : List Nat} (hindex : index ∉ rest) :
    (if i = index then 1 else 0) + (if i ∈ rest then 1 else 0) =
      if i ∈ index :: rest then 1 else 0 := by
  by_cases hi : i = index
  · subst hi
    simp [hindex]
  · simp [hi]

/-- **A visit is paid for.** -/
theorem Counted.visit (ha : a.Descends lt) {visits : List Nat} {index : Nat} {rest : List Nat}
    (hp : Counted a visits p) (hnodup : p.queue.Nodup) (hqueue : p.queue = index :: rest)
    (h : visit a body labels index rest p = .ok q) : Counted a (visits ++ [index]) q := by
  obtain ⟨pushed, hadvances⟩ := visit_advances ha h
  rw [hqueue, List.nodup_cons] at hnodup
  have hindex : index ∈ p.queue := hqueue ▸ List.mem_cons_self
  have hcount (i : Nat) :
      (visits ++ [index]).count i = visits.count i + if i = index then 1 else 0 := by
    rw [List.count_append, List.count_singleton]
    by_cases hi : i = index
    · simp [hi]
    · simp [hi, Ne.symm hi]
  refine ⟨fun i s hs => ?_, fun i hnone => ?_⟩
  · rw [hcount]
    rcases hadvances.states i with hsame | ⟨-, hchanged⟩
    · -- the stack is the same, so the instruction is queued only if it was
      have hpushed := hadvances.not_mem_pushed ha hsame
      have hpaid := hp.recorded i s (hsame.symm.trans hs)
      rw [hqueue, ← count_pop i hnodup.1] at hpaid
      simp only [hadvances.queue, List.mem_append, hpushed, or_false]
      omega
    · cases hchanged with
      | first before after =>
        obtain ⟨hvisits, hnotQueued⟩ := hp.unrecorded i fun s h => by cases before.symm.trans h
        have hne : i ≠ index := fun h => hnotQueued (h ▸ hindex)
        have hrank := ha.rank_le s
        rw [List.count_eq_zero.mpr hvisits, if_neg hne]
        split <;> omega
      | replaced before after hlt =>
        -- the fall of the rank pays for one visit, if it was not queued before
        cases after.symm.trans hs
        have hpaid := hp.recorded i _ before
        rw [hqueue, ← count_pop i hnodup.1] at hpaid
        have hrank := ha.rank_lt hlt
        have hsize := ha.size_eq hlt
        have hqueued : (if i ∈ q.queue then 1 else 0) ≤ 1 := by split <;> decide
        omega
  · have hsame : q.states[i]? = p.states[i]? := by
      rcases hadvances.states i with hsame | ⟨-, hchanged⟩
      · exact hsame
      · obtain ⟨s, hs⟩ := hchanged.exists_after
        exact absurd hs (hnone s)
    obtain ⟨hvisits, hnotQueued⟩ := hp.unrecorded i fun s hs => hnone s (hsame.trans hs)
    have hpushed := hadvances.not_mem_pushed ha hsame
    rw [hqueue, List.mem_cons, not_or] at hnotQueued
    refine ⟨?_, ?_⟩
    · rw [List.mem_append, List.mem_singleton]
      exact not_or.mpr ⟨hvisits, hnotQueued.1⟩
    · rw [hadvances.queue, List.mem_append]
      exact not_or.mpr ⟨hnotQueued.2, hpushed⟩

end Progress

namespace Worklist

variable [DecidableEq α] {a : Analysis α ε} {body : Array Instr} {labels : Array Nat}
  {lt : OperandStack α → OperandStack α → Prop} {visits rest : List Nat} {index : Nat}
  {w w' : Worklist α body.size}

theorem visit_toProgress (h : w.Marks) (hqueue : w.queue = index :: rest)
    (hvisit : visit a body labels index rest w = .ok w') :
    Progress.visit a body labels index rest w.toProgress = .ok w'.toProgress := by
  have hfollows := h.visit a labels hqueue
  rw [hvisit] at hfollows
  exact hfollows.of_ok.2

/-- **All visits of a run are paid for.** -/
theorem Visited.counted (ha : a.Descends lt) (h : Visited a body labels visits w) :
    Progress.Counted a visits w.toProgress := by
  induction h with
  | start => exact Progress.counted_start ha body.size
  | @visit visits w w' index rest h hqueue hvisit ih =>
    exact ih.visit ha h.marks.nodup hqueue (visit_toProgress h.marks hqueue hvisit)

end Worklist

end StackCode
