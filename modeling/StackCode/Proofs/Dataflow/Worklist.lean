import StackCode.Proofs.Dataflow.Reached

/-!
# The worklist of a run

Whether an instruction stands in the queue can be read off a set of marks, one bit for each
instruction, with no search of the queue.  A run with marks visits what a run visits, in the same
order and with the same result, and its marks are always the queued instructions.

A run makes finitely many visits.  It has one state after each number of visits, up to a last one,
where the queue is empty or the next visit fails.

## Main definitions

* `BitSet`: sets of numbers, as bits of words.
* `Worklist`: the state of a run with marks, with `Worklist.visit`.
* `Worklist.Marks`: the marks are right.
* `Worklist.Visited`, `Worklist.Stops`: the states of a run, with the visits made, and its end.

## Main results

* `Worklist.Marks.visit`: a visit of a run with marks is a visit.
* `Worklist.exists_last_visit`: a run has a last state, with the result of the solver.
-/

namespace StackCode

/-! ## Sets of instructions -/

/-- A set of numbers below `size`, held as the bits of 64-bit words. -/
structure BitSet (size : Nat) where
  words : Vector UInt64 ((size + 63) / 64)

namespace BitSet

variable {size i j : Nat}

/-- The word with just the bit `k`. -/
def bit (k : Nat) : UInt64 := 1 <<< UInt64.ofNat k

/-- Whether a word has the bit `k`. -/
def hasBit (word : UInt64) (k : Nat) : Bool := word >>> UInt64.ofNat k &&& 1 == 1

/-- No numbers. -/
def empty (size : Nat) : BitSet size := ⟨Vector.replicate _ 0⟩

/-- Whether the number is in the set. -/
def get (s : BitSet size) (i : Nat) : Bool :=
  if h : i < size then hasBit s.words[i / 64] (i % 64) else false

/-- Replaces the word that has the bit of a number. -/
def modify (s : BitSet size) (i : Nat) (f : UInt64 → UInt64) : BitSet size :=
  if h : i < size then ⟨s.words.set (i / 64) (f s.words[i / 64])⟩ else s

/-- Puts a number into the set. -/
def set (s : BitSet size) (i : Nat) : BitSet size := s.modify i (· ||| bit (i % 64))

/-- Takes a number out of the set. -/
def clear (s : BitSet size) (i : Nat) : BitSet size := s.modify i (· &&& ~~~bit (i % 64))

theorem toNat_ofNat_mod {k : Nat} (hk : k < 64) : (UInt64.ofNat k).toNat % 64 = k := by
  rw [UInt64.toNat_ofNat_of_lt' (Nat.lt_trans hk (by decide)), Nat.mod_eq_of_lt hk]

/-- Bits of a word are those of the number it stands for. -/
theorem hasBit_eq_testBit {word : UInt64} {k : Nat} (hk : k < 64) :
    hasBit word k = word.toNat.testBit k := by
  have hshift : (word >>> UInt64.ofNat k &&& 1).toNat = word.toNat >>> k % 2 := by
    rw [UInt64.toNat_and, UInt64.toNat_shiftRight, toNat_ofNat_mod hk]
    exact Nat.and_one_is_mod _
  rw [hasBit, Nat.testBit_eq_decide_div_mod_eq, ← Nat.shiftRight_eq_div_pow, ← hshift]
  rw [Bool.eq_iff_iff, beq_iff_eq, decide_eq_true_iff, ← UInt64.toNat_inj]
  rfl

theorem testBit_bit {k l : Nat} (hk : k < 64) : (bit k).toNat.testBit l = decide (k = l) := by
  have hpow : (bit k).toNat = 2 ^ k := by
    rw [bit, UInt64.toNat_shiftLeft, toNat_ofNat_mod hk, UInt64.toNat_one, Nat.one_shiftLeft]
    exact Nat.mod_eq_of_lt (Nat.pow_lt_pow_right (by decide) hk)
  rw [hpow, Nat.testBit_two_pow]

theorem hasBit_or_bit {word : UInt64} {k l : Nat} (hk : k < 64) (hl : l < 64) :
    hasBit (word ||| bit k) l = (hasBit word l || decide (k = l)) := by
  rw [hasBit_eq_testBit hl, hasBit_eq_testBit hl, UInt64.toNat_or, Nat.testBit_or, testBit_bit hk]

theorem hasBit_and_not_bit {word : UInt64} {k l : Nat} (hk : k < 64) (hl : l < 64) :
    hasBit (word &&& ~~~bit k) l = (hasBit word l && !decide (k = l)) := by
  have hnot : (UInt64.size - 1 - (bit k).toNat).testBit l = !decide (k = l) := by
    rw [Nat.sub_sub, Nat.add_comm 1]
    rw [Nat.testBit_two_pow_sub_succ (n := 64) (bit k).toNat_lt, testBit_bit hk]
    simp [hl]
  rw [hasBit_eq_testBit hl, hasBit_eq_testBit hl, UInt64.toNat_and, UInt64.toNat_not,
    Nat.testBit_and, hnot]

@[simp] theorem get_empty : (empty size).get i = false := by
  unfold get
  split
  · simp [empty, hasBit_eq_testBit (Nat.mod_lt i (by decide : 64 > 0))]
  · rfl

/-- The numbers in a set are below its size. -/
theorem lt_of_get {s : BitSet size} (h : s.get i = true) : i < size := by
  unfold get at h
  split at h
  · assumption
  · cases h

/-- A change of words that replaces one bit changes the set at one number. -/
theorem get_modify {s : BitSet size} {f : UInt64 → UInt64} {b : Bool → Bool} (hi : i < size)
    (hf : ∀ word k, k < 64 → hasBit (f word) k =
      if i % 64 = k then b (hasBit word k) else hasBit word k) :
    (s.modify i f).get j = if i = j then b (s.get j) else s.get j := by
  by_cases hj : j < size
  · simp only [get, modify, hi, hj, dif_pos, Vector.getElem_set]
    by_cases hdiv : i / 64 = j / 64
    · have hiff : i % 64 = j % 64 ↔ i = j := by omega
      simp only [hdiv, if_true, hf _ _ (Nat.mod_lt j (by decide : 64 > 0)), hiff]
    · have hne : i ≠ j := fun h => hdiv (h ▸ rfl)
      rw [if_neg hdiv, if_neg hne]
  · have hne : i ≠ j := fun h => hj (h ▸ hi)
    simp [get, hj, hne]

/-- Setting a member adds it and no other. -/
theorem get_set {s : BitSet size} (hi : i < size) :
    (s.set i).get j = (s.get j || decide (i = j)) := by
  rw [set, get_modify (b := fun _ => true) hi]
  · by_cases h : i = j <;> simp [h]
  · intro word k hk
    rw [hasBit_or_bit (Nat.mod_lt i (by decide)) hk]
    by_cases h : i % 64 = k <;> simp [h]

/-- Clearing a member removes it and no other. -/
theorem get_clear {s : BitSet size} : (s.clear i).get j = (s.get j && !decide (i = j)) := by
  by_cases hi : i < size
  · rw [clear, get_modify (b := fun _ => false) hi]
    · by_cases h : i = j <;> simp [h]
    · intro word k hk
      rw [hasBit_and_not_bit (Nat.mod_lt i (by decide)) hk]
      by_cases h : i % 64 = k <;> simp [h]
  · have hget : s.get i = false := by simp [get, hi]
    by_cases h : i = j
    · subst h
      simp [clear, modify, hi, hget]
    · simp [clear, modify, hi, h]

end BitSet

/-! ## Marked runs -/

/-- The state of a run over `size` instructions that marks the queued ones. -/
structure Worklist (α : Type) (size : Nat) extends Progress α where
  queued : BitSet size

namespace Worklist

variable {α ε : Type} {size : Nat}

/-- The empty stack at the start of the body, which is marked. -/
def start (size : Nat) : Worklist α size where
  toProgress := .start size
  queued := (BitSet.empty size).set 0

/-- Records a stack before the instruction at `target`, and queues the instruction unless it is
marked. -/
def update (w : Worklist α size) (target : Nat) (stack : OperandStack α) : Worklist α size :=
  if w.queued.get target then { w with states := w.states.setIfInBounds target (some stack) }
  else
    { w with
      states := w.states.setIfInBounds target (some stack)
      queue := w.queue ++ [target]
      queued := w.queued.set target }

/-- Takes in a stack that reaches the instruction at `target`. -/
def record [DecidableEq α] (a : Analysis α ε) (w : Worklist α size) (target : Nat)
    (incoming : OperandStack α) : Except ε (Worklist α size) :=
  match w.states[target]? with
  | none => .ok w
  | some none => .ok (w.update target incoming)
  | some (some recorded) =>
    match a.merge target recorded incoming with
    | .error e => .error e
    | .ok merged => if merged = recorded then .ok w else .ok (w.update target merged)

/-- Takes in the stacks that leave the instruction at `index`, in order. -/
def propagate [DecidableEq α] (a : Analysis α ε) (labels : Array Nat) (index : Nat) :
    List (Exit × OperandStack α) → Worklist α size → Except ε (Worklist α size)
  | [], w => .ok w
  | (exit, stack) :: rest, w =>
    match exit.resolve? size labels index with
    | none => .error (a.unresolved index exit)
    | some target =>
      match w.record a target stack with
      | .error e => .error e
      | .ok w => propagate a labels index rest w

/-- Takes the instruction at `index` off the queue, which leaves `rest` of it, and its mark off. -/
def pop (w : Worklist α size) (index : Nat) (rest : List Nat) : Worklist α size :=
  { w with queue := rest, queued := w.queued.clear index }

/-- Takes the instruction at `index` off the queue and visits it. -/
def visit [DecidableEq α] (a : Analysis α ε) (body : Array Instr) (labels : Array Nat)
    (index : Nat) (rest : List Nat) (w : Worklist α body.size) :
    Except ε (Worklist α body.size) :=
  match body[index]?, w.states[index]? with
  | some instr, some (some stack) =>
    match a.transfer index instr stack with
    | .error e => .error e
    | .ok v =>
      propagate a labels index v.successors
        { w.pop index rest with
          effects := w.effects.setIfInBounds index (some v.effect)
          findings := w.findings ++ v.findings }
  | _, _ => .ok (w.pop index rest)

/-- The marked instructions are the queued ones, and none is queued twice. -/
structure Marks (w : Worklist α size) : Prop where
  nodup : w.queue.Nodup
  marked : ∀ i, w.queued.get i = true ↔ i ∈ w.queue

/-- A marked run does what a run does, and its marks are right. -/
inductive Follows : Except ε (Worklist α size) → Except ε (Progress α) → Prop
  | ok {w : Worklist α size} (h : w.Marks) : Follows (.ok w) (.ok w.toProgress)
  | error (e : ε) : Follows (.error e) (.error e)

namespace Follows

variable {x : Except ε (Worklist α size)} {y : Except ε (Progress α)}

theorem of_ok {w : Worklist α size} (h : Follows (.ok w) y) : w.Marks ∧ y = .ok w.toProgress := by
  cases h with
  | ok hmarks => exact ⟨hmarks, rfl⟩

theorem eq_ok {p : Progress α} (h : Follows x (.ok p)) :
    ∃ w : Worklist α size, x = .ok w ∧ w.toProgress = p := by
  cases h with
  | ok => exact ⟨_, rfl, rfl⟩

theorem eq_error {e : ε} (h : Follows x (.error e)) : x = .error e := by
  cases h with
  | error => rfl

end Follows

theorem marks_start : (start size : Worklist α size).Marks where
  nodup := by
    simp only [start, Progress.start]
    split <;> simp
  marked i := by
    simp only [start, Progress.start]
    by_cases hzero : size = 0
    · subst hzero
      simp only [if_true, List.not_mem_nil, iff_false]
      exact fun h => Nat.not_lt_zero _ (BitSet.lt_of_get h)
    · rw [BitSet.get_set (Nat.pos_of_ne_zero hzero)]
      simp [hzero, eq_comm]

variable {w : Worklist α size} {target : Nat}

/-- Queueing an instruction unless it is marked is queueing it unless it is queued. -/
theorem Marks.update (h : w.Marks) (htarget : target < size) (stack : OperandStack α) :
    Follows (.ok (w.update target stack) : Except ε (Worklist α size))
      (.ok (w.toProgress.update target stack)) := by
  unfold Worklist.update Progress.update
  by_cases hmem : target ∈ w.queue
  · rw [if_pos ((h.marked target).mpr hmem), if_pos hmem]
    exact .ok ⟨h.nodup, h.marked⟩
  · rw [if_neg (mt (h.marked target).mp hmem), if_neg hmem]
    refine .ok ⟨?_, fun i => ?_⟩
    · refine List.nodup_append.mpr ⟨h.nodup, by simp, ?_⟩
      rintro i hi j hj rfl
      exact hmem (List.mem_singleton.mp hj ▸ hi)
    · rw [BitSet.get_set htarget, Bool.or_eq_true, h.marked i, decide_eq_true_iff]
      simp [eq_comm]

variable [DecidableEq α]

/-- Both take in a stack that reaches an instruction. -/
theorem Marks.record (a : Analysis α ε) (h : w.Marks) (htarget : target < size)
    (incoming : OperandStack α) :
    Follows (w.record a target incoming) (w.toProgress.record a target incoming) := by
  rcases hstate : w.states[target]? with _ | _ | recorded
  · simp only [Worklist.record, Progress.record, hstate]
    exact .ok h
  · simp only [Worklist.record, Progress.record, hstate]
    exact h.update htarget incoming
  · simp only [Worklist.record, Progress.record, hstate]
    cases a.merge target recorded incoming with
    | error e => exact .error e
    | ok merged =>
      by_cases hsame : merged = recorded
      · simp only [hsame, if_true]
        exact .ok h
      · simp only [hsame, if_false]
        exact h.update htarget merged

/-- Both take in the stacks that leave an instruction. -/
theorem Marks.propagate (a : Analysis α ε) (labels : Array Nat) (index : Nat) (h : w.Marks)
    (successors : List (Exit × OperandStack α)) :
    Follows (Worklist.propagate a labels index successors w)
      (Progress.propagate a size labels index successors w.toProgress) := by
  induction successors generalizing w with
  | nil => exact .ok h
  | cons successor successors ih =>
    obtain ⟨exit, stack⟩ := successor
    rw [Worklist.propagate, Progress.propagate]
    cases hresolve : exit.resolve? size labels index with
    | none => exact .error _
    | some target =>
      have hrecord := h.record a (Exit.resolve?_lt hresolve) stack
      dsimp only
      generalize w.record a target stack = x at hrecord ⊢
      generalize w.toProgress.record a target stack = y at hrecord ⊢
      cases hrecord with
      | ok hmarks => exact ih hmarks
      | error e => exact .error e

variable {a : Analysis α ε} {body : Array Instr} {labels : Array Nat} {index : Nat}
  {rest : List Nat}

omit [DecidableEq α] in
/-- The instruction that is visited is marked no more. -/
theorem Marks.pop (h : w.Marks) (hqueue : w.queue = index :: rest) :
    (w.pop index rest).Marks := by
  have hnodup := h.nodup
  rw [hqueue, List.nodup_cons] at hnodup
  refine ⟨hnodup.2, fun i => ?_⟩
  simp only [Worklist.pop]
  rw [BitSet.get_clear, Bool.and_eq_true, h.marked i, hqueue, Bool.not_eq_true',
    decide_eq_false_iff_not]
  constructor
  · rintro ⟨hmem, hne⟩
    exact (List.mem_cons.mp hmem).resolve_left (Ne.symm hne)
  · intro hmem
    refine ⟨List.mem_cons_of_mem _ hmem, ?_⟩
    rintro rfl
    exact hnodup.1 hmem

/-- **A visit of a marked run is a visit**, and keeps the marks right. -/
theorem Marks.visit (a : Analysis α ε) (labels : Array Nat) {w : Worklist α body.size}
    (h : w.Marks) (hqueue : w.queue = index :: rest) :
    Follows (Worklist.visit a body labels index rest w)
      (Progress.visit a body labels index rest w.toProgress) := by
  have hpop := h.pop hqueue
  cases hinstr : body[index]? with
  | none =>
    simp only [Worklist.visit, Progress.visit, hinstr]
    exact .ok hpop
  | some instr =>
    rcases hstack : w.states[index]? with _ | _ | stack
    · simp only [Worklist.visit, Progress.visit, hinstr, hstack]
      exact .ok hpop
    · simp only [Worklist.visit, Progress.visit, hinstr, hstack]
      exact .ok hpop
    · simp only [Worklist.visit, Progress.visit, hinstr, hstack]
      cases a.transfer index instr stack with
      | error e => exact .error e
      | ok v =>
        have hmarks : Marks { w.pop index rest with
            effects := w.effects.setIfInBounds index (some v.effect)
            findings := w.findings ++ v.findings } := ⟨hpop.nodup, hpop.marked⟩
        exact hmarks.propagate a labels index v.successors

/-! ## The visits of a run -/

/-- The states of a run from its start, each with the instructions visited up to there. -/
inductive Visited (a : Analysis α ε) (body : Array Instr) (labels : Array Nat) :
    List Nat → Worklist α body.size → Prop
  | start : Visited a body labels [] (start body.size)
  | visit {visits : List Nat} {w w' : Worklist α body.size} {index : Nat} {rest : List Nat}
      (h : Visited a body labels visits w) (hqueue : w.queue = index :: rest)
      (hvisit : Worklist.visit a body labels index rest w = .ok w') :
      Visited a body labels (visits ++ [index]) w'

/-- The run is over, with this result: nothing is queued, or the next visit fails. -/
def Stops (a : Analysis α ε) (body : Array Instr) (labels : Array Nat) (w : Worklist α body.size)
    (result : Except ε (Solution α)) : Prop :=
  (w.queue = [] ∧ result = .ok ⟨w.states, w.effects, w.findings⟩) ∨
    ∃ index rest e, w.queue = index :: rest ∧
      Worklist.visit a body labels index rest w = .error e ∧ result = .error e

variable {visits visits' : List Nat} {w w' : Worklist α body.size}
  {result : Except ε (Solution α)}

/-- Marks and queue agree throughout a run. -/
theorem Visited.marks (h : Visited a body labels visits w) : w.Marks := by
  induction h with
  | start => exact marks_start
  | @visit _ w w' index rest _ hqueue hvisit ih =>
    have hfollows := ih.visit a labels hqueue
    rw [hvisit] at hfollows
    exact hfollows.of_ok.1

/-- The solution is read off the end of the run. -/
theorem map_run_start (a : Analysis α ε) (body : Array Instr) (labels : Array Nat) :
    ((start body.size).toProgress.run a body labels).map
      (fun p => (⟨p.states, p.effects, p.findings⟩ : Solution α)) = a.solve body labels := by
  unfold Analysis.solve
  rw [start]
  cases (Progress.start body.size).run a body labels with
  | error e => rfl
  | ok p => rfl

/-- The run goes on from any of its states until it is over. -/
theorem Visited.exists_stops (h : Visited a body labels visits w) :
    ∃ more w', Visited a body labels (visits ++ more) w' ∧
      Stops a body labels w' ((w.toProgress.run a body labels).map
        fun p => ⟨p.states, p.effects, p.findings⟩) := by
  generalize hp : w.toProgress = p
  fun_induction Progress.run a body labels p generalizing visits w with
  | case1 p hqueue =>
    subst hp
    exact ⟨[], w, by simpa using h, .inl ⟨hqueue, rfl⟩⟩
  | case2 p index rest hqueue e hvisit =>
    subst hp
    have hfollows := h.marks.visit a labels hqueue
    rw [hvisit] at hfollows
    exact ⟨[], w, by simpa using h, .inr ⟨index, rest, e, hqueue, hfollows.eq_error, rfl⟩⟩
  | case3 p index rest hqueue q hvisit ih =>
    subst hp
    have hfollows := h.marks.visit a labels hqueue
    rw [hvisit] at hfollows
    obtain ⟨w', hw', hq⟩ := hfollows.eq_ok
    obtain ⟨more, w'', hvisited, hstops⟩ := ih (h.visit hqueue hw') hq
    exact ⟨index :: more, w'', by simpa using hvisited, hstops⟩

/-- A run has one state after each number of visits. -/
theorem Visited.eq_or_next (h : Visited a body labels visits w)
    (h' : Visited a body labels visits' w') (hle : visits.length ≤ visits'.length) :
    (visits = visits' ∧ w = w') ∨ ∃ index rest w₁, w.queue = index :: rest ∧
      Worklist.visit a body labels index rest w = .ok w₁ ∧ visits ++ [index] <+: visits' := by
  induction h' generalizing visits w with
  | start =>
    cases h with
    | start => exact .inl ⟨rfl, rfl⟩
    | visit => simp at hle
  | @visit earlier v v' index rest hv hqueue hvisit ih =>
    rw [List.length_append, List.length_singleton] at hle
    rcases Nat.lt_or_eq_of_le hle with hlt | heq
    · right
      rcases ih h (Nat.le_of_lt_succ hlt) with ⟨rfl, rfl⟩ | ⟨j, rest', w₁, hqueue', hvisit', hsub⟩
      · exact ⟨index, rest, v', hqueue, hvisit, List.prefix_rfl⟩
      · exact ⟨j, rest', w₁, hqueue', hvisit', hsub.trans (List.prefix_append _ _)⟩
    · left
      cases h with
      | start => simp at heq
      | @visit earlier' u _ index' rest' hu hqueue' hvisit' =>
        rw [List.length_append, List.length_singleton, Nat.add_right_cancel_iff] at heq
        rcases ih hu (Nat.le_of_eq heq) with ⟨rfl, rfl⟩ | ⟨_, _, _, _, _, hsub⟩
        · obtain ⟨rfl, rfl⟩ := List.cons.inj (hqueue'.symm.trans hqueue)
          exact ⟨rfl, Except.ok.inj (hvisit'.symm.trans hvisit)⟩
        · have hlength := hsub.length_le
          rw [List.length_append, List.length_singleton, heq] at hlength
          exact absurd hlength (Nat.not_succ_le_self _)

/-- When a run is over, the visits made are all there are. -/
theorem Visited.prefix_of_stops (h : Visited a body labels visits w)
    (hstops : Stops a body labels w result) (h' : Visited a body labels visits' w') :
    visits' <+: visits := by
  rcases Nat.le_total visits'.length visits.length with hle | hle
  · rcases h'.eq_or_next h hle with ⟨rfl, -⟩ | ⟨_, _, _, _, _, hsub⟩
    · exact List.prefix_rfl
    · exact (List.prefix_append _ _).trans hsub
  · rcases h.eq_or_next h' hle with ⟨rfl, -⟩ | ⟨index, rest, w₁, hqueue, hvisit, -⟩
    · exact List.prefix_rfl
    · rcases hstops with ⟨hempty, -⟩ | ⟨_, _, e, hqueue', hfails, -⟩
      · cases hqueue.symm.trans hempty
      · obtain ⟨rfl, rfl⟩ := List.cons.inj (hqueue.symm.trans hqueue')
        cases hvisit.symm.trans hfails

/-- **A run has finitely many visits**, and ends with the result of the solver. -/
theorem exists_last_visit (a : Analysis α ε) (body : Array Instr) (labels : Array Nat) :
    ∃ visits w, Visited a body labels visits w ∧ Stops a body labels w (a.solve body labels) ∧
      ∀ visits' w', Visited a body labels visits' w' → visits' <+: visits := by
  have hstart : Visited a body labels [] (start body.size) := .start
  obtain ⟨visits, w, hvisited, hstops⟩ := hstart.exists_stops
  rw [map_run_start] at hstops
  exact ⟨visits, w, hvisited, hstops, fun _ _ h' => hvisited.prefix_of_stops hstops h'⟩

end Worklist

end StackCode
