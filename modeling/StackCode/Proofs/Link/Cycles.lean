import Mathlib.Data.Set.Card
import StackCode.Proofs.Link.Outcome
import StackCode.Proofs.Link.Patched

/-!
# What a failure says of the imports

The closure that the linker keeps with a finished module holds the modules reached through imports,
each once.  An error names something of the import graph: a cycle on the way from the module that
was asked for, a module that is missing, or a module that reaches too many others.

## Main definitions

* `importClosure`: the modules reached from a module.
* `ListsClosure`: a list of these modules, without repetition.
* `SearchPath`: a chain of imports that a search follows.
* `ImportCycle`: a cycle of imports, written out.
* `LinkError.Describes`: what an error says of the imports.

## Main results

* `LinksTo.listsClosure`: the closure kept with a module is its import closure.
* `FailsWith.describes`: every error describes the imports.
-/

namespace StackCode

variable {modules : List CompiledModule} {chain : List ModuleId} {root id d y : ModuleId}
  {finished : List LinkRecord} {r : LinkRecord} {cm : CompiledModule} {imports : List Fingerprint}
  {e : LinkError}

/-- The modules reached from a module through imports, the module included. -/
def importClosure (modules : List CompiledModule) (id : ModuleId) : Set ModuleId :=
  {y | Relation.ReflTransGen (Imports modules) id y}

/-! ### Import closures -/

theorem insertAll_cons (set new : List ModuleId) :
    insertAll set (y :: new) = insertAll (if y ∈ set then set else set ++ [y]) new := rfl

theorem mem_insertAll {set new : List ModuleId} : y ∈ insertAll set new ↔ y ∈ set ∨ y ∈ new := by
  induction new generalizing set with
  | nil => simp [insertAll]
  | cons x new ih =>
    rw [insertAll_cons, ih]
    split <;> grind

theorem nodup_insertAll {set new : List ModuleId} (h : set.Nodup) : (insertAll set new).Nodup := by
  induction new generalizing set with
  | nil => exact h
  | cons x new ih =>
    rw [insertAll_cons]
    refine ih ?_
    split
    · exact h
    · rename_i hx
      exact List.nodup_append.mpr ⟨h, List.nodup_singleton x, by grind⟩

/-- Adds the closures of finished modules. -/
def addClosures (finished : List LinkRecord) (set ids : List ModuleId) : List ModuleId :=
  ids.foldl (fun set d =>
    match findRecord? finished d with
    | some r => insertAll set r.closure
    | none => set) set

theorem closureIn_eq : cm.closureIn finished = addClosures finished [cm.module] cm.imports := rfl

/-- A closure is collected from those of the imports. -/
theorem mem_addClosures {set ids : List ModuleId} :
    y ∈ addClosures finished set ids ↔
      y ∈ set ∨ ∃ d ∈ ids, ∃ r, findRecord? finished d = some r ∧ y ∈ r.closure := by
  induction ids generalizing set with
  | nil => simp [addClosures]
  | cons d ids ih =>
    refine ih.trans ?_
    cases hd : findRecord? finished d with
    | none => simp [hd]
    | some r => simp [hd, mem_insertAll, or_assoc]

theorem nodup_addClosures {set ids : List ModuleId} (h : set.Nodup) :
    (addClosures finished set ids).Nodup := by
  induction ids generalizing set with
  | nil => exact h
  | cons d ids ih =>
    refine ih ?_
    dsimp only
    split
    · exact nodup_insertAll h
    · exact h

/-- The modules reached from a module, each once. -/
structure ListsClosure (modules : List CompiledModule) (id : ModuleId) (closure : List ModuleId) :
    Prop where
  nodup : closure.Nodup
  mem_iff : ∀ {y}, y ∈ closure ↔ y ∈ importClosure modules id

/-- The list of a closure counts it. -/
theorem ListsClosure.ncard_eq {closure : List ModuleId} (h : ListsClosure modules id closure) :
    (importClosure modules id).ncard = closure.length := by
  have hset : importClosure modules id = closure.toFinset := by
    ext y
    rw [Finset.mem_coe, List.mem_toFinset, h.mem_iff]
  rw [hset, Set.ncard_coe_finset, List.toFinset_card_of_nodup h.nodup]

/-- The closure that is collected is that of the imports: a module reaches itself, and whatever one
of its imports reaches. -/
theorem listsClosure_closureIn (hcm : findModule? modules id = some cm)
    (himports : List.Forall₂ (FinishedAs finished) cm.imports imports)
    (hclosures : ∀ d ∈ cm.imports, ∀ r, findRecord? finished d = some r →
      ListsClosure modules d r.closure) :
    ListsClosure modules id (cm.closureIn finished) := by
  refine ⟨nodup_addClosures (List.nodup_singleton _), fun {y} => ?_⟩
  rw [closureIn_eq, mem_addClosures, List.mem_singleton, module_of_findModule? hcm, importClosure,
    Set.mem_ofPred_eq, Relation.ReflTransGen.cases_head_iff]
  refine or_congr eq_comm ⟨?_, ?_⟩
  · rintro ⟨d, hd, r, hr, hy⟩
    exact ⟨d, ⟨cm, hcm, hd⟩, (hclosures d hd r hr).mem_iff.mp hy⟩
  · rintro ⟨d, ⟨cm', hcm', hd⟩, hreach⟩
    cases hcm.symm.trans hcm'
    obtain ⟨r, hr⟩ := findRecord?_of_finishedAs himports hd
    exact ⟨d, hd, r, hr, (hclosures d hd r hr).mem_iff.mpr hreach⟩

/-- A finished module reaches few enough modules. -/
theorem closure_of_finishModule (h : finishModule cm imports finished = .ok r) :
    r.closure = cm.closureIn finished ∧ r.closure.length < 256 := by
  rw [finishModule_eq] at h
  split at h
  · rename_i hlt
    obtain ⟨linked, -, h⟩ := bind_eq_ok.mp h
    cases pure_eq_ok.mp h
    exact ⟨rfl, hlt⟩
  · cases h

/-- **The closure kept with a finished module is its import closure.** -/
theorem LinksTo.listsClosure (h : LinksTo modules id r) : ListsClosure modules id r.closure := by
  induction h with
  | finish hcm himports _ hr ih =>
    rw [(closure_of_finishModule hr).1]
    exact listsClosure_closureIn hcm himports ih

/-- A module that can be linked reaches at most 255 modules. -/
theorem Linkable.ncard_le (h : Linkable modules id) : (importClosure modules id).ncard ≤ 255 := by
  obtain ⟨r, h⟩ := h
  rw [h.listsClosure.ncard_eq]
  cases h with
  | finish _ _ _ hr => exact Nat.le_of_lt_succ (closure_of_finishModule hr).2

/-! ### Errors of one module -/

namespace CompiledModule

variable {count : UInt8} {offsets : ModuleId → Option (Array Nat)} {image : Array UInt8}

/-- The only error of writing imports is a place that is not there. -/
theorem writeImports_error (h : cm.writeImports image imports = .error e) :
    ∃ offset, e = .badFixup cm.module offset := by
  rw [writeImports_eq] at h
  obtain ⟨entry, -, image, h⟩ := foldlM_eq_error h
  unfold writeSlot at h
  split at h <;> cases h
  exact ⟨_, rfl⟩

theorem writeCount_error (h : cm.writeCount image count = .error e) :
    ∃ offset, e = .badFixup cm.module offset := by
  unfold writeCount at h
  split at h <;> cases h
  exact ⟨_, rfl⟩

/-- The only error of writing tokens is a place that is not there. -/
theorem writeTokens_error (h : cm.writeTokens offsets image = .error e) :
    ∃ offset, e = .badFixup cm.module offset := by
  rw [writeTokens_eq] at h
  obtain ⟨f, -, image, h⟩ := foldlM_eq_error h
  unfold patchToken at h
  split at h
  · cases h
    exact ⟨_, rfl⟩
  · split at h <;> cases h
    exact ⟨_, rfl⟩

/-- A module whose imports are linked fails only where its image cannot be filled in. -/
theorem link_error (h : cm.link imports count offsets = .error e) :
    ∃ offset, e = .badFixup cm.module offset := by
  rcases bind_eq_error.mp h with h | ⟨image₁, -, h⟩
  · exact writeImports_error h
  rcases bind_eq_error.mp h with h | ⟨image₂, -, h⟩
  · exact writeCount_error h
  rcases bind_eq_error.mp h with h | ⟨image₃, -, h⟩
  · exact writeTokens_error h
  · cases h

end CompiledModule

/-- The imports of a module can be linked, but its image cannot be filled in at `offset`. -/
def Unpatchable (modules : List CompiledModule) (id : ModuleId) (offset : Nat) : Prop :=
  ∃ cm imports count offsets, findModule? modules id = some cm ∧
    imports.length = cm.imports.length ∧
    (∀ d ∈ cm.imports, ∃ r, LinksTo modules d r ∧ offsets d = some r.linked.functionOffsets) ∧
    cm.link imports count offsets = .error (.badFixup id offset)

/-- A module whose imports are linked fails because it reaches too many modules, or because its
image cannot be filled in. -/
theorem error_of_finishModule (hcm : findModule? modules id = some cm)
    (himports : List.Forall₂ (FinishedAs finished) cm.imports imports)
    (hlinks : ∀ d ∈ cm.imports, ∀ r, findRecord? finished d = some r → LinksTo modules d r)
    (he : finishModule cm imports finished = .error e) :
    (e = .moduleCountOverflow id (importClosure modules id).ncard ∧
        255 < (importClosure modules id).ncard) ∨
      ∃ offset, e = .badFixup id offset ∧ Unpatchable modules id offset := by
  have hclosure := listsClosure_closureIn hcm himports fun d hd r hr =>
    (hlinks d hd r hr).listsClosure
  have hid := module_of_findModule? hcm
  rw [finishModule_eq] at he
  split at he
  · rcases bind_eq_error.mp he with hlink | ⟨linked, -, he⟩
    · obtain ⟨offset, rfl⟩ := CompiledModule.link_error hlink
      rw [hid] at hlink ⊢
      refine .inr ⟨offset, rfl, cm, imports, _, _, hcm, himports.length_eq.symm, fun d hd => ?_,
        hlink⟩
      obtain ⟨r, hr⟩ := findRecord?_of_finishedAs himports hd
      exact ⟨r, hlinks d hd r hr, by rw [hr]; rfl⟩
    · cases he
  · rename_i hlt
    cases he
    rw [hid, hclosure.ncard_eq]
    exact .inl ⟨rfl, Nat.le_of_not_lt hlt⟩

/-! ### The path of a search -/

/-- A chain of imports from `root` to a module, which the search for `root` follows. -/
inductive SearchPath (modules : List CompiledModule) (root : ModuleId) :
    List ModuleId → ModuleId → Prop
  | start : SearchPath modules root [] root
  | step {chain : List ModuleId} {id d : ModuleId} (hpath : SearchPath modules root chain id)
      (himport : Imports modules id d) : SearchPath modules root (chain ++ [id]) d

/-- A cycle of imports, from a module back to it: each module imports the next, all are reached from
`root`, and `last` imports the first one again. -/
structure ImportCycle (modules : List CompiledModule) (root last : ModuleId)
    (cycle : List ModuleId) : Prop where
  two_le_length : 2 ≤ cycle.length
  closes : cycle.head? = cycle.getLast?
  isChain : cycle.IsChain (Imports modules)
  reached : ∀ y ∈ cycle, y ∈ importClosure modules root
  nextToLast : cycle.dropLast.getLast? = some last

/-- The modules of a cycle reach themselves. -/
theorem ImportCycle.transGen {last : ModuleId} {cycle : List ModuleId}
    (h : ImportCycle modules root last cycle) :
    ∃ y ∈ importClosure modules root, Relation.TransGen (Imports modules) y y := by
  obtain ⟨hlength, hcloses, hchain, hreached, -⟩ := h
  rcases cycle with _ | ⟨x, rest⟩
  · cases hlength
  rcases List.eq_nil_or_concat rest with rfl | ⟨l, z, rfl⟩
  · exact absurd hlength (by simp)
  rw [List.concat_eq_append] at hcloses hchain hreached
  rw [← List.cons_append, List.getLast?_concat] at hcloses
  cases hcloses
  exact ⟨x, hreached x List.mem_cons_self, transGen_of_isChain hchain⟩

namespace SearchPath

/-- A path of the search follows imports. -/
theorem isChain (h : SearchPath modules root chain id) :
    List.IsChain (Imports modules) (chain ++ [id]) := by
  induction h with
  | start => exact .singleton root
  | step _ himport ih => exact isChain_import ih himport

/-- The search comes to modules that the root reaches. -/
theorem reached (h : SearchPath modules root chain id) : id ∈ importClosure modules root := by
  induction h with
  | start => exact .refl
  | step _ himport ih => exact .tail ih himport

theorem reached_of_mem (h : SearchPath modules root chain id) (hy : y ∈ chain) :
    y ∈ importClosure modules root := by
  induction h with
  | start => cases hy
  | step hpath _ ih =>
    rcases List.mem_append.mp hy with hy | hy
    · exact ih hy
    · exact List.mem_singleton.mp hy ▸ hpath.reached

/-- The search comes to the root and to what is imported. -/
theorem eq_or_imported (h : SearchPath modules root chain id) :
    id = root ∨ ∃ y ∈ importClosure modules root, Imports modules y id := by
  cases h with
  | start => exact .inl rfl
  | step hpath himport => exact .inr ⟨_, hpath.reached, himport⟩

/-- A path that comes back to one of its modules has run through a cycle.  What comes before the
first visit of the module leads to the cycle and is no part of it. -/
theorem importCycle (h : SearchPath modules root chain id) (hid : id ∈ chain) :
    ImportCycle modules root (chain.getLast?.getD id) (chain.dropWhile (· ≠ id) ++ [id]) := by
  obtain ⟨front, back, rfl, hfront⟩ := List.eq_append_cons_of_mem hid
  have hdrop : (front ++ id :: back).dropWhile (· ≠ id) = id :: back := by
    rw [List.dropWhile_append_of_pos]
    · simp
    · intro y hy
      have hne : y ≠ id := fun heq => hfront (heq ▸ hy)
      simpa using hne
  have hchain := h.isChain
  rw [List.append_assoc, List.cons_append] at hchain
  rw [hdrop]
  refine ⟨by simp, ?_, hchain.right_of_append, fun y hy => ?_, ?_⟩
  · rw [List.getLast?_concat]
    rfl
  · rcases List.mem_append.mp hy with hy | hy
    · exact h.reached_of_mem (List.mem_append_right _ hy)
    · exact List.mem_singleton.mp hy ▸ h.reached
  · rw [List.dropLast_concat, List.getLast?_append]
    simp [List.getLast?_cons]

end SearchPath

/-- What an error says of the imports, if it comes from a search for `root`. -/
def LinkError.Describes (modules : List CompiledModule) (root : ModuleId) : LinkError → Prop
  | .circularImport last cycle => ImportCycle modules root last cycle
  | .unknownModule id => (∀ cm ∈ modules, cm.module ≠ id) ∧
      (id = root ∨ ∃ y ∈ importClosure modules root, Imports modules y id)
  | .moduleCountOverflow id count => id ∈ importClosure modules root ∧
      count = (importClosure modules id).ncard ∧ 255 < count
  | .badFixup id offset => id ∈ importClosure modules root ∧ Unpatchable modules id offset

theorem findModule?_eq_none : findModule? modules id = none ↔ ∀ cm ∈ modules, cm.module ≠ id := by
  simp [findModule?]

/-- **Every error describes the imports.** -/
theorem FailsWith.describes (h : FailsWith modules chain id e)
    (hpath : SearchPath modules root chain id) : e.Describes modules root := by
  induction h with
  | unknown hcm => exact ⟨findModule?_eq_none.mp hcm, hpath.eq_or_imported⟩
  | circular _ hmem => exact hpath.importCycle hmem
  | dependency hcm _ himports _ _ ih => exact ih (hpath.step (imports_of_eq hcm himports))
  | finish hcm _ himports hlinks he =>
    rcases error_of_finishModule hcm himports hlinks he with ⟨rfl, hlt⟩ | ⟨offset, rfl, hpatch⟩
    · exact ⟨hpath.reached, rfl, hlt⟩
    · exact ⟨hpath.reached, hpatch⟩

end StackCode
