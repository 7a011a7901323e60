import StackCode.Link.Basic
import StackCode.Program.Chain

/-!
# Linking sets of modules

A module is linked after its imports, depth first.  Finished modules are kept, also when the module
that asked for them fails, so each is linked once.  A chain of imports that comes back to a module
on the chain is an error.

Each module on the chain is one of the set and occurs there once, so the modules of the set that are
not on the chain bound the depth of the search.

## Main definitions

* `LinkRecord`: a finished module with its import closure.
* `Linker`: a set of modules and those of them that are finished.
* `Linker.link`: links a module and its imports.
* `linkAll`: links all modules of a set.
-/

namespace StackCode

/-- A finished module. -/
structure LinkRecord where
  linked : LinkedModule
  /-- The modules that can be reached through imports, this one included. -/
  closure : List ModuleId
deriving DecidableEq

/-- A set of modules and those of them that are finished. -/
structure Linker where
  modules : List CompiledModule
  /-- The finished modules, latest first. -/
  finished : List LinkRecord := []
deriving DecidableEq

/-- The module of an id in a set; of several the last counts. -/
def findModule? (modules : List CompiledModule) (id : ModuleId) : Option CompiledModule :=
  modules.reverse.find? fun m => m.module = id

/-- Adds the elements of a list that are not there yet. -/
def insertAll (set : List ModuleId) (new : List ModuleId) : List ModuleId :=
  new.foldl (fun set m => if m ∈ set then set else set ++ [m]) set

theorem mem_map_of_findModule? {modules : List CompiledModule} {m : CompiledModule} {id : ModuleId}
    (h : findModule? modules id = some m) : id ∈ modules.map CompiledModule.module := by
  have hid : m.module = id := by simpa using List.find?_some h
  have hmem : m ∈ modules := List.mem_reverse.1 (List.mem_of_find?_eq_some h)
  exact hid ▸ List.mem_map_of_mem hmem

/-- The finished form of a module. -/
def findRecord? (finished : List LinkRecord) (id : ModuleId) : Option LinkRecord :=
  finished.find? fun r => r.linked.module = id

/-- Finishes a module whose imports are finished. -/
def finishModule (m : CompiledModule) (imports : List Fingerprint) (finished : List LinkRecord) :
    Except LinkError LinkRecord :=
  let closure := m.imports.foldl (fun set dependency =>
    match findRecord? finished dependency with
    | some r => insertAll set r.closure
    | none => set) [m.module]
  if closure.length < 256 then do
    let offsets := fun id => (findRecord? finished id).map fun r => r.linked.functionOffsets
    let linked ← m.link imports (UInt8.ofNat closure.length) offsets
    return ⟨linked, closure⟩
  else .error (.moduleCountOverflow m.module closure.length)

/-- The error for a chain of imports that comes back to one of its modules. -/
def circular (chain : List ModuleId) (id : ModuleId) : LinkError :=
  .circularImport (chain.getLast?.getD id) (chain.dropWhile (· ≠ id) ++ [id])

mutual

/-- Links a module that the last module of the chain imports.  Answers its fingerprint and the
modules finished so far. -/
def linkModule (modules : List CompiledModule) (chain : List ModuleId) (id : ModuleId)
    (finished : List LinkRecord) : Except LinkError Fingerprint × List LinkRecord :=
  match _hfind : findModule? modules id with
  | none => (.error (.unknownModule id), finished)
  | some m =>
    match findRecord? finished id with
    | some r => (.ok r.linked.fingerprint, finished)
    | none =>
      if _hchain : id ∈ chain then (.error (circular chain id), finished)
      else
        match linkImports modules (chain ++ [id]) m.imports finished with
        | (.error e, finished) => (.error e, finished)
        | (.ok imports, finished) =>
          match finishModule m imports finished with
          | .error e => (.error e, finished)
          | .ok r => (.ok r.linked.fingerprint, r :: finished)
termination_by (offChain (modules.map CompiledModule.module) chain, 0)
decreasing_by exact .left _ _ (offChain_append_lt (mem_map_of_findModule? _hfind) _hchain)

/-- Links the imports of the last module of the chain, in order, up to the first error. -/
def linkImports (modules : List CompiledModule) (chain : List ModuleId) (imports : List ModuleId)
    (finished : List LinkRecord) : Except LinkError (List Fingerprint) × List LinkRecord :=
  match imports with
  | [] => (.ok [], finished)
  | dependency :: rest =>
    match linkModule modules chain dependency finished with
    | (.error e, finished) => (.error e, finished)
    | (.ok fingerprint, finished) =>
      match linkImports modules chain rest finished with
      | (.error e, finished) => (.error e, finished)
      | (.ok fingerprints, finished) => (.ok (fingerprint :: fingerprints), finished)
termination_by (offChain (modules.map CompiledModule.module) chain, imports.length)
decreasing_by
  · exact .right _ (by simp)
  · exact .right _ (by simp)

end

namespace Linker

/-- Links a module and, first, everything it imports. -/
def link (l : Linker) (id : ModuleId) : Except LinkError Fingerprint × Linker :=
  let (result, finished) := linkModule l.modules [] id l.finished
  (result, { l with finished })

/-- The linked form of a module, once it is finished. -/
def linked? (l : Linker) (id : ModuleId) : Option LinkedModule :=
  (findRecord? l.finished id).map LinkRecord.linked

/-- Links modules in order, up to the first error. -/
def linkEach (l : Linker) (ids : List ModuleId) : Except LinkError Linker :=
  ids.foldlM (fun l id =>
    match l.link id with
    | (.ok _, l) => .ok l
    | (.error e, _) => .error e) l

end Linker

/-- Takes the modules of these ids out of the finished ones, each of which can be taken once. -/
def takeRecords : (ids : List ModuleId) → List LinkRecord → Except LinkError (List LinkedModule)
  | [], _ => .ok []
  | id :: rest, finished =>
    match findRecord? finished id with
    | none => .error (.unknownModule id)
    | some r => do
      let others ← takeRecords rest (finished.filter fun r => r.linked.module ≠ id)
      return r.linked :: others

/-- Links every module of a set and answers them in order.  A module is handed out once, so an id
that occurs again names no module. -/
def linkAll (modules : List CompiledModule) : Except LinkError (List LinkedModule) := do
  let ids := modules.map CompiledModule.module
  let l ← Linker.linkEach ⟨modules, []⟩ ids
  takeRecords ids l.finished

end StackCode
