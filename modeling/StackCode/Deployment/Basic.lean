import StackCode.Link.Basic
import StackCode.Program.Chain

/-!
# Deployment

A machine takes images by fingerprint and looks up imports among the images it has, so a module is
loaded after its imports.  Modules with one fingerprint are the same module and are loaded once.
Before a module is loaded, the machine has to have every capability its code needs.

## Main definitions

* `Machine`: what deployment asks of a machine.
* `loadOrder`: the modules a root needs, imports first.
* `Machine.deploy`: loads a root and everything it imports.
* `LinkedModule.fileName`: the file a module is stored in.
-/

namespace StackCode

/-- What deployment asks of a machine: `σ` is its state and `ε` why it rejects an image. -/
structure Machine (σ ε : Type) where
  /-- The capabilities the machine has. -/
  capabilities : Features
  /-- The handle of an instance with a heap and a stack of these sizes in bytes. -/
  boot : (heapSize stackSize : UInt32) → UInt32
  /-- Loads an image under its fingerprint. -/
  load : σ → (handle : UInt32) → Fingerprint → (image : List UInt8) → Except ε σ
  /-- Runs the entry point of the module loaded last. -/
  run : σ → (handle : UInt32) → Int

/-- Why a deployment stopped. -/
inductive DeployError (ε : Type) where
  | unknownModule (module : ModuleId)
  /-- The machine lacks capabilities the module needs. -/
  | unsupported (module : ModuleId) (missing : Features)
  /-- The machine rejected the module. -/
  | rejected (module : ModuleId) (reason : ε)
deriving DecidableEq, Repr

/-- The printed message, given the text of the machine's reasons. -/
def DeployError.message {ε : Type} (reasonText : ε → String) : DeployError ε → String
  | unknownModule m => s!"module {m.index} was not linked"
  | unsupported m missing => s!"module {m.index} needs unsupported features " ++ missing.toText
  | rejected m reason => s!"VM rejected module {m.index}: " ++ reasonText reason

/-- The linked module of an id; of several the first counts. -/
def findLinked? (modules : List LinkedModule) (id : ModuleId) : Option LinkedModule :=
  modules.find? fun m => m.module = id

theorem mem_map_of_findLinked? {modules : List LinkedModule} {m : LinkedModule} {id : ModuleId}
    (h : findLinked? modules id = some m) : id ∈ modules.map LinkedModule.module := by
  have hid : m.module = id := by simpa using List.find?_some h
  exact hid ▸ List.mem_map_of_mem (List.mem_of_find?_eq_some h)

/-- Whether a module of this fingerprint is in a list. -/
def hasFingerprint (order : List LinkedModule) (f : Fingerprint) : Bool :=
  order.any fun m => m.fingerprint = f

mutual

/-- Adds a module, after the modules it needs, to those loaded before.  A module of the chain is
added when the modules after it on the chain are.  A module that is not there is the error. -/
def addModule (modules : List LinkedModule) (chain : List ModuleId) (id : ModuleId)
    (order : List LinkedModule) : Except ModuleId (List LinkedModule) :=
  match _hfind : findLinked? modules id with
  | none => .error id
  | some m =>
    if hasFingerprint order m.fingerprint then .ok order
    else if _hchain : id ∈ chain then .ok order
    else
      match addImports modules (chain ++ [id]) m.imports order with
      | .error missing => .error missing
      | .ok order => if hasFingerprint order m.fingerprint then .ok order else .ok (order ++ [m])
termination_by (offChain (modules.map LinkedModule.module) chain, 0)
decreasing_by exact .left _ _ (offChain_append_lt (mem_map_of_findLinked? _hfind) _hchain)

/-- Adds the imports of the last module of the chain. -/
def addImports (modules : List LinkedModule) (chain : List ModuleId) (imports : List ModuleId)
    (order : List LinkedModule) : Except ModuleId (List LinkedModule) :=
  match imports with
  | [] => .ok order
  | dependency :: rest =>
    match addModule modules chain dependency order with
    | .error missing => .error missing
    | .ok order => addImports modules chain rest order
termination_by (offChain (modules.map LinkedModule.module) chain, imports.length)
decreasing_by
  · exact .right _ (by simp)
  · exact .right _ (by simp)

end

/-- The modules a root needs, imports first and the root last. -/
def loadOrder (modules : List LinkedModule) (root : ModuleId) :
    Except ModuleId (List LinkedModule) :=
  addModule modules [] root []

namespace Machine

variable {σ ε : Type}

/-- Loads a module if the machine has the capabilities it needs. -/
def loadModule (v : Machine σ ε) (handle : UInt32) (m : LinkedModule) (s : σ) :
    Except (DeployError ε) σ :=
  if m.features.subsetOf v.capabilities then
    match v.load s handle m.fingerprint m.image with
    | .ok s => .ok s
    | .error reason => .error (.rejected m.module reason)
  else .error (.unsupported m.module (m.features.missingFrom v.capabilities))

/-- Loads modules in order, up to the first error.  The state after it is that of the machine before
the module that failed. -/
def loadAll (v : Machine σ ε) (handle : UInt32) : List LinkedModule → σ →
    Except (DeployError ε) (List Fingerprint) × σ
  | [], s => (.ok [], s)
  | m :: rest, s =>
    match v.loadModule handle m s with
    | .error e => (.error e, s)
    | .ok s =>
      match v.loadAll handle rest s with
      | (.error e, s) => (.error e, s)
      | (.ok fingerprints, s) => (.ok (m.fingerprint :: fingerprints), s)

/-- Loads a root and everything it imports.  Answers the fingerprints in the order of loading. -/
def deploy (v : Machine σ ε) (handle : UInt32) (modules : List LinkedModule) (root : ModuleId)
    (s : σ) : Except (DeployError ε) (List Fingerprint) × σ :=
  match loadOrder modules root with
  | .error missing => (.error (.unknownModule missing), s)
  | .ok order => v.loadAll handle order s

end Machine

/-- How modules are stored. -/
structure OutputConfig where
  /-- The extension of module files, without the dot. -/
  extension : String := "sfm"
deriving DecidableEq, Repr

/-- The name of the file a module is stored in. -/
def LinkedModule.fileName (m : LinkedModule) (config : OutputConfig) : String :=
  m.fingerprint.toText ++ "." ++ config.extension

end StackCode
