import StackCode.Deployment.Basic

/-!
# A recording machine

A machine that runs nothing and remembers what it is given.  It can be told to reject images by
fingerprint.

## Main definitions

* `LoadEvent`: what the machine remembers of an image.
* `recorder`: the machine.
-/

namespace StackCode

/-- What the machine remembers of an image it was given. -/
structure LoadEvent where
  handle : UInt32
  fingerprint : Fingerprint
  imageLength : Nat
deriving DecidableEq, Repr

/-- A machine with these capabilities that rejects images of these fingerprints.  Its state is the
list of images loaded, and running it answers their number. -/
def recorder (capabilities : Features) (rejected : List Fingerprint) :
    Machine (Array LoadEvent) String where
  capabilities := capabilities
  boot heapSize stackSize := heapSize ^^^ stackSize
  load log handle fingerprint image :=
    if fingerprint ∈ rejected then .error ("rejected " ++ fingerprint.toText)
    else .ok (log.push ⟨handle, fingerprint, image.length⟩)
  run log _ := log.size

end StackCode
