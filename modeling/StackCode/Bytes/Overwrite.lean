/-!
# Overwriting bytes

Linking changes images in place: it writes a few bytes over bytes that are there already.

## Main definitions

* `overwrite?`: writes bytes over a range of an image.

## Main results

* `toList_overwrite?`: what stands before and after the range is kept.
-/

namespace StackCode

/-- Writes bytes over those of an image from an offset on, as far as the image has them. -/
def writeFrom (image : Array UInt8) (offset : Nat) : List UInt8 → Array UInt8
  | [] => image
  | b :: rest => writeFrom (image.setIfInBounds offset b) (offset + 1) rest

/-- Writes bytes over the range of an image that starts at an offset, if the image has that
range. -/
def overwrite? (image : Array UInt8) (offset : Nat) (bytes : List UInt8) : Option (Array UInt8) :=
  if offset + bytes.length ≤ image.size then some (writeFrom image offset bytes) else none

theorem toList_writeFrom (image : Array UInt8) (offset : Nat) (bytes : List UInt8)
    (h : offset + bytes.length ≤ image.size) :
    (writeFrom image offset bytes).toList =
      image.toList.take offset ++ bytes ++ image.toList.drop (offset + bytes.length) := by
  induction bytes generalizing image offset with
  | nil => simp [writeFrom]
  | cons b rest ih =>
    have hlength : offset < image.toList.length := by
      simp only [Array.length_toList]
      simp at h
      omega
    rw [writeFrom, ih _ _ (by simp at h ⊢; omega), Array.toList_setIfInBounds,
      List.set_eq_take_append_cons_drop, if_pos hlength]
    have htake : (image.toList.take offset).length = offset := by
      rw [List.length_take]
      omega
    have hfirst : (image.toList.take offset).take (offset + 1) = image.toList.take offset :=
      List.take_of_length_le (by omega)
    have hlast : (image.toList.take offset).drop (offset + (rest.length + 1)) = [] :=
      List.drop_eq_nil_of_le (by omega)
    simp [List.take_append, List.drop_append, htake, Nat.add_assoc, Nat.add_comm 1, hfirst, hlast]

/-- Overwriting keeps what stands before and after the range. -/
theorem toList_overwrite? {image image' : Array UInt8} {offset : Nat} {bytes : List UInt8}
    (h : overwrite? image offset bytes = some image') :
    image'.toList =
      image.toList.take offset ++ bytes ++ image.toList.drop (offset + bytes.length) := by
  unfold overwrite? at h
  split at h
  · next hle => rw [← Option.some.inj h, toList_writeFrom image offset bytes hle]
  · cases h

end StackCode
