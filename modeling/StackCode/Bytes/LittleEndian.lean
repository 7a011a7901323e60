/-!
# Little-endian words

Every multi-byte field of an image is stored least significant byte first.  Both directions are
given once, for any width, on natural numbers; signed fields are the two's complement residue of the
same width.

## Main definitions

* `LittleEndian.encode` and `LittleEndian.decode`: unsigned words.
* `LittleEndian.encodeInt` and `LittleEndian.decodeInt`: signed words.

## Main results

* `decode_encode`, `encode_decode`: the two directions are inverse at a fixed width.
* `decodeInt_encodeInt`: a signed value in range survives the round trip.
-/

namespace StackCode

namespace LittleEndian

/-- The `width` low bytes of `n`, least significant first. -/
def encode : (width : Nat) → Nat → List UInt8
  | 0, _ => []
  | width + 1, n => UInt8.ofNat n :: encode width (n / 256)

/-- The number whose bytes, least significant first, are given. -/
def decode : List UInt8 → Nat
  | [] => 0
  | b :: bs => b.toNat + 256 * decode bs

/-- The number of words of a width. -/
def capacity : (width : Nat) → Nat
  | 0 => 1
  | width + 1 => 256 * capacity width

/-- The two's complement form of `v` in `width` bytes. -/
def encodeInt (width : Nat) (v : Int) : List UInt8 :=
  encode width (v % (capacity width : Int)).toNat

/-- The signed number whose two's complement bytes are given. -/
def decodeInt (bs : List UInt8) : Int :=
  Int.bmod (decode bs) (capacity bs.length)

@[simp] theorem length_encode (width n : Nat) : (encode width n).length = width := by
  induction width generalizing n with
  | zero => rfl
  | succ width ih => simp [encode, ih]

@[simp] theorem length_encodeInt (width : Nat) (v : Int) :
    (encodeInt width v).length = width := by
  simp [encodeInt]

theorem capacity_pos (width : Nat) : 0 < capacity width := by
  induction width with
  | zero => exact Nat.one_pos
  | succ width ih => exact Nat.mul_pos (by decide) ih

/-- Decoding recovers a number that fits its width. -/
theorem decode_encode {width n : Nat} (h : n < capacity width) : decode (encode width n) = n := by
  induction width generalizing n with
  | zero =>
    simp only [capacity] at h
    simp only [encode, decode]
    omega
  | succ width ih =>
    have hd : n / 256 < capacity width := Nat.div_lt_of_lt_mul h
    simp only [encode, decode, ih hd, UInt8.toNat_ofNat']
    omega

/-- A decoded word fits the width it was read from. -/
theorem decode_lt (bs : List UInt8) : decode bs < capacity bs.length := by
  induction bs with
  | nil => exact Nat.one_pos
  | cons b bs ih =>
    have hb : b.toNat < 256 := b.toNat_lt
    simp only [decode, List.length_cons, capacity]
    omega

/-- Encoding a decoded word gives its bytes back. -/
theorem encode_decode (bs : List UInt8) : encode bs.length (decode bs) = bs := by
  induction bs with
  | nil => rfl
  | cons b bs ih =>
    have hb : b.toNat < 256 := b.toNat_lt
    have hq : (b.toNat + 256 * decode bs) / 256 = decode bs := by omega
    have hr : UInt8.ofNat (b.toNat + 256 * decode bs) = b := by
      apply UInt8.toNat_inj.mp
      rw [UInt8.toNat_ofNat']
      omega
    simp only [decode, List.length_cons, encode, hq, hr, ih]

/-- A signed value within the range of its width survives the round trip. -/
theorem decodeInt_encodeInt {width : Nat} {v : Int} (hlo : -((capacity width : Int) / 2) ≤ v)
    (hhi : v < ((capacity width : Int) + 1) / 2) : decodeInt (encodeInt width v) = v := by
  have hpos : (0 : Int) < capacity width := Int.natCast_pos.2 (capacity_pos width)
  have hlt := Int.emod_lt_of_pos v hpos
  have hnonneg := Int.emod_nonneg v (Int.ne_of_gt hpos)
  have hfits : (v % (capacity width : Int)).toNat < capacity width := by omega
  rw [decodeInt, length_encodeInt, encodeInt, decode_encode hfits, Int.toNat_of_nonneg hnonneg,
    Int.emod_bmod]
  exact Int.bmod_eq_of_le hlo hhi

end LittleEndian

end StackCode
