/-!
# The SHA-256 digest

The digest runs over a padded message in blocks of sixteen 32-bit words.  Each block is expanded to
sixty-four words and mixed into eight chaining words; the digest is the chaining words after the
last block, most significant byte first.

## Main definitions

* `Sha256.digest`: the 32 bytes of the digest of a message.

## Main results

* `Sha256.length_digest`: a digest has 32 bytes.
-/

namespace StackCode

namespace Sha256

/-- The eight chaining words. -/
structure Chain where
  a : UInt32
  b : UInt32
  c : UInt32
  d : UInt32
  e : UInt32
  f : UInt32
  g : UInt32
  h : UInt32
deriving DecidableEq, Repr

namespace Chain

/-- The chaining words before the first block. -/
def initial : Chain :=
  ⟨0x6a09e667, 0xbb67ae85, 0x3c6ef372, 0xa54ff53a, 0x510e527f, 0x9b05688c, 0x1f83d9ab, 0x5be0cd19⟩

/-- Word-wise addition. -/
def add (x y : Chain) : Chain :=
  ⟨x.a + y.a, x.b + y.b, x.c + y.c, x.d + y.d, x.e + y.e, x.f + y.f, x.g + y.g, x.h + y.h⟩

/-- The words in order. -/
def words (x : Chain) : List UInt32 := [x.a, x.b, x.c, x.d, x.e, x.f, x.g, x.h]

end Chain

/-- The constant of each round. -/
def roundConstants : List UInt32 :=
  [0x428a2f98, 0x71374491, 0xb5c0fbcf, 0xe9b5dba5, 0x3956c25b, 0x59f111f1, 0x923f82a4, 0xab1c5ed5,
    0xd807aa98, 0x12835b01, 0x243185be, 0x550c7dc3, 0x72be5d74, 0x80deb1fe, 0x9bdc06a7, 0xc19bf174,
    0xe49b69c1, 0xefbe4786, 0x0fc19dc6, 0x240ca1cc, 0x2de92c6f, 0x4a7484aa, 0x5cb0a9dc, 0x76f988da,
    0x983e5152, 0xa831c66d, 0xb00327c8, 0xbf597fc7, 0xc6e00bf3, 0xd5a79147, 0x06ca6351, 0x14292967,
    0x27b70a85, 0x2e1b2138, 0x4d2c6dfc, 0x53380d13, 0x650a7354, 0x766a0abb, 0x81c2c92e, 0x92722c85,
    0xa2bfe8a1, 0xa81a664b, 0xc24b8b70, 0xc76c51a3, 0xd192e819, 0xd6990624, 0xf40e3585, 0x106aa070,
    0x19a4c116, 0x1e376c08, 0x2748774c, 0x34b0bcb5, 0x391c0cb3, 0x4ed8aa4a, 0x5b9cca4f, 0x682e6ff3,
    0x748f82ee, 0x78a5636f, 0x84c87814, 0x8cc70208, 0x90befffa, 0xa4506ceb, 0xbef9a3f7, 0xc67178f2]

/-- Rotation to the right. -/
def rotate (x : UInt32) (n : UInt32) : UInt32 := (x >>> n) ||| (x <<< (32 - n))

/-- One round with the expanded word and constant already added up. -/
def round (s : Chain) (input : UInt32) : Chain :=
  let sigma1 := rotate s.e 6 ^^^ rotate s.e 11 ^^^ rotate s.e 25
  let choice := (s.e &&& s.f) ^^^ (~~~s.e &&& s.g)
  let t1 := s.h + sigma1 + choice + input
  let sigma0 := rotate s.a 2 ^^^ rotate s.a 13 ^^^ rotate s.a 22
  let majority := (s.a &&& s.b) ^^^ (s.a &&& s.c) ^^^ (s.b &&& s.c)
  ⟨t1 + (sigma0 + majority), s.a, s.b, s.c, s.d + t1, s.e, s.f, s.g⟩

/-- The next word of the message schedule, from the words before it. -/
def nextWord (w : Array UInt32) (i : Nat) : UInt32 :=
  let x := w.getD (i + 1) 0
  let y := w.getD (i + 14) 0
  let s0 := rotate x 7 ^^^ rotate x 18 ^^^ (x >>> 3)
  let s1 := rotate y 17 ^^^ rotate y 19 ^^^ (y >>> 10)
  w.getD i 0 + s0 + w.getD (i + 9) 0 + s1

/-- The sixty-four words of the message schedule of a block of sixteen. -/
def schedule (block : Array UInt32) : Array UInt32 :=
  (List.range 48).foldl (fun w i => w.push (nextWord w i)) block

/-- Mixes one block into the chaining words. -/
def compress (s : Chain) (block : Array UInt32) : Chain :=
  let inputs := (schedule block).toList.zipWith (· + ·) roundConstants
  s.add (inputs.foldl round s)

/-- Groups bytes into words, most significant byte first; a last incomplete group is dropped. -/
def toWords : List UInt8 → Array UInt32 → Array UInt32
  | a :: b :: c :: d :: rest, acc =>
    toWords rest
      (acc.push ((a.toUInt32 <<< 24) ||| (b.toUInt32 <<< 16) ||| (c.toUInt32 <<< 8) ||| d.toUInt32))
  | _, acc => acc

/-- The bytes of a word, most significant first. -/
def ofWord (w : UInt32) : List UInt8 :=
  [(w >>> 24).toUInt8, (w >>> 16).toUInt8, (w >>> 8).toUInt8, w.toUInt8]

/-- The message, one set bit, zeros up to a whole number of blocks, and the length in bits. -/
def pad (message : List UInt8) : List UInt8 :=
  let bits := 8 * message.length
  let zeros := (119 - message.length % 64) % 64
  message ++ (0x80 :: List.replicate zeros 0) ++
    ofWord (UInt32.ofNat (bits / 4294967296)) ++ ofWord (UInt32.ofNat bits)

/-- The digest of a message. -/
def digest (message : List UInt8) : List UInt8 :=
  let words := toWords (pad message) #[]
  let chain := (List.range (words.size / 16)).foldl
    (fun s i => compress s (words.extract (16 * i) (16 * i + 16))) Chain.initial
  chain.words.flatMap ofWord

theorem length_digest (message : List UInt8) : (digest message).length = 32 := by
  simp [digest, Chain.words, ofWord]

end Sha256

end StackCode
