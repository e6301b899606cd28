import CodeReview.Text.Characters

/-!
# Content digests

The digest of a text is the SHA-256 hash of its UTF-8 bytes, written with lower-case hexadecimal
digits.  The padded message is read as 32-bit words; each block of sixteen words is stretched to
sixty-four and mixed into the state, eight words, one word per round.
-/

namespace CodeReview

namespace Digest

/-- The eight working words of the hash. -/
structure State where
  a : UInt32
  b : UInt32
  c : UInt32
  d : UInt32
  e : UInt32
  f : UInt32
  g : UInt32
  h : UInt32
deriving DecidableEq, Repr

/-- The state before the first block. -/
def initial : State :=
  ⟨0x6a09e667, 0xbb67ae85, 0x3c6ef372, 0xa54ff53a, 0x510e527f, 0x9b05688c, 0x1f83d9ab, 0x5be0cd19⟩

def roundConstants : List UInt32 :=
  [0x428a2f98, 0x71374491, 0xb5c0fbcf, 0xe9b5dba5, 0x3956c25b, 0x59f111f1, 0x923f82a4, 0xab1c5ed5,
   0xd807aa98, 0x12835b01, 0x243185be, 0x550c7dc3, 0x72be5d74, 0x80deb1fe, 0x9bdc06a7, 0xc19bf174,
   0xe49b69c1, 0xefbe4786, 0x0fc19dc6, 0x240ca1cc, 0x2de92c6f, 0x4a7484aa, 0x5cb0a9dc, 0x76f988da,
   0x983e5152, 0xa831c66d, 0xb00327c8, 0xbf597fc7, 0xc6e00bf3, 0xd5a79147, 0x06ca6351, 0x14292967,
   0x27b70a85, 0x2e1b2138, 0x4d2c6dfc, 0x53380d13, 0x650a7354, 0x766a0abb, 0x81c2c92e, 0x92722c85,
   0xa2bfe8a1, 0xa81a664b, 0xc24b8b70, 0xc76c51a3, 0xd192e819, 0xd6990624, 0xf40e3585, 0x106aa070,
   0x19a4c116, 0x1e376c08, 0x2748774c, 0x34b0bcb5, 0x391c0cb3, 0x4ed8aa4a, 0x5b9cca4f, 0x682e6ff3,
   0x748f82ee, 0x78a5636f, 0x84c87814, 0x8cc70208, 0x90befffa, 0xa4506ceb, 0xbef9a3f7, 0xc67178f2]

def rotateRight (x n : UInt32) : UInt32 :=
  (x >>> n) ||| (x <<< (32 - n))

/-- The big-endian words of a sequence of bytes; up to three bytes that fill no word are left out. -/
def wordsOf : List UInt8 → List UInt32
  | a :: b :: c :: d :: rest =>
    ((a.toUInt32 <<< 24) ||| (b.toUInt32 <<< 16) ||| (c.toUInt32 <<< 8) ||| d.toUInt32) ::
      wordsOf rest
  | _ => []

/-- The big-endian bytes of a number below `2 ^ 64`. -/
def lengthBytes (n : Nat) : List UInt8 :=
  [56, 48, 40, 32, 24, 16, 8, 0].map fun s => (n >>> s).toUInt8

/-- A message with its padding: a one bit, zero bits up to eight bytes before a multiple of
sixty-four, and the length in bits. -/
def padded (bytes : List UInt8) : List UInt8 :=
  let zeros := (119 - bytes.length % 64) % 64
  bytes ++ 0x80 :: (List.replicate zeros 0 ++ lengthBytes (8 * bytes.length))

/-- The next word of a schedule, given the words so far, the newest first. -/
def nextWord (newest : List UInt32) : UInt32 :=
  let at' := fun n => newest.getD n 0
  let s0 := rotateRight (at' 14) 7 ^^^ rotateRight (at' 14) 18 ^^^ (at' 14 >>> 3)
  let s1 := rotateRight (at' 1) 17 ^^^ rotateRight (at' 1) 19 ^^^ (at' 1 >>> 10)
  at' 15 + s0 + at' 6 + s1

/-- Stretch a schedule by `n` words, the newest first. -/
def stretch : Nat → List UInt32 → List UInt32
  | 0, newest => newest
  | n + 1, newest => stretch n (nextWord newest :: newest)

/-- The sixty-four words that a block of sixteen is stretched to. -/
def schedule (block : List UInt32) : List UInt32 :=
  (stretch 48 block.reverse).reverse

/-- One round: mix one word of the schedule and its constant into the state. -/
def round (s : State) (w : UInt32 × UInt32) : State :=
  let s1 := rotateRight s.e 6 ^^^ rotateRight s.e 11 ^^^ rotateRight s.e 25
  let choice := (s.e &&& s.f) ^^^ (~~~s.e &&& s.g)
  let t1 := s.h + s1 + choice + w.2 + w.1
  let s0 := rotateRight s.a 2 ^^^ rotateRight s.a 13 ^^^ rotateRight s.a 22
  let majority := (s.a &&& s.b) ^^^ (s.a &&& s.c) ^^^ (s.b &&& s.c)
  ⟨t1 + (s0 + majority), s.a, s.b, s.c, s.d + t1, s.e, s.f, s.g⟩

def absorb (s : State) (block : List UInt32) : State :=
  let t := ((schedule block).zip roundConstants).foldl round s
  ⟨s.a + t.a, s.b + t.b, s.c + t.c, s.d + t.d, s.e + t.e, s.f + t.f, s.g + t.g, s.h + t.h⟩

/-- Mix the first `n` blocks of a sequence of words into the state. -/
def absorbAll : Nat → List UInt32 → State → State
  | 0, _, s => s
  | n + 1, ws, s => absorbAll n (ws.drop 16) (absorb s (ws.take 16))

def hash (bytes : List UInt8) : State :=
  let ws := wordsOf (padded bytes)
  absorbAll (ws.length / 16) ws initial

/-- The words of a state, first to last. -/
def State.words (s : State) : List UInt32 :=
  [s.a, s.b, s.c, s.d, s.e, s.f, s.g, s.h]

end Digest

def digestOf (text : String) : String :=
  String.ofList ((Digest.hash text.toUTF8.toList).words.flatMap fun w =>
    padZeros 8 (hexDigits w.toNat))

end CodeReview
