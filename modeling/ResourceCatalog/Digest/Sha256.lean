/-!
# SHA-256

The digest of a text's UTF-8 bytes by the Secure Hash Algorithm with 256 bits, written as 64
lower-case hexadecimal digits. A message is padded to whole blocks of sixteen words, and each block
is mixed into a state of eight words.
-/

namespace ResourceCatalog.Sha256

/-- The state of a computation: eight words. -/
structure State where
  a : UInt32
  b : UInt32
  c : UInt32
  d : UInt32
  e : UInt32
  f : UInt32
  g : UInt32
  h : UInt32

/-- The first 32 bits of the fractional parts of the square roots of the first eight primes. -/
def State.initial : State :=
  ⟨0x6a09e667, 0xbb67ae85, 0x3c6ef372, 0xa54ff53a, 0x510e527f, 0x9b05688c, 0x1f83d9ab, 0x5be0cd19⟩

def State.words (s : State) : List UInt32 := [s.a, s.b, s.c, s.d, s.e, s.f, s.g, s.h]

def State.add (s t : State) : State :=
  ⟨s.a + t.a, s.b + t.b, s.c + t.c, s.d + t.d, s.e + t.e, s.f + t.f, s.g + t.g, s.h + t.h⟩

/-- The first 32 bits of the fractional parts of the cube roots of the first 64 primes, one for each
round. -/
def roundConstants : List UInt32 := [
  0x428a2f98, 0x71374491, 0xb5c0fbcf, 0xe9b5dba5, 0x3956c25b, 0x59f111f1, 0x923f82a4, 0xab1c5ed5,
  0xd807aa98, 0x12835b01, 0x243185be, 0x550c7dc3, 0x72be5d74, 0x80deb1fe, 0x9bdc06a7, 0xc19bf174,
  0xe49b69c1, 0xefbe4786, 0x0fc19dc6, 0x240ca1cc, 0x2de92c6f, 0x4a7484aa, 0x5cb0a9dc, 0x76f988da,
  0x983e5152, 0xa831c66d, 0xb00327c8, 0xbf597fc7, 0xc6e00bf3, 0xd5a79147, 0x06ca6351, 0x14292967,
  0x27b70a85, 0x2e1b2138, 0x4d2c6dfc, 0x53380d13, 0x650a7354, 0x766a0abb, 0x81c2c92e, 0x92722c85,
  0xa2bfe8a1, 0xa81a664b, 0xc24b8b70, 0xc76c51a3, 0xd192e819, 0xd6990624, 0xf40e3585, 0x106aa070,
  0x19a4c116, 0x1e376c08, 0x2748774c, 0x34b0bcb5, 0x391c0cb3, 0x4ed8aa4a, 0x5b9cca4f, 0x682e6ff3,
  0x748f82ee, 0x78a5636f, 0x84c87814, 0x8cc70208, 0x90befffa, 0xa4506ceb, 0xbef9a3f7, 0xc67178f2]

/-- Turns the bits of a word to the right, by more than none and fewer than 32 places. -/
def rotateRight (x : UInt32) (places : UInt32) : UInt32 :=
  (x >>> places) ||| (x <<< (32 - places))

/-- The word that follows in the message schedule, from the words before it, the last one first. -/
def nextWord (earlier : List UInt32) : UInt32 :=
  let word (back : Nat) : UInt32 := earlier.getD (back - 1) 0
  let x := word 15
  let y := word 2
  let s0 := rotateRight x 7 ^^^ rotateRight x 18 ^^^ (x >>> 3)
  let s1 := rotateRight y 17 ^^^ rotateRight y 19 ^^^ (y >>> 10)
  word 16 + s0 + word 7 + s1

/-- The message schedule of a block: its sixteen words and 48 more. -/
def schedule (block : List UInt32) : List UInt32 :=
  (Nat.repeat (fun earlier => nextWord earlier :: earlier) 48 block.reverse).reverse

/-- One round of mixing. -/
def round (s : State) (constant word : UInt32) : State :=
  let s1 := rotateRight s.e 6 ^^^ rotateRight s.e 11 ^^^ rotateRight s.e 25
  let choice := (s.e &&& s.f) ^^^ (~~~s.e &&& s.g)
  let t1 := s.h + s1 + choice + constant + word
  let s0 := rotateRight s.a 2 ^^^ rotateRight s.a 13 ^^^ rotateRight s.a 22
  let majority := (s.a &&& s.b) ^^^ (s.a &&& s.c) ^^^ (s.b &&& s.c)
  ⟨t1 + (s0 + majority), s.a, s.b, s.c, s.d + t1, s.e, s.f, s.g⟩

/-- Mixes a block of sixteen words into the state. -/
def compress (s : State) (block : List UInt32) : State :=
  s.add (((roundConstants.zip (schedule block)).foldl (fun t (k, w) => round t k w)) s)

/-- The bytes of a number, the most significant one first. -/
def bigEndian : Nat → Nat → List UInt8
  | 0, _ => []
  | count + 1, n => UInt8.ofNat (n >>> (8 * count)) :: bigEndian count n

/-- The message, a one bit, zeros to the end of a block less eight bytes, and the number of bits. -/
def pad (message : List UInt8) : List UInt8 :=
  let zeros := (119 - message.length % 64) % 64
  message ++ 0x80 :: List.replicate zeros 0 ++ bigEndian 8 (8 * message.length)

/-- Words of four bytes each. -/
def wordsOf : List UInt8 → List UInt32
  | p :: q :: r :: s :: rest =>
    ((p.toUInt32 <<< 24) ||| (q.toUInt32 <<< 16) ||| (r.toUInt32 <<< 8) ||| s.toUInt32) ::
      wordsOf rest
  | _ => []

/-- Takes one word in. A block is mixed into the state when its sixteenth word arrives; the words of
a block in progress are kept with the last one first. -/
def absorb (progress : State × List UInt32) (word : UInt32) : State × List UInt32 :=
  let (s, block) := progress
  if block.length = 15 then (compress s (word :: block).reverse, []) else (s, word :: block)

/-- The digest of some bytes. -/
def digest (message : List UInt8) : List UInt32 :=
  ((wordsOf (pad message)).foldl absorb (State.initial, [])).1.words

/-- The lower-case hexadecimal digits of a word. -/
def hex (word : UInt32) : List Char :=
  (List.range 8).map fun i => Nat.digitChar (word.toNat >>> (4 * (7 - i)) % 16)

/-- The digest of a text, in hexadecimal digits. -/
def ofText (text : String) : String :=
  String.ofList ((digest text.toUTF8.toList).flatMap hex)

end ResourceCatalog.Sha256
