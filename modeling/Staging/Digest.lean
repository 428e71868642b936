namespace Staging

/-- The eight words that SHA-256 carries from block to block. -/
structure HashState where
  a : UInt32
  b : UInt32
  c : UInt32
  d : UInt32
  e : UInt32
  f : UInt32
  g : UInt32
  h : UInt32

/-- The first words of the fractional parts of the square roots of the first eight primes. -/
def HashState.initial : HashState :=
  ⟨0x6a09e667, 0xbb67ae85, 0x3c6ef372, 0xa54ff53a, 0x510e527f, 0x9b05688c, 0x1f83d9ab,
    0x5be0cd19⟩

/-- The first words of the fractional parts of the cube roots of the first 64 primes. -/
def roundConstants : List UInt32 :=
  [ 0x428a2f98, 0x71374491, 0xb5c0fbcf, 0xe9b5dba5, 0x3956c25b, 0x59f111f1,
    0x923f82a4, 0xab1c5ed5, 0xd807aa98, 0x12835b01, 0x243185be, 0x550c7dc3,
    0x72be5d74, 0x80deb1fe, 0x9bdc06a7, 0xc19bf174, 0xe49b69c1, 0xefbe4786,
    0x0fc19dc6, 0x240ca1cc, 0x2de92c6f, 0x4a7484aa, 0x5cb0a9dc, 0x76f988da,
    0x983e5152, 0xa831c66d, 0xb00327c8, 0xbf597fc7, 0xc6e00bf3, 0xd5a79147,
    0x06ca6351, 0x14292967, 0x27b70a85, 0x2e1b2138, 0x4d2c6dfc, 0x53380d13,
    0x650a7354, 0x766a0abb, 0x81c2c92e, 0x92722c85, 0xa2bfe8a1, 0xa81a664b,
    0xc24b8b70, 0xc76c51a3, 0xd192e819, 0xd6990624, 0xf40e3585, 0x106aa070,
    0x19a4c116, 0x1e376c08, 0x2748774c, 0x34b0bcb5, 0x391c0cb3, 0x4ed8aa4a,
    0x5b9cca4f, 0x682e6ff3, 0x748f82ee, 0x78a5636f, 0x84c87814, 0x8cc70208,
    0x90befffa, 0xa4506ceb, 0xbef9a3f7, 0xc67178f2 ]

def rotateRight (x : UInt32) (n : UInt32) : UInt32 :=
  (x >>> n) ||| (x <<< (32 - n))

def HashState.add (x y : HashState) : HashState :=
  ⟨x.a + y.a, x.b + y.b, x.c + y.c, x.d + y.d, x.e + y.e, x.f + y.f, x.g + y.g, x.h + y.h⟩

/-- One round with the sum of its constant and its word of the schedule. -/
def HashState.round (s : HashState) (word : UInt32) : HashState :=
  let s1 := rotateRight s.e 6 ^^^ rotateRight s.e 11 ^^^ rotateRight s.e 25
  let choice := (s.e &&& s.f) ^^^ (~~~s.e &&& s.g)
  let t1 := s.h + s1 + choice + word
  let s0 := rotateRight s.a 2 ^^^ rotateRight s.a 13 ^^^ rotateRight s.a 22
  let majority := (s.a &&& s.b) ^^^ (s.a &&& s.c) ^^^ (s.b &&& s.c)
  ⟨t1 + s0 + majority, s.a, s.b, s.c, s.d + t1, s.e, s.f, s.g⟩

/-- The next word of a schedule from the words before it. -/
def scheduleNext (words : Array UInt32) : UInt32 :=
  let back (n : Nat) : UInt32 := words.getD (words.size - n) 0
  let s0 := rotateRight (back 15) 7 ^^^ rotateRight (back 15) 18 ^^^ (back 15 >>> 3)
  let s1 := rotateRight (back 2) 17 ^^^ rotateRight (back 2) 19 ^^^ (back 2 >>> 10)
  back 16 + s0 + back 7 + s1

/-- The schedule of a block of sixteen words. -/
def schedule (block : Array UInt32) : Array UInt32 :=
  Nat.fold 48 (fun _ _ words => words.push (scheduleNext words)) block

def HashState.absorb (s : HashState) (block : Array UInt32) : HashState :=
  let words := List.zipWith (· + ·) roundConstants (schedule block).toList
  s.add (words.foldl HashState.round s)

/-- Groups bytes into big-endian words. -/
def wordsOfBytes : List UInt8 → List UInt32
  | a :: b :: c :: d :: rest =>
    (a.toUInt32 <<< 24 ||| b.toUInt32 <<< 16 ||| c.toUInt32 <<< 8 ||| d.toUInt32) ::
      wordsOfBytes rest
  | _ => []

/-- The bytes behind a message of `size` bytes: a mark, zeros, and the size in bits. -/
def padding (size : Nat) : List UInt8 :=
  let zeros := (119 - size % 64) % 64
  0x80 :: List.replicate zeros 0 ++
    (List.range 8).map fun i => UInt8.ofNat (size * 8 / Nat.pow 256 (7 - i))

/-- Absorbs `count` blocks of sixteen words each. -/
def HashState.absorbAll (s : HashState) : Nat → List UInt32 → HashState
  | 0, _ => s
  | count + 1, words => (s.absorb (words.take 16).toArray).absorbAll count (words.drop 16)

/-- The eight hexadecimal digits of a word. -/
def hexWord (x : UInt32) : List Char :=
  (List.range 8).map fun i => Nat.digitChar (x.toNat / Nat.pow 16 (7 - i) % 16)

def HashState.text (s : HashState) : String :=
  String.ofList ([s.a, s.b, s.c, s.d, s.e, s.f, s.g, s.h].flatMap hexWord)

/-- The SHA-256 digest of the UTF-8 form of a text, in lower-case hexadecimal. -/
def sha256 (s : String) : String :=
  let bytes := s.toUTF8.toList
  let words := wordsOfBytes (bytes ++ padding bytes.length)
  (HashState.initial.absorbAll (words.length / 16) words).text

end Staging
