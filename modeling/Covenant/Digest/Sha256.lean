/-! The hash SHA-256 of a text. The bytes of the text are padded to whole blocks of sixteen
words, and each block is mixed into eight words of state. -/

namespace Covenant.Digest

/-- The fractional parts of the cube roots of the first primes. -/
def roundConstants : List UInt32 :=
  [0x428a2f98, 0x71374491, 0xb5c0fbcf, 0xe9b5dba5, 0x3956c25b, 0x59f111f1, 0x923f82a4, 0xab1c5ed5,
   0xd807aa98, 0x12835b01, 0x243185be, 0x550c7dc3, 0x72be5d74, 0x80deb1fe, 0x9bdc06a7, 0xc19bf174,
   0xe49b69c1, 0xefbe4786, 0x0fc19dc6, 0x240ca1cc, 0x2de92c6f, 0x4a7484aa, 0x5cb0a9dc, 0x76f988da,
   0x983e5152, 0xa831c66d, 0xb00327c8, 0xbf597fc7, 0xc6e00bf3, 0xd5a79147, 0x06ca6351, 0x14292967,
   0x27b70a85, 0x2e1b2138, 0x4d2c6dfc, 0x53380d13, 0x650a7354, 0x766a0abb, 0x81c2c92e, 0x92722c85,
   0xa2bfe8a1, 0xa81a664b, 0xc24b8b70, 0xc76c51a3, 0xd192e819, 0xd6990624, 0xf40e3585, 0x106aa070,
   0x19a4c116, 0x1e376c08, 0x2748774c, 0x34b0bcb5, 0x391c0cb3, 0x4ed8aa4a, 0x5b9cca4f, 0x682e6ff3,
   0x748f82ee, 0x78a5636f, 0x84c87814, 0x8cc70208, 0x90befffa, 0xa4506ceb, 0xbef9a3f7, 0xc67178f2]

/-- The eight words that are mixed, and that make up the hash in the end. -/
structure Chain where
  a : UInt32
  b : UInt32
  c : UInt32
  d : UInt32
  e : UInt32
  f : UInt32
  g : UInt32
  h : UInt32

/-- The fractional parts of the square roots of the first primes. -/
def Chain.first : Chain :=
  ⟨0x6a09e667, 0xbb67ae85, 0x3c6ef372, 0xa54ff53a, 0x510e527f, 0x9b05688c, 0x1f83d9ab, 0x5be0cd19⟩

def Chain.add (x y : Chain) : Chain :=
  ⟨x.a + y.a, x.b + y.b, x.c + y.c, x.d + y.d, x.e + y.e, x.f + y.f, x.g + y.g, x.h + y.h⟩

def Chain.words (x : Chain) : List UInt32 := [x.a, x.b, x.c, x.d, x.e, x.f, x.g, x.h]

def rotate (x : UInt32) (n : UInt32) : UInt32 := (x >>> n) ||| (x <<< (32 - n))

/-! ### The schedule of a block -/

def word (b₀ b₁ b₂ b₃ : UInt8) : UInt32 :=
  (b₀.toUInt32 <<< 24) ||| (b₁.toUInt32 <<< 16) ||| (b₂.toUInt32 <<< 8) ||| b₃.toUInt32

def wordsOf : List UInt8 → List UInt32
  | b₀ :: b₁ :: b₂ :: b₃ :: rest => word b₀ b₁ b₂ b₃ :: wordsOf rest
  | _ => []

/-- Adds words to a schedule, which is given newest first; each comes from four of the
sixteen before it. -/
def extend : Nat → List UInt32 → List UInt32
  | 0, ws => ws
  | n + 1, ws =>
    let x := ws.getD 14 0
    let y := ws.getD 1 0
    let s₀ := rotate x 7 ^^^ rotate x 18 ^^^ (x >>> 3)
    let s₁ := rotate y 17 ^^^ rotate y 19 ^^^ (y >>> 10)
    extend n ((ws.getD 15 0 + s₀ + ws.getD 6 0 + s₁) :: ws)

def schedule (block : List UInt8) : List UInt32 := (extend 48 (wordsOf block).reverse).reverse

/-! ### Mixing -/

/-- One round with the sum of a constant and a word of the schedule. -/
def Chain.round (x : Chain) (kw : UInt32) : Chain :=
  let s₁ := rotate x.e 6 ^^^ rotate x.e 11 ^^^ rotate x.e 25
  let choice := (x.e &&& x.f) ^^^ (~~~x.e &&& x.g)
  let t₁ := x.h + s₁ + choice + kw
  let s₀ := rotate x.a 2 ^^^ rotate x.a 13 ^^^ rotate x.a 22
  let majority := (x.a &&& x.b) ^^^ (x.a &&& x.c) ^^^ (x.b &&& x.c)
  ⟨t₁ + s₀ + majority, x.a, x.b, x.c, x.d + t₁, x.e, x.f, x.g⟩

def Chain.absorb (x : Chain) (block : List UInt8) : Chain :=
  x.add ((roundConstants.zipWith (· + ·) (schedule block)).foldl Chain.round x)

/-! ### Texts -/

/-- The last `n` bytes of a number, the most significant first. -/
def bigEndian (n : Nat) (x : Nat) : List UInt8 :=
  (List.range n).reverse.map fun i => UInt8.ofNat (x >>> (8 * i))

/-- The message, a one bit, zeros up to a whole block less eight bytes, and the length of the
message in bits. -/
def padded (message : List UInt8) : List UInt8 :=
  let zeros := (119 - message.length % 64) % 64
  message ++ 0x80 :: List.replicate zeros 0 ++ bigEndian 8 (8 * message.length)

def blocks : Nat → List UInt8 → List (List UInt8)
  | 0, _ => []
  | n + 1, bytes => bytes.take 64 :: blocks n (bytes.drop 64)

def hash (message : List UInt8) : List UInt8 :=
  let bytes := padded message
  let chain := (blocks (bytes.length / 64) bytes).foldl Chain.absorb .first
  chain.words.flatMap fun w => bigEndian 4 w.toNat

/-- Two hexadecimal digits. -/
def byteText (b : UInt8) : List Char :=
  [Nat.digitChar (b.toNat / 16), Nat.digitChar (b.toNat % 16)]

/-- The hash of the bytes of a text, in hexadecimal digits. -/
def ofText (text : String) : String :=
  String.ofList ((hash text.toUTF8.data.toList).flatMap byteText)

end Covenant.Digest
