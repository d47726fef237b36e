/-!
# `SourceTables.Digest`: checksums and digests

`crc32` is the checksum of archive members: the remainder of the message by the reflected polynomial
`0xEDB88320`, started and ended with all bits inverted.

The SHA-256 digest is the hash of FIPS 180-4 over a list of bytes, written as 64 hexadecimal digits in
lower case.
-/

set_option autoImplicit false

namespace SourceTables.Digest

/-! ### CRC-32 -/

/-- Division by the polynomial, one bit at a time. -/
def crcBits (value : UInt32) : Nat → UInt32
  | 0 => value
  | n + 1 =>
    let half := value >>> 1
    crcBits (if value &&& 1 == 1 then half ^^^ 0xEDB88320 else half) n

/-- The checksum of a list of bytes. -/
def crc32 (bytes : List UInt8) : UInt32 :=
  ~~~(bytes.foldl (fun crc b => crcBits (crc ^^^ b.toUInt32) 8) 0xFFFFFFFF)

/-! ### SHA-256 -/

/-- The round constants: the first 32 bits of the fractions of the cube roots of the primes. -/
def roundConstants : List UInt32 :=
  [0x428a2f98, 0x71374491, 0xb5c0fbcf, 0xe9b5dba5, 0x3956c25b, 0x59f111f1, 0x923f82a4, 0xab1c5ed5,
   0xd807aa98, 0x12835b01, 0x243185be, 0x550c7dc3, 0x72be5d74, 0x80deb1fe, 0x9bdc06a7, 0xc19bf174,
   0xe49b69c1, 0xefbe4786, 0x0fc19dc6, 0x240ca1cc, 0x2de92c6f, 0x4a7484aa, 0x5cb0a9dc, 0x76f988da,
   0x983e5152, 0xa831c66d, 0xb00327c8, 0xbf597fc7, 0xc6e00bf3, 0xd5a79147, 0x06ca6351, 0x14292967,
   0x27b70a85, 0x2e1b2138, 0x4d2c6dfc, 0x53380d13, 0x650a7354, 0x766a0abb, 0x81c2c92e, 0x92722c85,
   0xa2bfe8a1, 0xa81a664b, 0xc24b8b70, 0xc76c51a3, 0xd192e819, 0xd6990624, 0xf40e3585, 0x106aa070,
   0x19a4c116, 0x1e376c08, 0x2748774c, 0x34b0bcb5, 0x391c0cb3, 0x4ed8aa4a, 0x5b9cca4f, 0x682e6ff3,
   0x748f82ee, 0x78a5636f, 0x84c87814, 0x8cc70208, 0x90befffa, 0xa4506ceb, 0xbef9a3f7, 0xc67178f2]

/-- The eight words that are carried from block to block. -/
structure Chain where
  a : UInt32
  b : UInt32
  c : UInt32
  d : UInt32
  e : UInt32
  f : UInt32
  g : UInt32
  h : UInt32

/-- The words before the first block: the fractions of the square roots of the primes. -/
def Chain.start : Chain :=
  ⟨0x6a09e667, 0xbb67ae85, 0x3c6ef372, 0xa54ff53a, 0x510e527f, 0x9b05688c, 0x1f83d9ab, 0x5be0cd19⟩

/-- Wordwise sum. -/
def Chain.add (x y : Chain) : Chain :=
  ⟨x.a + y.a, x.b + y.b, x.c + y.c, x.d + y.d, x.e + y.e, x.f + y.f, x.g + y.g, x.h + y.h⟩

/-- The words in order. -/
def Chain.words (x : Chain) : List UInt32 := [x.a, x.b, x.c, x.d, x.e, x.f, x.g, x.h]

/-- A word turned right by `n` bits. -/
def rotateRight (x n : UInt32) : UInt32 := (x >>> n) ||| (x <<< (32 - n))

/-- One round on a schedule word and its constant. -/
def Chain.round (x : Chain) (word constant : UInt32) : Chain :=
  let sum1 := rotateRight x.e 6 ^^^ rotateRight x.e 11 ^^^ rotateRight x.e 25
  let choice := (x.e &&& x.f) ^^^ (~~~x.e &&& x.g)
  let t1 := x.h + sum1 + choice + constant + word
  let sum0 := rotateRight x.a 2 ^^^ rotateRight x.a 13 ^^^ rotateRight x.a 22
  let majority := (x.a &&& x.b) ^^^ (x.a &&& x.c) ^^^ (x.b &&& x.c)
  ⟨t1 + (sum0 + majority), x.a, x.b, x.c, x.d + t1, x.e, x.f, x.g⟩

/-- The next schedule word from the sixteen before it. -/
def nextWord (words : Array UInt32) : UInt32 :=
  let at' := fun back => words.getD (words.size - back) 0
  let w15 := at' 15
  let w2 := at' 2
  let s0 := rotateRight w15 7 ^^^ rotateRight w15 18 ^^^ (w15 >>> 3)
  let s1 := rotateRight w2 17 ^^^ rotateRight w2 19 ^^^ (w2 >>> 10)
  at' 16 + s0 + at' 7 + s1

/-- The schedule of a block: its sixteen words and `n` more. -/
def extendSchedule (words : Array UInt32) : Nat → Array UInt32
  | 0 => words
  | n + 1 => extendSchedule (words.push (nextWord words)) n

/-- One block of sixteen words taken into the chain. -/
def Chain.absorb (x : Chain) (block : List UInt32) : Chain :=
  let schedule := (extendSchedule block.toArray 48).toList
  x.add ((schedule.zip roundConstants).foldl (fun y wk => y.round wk.1 wk.2) x)

/-- The bytes of a number, `count` of them, most significant first. -/
def bigEndian (count n : Nat) : List UInt8 :=
  (List.range count).map (fun i => UInt8.ofNat (n >>> (8 * (count - 1 - i))))

/-- The bytes of a number, `count` of them, least significant first. -/
def littleEndian (count n : Nat) : List UInt8 := (bigEndian count n).reverse

/-- A message with its padding: a one bit, zeros and the length in bits. -/
def padded (bytes : List UInt8) : List UInt8 :=
  let size := bytes.length
  bytes ++ 0x80 :: (List.replicate ((119 - size % 64) % 64) 0 ++ bigEndian 8 (8 * size))

/-- Bytes taken four at a time as words, most significant byte first. -/
def wordsOf : List UInt8 → List UInt32
  | a :: b :: c :: d :: rest =>
    ((a.toUInt32 <<< 24) ||| (b.toUInt32 <<< 16) ||| (c.toUInt32 <<< 8) ||| d.toUInt32) :: wordsOf rest
  | _ => []

/-- Words taken sixteen at a time into the chain; `count` blocks. -/
def Chain.absorbAll (x : Chain) (words : List UInt32) : Nat → Chain
  | 0 => x
  | count + 1 => (x.absorb (words.take 16)).absorbAll (words.drop 16) count

/-- The 32 bytes of the digest. -/
def sha256 (bytes : List UInt8) : List UInt8 :=
  let words := wordsOf (padded bytes)
  (Chain.start.absorbAll words (words.length / 16)).words.flatMap (fun w => bigEndian 4 w.toNat)

/-- A hexadecimal digit in lower case. -/
def hexDigit (n : Nat) : Char := if n < 10 then Char.ofNat (48 + n) else Char.ofNat (87 + n)

/-- Bytes as hexadecimal digits, two a byte. -/
def hex (bytes : List UInt8) : String :=
  String.ofList (bytes.flatMap fun b => [hexDigit (b.toNat / 16), hexDigit (b.toNat % 16)])

/-- The digest as 64 hexadecimal digits. -/
def sha256Hex (bytes : List UInt8) : String := hex (sha256 bytes)

end SourceTables.Digest
