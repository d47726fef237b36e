/-!
# `SourceTables.Zip.Inflate`: compressed bytes

A code gives every symbol in use a word of bits, no word beginning another. It is known from the
lengths of the words alone: words of one length follow one another in the order of their symbols, and
after the last word of a length comes the next one with a zero behind it. `Code.ofLengths?` builds the
tree of a code and `Code.read?` walks it.

Compressed data is a run of bits, the lowest bit of each byte first, and falls into blocks. A block
holds bytes as they are, or words of a code: single bytes, and references to bytes that came before.
The two codes of a block are fixed, or stand at its start.
-/

set_option autoImplicit false

namespace SourceTables.Zip

/-! ### Codes -/

/-- The words of a code as a tree: a zero leads left, a one leads right. -/
inductive Code where
  /-- No word goes here. -/
  | unused
  | symbol (value : Nat)
  | branch (zero one : Code)

namespace Code

/-- The code with one more word; none if another word begins it or is begun by it. -/
def insert? : Code → List Bool → Nat → Option Code
  | .unused, [], value => some (.symbol value)
  | .unused, false :: word, value => (insert? .unused word value).map (.branch · .unused)
  | .unused, true :: word, value => (insert? .unused word value).map (.branch .unused ·)
  | .branch zero one, false :: word, value => (zero.insert? word value).map (.branch · one)
  | .branch zero one, true :: word, value => (one.insert? word value).map (.branch zero ·)
  | .branch _ _, [], _ | .symbol _, _, _ => none
termination_by _ word => word.length

/-- The lowest `length` bits of a number, the highest of them first. -/
def word (n : Nat) : (length : Nat) → List Bool
  | 0 => []
  | length + 1 => n.testBit length :: word n length

/-- Gives words of one length to symbols, from the word `next` on. -/
def insertAll? (code : Code) (length next : Nat) : List Nat → Option Code
  | [] => some code
  | value :: rest => do
    if 2 ^ length ≤ next then none
    insertAll? (← code.insert? (word next length) value) length (next + 1) rest

/-- The symbols whose words have a length. -/
def symbolsOf (lengths : List Nat) (length : Nat) : List Nat :=
  (lengths.zipIdx.filter (fun entry => entry.1 = length)).map Prod.snd

/-- Gives words to all symbols, from the shortest words on. -/
def build? (lengths : List Nat) (code : Code) (next : Nat) : List Nat → Option Code
  | [] => some code
  | length :: longer => do
    let symbols := symbolsOf lengths length
    let code ← code.insertAll? length (2 * next) symbols
    build? lengths code (2 * next + symbols.length) longer

/-- The code whose words have these lengths, symbol by symbol; symbols of length zero have none. -/
def ofLengths? (lengths : List Nat) : Option Code :=
  build? lengths .unused 0 ((List.range 15).map (· + 1))

/-- The symbol whose word comes first, and the bits after it. -/
def read? : Code → List Bool → Option (Nat × List Bool)
  | .symbol value, bits => some (value, bits)
  | .branch zero _, false :: bits => zero.read? bits
  | .branch _ one, true :: bits => one.read? bits
  | .branch _ _, [] | .unused, _ => none

end Code

/-! ### Bits and blocks -/

/-- The bits of a byte, the lowest first. -/
def bitsOfByte (b : UInt8) : List Bool := (List.range 8).map b.toNat.testBit

/-- The bits of bytes. -/
def bitsOf (bytes : List UInt8) : List Bool := bytes.flatMap bitsOfByte

/-- The number of the first bits, the lowest first, and the bits after them. -/
def number? : (count : Nat) → List Bool → Option (Nat × List Bool)
  | 0, bits => some (0, bits)
  | _ + 1, [] => none
  | count + 1, bit :: bits => (number? count bits).map fun (n, rest) => (2 * n + bit.toNat, rest)

/-- A number that is a base and some extra bits. -/
structure Extended where
  base : Nat
  extra : Nat

/-- Numbers that follow one another, each covering what its extra bits can tell apart. -/
def extendedFrom (base : Nat) : List Nat → List Extended
  | [] => []
  | extra :: rest => ⟨base, extra⟩ :: extendedFrom (base + 2 ^ extra) rest

/-- How many bytes a reference copies; the last entry is the greatest length alone. -/
def lengthTable : List Extended :=
  (extendedFrom 3 [0, 0, 0, 0, 0, 0, 0, 0, 1, 1, 1, 1, 2, 2, 2, 2, 3, 3, 3, 3, 4, 4, 4, 4, 5, 5, 5, 5])
    ++ [⟨258, 0⟩]

/-- How far back a reference points. -/
def distanceTable : List Extended :=
  extendedFrom 1
    [0, 0, 0, 0, 1, 1, 2, 2, 3, 3, 4, 4, 5, 5, 6, 6, 7, 7, 8, 8, 9, 9, 10, 10, 11, 11, 12, 12, 13, 13]

/-- The number that a symbol and the bits after it stand for. -/
def extended? (table : List Extended) (symbol : Nat) (bits : List Bool) : Option (Nat × List Bool) := do
  let entry ← table[symbol]?
  let (extra, bits) ← number? entry.extra bits
  return (entry.base + extra, bits)

/-- Appends `length` bytes that stand `distance` before the end; they may overlap. -/
def copyBack? (out : Array UInt8) (distance : Nat) : (length : Nat) → Option (Array UInt8)
  | 0 => some out
  | length + 1 =>
    -- The distance stays the same while the end moves, so a copy may run into itself.
    if distance = 0 || out.size < distance then none
    else do
      let b ← out[out.size - distance]?
      copyBack? (out.push b) distance length

/-- The bytes of a block of words, appended. Each word uses up a bit, so `fuel` is the count of
bits. -/
def symbols? (literals distances : Code) : (fuel : Nat) → List Bool → Array UInt8 →
    Option (Array UInt8 × List Bool)
  | 0, _, _ => none
  | fuel + 1, bits, out => do
    let (symbol, bits) ← literals.read? bits
    if symbol < 256 then symbols? literals distances fuel bits (out.push (UInt8.ofNat symbol))
    else if symbol = 256 then return (out, bits)
    else
      let (length, bits) ← extended? lengthTable (symbol - 257) bits
      let (back, bits) ← distances.read? bits
      let (distance, bits) ← extended? distanceTable back bits
      symbols? literals distances fuel bits (← copyBack? out distance length)

/-- The bytes of a block that holds them as they are: after the next full byte, their count, its
complement, and the bytes. -/
def stored? (bits : List Bool) (out : Array UInt8) : Option (Array UInt8 × List Bool) := do
  -- All bits are left over from whole bytes, so what is over a multiple of eight is the rest of
  -- the byte that was begun.
  let (count, bits) ← number? 16 (bits.drop (bits.length % 8))
  let (complement, bits) ← number? 16 bits
  if count + complement ≠ 65535 then none
  copy count bits out
where
  /-- Appends so many bytes. -/
  copy : Nat → List Bool → Array UInt8 → Option (Array UInt8 × List Bool)
    | 0, bits, out => some (out, bits)
    | count + 1, bits, out => do
      let (b, bits) ← number? 8 bits
      copy count bits (out.push (UInt8.ofNat b))

/-- The lengths of the words of the fixed code for bytes and lengths. -/
def fixedLiteralLengths : List Nat :=
  List.replicate 144 8 ++ List.replicate 112 9 ++ List.replicate 24 7 ++ List.replicate 8 8

/-- The lengths of the words of the fixed code for distances. -/
def fixedDistanceLengths : List Nat := List.replicate 30 5

/-- The order in which the lengths of the words of the code for lengths stand. -/
def lengthOrder : List Nat := [16, 17, 18, 0, 8, 7, 9, 6, 10, 5, 11, 4, 12, 3, 13, 2, 14, 1, 15]

/-- So many lengths of three bits. -/
def shortLengths? : Nat → List Bool → Option (List Nat × List Bool)
  | 0, bits => some ([], bits)
  | count + 1, bits => do
    let (n, bits) ← number? 3 bits
    let (rest, bits) ← shortLengths? count bits
    return (n :: rest, bits)

/-- Lengths of words up to a count, in reverse on top of `done`. Three symbols stand for runs: of the
length before, or of zeros. -/
def wordLengths? (code : Code) (count : Nat) : (fuel : Nat) → List Bool → (done : List Nat) →
    Option (List Nat × List Bool)
  | 0, _, _ => none
  | fuel + 1, bits, done => do
    if done.length = count then return (done.reverse, bits)
    if count < done.length then none
    let (symbol, bits) ← code.read? bits
    let run (value base extra : Nat) : Option (List Nat × List Bool) := do
      let (more, bits) ← number? extra bits
      wordLengths? code count fuel bits (List.replicate (base + more) value ++ done)
    if symbol < 16 then wordLengths? code count fuel bits (symbol :: done)
    -- A repetition needs something before it.
    else if symbol = 16 then run (← done.head?) 3 2
    else if symbol = 17 then run 0 3 3
    else run 0 11 7

/-- The codes that stand at the start of a block. -/
def ownCodes? (bits : List Bool) : Option (Code × Code × List Bool) := do
  let (literals, bits) ← number? 5 bits
  let (distances, bits) ← number? 5 bits
  let (count, bits) ← number? 4 bits
  let (short, bits) ← shortLengths? (count + 4) bits
  let byOrder := lengthOrder.zip short
  let lengthOf (symbol : Nat) : Nat :=
    ((byOrder.find? (fun entry => entry.1 = symbol)).map Prod.snd).getD 0
  let code ← Code.ofLengths? ((List.range 19).map lengthOf)
  -- The lengths of both codes stand in one sequence, and a run may cross from one into the other.
  let (lengths, bits) ← wordLengths? code (literals + 257 + distances + 1) (bits.length + 1) bits []
  return (← Code.ofLengths? (lengths.take (literals + 257)),
    ← Code.ofLengths? (lengths.drop (literals + 257)), bits)

/-- The bytes of all blocks, appended. Each block uses up bits, so `fuel` is their count. -/
def blocks? : (fuel : Nat) → List Bool → Array UInt8 → Option (Array UInt8)
  | 0, _, _ => none
  | fuel + 1, bits, out => do
    let (last, bits) ← number? 1 bits
    let (kind, bits) ← number? 2 bits
    let (out, bits) ← match kind with
      | 0 => stored? bits out
      | 1 => do
        symbols? (← Code.ofLengths? fixedLiteralLengths) (← Code.ofLengths? fixedDistanceLengths)
          (bits.length + 1) bits out
      | 2 => do
        let (literals, distances, bits) ← ownCodes? bits
        symbols? literals distances (bits.length + 1) bits out
      | _ => none
    if last = 1 then return out
    blocks? fuel bits out

/-- The bytes that compressed bytes stand for. -/
def inflate? (bytes : List UInt8) : Option (List UInt8) :=
  let bits := bitsOf bytes
  (blocks? (bits.length + 1) bits #[]).map Array.toList

end SourceTables.Zip
