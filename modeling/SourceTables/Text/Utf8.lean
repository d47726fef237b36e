/-!
# `SourceTables.Text.Utf8`: texts as bytes

Two readers of UTF-8. `decodeUtf8?` accepts valid text only and otherwise gives the place of the
first byte that cannot be continued; `decodeLossy` puts one replacement character in place of each
maximal part that begins a character and is not continued.

`encodeUtf8` is the writer for both.
-/

set_option autoImplicit false

namespace SourceTables.Text

/-- The character U+FFFD. -/
def replacement : Char := Char.ofNat 0xFFFD

/-- What the first bytes of a text are. -/
inductive Leading where
  /-- A character and how many bytes it takes. -/
  | character (c : Char) (size : Nat)
  /-- Bytes that begin no character, and how many of them belong together. -/
  | broken (size : Nat)

/-- Whether a byte continues a character. -/
def isContinuation (b : UInt8) : Bool := 0x80 ≤ b && b ≤ 0xBF

/-- The six bits that a continuation byte carries. -/
def sixBits (b : UInt8) : Nat := b.toNat % 64

/-- The bounds of the second byte after a leading byte of three or four: they keep out long forms,
surrogates and what lies past the last code point. -/
def secondBounds (lead : UInt8) : UInt8 × UInt8 :=
  if lead == 0xE0 then (0xA0, 0xBF)
  else if lead == 0xED then (0x80, 0x9F)
  else if lead == 0xF0 then (0x90, 0xBF)
  else if lead == 0xF4 then (0x80, 0x8F)
  else (0x80, 0xBF)

/-- Reads the character that starts with `lead`. -/
def leading (lead : UInt8) (rest : List UInt8) : Leading :=
  let n := lead.toNat
  let (low, high) := secondBounds lead
  if n < 0x80 then .character (Char.ofNat n) 1
  else if n < 0xC2 || n > 0xF4 then .broken 1
  else match rest with
    | [] => .broken 1
    | b :: rest =>
      if !(low ≤ b && b ≤ high) then .broken 1
      else if n < 0xE0 then .character (Char.ofNat ((n % 32) * 64 + sixBits b)) 2
      else match rest with
        | [] => .broken 2
        | c :: rest =>
          if !isContinuation c then .broken 2
          else if n < 0xF0 then
            .character (Char.ofNat (((n % 16) * 64 + sixBits b) * 64 + sixBits c)) 3
          else match rest with
            | [] => .broken 3
            | d :: _ =>
              if !isContinuation d then .broken 3
              else .character
                (Char.ofNat ((((n % 8) * 64 + sixBits b) * 64 + sixBits c) * 64 + sixBits d)) 4

/-- The characters of bytes, broken parts replaced. -/
def decodeLossyList (bytes : List UInt8) : List Char :=
  match bytes with
  | [] => []
  | lead :: rest =>
    match leading lead rest with
    | .character c size => c :: decodeLossyList (rest.drop (size - 1))
    | .broken size => replacement :: decodeLossyList (rest.drop (size - 1))
termination_by bytes.length
decreasing_by all_goals (simp only [List.length_cons, List.length_drop]; omega)

/-- The text of bytes, broken parts replaced. -/
def decodeLossy (bytes : List UInt8) : String := String.ofList (decodeLossyList bytes)

/-- The characters of bytes, or the place of the first byte of a broken part. -/
def decodeUtf8List? (bytes : List UInt8) (place : Nat) : Except Nat (List Char) :=
  match bytes with
  | [] => .ok []
  | lead :: rest =>
    match leading lead rest with
    | .character c size => (decodeUtf8List? (rest.drop (size - 1)) (place + size)).map (c :: ·)
    | .broken _ => .error place
termination_by bytes.length
decreasing_by simp only [List.length_cons, List.length_drop]; omega

/-- The text of bytes, or the place of the first byte of a broken part. -/
def decodeUtf8? (bytes : List UInt8) : Except Nat String :=
  (decodeUtf8List? bytes 0).map String.ofList

/-- The bytes of a text. -/
def encodeUtf8 (s : String) : List UInt8 := s.toUTF8.toList

end SourceTables.Text
