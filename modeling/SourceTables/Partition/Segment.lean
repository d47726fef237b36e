import SourceTables.Text.Utf8

/-!
# `SourceTables.Partition.Segment`: directory names as keys and values

A directory named `key=value` gives the files below it a value for a key. The name is cut at its
first `=`; the key may not be empty. In both parts `%` and two hexadecimal digits stand for a byte;
a `%` that no two such digits follow stands for itself. Bytes that are no valid text are replaced.
-/

set_option autoImplicit false

namespace SourceTables

/-- A key with the text of its value. -/
structure KeyValue where
  key : String
  value : String
deriving DecidableEq

namespace Segment

/-- The value of a hexadecimal digit, given as a byte. -/
def hexValue? (b : UInt8) : Option UInt8 :=
  if 48 ≤ b && b ≤ 57 then some (b - 48)
  else if 65 ≤ b && b ≤ 70 then some (b - 55)
  else if 97 ≤ b && b ≤ 102 then some (b - 87)
  else none

/-- Bytes with their escapes undone. -/
def unescapeBytes : List UInt8 → List UInt8
  | 0x25 :: high :: low :: rest =>
    match hexValue? high, hexValue? low with
    | some h, some l => (h * 16 + l) :: unescapeBytes rest
    -- The two bytes may start an escape of their own.
    | _, _ => 0x25 :: unescapeBytes (high :: low :: rest)
  | b :: rest => b :: unescapeBytes rest
  | [] => []

/-- A text with its escapes undone. -/
def unescape (s : String) : String := Text.decodeLossy (unescapeBytes (Text.encodeUtf8 s))

/-- A directory name as a key and its value. -/
def parse? (name : String) : Option KeyValue :=
  let key := name.toList.takeWhile (· != '=')
  match name.toList.drop key.length with
  | [] => none
  | _ :: value =>
    if key.isEmpty then none
    else some ⟨unescape (String.ofList key), unescape (String.ofList value)⟩

end Segment

end SourceTables
