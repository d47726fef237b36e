import SourceTables.Digest
import SourceTables.Files.Basic
import SourceTables.Text.Utf8
import SourceTables.Zip.Inflate

/-!
# `SourceTables.Zip.Archive`: files in one file

An archive ends with a directory of its members: name, place, method, sizes and checksum of each. The
directory is found from its end. When a name comes twice, the later member counts, at the place of the
earlier one.
-/

set_option autoImplicit false

namespace SourceTables.Zip

/-- A member as the directory lists it. -/
structure Member where
  name : String
  /-- How the bytes are stored: 0 as they are, 8 compressed. -/
  method : Nat
  encrypted : Bool
  checksum : Nat
  /-- How many bytes are stored. -/
  size : Nat
  /-- Where the member starts. -/
  start : Nat

/-- The members of an archive and the bytes that they are in. -/
structure Archive where
  bytes : Array UInt8
  members : List Member

/-- The bytes from a place on for some length. -/
def slice (bytes : Array UInt8) (start length : Nat) : List UInt8 :=
  (bytes.extract start (start + length)).toList

/-- The number of the bytes from a place on for some length, the lowest byte first. -/
def numberAt (bytes : Array UInt8) (start length : Nat) : Nat :=
  (slice bytes start length).foldr (fun b n => b.toNat + 256 * n) 0

/-- Whether two letters and two bytes stand at a place. -/
def hasMark (bytes : Array UInt8) (start : Nat) (third fourth : UInt8) : Bool :=
  slice bytes start 4 = [0x50, 0x4B, third, fourth]

/-- The last place, at most `start`, of the end of a directory. -/
def endPlace? (bytes : Array UInt8) : (start : Nat) → Option Nat
  | 0 => if hasMark bytes 0 0x05 0x06 then some 0 else none
  | start + 1 =>
    if hasMark bytes (start + 1) 0x05 0x06 then some (start + 1) else endPlace? bytes start

/-- A name: text, if the member says so, and otherwise only ASCII is known. -/
def nameOf (isText : Bool) (bytes : List UInt8) : String :=
  if isText then Text.decodeLossy bytes
  else String.ofList (bytes.map fun b => if b < 0x80 then Char.ofNat b.toNat else Text.replacement)

/-- So many members, from a place on. Members stand `shift` bytes later than the directory says. -/
def members? (bytes : Array UInt8) (shift : Nat) : (count : Nat) → (place : Nat) → Option (List Member)
  | 0, _ => some []
  | count + 1, place => do
    if !hasMark bytes place 0x01 0x02 || bytes.size < place + 46 then none
    let nameLength := numberAt bytes (place + 28) 2
    let extra := numberAt bytes (place + 30) 2 + numberAt bytes (place + 32) 2
    if bytes.size < place + 46 + nameLength + extra then none
    let flags := numberAt bytes (place + 8) 2
    let member : Member :=
      { name := nameOf (flags.testBit 11) (slice bytes (place + 46) nameLength)
        method := numberAt bytes (place + 10) 2
        encrypted := flags.testBit 0
        checksum := numberAt bytes (place + 16) 4
        size := numberAt bytes (place + 20) 4
        start := numberAt bytes (place + 42) 4 + shift }
    return member :: (← members? bytes shift count (place + 46 + nameLength + extra))

/-- The archive that bytes are, if they are one. -/
def Archive.ofBytes? (content : Bytes) : Option Archive := do
  let bytes := content.toArray
  if bytes.size < 22 then none
  let place ← endPlace? bytes (bytes.size - 22)
  let size := numberAt bytes (place + 12) 4
  let start := numberAt bytes (place + 16) 4
  if place < size + start then none
  let shift := place - (size + start)
  let members ← members? bytes shift (numberAt bytes (place + 10) 2) (start + shift)
  return ⟨bytes, members⟩

/-- The names of an archive, each once, in order. -/
def Archive.names (a : Archive) : List String := (a.members.map Member.name).eraseDups

/-- Why a member cannot be read. -/
inductive MemberError where
  /-- It is not there as the directory says, or stored in another way. -/
  | unreadable
  /-- Its bytes are not what its method makes. -/
  | corrupt
  | wrongChecksum
deriving DecidableEq

/-- The bytes of a member as they are stored. -/
def Archive.stored (a : Archive) (m : Member) : Except MemberError Bytes :=
  if m.encrypted || !hasMark a.bytes m.start 0x03 0x04 then .error .unreadable
  else
    let start := m.start + 30 + numberAt a.bytes (m.start + 26) 2 + numberAt a.bytes (m.start + 28) 2
    .ok (slice a.bytes start m.size)

/-- The bytes of a member. -/
def Archive.contentOf (a : Archive) (m : Member) : Except MemberError Bytes := do
  let stored ← a.stored m
  let content ← match m.method with
    | 0 => .ok stored
    | 8 => match inflate? stored with
      | some content => .ok content
      | none => .error .corrupt
    | _ => .error .unreadable
  if (Digest.crc32 content).toNat = m.checksum then return content else throw .wrongChecksum

/-- The member of a name. -/
def Archive.member? (a : Archive) (name : String) : Option Member :=
  a.members.reverse.find? (fun m => m.name == name)

end SourceTables.Zip
