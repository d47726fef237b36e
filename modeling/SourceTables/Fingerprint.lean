import SourceTables.Digest
import SourceTables.Files.Basic
import SourceTables.Text.Utf8

/-!
# `SourceTables.Fingerprint`: files at a point in time

A fingerprint is a path with the size and the modification time that its file had, and a digest of
the content where that is asked for. Two fingerprints agree when all of these do; paths are compared
by their components.
-/

set_option autoImplicit false

namespace SourceTables

/-- What a file was at some time. -/
structure Fingerprint where
  path : Path
  size : Nat
  /-- In nanoseconds since 1970-01-01; what lies before that counts as zero. -/
  modified : Nat
  hash : Option String
deriving DecidableEq, Inhabited

namespace Fingerprint

/-- Whether two fingerprints agree. -/
def same (a b : Fingerprint) : Bool :=
  a.path.same b.path && a.size == b.size && a.modified == b.modified && a.hash == b.hash

/-- The text of a fingerprint. -/
def display (f : Fingerprint) : String :=
  f.path.text ++ " (" ++ toString f.size ++ " bytes, mtime " ++ toString f.modified ++ ")"

/-- The bytes that a fingerprint's digest is taken of. -/
def bytes (f : Fingerprint) : Bytes :=
  Text.encodeUtf8 f.path.text ++ Digest.littleEndian 8 f.size ++ Digest.littleEndian 8 f.modified
    ++ Text.encodeUtf8 (f.hash.getD "")

/-- The first sixteen digits of a digest. -/
def shortDigest (bytes : Bytes) : String :=
  String.ofList ((Digest.sha256Hex bytes).toList.take 16)

/-- The digest of a fingerprint. -/
def digest (f : Fingerprint) : String := shortDigest f.bytes

/-- A modification time as fingerprints hold it. -/
def clampTime (modified : Int) : Nat := min modified.toNat (UInt64.size - 1)

/-- Such a time fits a word. -/
theorem clampTime_lt (modified : Int) : clampTime modified < UInt64.size :=
  Nat.lt_of_le_of_lt (Nat.min_le_right _ _) (by decide)

/-- The size that a directory is taken to have. -/
def directorySize : Nat := 4096

/-- The fingerprint of what a path leads to. A directory has no content to digest. -/
def compute (fs : Files) (p : Path) (withHash : Bool) : Except FileError Fingerprint :=
  match fs.stat p with
  | .error e => .error e
  | .ok (_, .file bytes modified) =>
    .ok ⟨p, bytes.length, clampTime modified, if withHash then some (Digest.sha256Hex bytes) else none⟩
  -- The time of a directory is not kept, so that all directories look alike.
  | .ok _ => if withHash then .error .isDirectory else .ok ⟨p, directorySize, 0, none⟩

/-- The fingerprint of what a path leads to, if it leads to anything. -/
def probe (fs : Files) (p : Path) (withHash : Bool) : Except FileError (Option Fingerprint) :=
  match compute fs p withHash with
  | .ok f => .ok (some f)
  | .error .notFound => .ok none
  | .error e => .error e

end Fingerprint

end SourceTables
