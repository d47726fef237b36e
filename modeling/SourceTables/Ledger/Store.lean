import SourceTables.Ledger.Record

/-!
# `SourceTables.Ledger.Store`: the conversions of a directory

The ledger holds one record for each source, in the order of their paths. It counts its changes, and
remembers at which count it was last saved or loaded: it is dirty when the two differ. The ledger
file is replaced as a whole.

Saving and recording are made of small steps, so that overlapping calls can be reasoned about:
`beginSave` takes the count and the records, `writeRecords` writes them, `endSave` notes the count.

Main statement: `prune_eq` (records that are judged one by one, each for itself, are those that a filter
leaves).
-/

set_option autoImplicit false

namespace SourceTables

/-- A record under the path that it was first written under. -/
structure LedgerEntry where
  writtenAs : Path
  record : Record
deriving DecidableEq

/-- Records by the components of their sources' paths. -/
abbrev LedgerMap := Keyed (List Component) LedgerEntry

/-- The name of the ledger file. -/
def ledgerFileName : String := ".conversions.json"

/-- The ledger of a directory. -/
structure Ledger where
  dir : Path
  records : LedgerMap
  /-- How many changes there have been. -/
  generation : Nat
  /-- The number of changes that the ledger file shows. -/
  saved : Nat
deriving Inhabited

namespace LedgerMap

/-- The map with a record under a path; a path that is already there stays as it was written. -/
def insertAt (m : LedgerMap) (p : Path) (r : Record) : LedgerMap :=
  -- Paths with the same components are one key, however they are written.
  let writtenAs := match m.get? p.components with
    | some e => e.writtenAs
    | none => p
  m.insert p.components ⟨writtenAs, r⟩

/-- All records in the order of their paths. -/
def recordList (m : LedgerMap) : List Record := m.values.map LedgerEntry.record

/-- A ledger document. -/
def toValue (m : LedgerMap) : Json.Value :=
  .object (m.values.map fun e => (e.writtenAs.text, e.record.toValue))

/-- The map that a ledger document stands for. -/
def ofValue? : Json.Value → Option LedgerMap
  | .object members => members.foldlM
    (fun m e => (Record.ofValue? e.2).map fun r => insertAt m ⟨e.1⟩ r) Keyed.empty
  | _ => none

/-- The text of the ledger file. -/
def render (m : LedgerMap) : String := (toValue m).pretty ++ "\n"

/-- The map that a ledger file holds. -/
def parse? (bytes : Bytes) : Option LedgerMap :=
  match Text.decodeUtf8? bytes with
  | .ok text => (Json.parse? text.length text).bind ofValue?
  | .error _ => none

/-- A reference with the modification time that its artifact has got, if that is known. -/
def refWithTime (time? : Path → Option Nat) (a : ArtifactRef) : ArtifactRef :=
  { a with fingerprint :=
    { a.fingerprint with modified := (time? a.path).getD a.fingerprint.modified } }

/-- The map with the modification times that some artifacts have got. -/
def withTimes (m : LedgerMap) (time? : Path → Option Nat) : LedgerMap :=
  ⟨m.entries.map fun (key, e) => (key, { e with record := { e.record with
    primary := refWithTime time? e.record.primary
    additional := e.record.additional.map (refWithTime time?) } })⟩

end LedgerMap

namespace Ledger

/-- The ledger of a directory before anything is loaded. -/
def initial (dir : Path) : Ledger := ⟨dir, Keyed.empty, 0, 0⟩

/-- The ledger file. -/
def file (l : Ledger) : Path := l.dir.join ⟨ledgerFileName⟩

/-- Whether there are changes that the ledger file does not show. -/
def isDirty (l : Ledger) : Bool := l.generation != l.saved

/-- The record of a path. -/
def get? (l : Ledger) (p : Path) : Option Record := (l.records.get? p.components).map (·.record)

/-- The record that was made of exactly this version of a source. -/
def lookup? (l : Ledger) (f : Fingerprint) : Option Record :=
  (l.get? f.path).filter (fun r => r.source.same f)

/-- One more change. -/
def bump (l : Ledger) : Ledger := { l with generation := l.generation + 1 }

/-- Records a conversion; also what was recorded before. -/
def record (l : Ledger) (r : Record) : Option Record × Ledger :=
  (l.get? r.path, { l with records := l.records.insertAt r.path r }.bump)

/-- Removes the record of a path, if there is one. -/
def remove (l : Ledger) (p : Path) : Option Record × Ledger :=
  match l.get? p with
  | some r => (some r, { l with records := l.records.erase p.components }.bump)
  | none => (none, l)

/-- Puts loaded records in the place of all others. -/
def install (l : Ledger) (m : LedgerMap) : Ledger :=
  -- Loading is a change, but one that the file shows.
  { l with records := m, generation := l.generation + 1, saved := l.generation + 1 }

/-- The records that the ledger file holds; without a file there are none. -/
def fileRecords (l : Ledger) (fs : Files) : Except Error LedgerMap :=
  match fs.content l.file with
  | .ok bytes => match LedgerMap.parse? bytes with
    | some m => .ok m
    | none => .error (.ledgerCorrupt l.file "no ledger document")
  -- A directory that was never converted has no ledger file.
  | .error .notFound => .ok Keyed.empty
  | .error e => .error (.file e)

/-- Loads the ledger file. -/
def load (l : Ledger) (fs : Files) : Except Error LedgerMap × Ledger :=
  match l.fileRecords fs with
  | .ok m => (.ok m, l.install m)
  | .error e => (.error e, l)

/-- A save that has begun: the count and the records that it saves. -/
structure Save where
  generation : Nat
  records : LedgerMap

/-- The start of a save. -/
def beginSave (l : Ledger) : Save := ⟨l.generation, l.records⟩

/-- The end of a save. -/
def endSave (l : Ledger) (s : Save) : Ledger := { l with saved := s.generation }

/-- Writes records over the ledger file. -/
def writeRecords (l : Ledger) (fs : Files) (m : LedgerMap) : Except FileError Files := do
  let fs ← fs.makeDirectories l.dir
  fs.replace l.file (Text.encodeUtf8 m.render)

/-- Saves the ledger. -/
def save (l : Ledger) (fs : Files) : Except Error (Ledger × Files) :=
  let s := l.beginSave
  match l.writeRecords fs s.records with
  | .ok fs => .ok (l.endSave s, fs)
  | .error e => .error (.ledgerNotSaved l.file e)

/-- Removes a file, if it can be removed. -/
def tryRemove (fs : Files) (p : Path) : Files := (fs.removeFile p).toOption.getD fs

/-- Deletes those artifacts of a removed record that lie in a directory. -/
def deleteArtifacts (artifactDir : Path) (fs : Files) (r : Record) : Files :=
  ((r.artifacts.map ArtifactRef.path).filter (fun p => p.startsWith artifactDir)).foldl tryRemove fs

/-- Removes the record of a source and its artifacts. -/
def pruneOne (artifactDir : Path) (state : List Record × Ledger × Files) (p : Path) :
    List Record × Ledger × Files :=
  let (removed, l, fs) := state
  match l.remove p with
  | (some r, l) => (removed ++ [r], l, deleteArtifacts artifactDir fs r)
  | (none, l) => (removed, l, fs)

/-- Asks about each record, one after another, and takes those that are not to be kept. What is asked may
remember what it was asked before. -/
def rejected {σ : Type} (retain : Record → StateM σ Bool) : List Record → StateM σ (List Record)
  | [] => return []
  | r :: rest => do
    let kept ← retain r
    let others ← rejected retain rest
    return if kept then others else r :: others

/-- Removes the records that are not to be kept, and their artifacts in a directory. All records are
judged before any is removed. -/
def pruneBy {σ : Type} (l : Ledger) (fs : Files) (artifactDir : Path) (retain : Record → StateM σ Bool) :
    StateM σ (List Record × Ledger × Files) := do
  let doomed ← rejected retain l.records.recordList
  return (doomed.map Record.path).foldl (pruneOne artifactDir) ([], l, fs)

/-- The same with a judgement that remembers nothing. -/
def prune (l : Ledger) (fs : Files) (artifactDir : Path) (keep : Record → Bool) :
    List Record × Ledger × Files :=
  ((l.pruneBy fs artifactDir fun r => pure (keep r)).run ()).1

/-- A judgement that remembers nothing filters the records. -/
theorem rejected_pure {σ : Type} (keep : Record → Bool) (records : List Record) :
    rejected (fun r => (pure (keep r) : StateM σ Bool)) records
      = pure (records.filter fun r => !keep r) := by
  induction records with
  | nil => rfl
  | cons r rest ih =>
    rw [rejected, ih, List.filter_cons]
    cases keep r <;> rfl

/-- What is removed with such a judgement, one record after another. -/
theorem prune_eq (l : Ledger) (fs : Files) (artifactDir : Path) (keep : Record → Bool) :
    l.prune fs artifactDir keep
      = ((l.records.recordList.filter (fun r => !keep r)).map Record.path).foldl
          (pruneOne artifactDir) ([], l, fs) := by
  rw [prune, pruneBy, rejected_pure]
  rfl

/-- Removes the records of sources that are gone. -/
def pruneMissing (l : Ledger) (fs : Files) (artifactDir : Path) : List Record × Ledger × Files :=
  l.prune fs artifactDir (fun r => fs.exists? r.path)

end Ledger

end SourceTables
