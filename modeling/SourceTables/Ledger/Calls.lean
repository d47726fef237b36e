import SourceTables.Ledger.Store

/-!
# `SourceTables.Ledger.Calls`: everything a ledger is asked for

A ledger is asked for records, changed, loaded and saved. A save is tried a few times: writing the ledger
file can fail for reasons that are not the ledger's, and an error that may pass is given another chance.
What an attempt comes to is therefore taken as given here; `Ledger.plainly` is the attempt that nothing
but the tree of files gets in the way of.
-/

set_option autoImplicit false

namespace SourceTables

/-- What an attempt to write records comes to, and the files after it. -/
abbrev Attempt := Files → LedgerMap → Except FileError Unit × Files

namespace Ledger

/-- The attempt that fails only where the files do not allow it. -/
def plainly (l : Ledger) : Attempt := fun fs m =>
  match l.writeRecords fs m with
  | .ok fs' => (.ok (), fs')
  | .error e => (.error e, fs)

/-- Attempts to write records. After an error that may pass there is another one, while any are left. -/
def writeRetrying (passing : FileError → Bool) (write : Nat → Attempt) : Nat → Attempt
  | 0, fs, m => write 0 fs m
  | left + 1, fs, m =>
    match write (left + 1) fs m with
    | (.ok (), fs') => (.ok (), fs')
    | (.error e, fs') =>
      if passing e then writeRetrying passing write left fs' m else (.error e, fs')

/-- How many more attempts there are after the first. -/
def retries : Nat := 3

/-- Saves the ledger. The count is noted only once the file was written. -/
def persist (l : Ledger) (passing : FileError → Bool) (write : Nat → Attempt) (fs : Files) :
    Except Error Unit × Ledger × Files :=
  let s := l.beginSave
  match writeRetrying passing write retries fs s.records with
  | (.ok (), fs') => (.ok (), l.endSave s, fs')
  | (.error e, fs') => (.error (.ledgerNotSaved l.file e), l, fs')

/-- What a ledger can be asked for. -/
inductive Call where
  | get (p : Path)
  | lookup (f : Fingerprint)
  | record (r : Record)
  | remove (p : Path)
  | prune (artifactDir : Path) (keep : Record → Bool)
  | load
  | persist (passing : FileError → Bool) (write : Nat → Attempt)

/-- What is returned. -/
inductive Answer where
  | record (found : Option Record)
  | removed (records : List Record)
  | loaded (result : Except Error LedgerMap)
  | persisted (result : Except Error Unit)

/-- Does what is asked for. -/
def call (l : Ledger) (fs : Files) : Call → Answer × Ledger × Files
  | .get p => (.record (l.get? p), l, fs)
  | .lookup f => (.record (l.lookup? f), l, fs)
  | .record r => let (replaced, l) := l.record r; (.record replaced, l, fs)
  | .remove p => let (removed, l) := l.remove p; (.record removed, l, fs)
  | .prune artifactDir keep =>
    let (removed, l, fs) := l.prune fs artifactDir keep
    (.removed removed, l, fs)
  | .load => let (result, l) := l.load fs; (.loaded result, l, fs)
  | .persist passing write =>
    let (result, l, fs) := l.persist passing write fs
    (.persisted result, l, fs)

end Ledger

end SourceTables
