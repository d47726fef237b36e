import SourceTables.Ledger.Store
import Mathlib.Logic.Function.Basic

/-!
# `SourceTables.Ledger.Overlap`: callers that share a ledger

Many callers record, remove and save at the same time. A change is made before it is counted, and a save
reads the count, takes the records, puts the finished file in the place of the ledger file, and notes the
count that it has read. Each of these steps is done at once, and between them others may do theirs.
-/

set_option autoImplicit false

namespace SourceTables

namespace Overlap

/-- How far a caller has come. -/
inductive Progress where
  | idle
  /-- It has changed the records, and not counted the change. -/
  | changed
  /-- It saves, and has read the count. -/
  | counted (generation : Nat)
  /-- It saves, and has taken the records. -/
  | taken (save : Ledger.Save)
  /-- It saves, and has put its file in the place of the ledger file. -/
  | renamed (save : Ledger.Save)

/-- What a caller does. -/
inductive Event where
  | record (r : Record)
  | remove (p : Path)
  | bump
  | count
  | take
  | rename
  /-- Its file could not be written. -/
  | fail
  | store

end Overlap

/-- A ledger with its callers. -/
structure Overlap where
  ledger : Ledger
  /-- What the ledger file has held, the last first. -/
  written : List Ledger.Save
  progress : Nat → Overlap.Progress

namespace Overlap

/-- A ledger that was loaded, before anyone calls. -/
def start (l : Ledger) : Overlap := ⟨l, [l.beginSave], fun _ => .idle⟩

/-- What the ledger file holds. -/
def file (s : Overlap) : LedgerMap :=
  match s.written with
  | [] => Keyed.empty
  | save :: _ => save.records

/-- Whether no call is in progress. -/
def Idle (s : Overlap) : Prop := ∀ caller, s.progress caller = .idle

/-- The state after a caller has come further. -/
def advance (s : Overlap) (caller : Nat) (p : Progress) : Overlap :=
  { s with progress := Function.update s.progress caller p }

/-- The state with other records. -/
def withRecords (s : Overlap) (m : LedgerMap) : Overlap :=
  { s with ledger := { s.ledger with records := m } }

/-- One step of one caller. -/
inductive Step (s : Overlap) (caller : Nat) : Event → Overlap → Prop
  | record (r : Record) : s.progress caller = .idle →
    Step s caller (.record r)
      ((s.withRecords (s.ledger.records.insertAt r.path r)).advance caller .changed)
  | remove (p : Path) : s.progress caller = .idle → (s.ledger.get? p).isSome = true →
    Step s caller (.remove p)
      ((s.withRecords (s.ledger.records.erase p.components)).advance caller .changed)
  | bump : s.progress caller = .changed →
    Step s caller .bump ({ s with ledger := s.ledger.bump }.advance caller .idle)
  | count : s.progress caller = .idle →
    Step s caller .count (s.advance caller (.counted s.ledger.generation))
  | take (generation : Nat) : s.progress caller = .counted generation →
    Step s caller .take (s.advance caller (.taken ⟨generation, s.ledger.records⟩))
  | rename (save : Ledger.Save) : s.progress caller = .taken save →
    Step s caller .rename ({ s with written := save :: s.written }.advance caller (.renamed save))
  | fail (save : Ledger.Save) : s.progress caller = .taken save →
    Step s caller .fail (s.advance caller .idle)
  | store (save : Ledger.Save) : s.progress caller = .renamed save →
    Step s caller .store ({ s with ledger := s.ledger.endSave save }.advance caller .idle)

/-- Whether steps that are allowed lead from one state to another. -/
inductive Reaches (allowed : Overlap → Event → Prop) (s : Overlap) : Overlap → Prop
  | refl : Reaches allowed s s
  | step {s' s'' : Overlap} {caller : Nat} {e : Event} :
    Reaches allowed s s' → s'.Step caller e s'' → allowed s' e → Reaches allowed s s''

/-- Any step. -/
def anyStep (_ : Overlap) (_ : Event) : Prop := True

/-- A step that puts no file in the place of the ledger file while another save has done so and not yet
noted its count. -/
def Orderly (s : Overlap) (e : Event) : Prop :=
  e = .rename → ∀ caller save, s.progress caller ≠ .renamed save

end Overlap

end SourceTables
