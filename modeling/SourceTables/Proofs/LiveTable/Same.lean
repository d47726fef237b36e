import SourceTables.Proofs.LiveTable.Publish
import SourceTables.Proofs.Partition.Order

/-!
# `SourceTables.Proofs.LiveTable.Same`: snapshots that show the same

Whether two snapshots show the same is asked part by part: keys, partitions with their artifacts, records
and columns. All of these agree with themselves but for one: the value of a partition can be a NaN.

The theorems:

* `Snapshot.agreement_sameContent`: showing the same is symmetric and transitive.
* `Snapshot.sameContent_self_iff`: a snapshot shows the same as itself just when no value of a partition is
  a NaN.
-/

set_option autoImplicit false

namespace SourceTables

/-! ### Parts of snapshots -/

theorem Fingerprint.agreement_same : Agreement same := ⟨same_symm, same_trans⟩

theorem Path.agreement_same : Agreement same := Agreement.eq.comap components

namespace Partition

/-- Whether no value of a partition is a NaN. -/
def Definite (p : Partition) : Prop := ∀ v ∈ p.values, v.2.isNaN = false

instance (p : Partition) : Decidable p.Definite := inferInstanceAs (Decidable (∀ v ∈ p.values, _))

theorem agreement_same : Agreement same :=
  ((((Agreement.eq.comap Prod.fst).and (Literal.agreement_same.comap Prod.snd)).lists.comap values).and
    (Path.agreement_same.comap directory)).and
    (Agreement.eq.comap fun p : Partition => p.files.map Path.components)

/-- A partition agrees with itself unless a value is a NaN. -/
theorem same_self_iff {p : Partition} : p.same p = true ↔ p.Definite := by
  unfold same Definite
  rw [Bool.and_eq_true, Bool.and_eq_true, lists_self_iff, beq_iff_eq, Path.same_iff]
  simp only [Bool.and_eq_true, beq_self_eq_true, true_and, and_true, Literal.same_self_iff]

end Partition

theorem ArtifactRef.agreement_same : Agreement same :=
  ((Agreement.eq.comap table).and (Path.agreement_same.comap path)).and
    (Fingerprint.agreement_same.comap fingerprint)

@[simp] theorem ArtifactRef.same_self (a : ArtifactRef) : a.same a = true := by
  unfold same
  simp [Path.same_iff]

namespace Record

theorem agreement_sameArtifacts : Agreement sameArtifacts := ArtifactRef.agreement_same.lists

@[simp] theorem sameArtifacts_self (as : List ArtifactRef) : sameArtifacts as as = true :=
  lists_self_iff.mpr fun a _ => a.same_self

theorem agreement_same : Agreement same :=
  ((((Fingerprint.agreement_same.comap source).and (Agreement.eq.comap converter)).and
    (Agreement.eq.comap convertedAt)).and (Agreement.eq.comap params)).and
    (agreement_sameArtifacts.comap artifacts)

@[simp] theorem same_self (r : Record) : r.same r = true := by
  unfold same
  simp

end Record

/-! ### Snapshots -/

namespace Snapshot

theorem agreement_sameEntries : Agreement sameEntries :=
  ((Partition.agreement_same.comap PartitionEntry.partition).and
    (Record.agreement_sameArtifacts.comap PartitionEntry.artifacts)).lists

/-- Conversions with the same keys are compared record by record. -/
theorem sameConversions_eq (a b : LedgerMap) : sameConversions a b
    = (a.keys == b.keys && (a.values.length == b.values.length
        && (a.values.zip b.values).all fun pair => pair.1.record.same pair.2.record)) := by
  unfold sameConversions
  by_cases hkeys : a.keys = b.keys
  · have hlength : a.values.length = b.values.length := by
      have := congrArg List.length hkeys
      simpa [Keyed.keys, Keyed.values] using this
    rw [hlength, beq_self_eq_true, Bool.true_and]
  · rw [beq_false_of_ne hkeys]
    rfl

theorem agreement_sameConversions : Agreement sameConversions := by
  have hrecords := @Agreement.lists LedgerEntry (fun pair => pair.1.record.same pair.2.record)
    (Record.agreement_same.comap LedgerEntry.record)
  have hall := (Agreement.eq.comap fun m : LedgerMap => m.keys).and (hrecords.comap Keyed.values)
  rw [funext fun a => funext fun b => sameConversions_eq a b]
  exact hall

@[simp] theorem sameConversions_self (m : LedgerMap) : sameConversions m m = true := by
  rw [sameConversions_eq, beq_self_eq_true, Bool.true_and, lists_self_iff]
  exact fun e _ => e.record.same_self

/-- Showing the same is symmetric and transitive. -/
theorem agreement_sameContent : Agreement sameContent :=
  (((Agreement.eq.comap keys).and (agreement_sameEntries.comap partitions)).and
    (agreement_sameConversions.comap conversions)).and (Agreement.eq.comap schema)

/-- Whether no value of a partition is a NaN. -/
def Definite (s : Snapshot) : Prop := ∀ entry ∈ s.partitions, entry.partition.Definite

/-- A snapshot shows the same as itself unless a value of a partition is a NaN. -/
theorem sameContent_self_iff {s : Snapshot} : s.sameContent s = true ↔ s.Definite := by
  have hentries : sameEntries s.partitions s.partitions = true ↔ s.Definite := by
    unfold sameEntries sameEntry Definite
    rw [lists_self_iff]
    simp only [Record.sameArtifacts_self, Bool.and_true, Partition.same_self_iff]
  rw [← hentries, sameContent]
  simp

end Snapshot

end SourceTables
