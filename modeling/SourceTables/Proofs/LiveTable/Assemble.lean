import SourceTables.LiveTable
import SourceTables.Proofs.Outcome

/-!
# `SourceTables.Proofs.LiveTable.Assemble`: candidates of passes that succeed

The theorems:

* `of_assemble`, `assemble_eq_ok`: what a candidate is made of, once a pass has one.
* `get?_conversions`: a candidate holds, for each file that was asked for once, the record that the pass
  was given for it.
* `finishPass_cases`: what a pass leaves; after a pass with a candidate the snapshot is the candidate or one
  that shows the same.
* `record_of_sameContent`: snapshots that show the same hold records that agree.
-/

set_option autoImplicit false

namespace SourceTables

namespace LiveTable

/-! ### The records of a pass -/

/-- All files have records just when no conversion has failed. -/
theorem allConverted_eq_ok {t : LiveTable} {results : List (Path × Except Error Record)}
    {m : LedgerMap} :
    t.allConverted results = .ok m ↔
      (∀ result ∈ results, ∃ r, result.2 = .ok r) ∧ conversions results = m := by
  have hfailures : failures results = [] ↔ ∀ result ∈ results, ∃ r, result.2 = .ok r := by
    unfold failures
    rw [List.filterMap_eq_nil_iff]
    refine forall₂_congr fun result _ => ?_
    cases result.2 <;> simp
  unfold allConverted
  rw [← hfailures]
  cases failures results with
  | nil => simp
  | cons first rest => simp

/-- One more result does not touch the record of another file. -/
theorem get?_insertAt (m : LedgerMap) (p : Path) (r : Record) (key : List Component) :
    ∃ writtenAs, (m.insertAt p r).get? key
      = if key = p.components then some ⟨writtenAs, r⟩ else m.get? key := by
  unfold LedgerMap.insertAt
  exact ⟨_, Keyed.get?_insert _ _ _ _⟩

/-- A file that was asked for once has the record that the pass was given for it. -/
theorem get?_conversions {results : List (Path × Except Error Record)}
    (hnodup : (results.map fun result => result.1.components).Nodup) {p : Path} {r : Record}
    (hmem : (p, .ok r) ∈ results) :
    ∃ writtenAs, (conversions results).get? p.components = some ⟨writtenAs, r⟩ := by
  -- Later results are about other files.
  have later (rest : List (Path × Except Error Record)) (m : LedgerMap)
      (hrest : p.components ∉ rest.map fun result => result.1.components) :
      (rest.foldl addResult m).get? p.components = m.get? p.components := by
    induction rest generalizing m with
    | nil => rfl
    | cons result rest ih =>
      rw [List.map_cons, List.mem_cons, not_or] at hrest
      rw [List.foldl_cons, ih _ hrest.2]
      unfold addResult
      split
      · next r' _ =>
        obtain ⟨writtenAs, hget⟩ := get?_insertAt m result.1 r' p.components
        exact hget.trans (if_neg hrest.1)
      · rfl
  obtain ⟨before, after, rfl⟩ := List.append_of_mem hmem
  rw [List.map_append, List.map_cons, List.nodup_append, List.nodup_cons] at hnodup
  rw [conversions, List.foldl_append, List.foldl_cons, later after _ hnodup.2.1.1]
  obtain ⟨writtenAs, hget⟩ := get?_insertAt (before.foldl addResult Keyed.empty) p r p.components
  exact ⟨writtenAs, hget.trans (if_pos rfl)⟩

/-! ### The candidate -/

/-- What a candidate is made of, whether or not the pass could have been called off. -/
theorem of_assemble {t : LiveTable} {fs : Files} {calledOff : Checkpoint → Bool} {layout : Layout}
    {results : List (Path × Except Error Record)} {s : Snapshot}
    (h : t.assemble fs calledOff layout results = .ok s) :
    (∀ result ∈ results, ∃ r, result.2 = .ok r) ∧
      ∃ partitions columns,
        layout.partitions.mapM (t.selectPartition (conversions results)) = .ok partitions ∧
        t.columns fs layout.keys partitions = .ok columns ∧
        Snapshot.build layout.keys partitions (conversions results) columns fs.clock = s := by
  unfold assemble at h
  obtain ⟨-, -, h⟩ := Outcome.bind_eq_ok.mp h
  obtain ⟨m, hm, h⟩ := Outcome.bind_eq_ok.mp h
  obtain ⟨partitions, hpartitions, h⟩ := Outcome.bind_eq_ok.mp h
  obtain ⟨-, -, h⟩ := Outcome.bind_eq_ok.mp h
  obtain ⟨columns, hcolumns, h⟩ := Outcome.bind_eq_ok.mp h
  obtain ⟨-, -, h⟩ := Outcome.bind_eq_ok.mp h
  obtain ⟨hall, rfl⟩ := allConverted_eq_ok.mp hm
  cases h
  exact ⟨hall, partitions, columns, hpartitions, hcolumns, rfl⟩

/-- What the candidate of a pass that nobody calls off is made of. -/
theorem assemble_eq_ok {t : LiveTable} {fs : Files} {layout : Layout}
    {results : List (Path × Except Error Record)} {s : Snapshot} :
    t.assemble fs uninterrupted layout results = .ok s ↔
      (∀ result ∈ results, ∃ r, result.2 = .ok r) ∧
      ∃ partitions columns,
        layout.partitions.mapM (t.selectPartition (conversions results)) = .ok partitions ∧
        t.columns fs layout.keys partitions = .ok columns ∧
        Snapshot.build layout.keys partitions (conversions results) columns fs.clock = s := by
  have hon (point : Checkpoint) : unlessCalledOff uninterrupted point = .ok () := rfl
  refine ⟨of_assemble, ?_⟩
  rintro ⟨hall, partitions, columns, hpartitions, hcolumns, rfl⟩
  unfold assemble
  refine Outcome.bind_eq_ok.mpr ⟨(), hon .converted, ?_⟩
  refine Outcome.bind_eq_ok.mpr ⟨_, allConverted_eq_ok.mpr ⟨hall, rfl⟩, ?_⟩
  refine Outcome.bind_eq_ok.mpr ⟨partitions, hpartitions, ?_⟩
  refine Outcome.bind_eq_ok.mpr ⟨(), hon .selected, ?_⟩
  refine Outcome.bind_eq_ok.mpr ⟨columns, hcolumns, ?_⟩
  exact Outcome.bind_eq_ok.mpr ⟨(), hon .built, rfl⟩

/-! ### What a pass leaves -/

section

variable {t t' : LiveTable} {w w' : Workspace} {fs fs' : Files} {wasStale : Bool}
  {built : Except Error Snapshot}

/-- Either there was no candidate, and the snapshot stays, or the snapshot is the candidate or one that
shows the same, and the ledger is saved if it can be. -/
theorem finishPass_cases {outcome : Except Error Bool}
    (h : t.finishPass w fs wasStale built = (outcome, t', w', fs')) :
    t'.origin = t.origin ∧
      ((∃ e, built = .error e ∧ outcome = .error e ∧ t'.current = t.current ∧ (w', fs') = (w, fs)) ∨
        ∃ s swapped, built = .ok s ∧ outcome = .ok swapped ∧
          (t'.current = s ∨ t'.current = t.current ∧ t.current.sameContent s = true) ∧
          (w', fs') = w.trySave fs) := by
  unfold finishPass at h
  cases built with
  | error e =>
    cases h
    exact ⟨rfl, .inl ⟨e, rfl, rfl, rfl, rfl⟩⟩
  | ok s =>
    unfold endPass at h
    cases hsame : t.current.sameContent s with
    | true =>
      simp only [hsame, if_true] at h
      cases h
      exact ⟨rfl, .inr ⟨s, _, rfl, rfl, .inr ⟨rfl, hsame⟩, rfl⟩⟩
    | false =>
      simp only [hsame] at h
      cases h
      exact ⟨rfl, .inr ⟨s, _, rfl, rfl, .inl rfl, rfl⟩⟩

/-- After a pass that has succeeded there was a candidate, and the snapshot is that or one that shows
the same. -/
theorem current_of_finishPass {swapped : Bool}
    (h : t.finishPass w fs wasStale built = (.ok swapped, t', w', fs')) :
    ∃ s, built = .ok s ∧
      (t'.current = s ∨ t'.current = t.current ∧ t.current.sameContent s = true) := by
  obtain ⟨-, ⟨e, -, houtcome, -⟩ | ⟨s, -, hs, -, hcurrent, -⟩⟩ := finishPass_cases h
  · cases houtcome
  · exact ⟨s, hs, hcurrent⟩

end

end LiveTable

/-! ### Snapshots that show the same -/

/-- Snapshots that show the same hold records that agree. -/
theorem Snapshot.record_of_sameContent {a b : Snapshot} (h : a.sameContent b = true)
    {key : List Component} {e : LedgerEntry} (he : b.conversions.get? key = some e) :
    ∃ e', a.conversions.get? key = some e' ∧ e'.record.same e.record = true := by
  have hconversions : Snapshot.sameConversions a.conversions b.conversions = true := by
    simp only [sameContent, Bool.and_eq_true] at h
    exact h.1.2
  rw [sameConversions, Bool.and_eq_true, beq_iff_eq] at hconversions
  obtain ⟨hkeys, hvalues⟩ := hconversions
  -- Both maps hold the same keys at the same places.
  have places (as bs : List (List Component × LedgerEntry))
      (hkeys : as.map Prod.fst = bs.map Prod.fst)
      (hvalues : ((as.map Prod.snd).zip (bs.map Prod.snd)).all
        (fun pair => pair.1.record.same pair.2.record) = true)
      (he : Keyed.lookup key bs = some e) :
      ∃ e', Keyed.lookup key as = some e' ∧ e'.record.same e.record = true := by
    induction bs generalizing as with
    | nil => cases he
    | cons b bs ih =>
      cases as with
      | nil => cases hkeys
      | cons a as =>
        simp only [List.map_cons, List.cons.injEq, List.zip_cons_cons, List.all_cons,
          Bool.and_eq_true] at hkeys hvalues
        rw [Keyed.lookup] at he
        rw [Keyed.lookup, hkeys.1]
        split at he
        · next hkey =>
          cases he
          exact ⟨a.2, if_pos hkey, hvalues.1⟩
        · next hkey =>
          rw [if_neg hkey]
          exact ih as hkeys.2 hvalues.2 he
  exact places _ _ hkeys hvalues he

end SourceTables
