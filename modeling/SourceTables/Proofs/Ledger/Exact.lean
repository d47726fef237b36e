import SourceTables.Proofs.Ledger.Filed

/-!
# `SourceTables.Proofs.Ledger.Exact`: what a pruning removes, and what it deletes

A pruning asks about each record, then removes those that are not to be kept, one after another, each with its
artifacts. Nothing that goes wrong with a file stops it. What it removes is told by the answers alone, so the
records that are left do not depend on the files; and of the files nothing is gone but artifacts of removed
records.

It deletes path by path, and a path that leads to a file when the pruning begins may lead nowhere when its turn
comes: an artifact may be a link to a directory, and another one lie behind that link. So the files that stay
are not those that could not be deleted at first, but those behind a link that was deleted before them.

The theorems:

* `run_rejected`: every record is asked about once, in order.
* `Reached.proper`: what holds of a ledger after any calls.
* `not_removeFile_of_tried`: a path that was tried leads to nothing more that could be removed.
* `prune_exact`: what a pruning comes to.
* `kept_behind_link`: an artifact that stays because the link to it is deleted first.
-/

set_option autoImplicit false

namespace SourceTables.Ledger

open LedgerMap (FiledEntry Filed)

variable {l : Ledger} {fs : Files} {dir artifactDir : Path}

/-! ### Answers -/

section

variable {σ : Type} (retain : Record → StateM σ Bool)

/-- The records that are not to be kept, going by the answers for all of them. -/
def rejects (records : List Record) (answers : List Bool) : List Record :=
  ((records.zip answers).filter fun e => !e.2).map Prod.fst

/-- The answers for all records, one after another. -/
def answersFor (records : List Record) (s : σ) : List Bool × σ := (records.mapM retain).run s

theorem answersFor_cons (r : Record) (rest : List Record) (s : σ) :
    answersFor retain (r :: rest) s
      = (((retain r).run s).1 :: (answersFor retain rest ((retain r).run s).2).1,
          (answersFor retain rest ((retain r).run s).2).2) := by
  unfold answersFor
  rw [List.mapM_cons]
  rfl

/-- There is one answer for each record. -/
theorem length_answersFor (records : List Record) (s : σ) :
    (answersFor retain records s).1.length = records.length := by
  induction records generalizing s with
  | nil => rfl
  | cons r rest ih => rw [answersFor_cons, List.length_cons, List.length_cons, ih]

/-- Every record is asked about once, in order, and those are taken that are not to be kept. -/
theorem run_rejected (records : List Record) (s : σ) :
    (rejected retain records).run s
      = (rejects records (answersFor retain records s).1, (answersFor retain records s).2) := by
  induction records generalizing s with
  | nil => rfl
  | cons r rest ih =>
    have hstep : (rejected retain (r :: rest)).run s
        = (if ((retain r).run s).1 then ((rejected retain rest).run ((retain r).run s).2).1
            else r :: ((rejected retain rest).run ((retain r).run s).2).1,
          ((rejected retain rest).run ((retain r).run s).2).2) := rfl
    rw [hstep, answersFor_cons, ih]
    cases hanswer : ((retain r).run s).1 <;> simp [rejects]

/-- What a pruning comes to, once the answers are known. -/
theorem run_pruneBy (l : Ledger) (fs : Files) (artifactDir : Path) (s : σ) :
    (l.pruneBy fs artifactDir retain).run s
      = (((rejects l.records.recordList (answersFor retain l.records.recordList s).1).map Record.path).foldl
          (pruneOne artifactDir) ([], l, fs), (answersFor retain l.records.recordList s).2) := by
  have hrun : (l.pruneBy fs artifactDir retain).run s
      = ((((rejected retain l.records.recordList).run s).1.map Record.path).foldl
          (pruneOne artifactDir) ([], l, fs), ((rejected retain l.records.recordList).run s).2) := rfl
  rw [hrun, run_rejected]

end

/-! ### Ledgers after any calls -/

/-- A ledger after any calls, also prunings with judgements that remember. The files may be any at each. -/
inductive Reached (dir : Path) : Ledger → Prop
  | opened : Reached dir (initial dir)
  | call {l : Ledger} (fs : Files) (c : Call) : Reached dir l → Reached dir (l.call fs c).2.1
  | pruned {l : Ledger} {σ : Type} (fs : Files) (artifactDir : Path) (retain : Record → StateM σ Bool) (s : σ) :
    Reached dir l → Reached dir ((l.pruneBy fs artifactDir retain).run s).1.2.1

/-- What holds of every ledger: records are in order, and no change was saved that there has not been. -/
structure Proper (l : Ledger) : Prop where
  sorted : l.records.Sorted
  counts : l.saved ≤ l.generation

namespace Proper

theorem remove (h : Proper l) (p : Path) : Proper (l.remove p).2 := by
  obtain ⟨r, -, hremove⟩ | ⟨-, hremove⟩ := l.remove_cases p
  · rw [hremove]
    exact ⟨h.sorted.sublist List.filter_sublist, Nat.le_succ_of_le h.counts⟩
  · rw [hremove]
    exact h

/-- Removing records with their artifacts changes the ledger as removing them does. -/
theorem foldl_pruneOne (paths : List Path) {state : List Record × Ledger × Files} (h : Proper state.2.1) :
    Proper (paths.foldl (pruneOne artifactDir) state).2.1 := by
  induction paths generalizing state with
  | nil => exact h
  | cons p rest ih =>
    refine ih ?_
    obtain ⟨removed, l, fs⟩ := state
    have hone := h.remove p
    unfold pruneOne
    dsimp only at hone ⊢
    split <;> next hremove => rw [hremove] at hone; exact hone

theorem call (h : Proper l) (fs : Files) (c : Call) : Proper (l.call fs c).2.1 := by
  refine ⟨sorted_call h.sorted fs c, ?_⟩
  cases c with
  | get p | lookup f => exact h.counts
  | record r => exact Nat.le_succ_of_le h.counts
  | remove p => exact (h.remove p).counts
  | prune artifactDir keep =>
    show (l.prune fs artifactDir keep).2.1.saved ≤ (l.prune fs artifactDir keep).2.1.generation
    rw [prune_eq]
    exact (foldl_pruneOne _ h).counts
  | load =>
    show (l.load fs).2.saved ≤ (l.load fs).2.generation
    obtain ⟨m, -, -, hload⟩ | ⟨-, hload⟩ := l.load_cases fs
    · rw [hload]
      exact Nat.le_refl _
    · rw [hload]
      exact h.counts
  | persist passing write =>
    show (l.persist passing write fs).2.1.saved ≤ (l.persist passing write fs).2.1.generation
    unfold persist
    dsimp only
    split
    · exact Nat.le_refl _
    · exact h.counts

end Proper

/-- Every ledger is proper. -/
theorem Reached.proper (h : Reached dir l) : Proper l := by
  induction h with
  | opened => exact ⟨Keyed.sorted_empty, Nat.le_refl _⟩
  | call fs c _ ih => exact ih.call fs c
  | pruned fs artifactDir retain s _ ih =>
    rw [run_pruneBy]
    exact ih.foldl_pruneOne _

/-! ### Paths that were tried -/

/-- After one try a path leads to nothing that could be removed. -/
theorem not_removeFile_of_tryRemove (fs : Files) (p : Path) :
    ∀ left, (tryRemove fs p).removeFile p ≠ .ok left := by
  intro left
  unfold tryRemove
  cases hremove : fs.removeFile p with
  | error e =>
    intro h
    cases hremove.symm.trans h
  | ok fs' => exact Files.not_removeFile_again hremove left

/-- After all paths were tried none of them leads to anything that could be removed. -/
theorem not_removeFile_of_tried (paths : List Path) (fs : Files) :
    ∀ p ∈ paths, ∀ left, (paths.foldl tryRemove fs).removeFile p ≠ .ok left := by
  induction paths generalizing fs with
  | nil => nofun
  | cons p rest ih =>
    intro q hq
    obtain rfl | hq := List.mem_cons.mp hq
    · have hlater : Files.Thinned Set.univ (tryRemove fs q) (rest.foldl tryRemove (tryRemove fs q)) :=
        thinned_foldl_tryRemove (.refl _ _) fun _ _ location _ _ => Set.mem_univ location
      exact hlater.not_removed (not_removeFile_of_tryRemove fs q)
    · exact ih _ q hq

/-! ### What a pruning comes to -/

/-- What a pruning comes to, going by the answers for all records: what is removed, the ledger and the files. -/
structure PrunedBy (l : Ledger) (fs : Files) (artifactDir : Path) (answers : List Bool)
    (outcome : List Record × Ledger × Files) : Prop where
  /-- Exactly the rejected records are removed, in their order. -/
  removed : outcome.1 = rejects l.records.recordList answers
  /-- Every other record is as it was. -/
  kept : outcome.2.1.records.entries = l.records.entries.filter fun e => e.2.record ∉ outcome.1
  dir : outcome.2.1.dir = l.dir
  dirty : outcome.2.1.isDirty = true ↔ l.isDirty = true ∨ outcome.1 ≠ []
  /-- Nothing is gone but artifacts of removed records that lie in the directory, and nothing else is changed. -/
  tree : Files.Thinned (artifactPlaces fs artifactDir outcome.1) fs outcome.2.2
  /-- What could be removed there is gone, unless the path to it crosses a link that is gone. -/
  deleted : ∀ p ∈ artifactPaths artifactDir outcome.1, ∀ location node,
    fs.resolve p false = .ok (.taken location node) → node ≠ .directory →
      outcome.2.2.node? location = none ∨ ∃ link ∈ artifactPlaces fs artifactDir outcome.1,
        fs.CrossedBy p link ∧ outcome.2.2.node? link = none
  /-- Their paths lead to nothing more that could be removed. -/
  spent : ∀ p ∈ artifactPaths artifactDir outcome.1, ∀ left, outcome.2.2.removeFile p ≠ .ok left

/-- Records are in the order of their paths if each is filed under its own. -/
theorem pairwise_recordList (hsorted : l.records.Sorted) (hfiled : l.records.Filed) :
    l.records.recordList.Pairwise fun r r' => r.path.order r'.path = .lt := by
  refine List.pairwise_map.mpr (List.pairwise_map.mpr (List.Pairwise.imp_of_mem ?_ hsorted))
  intro e e' he he' hlt
  rw [hfiled e he, hfiled e' he'] at hlt
  exact hlt

/-- A pruning of records that are filed under their own paths. -/
theorem prunedBy_of_filed (h : Proper l) (hfiled : l.records.Filed) (fs : Files) (artifactDir : Path)
    {answers : List Bool} (hlength : answers.length = l.records.recordList.length) :
    PrunedBy l fs artifactDir answers
      (((rejects l.records.recordList answers).map Record.path).foldl (pruneOne artifactDir) ([], l, fs)) := by
  -- The rejected records are those of some of the entries, in order.
  obtain ⟨doomed, hsub, hrecords⟩ : ∃ doomed : List (List Component × LedgerEntry),
      doomed.Sublist l.records.entries ∧
        rejects l.records.recordList answers = doomed.map fun e => e.2.record := by
    refine ⟨((l.records.entries.zip answers).filter fun e => !e.2).map Prod.fst, ?_, ?_⟩
    · refine (List.filter_sublist.map Prod.fst).trans ?_
      rw [LedgerMap.recordList, Keyed.values, List.length_map, List.length_map] at hlength
      rw [List.map_fst_zip hlength.ge]
    · rw [rejects, LedgerMap.recordList, Keyed.values, List.map_map, List.zip_map_left, List.filter_map,
        List.map_map, List.map_map]
      rfl
  have hkeys : (doomed.map Prod.fst).Nodup := (Keyed.nodup_keys h.sorted).sublist (hsub.map _)
  have hget : ∀ e ∈ doomed, l.records.get? e.1 = some e.2 := fun e he =>
    (Keyed.get?_eq_some_iff h.sorted).mpr (hsub.subset he)
  obtain ⟨l', hfold, hentries, hdir, hsaved, hcount⟩ := foldl_pruneOne artifactDir
    (fun e he => hfiled e (hsub.subset he)) hkeys hget [] fs
  have houtcome : ((rejects l.records.recordList answers).map Record.path).foldl (pruneOne artifactDir)
      ([], l, fs) = (doomed.map fun e => e.2.record, l',
        (doomed.map fun e => e.2.record).foldl (deleteArtifacts artifactDir) fs) := by
    rw [hrecords, List.map_map]
    exact hfold
  rw [houtcome]
  have htree := thinned_deleteArtifacts fs artifactDir (doomed.map fun e => e.2.record)
  have hspent := not_removeFile_of_tried (artifactPaths artifactDir (doomed.map fun e => e.2.record)) fs
  rw [← foldl_deleteArtifacts] at hspent
  refine ⟨hrecords.symm, ?_, hdir, ?_, htree, fun p hp location node hresolve hnode => ?_, hspent⟩
  · rw [hentries]
    refine List.filter_congr fun e he => ?_
    -- Entries with the same record have the same key, and so are the same.
    have hsame : e.1 ∈ doomed.map Prod.fst ↔ e.2.record ∈ doomed.map fun e => e.2.record := by
      constructor
      · intro hkey
        obtain ⟨e', he', hkeySame⟩ := List.mem_map.mp hkey
        have hentry := List.inj_on_of_nodup_map (Keyed.nodup_keys h.sorted) (hsub.subset he') he hkeySame
        exact List.mem_map.mpr ⟨e', he', by rw [hentry]⟩
      · intro hrecord
        obtain ⟨e', he', hrecordSame⟩ := List.mem_map.mp hrecord
        refine List.mem_map.mpr ⟨e', he', ?_⟩
        rw [hfiled e he, hfiled e' (hsub.subset he'), hrecordSame]
    simp only [hsame]
  · have hcounts := h.counts
    have hnone : doomed.map (fun e => e.2.record) ≠ [] ↔ 0 < doomed.length := by
      rw [ne_eq, List.map_eq_nil_iff, List.length_pos_iff]
    rw [hnone]
    simp only [isDirty, bne_iff_ne, hsaved, hcount]
    omega
  · exact htree.gone_or_crossed hresolve hnode (hspent p hp)

/-- A pruning asks about every record once, in the order of their paths, whatever it is told to remember. It
removes and returns in that order exactly the rejected records, leaves every other one as it was, and is a
change just when it removes something. It deletes nothing but artifacts of removed records that lie in the
directory, and each of them that could be removed unless its path crosses a link that is one of them and is
gone; and afterwards none of their paths leads to anything that could be removed. -/
theorem prune_exact (h : Reached dir l) (hfiled : l.records.Filed) (fs : Files) (artifactDir : Path) {σ : Type}
    (retain : Record → StateM σ Bool) (s : σ) :
    (l.records.recordList.Pairwise fun r r' => r.path.order r'.path = .lt) ∧
    ∃ answers s' outcome, (l.records.recordList.mapM retain).run s = (answers, s') ∧
      answers.length = l.records.recordList.length ∧
      (l.pruneBy fs artifactDir retain).run s = (outcome, s') ∧
      PrunedBy l fs artifactDir answers outcome := by
  have hlength := length_answersFor retain l.records.recordList s
  exact ⟨pairwise_recordList h.proper.sorted hfiled, _, _, _, rfl, hlength,
    run_pruneBy retain l fs artifactDir s, prunedBy_of_filed h.proper hfiled fs artifactDir hlength⟩

/-- A judgement that keeps every other record. -/
def everyOther : Record → StateM Nat Bool := fun _ => modifyGet fun n => (n % 2 == 1, n + 1)

/-- A ledger in which `y` and `z` were recorded. -/
def twoRecorded : Ledger := (((initial ⟨"d"⟩).record (recordOf "z")).2.record (recordOf "y")).2

/-- Of two records the first one is removed with its artifact, and both were asked about. -/
theorem prune_everyOther :
    Reached ⟨"d"⟩ twoRecorded ∧ twoRecorded.records.Filed ∧
      ∃ outcome, (twoRecorded.pruneBy (filesWith []) ⟨"a"⟩ everyOther).run 0 = (outcome, 2) ∧
        outcome.1 = [recordOf "y"] ∧ outcome.2.1.isDirty = true ∧
        outcome.2.2.node? ["a", "z.parquet"] = some (.file [] 1) := by
  have hreached : Reached ⟨"d"⟩ twoRecorded :=
    .call (filesWith []) (.record (recordOf "y")) (.call (filesWith []) (.record (recordOf "z")) .opened)
  have hfiled : twoRecorded.records.Filed := by
    unfold LedgerMap.Filed LedgerMap.FiledEntry
    decide
  obtain ⟨-, answers, s', outcome, hanswers, -, hrun, h⟩ :=
    prune_exact hreached hfiled (filesWith []) ⟨"a"⟩ everyOther 0
  have hasked : answersFor everyOther twoRecorded.records.recordList 0 = ([false, true], 2) := by decide
  cases hasked.symm.trans hanswers
  have hremoved : outcome.1 = [recordOf "y"] := h.removed.trans (by decide)
  refine ⟨hreached, hfiled, outcome, hrun, hremoved, h.dirty.mpr (.inr (by rw [hremoved]; nofun)), ?_⟩
  have hplace : ["a", "z.parquet"] ∉ artifactPlaces (filesWith []) ⟨"a"⟩ outcome.1 := by
    rintro ⟨r, hr, a, ha, -, node, hresolve⟩
    rw [hremoved] at hr
    obtain rfl := List.mem_singleton.mp hr
    obtain rfl := List.mem_singleton.mp ha
    have hvacant : (filesWith []).resolve ⟨"a/y.parquet"⟩ false = .ok (.vacant ["a", "y.parquet"]) := rfl
    cases hvacant.symm.trans hresolve
  exact (h.tree.agreesOff.node _ hplace).trans (by decide)

/-- A record whose first artifact is a link in `a` to the directory `r`, and whose second one is a file
behind this link. -/
def linkedRecord : Record :=
  { sampleRecord with
    source := { sampleRecord.source with path := ⟨"y"⟩ }
    primary := { sampleRecord.primary with path := ⟨"a/l"⟩ }
    additional := [{ sampleRecord.primary with path := ⟨"a/l/x"⟩ }] }

/-- A tree with the link and the file. -/
def filesBehindLink : Files where
  nodes := ⟨[(["a"], .directory), (["a", "l"], .link ⟨"../r"⟩), (["r"], .directory), (["r", "x"], .file [] 1)]⟩
  home := []
  clock := 2

/-- The file could be removed by its path, but the link is deleted first: the file stays. -/
theorem kept_behind_link :
    ∃ l : Ledger, Reached ⟨"d"⟩ l ∧ l.records.Filed ∧
      ∃ outcome, (l.pruneBy filesBehindLink ⟨"a"⟩ fun _ => (pure false : StateM Unit Bool)).run () = (outcome, ()) ∧
        outcome.1 = [linkedRecord] ∧ ⟨"a/l/x"⟩ ∈ artifactPaths ⟨"a"⟩ outcome.1 ∧
        (∃ left, filesBehindLink.removeFile ⟨"a/l/x"⟩ = .ok left ∧ left.isFile ⟨"r/x"⟩ = false) ∧
        outcome.2.2.isFile ⟨"r/x"⟩ = true := by
  have hreached : Reached ⟨"d"⟩ ((initial ⟨"d"⟩).record linkedRecord).2 :=
    .call filesBehindLink (.record linkedRecord) .opened
  refine ⟨_, hreached, ?_, _, rfl, ?_, ?_, ⟨_, rfl, ?_⟩, ?_⟩
  · unfold LedgerMap.Filed LedgerMap.FiledEntry
    decide
  all_goals decide +kernel

end SourceTables.Ledger
