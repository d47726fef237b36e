import Mathlib.Data.List.Nodup
import SourceTables.Proofs.Files.Removal
import SourceTables.Proofs.Ledger.Calls

/-!
# `SourceTables.Proofs.Ledger.Filed`: records under the paths of their sources

A ledger document tells the path of a source twice: as the key of a record, and in the record itself.
Recording a conversion files it under the path that it tells. Loading a document does not compare the two, so
a ledger has records under other paths just when a document had them; and since `prune` judges records by what
they tell, but removes what is filed under the path that they tell, it goes wrong for these.

The theorems:

* `filed_of_call`: where the entries of a ledger come from after a call.
* `Pruned.of_filed`: what `prune` does when every record is filed under its own path.
* `filed_of_history`: both after any calls.
* `not_pruned_of_history`: a document with a record under another path, and what becomes of others.
-/

set_option autoImplicit false

namespace SourceTables

/-- Whether an entry stands under the path that its record tells. -/
def LedgerMap.FiledEntry (e : List Component × LedgerEntry) : Prop := e.1 = e.2.record.path.components

/-- Whether every record is filed under its own path. -/
def LedgerMap.Filed (m : LedgerMap) : Prop := ∀ e ∈ m.entries, FiledEntry e

namespace Ledger

open LedgerMap (FiledEntry Filed)

variable {l : Ledger} {fs fs' : Files} {dir artifactDir : Path} {keep : Record → Bool}

/-! ### Where entries come from -/

/-- Records stay in order, and what is new is filed under the path that it tells. -/
theorem filed_insertAt {m : LedgerMap} {r : Record} {e : List Component × LedgerEntry}
    (he : e ∈ (m.insertAt r.path r).entries) : FiledEntry e ∨ e ∈ m.entries := by
  unfold LedgerMap.insertAt at he
  obtain rfl | he := Keyed.mem_insert he
  · exact .inl rfl
  · exact .inr he

/-- Removing a record adds nothing. -/
theorem entries_remove_sublist (l : Ledger) (p : Path) :
    (l.remove p).2.records.entries.Sublist l.records.entries := by
  obtain ⟨r, -, hremove⟩ | ⟨-, hremove⟩ := l.remove_cases p
  · rw [hremove]
    exact List.filter_sublist
  · rw [hremove]

/-- Removing records adds nothing. -/
theorem entries_prune_sublist (l : Ledger) (fs : Files) (artifactDir : Path) (keep : Record → Bool) :
    (l.prune fs artifactDir keep).2.1.records.entries.Sublist l.records.entries := by
  rw [prune_eq]
  generalize (l.records.recordList.filter fun r => !keep r).map Record.path = paths
  -- However many were removed already, what is left only gets less.
  suffices h : ∀ state : List Record × Ledger × Files,
      (paths.foldl (pruneOne artifactDir) state).2.1.records.entries.Sublist state.2.1.records.entries by
    exact h ([], l, fs)
  induction paths with
  | nil => exact fun state => List.Sublist.refl _
  | cons p rest ih =>
    intro state
    refine (ih _).trans ?_
    have hone := state.2.1.entries_remove_sublist p
    unfold pruneOne
    obtain ⟨removed, l, fs⟩ := state
    dsimp only at hone ⊢
    split <;> next hremove => rw [hremove] at hone; exact hone

/-! ### Removing records -/

/-- Records that are filed under their own paths are removed one after another, each with its artifacts. -/
theorem foldl_pruneOne (artifactDir : Path) {doomed : List (List Component × LedgerEntry)}
    (hfiled : ∀ e ∈ doomed, FiledEntry e)
    (hkeys : (doomed.map Prod.fst).Nodup) (hget : ∀ e ∈ doomed, l.records.get? e.1 = some e.2)
    (removed : List Record) (fs : Files) :
    ∃ l', (doomed.map fun e => e.2.record.path).foldl (pruneOne artifactDir) (removed, l, fs)
        = (removed ++ doomed.map fun e => e.2.record, l',
          (doomed.map fun e => e.2.record).foldl (deleteArtifacts artifactDir) fs) ∧
      l'.records.entries = (l.records.entries.filter fun e => e.1 ∉ doomed.map Prod.fst) ∧
      l'.dir = l.dir ∧ l'.saved = l.saved ∧ l'.generation = l.generation + doomed.length := by
  induction doomed generalizing l removed fs with
  | nil =>
    refine ⟨l, by simp, ?_, rfl, rfl, rfl⟩
    simp
  | cons e rest ih =>
    obtain ⟨hother, hrest⟩ := List.nodup_cons.mp hkeys
    have hown : e.2.record.path.components = e.1 := (hfiled e (.head _)).symm
    have hfound : l.get? e.2.record.path = some e.2.record := by
      rw [Ledger.get?, hown, hget e (.head _)]
      rfl
    have hone : pruneOne artifactDir (removed, l, fs) e.2.record.path
        = (removed ++ [e.2.record], { l with records := l.records.erase e.1 }.bump,
          deleteArtifacts artifactDir fs e.2.record) := by
      simp only [pruneOne, Ledger.remove, hfound, hown]
    -- The entries that are still to be removed are all there.
    have hleft : ∀ e' ∈ rest, (l.records.erase e.1).get? e'.1 = some e'.2 := by
      intro e' he'
      rw [Keyed.get?_erase, if_neg, hget e' (.tail _ he')]
      intro hsame
      exact hother (hsame ▸ List.mem_map_of_mem he')
    obtain ⟨l', hfold, hentries, hdir, hsaved, hcount⟩ :=
      ih (l := { l with records := l.records.erase e.1 }.bump)
        (fun e' he' => hfiled e' (.tail _ he')) hrest hleft (removed ++ [e.2.record])
        (deleteArtifacts artifactDir fs e.2.record)
    refine ⟨l', ?_, ?_, hdir, hsaved, ?_⟩
    · rw [List.map_cons, List.foldl_cons, hone, hfold]
      simp
    · rw [hentries]
      show (Keyed.without e.1 l.records.entries).filter _ = _
      rw [Keyed.without, List.filter_filter]
      refine List.filter_congr fun x _ => ?_
      by_cases hx : x.1 = e.1 <;> simp [hx]
    · rw [hcount, List.length_cons]
      show l.generation + 1 + rest.length = l.generation + (rest.length + 1)
      omega

/-- The places of those artifacts of records that lie in a directory. A link at the end is such a place
itself. -/
def artifactPlaces (fs : Files) (artifactDir : Path) (removed : List Record) : Set Location :=
  { location | ∃ r ∈ removed, ∃ a ∈ r.artifacts, a.path.startsWith artifactDir = true ∧
    ∃ node, fs.resolve a.path false = .ok (.taken location node) }

/-- The paths of those artifacts of records that lie in a directory, one record after another. -/
def artifactPaths (artifactDir : Path) (removed : List Record) : List Path :=
  removed.flatMap fun r => (r.artifacts.map ArtifactRef.path).filter fun p => p.startsWith artifactDir

/-- The artifacts of records are deleted path by path. -/
theorem foldl_deleteArtifacts (artifactDir : Path) (fs : Files) (removed : List Record) :
    removed.foldl (deleteArtifacts artifactDir) fs
      = (artifactPaths artifactDir removed).foldl tryRemove fs :=
  (List.foldl_flatMap ..).symm

/-- What a path leads to in what is left, it led to before. So it is enough to look at the tree as it was. -/
theorem thinned_foldl_tryRemove {places : Set Location} {paths : List Path}
    (h : Files.Thinned places fs fs') (hplaces : ∀ p ∈ paths, ∀ location node,
      fs.resolve p false = .ok (.taken location node) → location ∈ places) :
    Files.Thinned places fs (paths.foldl tryRemove fs') := by
  induction paths generalizing fs' with
  | nil => exact h
  | cons p rest ih =>
    refine ih ?_ fun q hq => hplaces q (.tail _ hq)
    unfold tryRemove
    cases hremove : fs'.removeFile p with
    | error e => exact h
    | ok left => exact h.removeFile hremove (hplaces p (.head _))

/-- Deleting the artifacts of records changes nothing but the places of these artifacts. -/
theorem thinned_deleteArtifacts (fs : Files) (artifactDir : Path) (removed : List Record) :
    Files.Thinned (artifactPlaces fs artifactDir removed) fs
      (removed.foldl (deleteArtifacts artifactDir) fs) := by
  rw [foldl_deleteArtifacts]
  refine thinned_foldl_tryRemove (.refl _ fs) fun p hp location node hresolve => ?_
  obtain ⟨r, hr, hp⟩ := List.mem_flatMap.mp hp
  obtain ⟨hp, hinside⟩ := List.mem_filter.mp hp
  obtain ⟨a, ha, rfl⟩ := List.mem_map.mp hp
  exact ⟨r, hr, a, ha, hinside, node, hresolve⟩

/-- What `prune` does: it removes exactly the records that are not to be kept, keeps all others, and deletes
nothing but artifacts of removed records that lie in the directory of artifacts. -/
structure Pruned (l : Ledger) (fs : Files) (artifactDir : Path) (keep : Record → Bool) : Prop where
  removed : (l.prune fs artifactDir keep).1 = l.records.recordList.filter fun r => !keep r
  kept : (l.prune fs artifactDir keep).2.1.records.entries
    = l.records.entries.filter fun e => keep e.2.record
  files : fs.AgreesOff
    (artifactPlaces fs artifactDir (l.records.recordList.filter fun r => !keep r))
    (l.prune fs artifactDir keep).2.2

/-- It does when every record is filed under its own path. -/
theorem Pruned.of_filed (hsorted : l.records.Sorted) (hfiled : l.records.Filed) (fs : Files)
    (artifactDir : Path) (keep : Record → Bool) : Pruned l fs artifactDir keep := by
  generalize hdoomed : (l.records.entries.filter fun e => !keep e.2.record) = doomed
  have hmem : ∀ e ∈ doomed, e ∈ l.records.entries := by
    intro e he
    rw [← hdoomed] at he
    exact (List.mem_filter.mp he).1
  have hkeys : (doomed.map Prod.fst).Nodup := by
    rw [← hdoomed]
    exact (Keyed.nodup_keys hsorted).sublist (List.filter_sublist.map _)
  have hget : ∀ e ∈ doomed, l.records.get? e.1 = some e.2 := fun e he =>
    (Keyed.get?_eq_some_iff hsorted).mpr (hmem e he)
  have hrecords : (l.records.recordList.filter fun r => !keep r) = doomed.map fun e => e.2.record := by
    rw [← hdoomed, LedgerMap.recordList, Keyed.values, List.map_map, List.filter_map]
    rfl
  obtain ⟨l', hprune, hentries, -⟩ := foldl_pruneOne artifactDir
    (fun e he => hfiled e (hmem e he)) hkeys hget [] fs
  have hrun : l.prune fs artifactDir keep = (doomed.map fun e => e.2.record, l',
      (doomed.map fun e => e.2.record).foldl (deleteArtifacts artifactDir) fs) := by
    rw [prune_eq, hrecords, List.map_map]
    exact hprune
  refine ⟨?_, ?_, ?_⟩
  · rw [hrun, hrecords]
  · rw [hrun]
    dsimp only
    rw [hentries]
    refine List.filter_congr fun e he => ?_
    -- No other entry has the key of one that is removed.
    have hsame : e.1 ∈ doomed.map Prod.fst ↔ keep e.2.record = false := by
      constructor
      · intro hkey
        obtain ⟨e', he', hkeySame⟩ := List.mem_map.mp hkey
        have hentry : e' = e := List.inj_on_of_nodup_map (Keyed.nodup_keys hsorted) (hmem e' he') he hkeySame
        rw [← hdoomed] at he'
        obtain ⟨-, hkeep⟩ := List.mem_filter.mp he'
        simpa [hentry] using hkeep
      · intro hkeep
        refine List.mem_map_of_mem ?_
        rw [← hdoomed]
        exact List.mem_filter.mpr ⟨he, by simp [hkeep]⟩
    simp [hsame]
  · rw [hrun, hrecords]
    exact (thinned_deleteArtifacts fs artifactDir _).agreesOff

/-! ### Histories -/

/-- The records that a call finds in the ledger file and puts in the place of all others. -/
def Call.found (l : Ledger) (fs : Files) : Call → List LedgerMap
  | .load => (l.fileRecords fs).toOption.toList
  | _ => []

/-- A ledger after any calls, with the records that its loads have found. The files may be any at each call:
the ledger's document may have been written by anyone, or by hand. -/
inductive History (dir : Path) : List LedgerMap → Ledger → Prop
  | opened : History dir [] (initial dir)
  | call {found : List LedgerMap} {l : Ledger} (fs : Files) (c : Call) :
    History dir found l → History dir (c.found l fs ++ found) (l.call fs c).2.1

/-- The records that a load finds become those of the ledger, and a load that finds none leaves it alone. -/
theorem load_cases (l : Ledger) (fs : Files) :
    (∃ m, Call.found l fs .load = [m] ∧ m.Writable ∧ (l.load fs).2 = l.install m) ∨
      (Call.found l fs .load = [] ∧ (l.load fs).2 = l) := by
  have hfound : Call.found l fs .load = (l.fileRecords fs).toOption.toList := rfl
  cases hrecords : l.fileRecords fs with
  | ok m =>
    have hload : l.load fs = (.ok m, l.install m) := by rw [load, hrecords]
    refine .inl ⟨m, by rw [hfound, hrecords]; rfl, (writable_of_load hload).1, congrArg Prod.snd hload⟩
  | error e =>
    have hload : l.load fs = (.error e, l) := by rw [load, hrecords]
    exact .inr ⟨by rw [hfound, hrecords]; rfl, congrArg Prod.snd hload⟩

/-- A save does not change the records. -/
theorem records_persist (l : Ledger) (passing : FileError → Bool) (write : Nat → Attempt) (fs : Files) :
    (l.persist passing write fs).2.1.records = l.records := by
  unfold persist
  dsimp only
  split <;> rfl

/-- Every entry after a call is filed under its own path, was there before, or was found in the file. -/
theorem filed_of_call (l : Ledger) (fs : Files) (c : Call) {e : List Component × LedgerEntry}
    (he : e ∈ (l.call fs c).2.1.records.entries) :
    FiledEntry e ∨ e ∈ l.records.entries ∨ ∃ m ∈ c.found l fs, e ∈ m.entries := by
  cases c with
  | get p => exact .inr (.inl he)
  | lookup f => exact .inr (.inl he)
  | record r => exact (filed_insertAt he).imp_right .inl
  | remove p => exact .inr (.inl ((l.entries_remove_sublist p).subset he))
  | prune artifactDir keep => exact .inr (.inl ((l.entries_prune_sublist fs artifactDir keep).subset he))
  | load =>
    change e ∈ (l.load fs).2.records.entries at he
    obtain ⟨m, hfound, -, hload⟩ | ⟨-, hload⟩ := l.load_cases fs
    · rw [hload] at he
      exact .inr (.inr ⟨m, hfound ▸ .head _, he⟩)
    · rw [hload] at he
      exact .inr (.inl he)
  | persist passing write =>
    change e ∈ (l.persist passing write fs).2.1.records.entries at he
    rw [records_persist] at he
    exact .inr (.inl he)

/-- Calls keep records in the order of their keys. -/
theorem sorted_call (h : l.records.Sorted) (fs : Files) (c : Call) :
    (l.call fs c).2.1.records.Sorted := by
  cases c with
  | get p => exact h
  | lookup f => exact h
  | record r => exact Keyed.sorted_insert h _ _
  | remove p => exact h.sublist (l.entries_remove_sublist p)
  | prune artifactDir keep => exact h.sublist (l.entries_prune_sublist fs artifactDir keep)
  | load =>
    show (l.load fs).2.records.Sorted
    obtain ⟨m, -, hm, hload⟩ | ⟨-, hload⟩ := l.load_cases fs
    · rw [hload]
      exact hm.sorted
    · rw [hload]
      exact h
  | persist passing write =>
    show (l.persist passing write fs).2.1.records.Sorted
    rw [records_persist]
    exact h

theorem History.sorted {found : List LedgerMap} (h : History dir found l) : l.records.Sorted := by
  induction h with
  | opened => exact Keyed.sorted_empty
  | call fs c _ ih => exact sorted_call ih fs c

/-- Every entry that is filed elsewhere was found so in a document. -/
theorem History.entries {found : List LedgerMap} (h : History dir found l)
    {e : List Component × LedgerEntry} (he : e ∈ l.records.entries) :
    FiledEntry e ∨ ∃ m ∈ found, e ∈ m.entries := by
  induction h with
  | opened => cases he
  | call fs c _ ih =>
    obtain hown | hbefore | ⟨m, hm, hmem⟩ := filed_of_call _ fs c he
    · exact .inl hown
    · obtain hown | ⟨m, hm, hmem⟩ := ih hbefore
      · exact .inl hown
      · exact .inr ⟨m, List.mem_append_right _ hm, hmem⟩
    · exact .inr ⟨m, List.mem_append_left _ hm, hmem⟩

/-- After any calls a record is filed under another path only if a document had it there. If no document had
one, every record is filed under its own path, and a later `prune` removes exactly the records that it is to
remove, with no artifacts but theirs. -/
theorem filed_of_history {found : List LedgerMap} (h : History dir found l) :
    (∀ e ∈ l.records.entries, FiledEntry e ∨ ∃ m ∈ found, e ∈ m.entries) ∧
      ((∀ m ∈ found, m.Filed) →
        l.records.Filed ∧ ∀ fs artifactDir keep, Pruned l fs artifactDir keep) := by
  refine ⟨fun e he => h.entries he, fun hfound => ?_⟩
  have hfiled : l.records.Filed := by
    intro e he
    obtain hown | ⟨m, hm, hmem⟩ := h.entries he
    · exact hown
    · exact hfound m hm e hmem
  exact ⟨hfiled, fun fs artifactDir keep => .of_filed h.sorted hfiled fs artifactDir keep⟩

/-- A ledger whose document was written from records has found these. -/
theorem History.loaded {m : LedgerMap} (hm : m.Writable)
    (h : fs.content (initial dir).file = .ok (Text.encodeUtf8 m.render)) :
    History dir [m] ((initial dir).install m) := by
  have hload := load_of_content hm h
  have hfound : Call.found (initial dir) fs .load = [m] := by
    obtain ⟨m', hfound, -, hinstall⟩ | ⟨-, hsame⟩ := (initial dir).load_cases fs
    · rw [hload] at hinstall
      have hrecords : m = m' := congrArg Ledger.records hinstall
      rw [hfound, hrecords]
    · rw [hload] at hsame
      have hcount : 0 + 1 = 0 := congrArg Ledger.generation hsame
      cases hcount
  have hopened : History dir [] (initial dir) := .opened
  have hcall := History.call fs .load hopened
  rwa [hfound, show ((initial dir).call fs .load).2.1 = ((initial dir).load fs).2 from rfl, hload] at hcall

/-- A record of a source with an artifact in `a`. -/
def recordOf (source : String) : Record :=
  { sampleRecord with
    source := { sampleRecord.source with path := ⟨source⟩ }
    primary := { sampleRecord.primary with path := ⟨"a/" ++ source ++ ".parquet"⟩ } }

theorem writable_recordOf (source : String) : (recordOf source).Writable := by
  have hsample := (writable_sample ⟨"d"⟩).record _ (.head _)
  refine ⟨⟨hsample.source.size, hsample.source.modified⟩, fun a ha => ?_, hsample.convertedAt, hsample.params⟩
  rw [List.mem_singleton.mp ha]
  exact hsample.artifacts sampleRecord.primary (.head _)

theorem writable_of_records {m : LedgerMap} (hsorted : m.Sorted)
    (hkeys : ∀ e ∈ m.entries, e.1 = e.2.writtenAs.components)
    (hrecords : ∀ e ∈ m.entries, ∃ source, e.2.record = recordOf source) : m.Writable := by
  refine ⟨hsorted, hkeys, fun e he => ?_⟩
  obtain ⟨source, hrecord⟩ := hrecords e he
  rw [hrecord]
  exact writable_recordOf source

/-- A tree with a ledger document in `d` and the artifact of `z` in `a`. -/
def filesWith (document : Bytes) : Files where
  nodes := ⟨[(["a"], .directory), (["a", "z.parquet"], .file [] 1), (["d"], .directory),
    (["d", ".conversions.json"], .file document 1)]⟩
  home := []
  clock := 2

theorem content_filesWith (document : Bytes) :
    (filesWith document).content (initial ⟨"d"⟩).file = .ok document := by
  rfl

/-- The records of `y` and `z`. -/
def wellFiled : LedgerMap :=
  ⟨[([.name "y"], ⟨⟨"y"⟩, recordOf "y"⟩), ([.name "z"], ⟨⟨"z"⟩, recordOf "z"⟩)]⟩

/-- When both are under their own paths, a `prune` that is to keep one of them removes the other. -/
theorem filed_wellFiled : History ⟨"d"⟩ [wellFiled] ((initial ⟨"d"⟩).install wellFiled) ∧
    (∀ m ∈ [wellFiled], m.Filed) ∧
    (((initial ⟨"d"⟩).install wellFiled).prune (filesWith (Text.encodeUtf8 wellFiled.render)) ⟨"a"⟩
      fun r => r == recordOf "z").1 = [recordOf "y"] := by
  have hwritable : wellFiled.Writable := by
    refine writable_of_records ?_ (by decide) (by simp [wellFiled])
    unfold Keyed.Sorted
    decide
  have hhistory := History.loaded hwritable (content_filesWith _)
  have hfiled : ∀ m ∈ [wellFiled], m.Filed := by
    intro m hm
    obtain rfl := List.mem_singleton.mp hm
    unfold LedgerMap.Filed LedgerMap.FiledEntry
    decide
  obtain ⟨-, hpruned⟩ := filed_of_history hhistory
  refine ⟨hhistory, hfiled, ?_⟩
  rw [((hpruned hfiled).2 _ ⟨"a"⟩ fun r => r == recordOf "z").removed]
  decide

/-! ### A document with records under other paths -/

/-- The record of `y` under `x`, and that of `z` under `y`. -/
def misfiled : LedgerMap :=
  ⟨[([.name "x"], ⟨⟨"x"⟩, recordOf "y"⟩), ([.name "y"], ⟨⟨"y"⟩, recordOf "z"⟩)]⟩

/-- A `prune` that is to keep the record of `z` alone removes just that one, with its artifact. -/
theorem not_pruned_of_history :
    ∃ (l : Ledger) (fs : Files), History ⟨"d"⟩ [misfiled] l ∧ ¬ l.records.Filed ∧
      (l.prune fs ⟨"a"⟩ fun r => r == recordOf "z").1 = [recordOf "z"] ∧
      (l.prune fs ⟨"a"⟩ fun r => r == recordOf "z").2.1.records.recordList = [recordOf "y"] ∧
      fs.isFile ⟨"a/z.parquet"⟩ = true ∧
      (l.prune fs ⟨"a"⟩ fun r => r == recordOf "z").2.2.isFile ⟨"a/z.parquet"⟩ = false := by
  have hwritable : misfiled.Writable := by
    refine writable_of_records ?_ (by decide) (by simp [misfiled])
    unfold Keyed.Sorted
    decide
  refine ⟨_, filesWith (Text.encodeUtf8 misfiled.render),
    History.loaded hwritable (content_filesWith _), ?_, ?_, ?_, ?_, ?_⟩
  · unfold LedgerMap.Filed LedgerMap.FiledEntry
    decide
  all_goals decide +kernel

end Ledger

end SourceTables
