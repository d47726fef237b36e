import SourceTables.Proofs.Files.Grow
import SourceTables.Proofs.Ledger.Document

/-!
# `SourceTables.Proofs.Ledger.RoundTrip`: a saved ledger is loaded as it was

Whatever a ledger file holds when it is accepted can be written again: its numbers have 64 bits, since
others are refused, and its parameters and paths are put in their order. What can be written and is saved
is what a new ledger of the directory loads, provided the file is found under its path. It is unless the
path of the directory leads through a link that bears the name of the ledger file, since a save puts the
file in the place of that link.

The theorems:

* `LedgerMap.writable_of_parse?`: what is read can be written.
* `exists_save_iff`: whether a save succeeds does not depend on the records.
* `exists_of_writeRecords`: the file is found where no link bears its name.
* `round_trip`: what is saved is loaded.
-/

set_option autoImplicit false

namespace SourceTables

open Json (Value)

/-! ### What is read can be written -/

/-- A number that is read has 64 bits. -/
theorem natural?_lt {v : Value} {n : Nat} (h : v.natural? = some n) : n < UInt64.size := by
  unfold Value.natural? at h
  split at h
  · split at h
    · split at h
      · next hlt =>
        cases h
        exact hlt
      · cases h
    · cases h
  · cases h

/-- A required number has 64 bits. -/
theorem required_natural?_lt {member : Option Value} {n : Nat}
    (h : Json.required Value.natural? member = some n) : n < UInt64.size := by
  obtain ⟨v, -, hv⟩ := Option.bind_eq_some_iff.mp h
  exact natural?_lt hv

namespace Fingerprint

/-- The numbers of a fingerprint that is read have 64 bits. -/
theorem fits64_of_ofValue? {v : Value} {f : Fingerprint} (h : ofValue? v = some f) : f.Fits64 := by
  unfold ofValue? at h
  obtain ⟨members, -, h⟩ := Option.bind_eq_some_iff.mp h
  split at h
  · simp only [Option.bind_eq_bind, Option.bind_eq_some_iff] at h
    obtain ⟨path, -, size, hsize, modified, hmodified, hash, -, h⟩ := h
    cases h
    exact ⟨required_natural?_lt hsize, required_natural?_lt hmodified⟩
  · cases h

/-- The numbers of a required fingerprint have 64 bits. -/
theorem fits64_of_required {member : Option Value} {f : Fingerprint}
    (h : Json.required ofValue? member = some f) : f.Fits64 := by
  obtain ⟨v, -, hv⟩ := Option.bind_eq_some_iff.mp h
  exact fits64_of_ofValue? hv

end Fingerprint

/-- The numbers of a reference that is read have 64 bits. -/
theorem ArtifactRef.fits64_of_ofValue? {v : Value} {a : ArtifactRef} (h : ofValue? v = some a) :
    a.fingerprint.Fits64 := by
  unfold ofValue? at h
  obtain ⟨members, -, h⟩ := Option.bind_eq_some_iff.mp h
  split at h
  · simp only [Option.bind_eq_bind, Option.bind_eq_some_iff] at h
    obtain ⟨table, -, path, -, fingerprint, hfingerprint, h⟩ := h
    cases h
    exact Fingerprint.fits64_of_required hfingerprint
  · cases h

/-- Parameters that are read are sorted. -/
theorem Params.sorted_of_ofValue? {v : Value} {p : Params} (h : Params.ofValue? v = some p) :
    p.Sorted := by
  unfold Params.ofValue? at h
  split at h
  · obtain ⟨pairs, -, rfl⟩ := Option.map_eq_some_iff.mp h
    exact Keyed.sorted_ofList _
  · cases h

/-- What is read of a record can be written. -/
theorem Record.writable_of_ofValue? {v : Value} {r : Record} (h : ofValue? v = some r) : r.Writable := by
  unfold ofValue? at h
  obtain ⟨members, -, h⟩ := Option.bind_eq_some_iff.mp h
  split at h
  · next paramsMember additionalMember =>
    simp only [Option.bind_eq_bind, Option.bind_eq_some_iff] at h
    obtain ⟨source, hsource, converter, -, table, -, path, -, fingerprint, hfingerprint, convertedAt,
      hconvertedAt, params, hparams, additional, hadditional, h⟩ := h
    cases h
    refine ⟨Fingerprint.fits64_of_required hsource, fun a ha => ?_, required_natural?_lt hconvertedAt, ?_⟩
    · obtain rfl | ha := List.mem_cons.mp ha
      · exact Fingerprint.fits64_of_required hfingerprint
      · cases hmember : additionalMember with
        | none =>
          rw [hmember] at hadditional
          cases hadditional
          cases ha
        | some v =>
          rw [hmember] at hadditional
          obtain ⟨items, -, hitems⟩ := Option.bind_eq_some_iff.mp hadditional
          obtain ⟨item, -, hitem⟩ := Outcome.exists_of_mapM_eq_some hitems ha
          exact ArtifactRef.fits64_of_ofValue? hitem
    · cases hmember : paramsMember with
      | none =>
        rw [hmember] at hparams
        cases hparams
        exact Keyed.sorted_empty
      | some v =>
        rw [hmember] at hparams
        exact Params.sorted_of_ofValue? hparams
  · cases h

namespace LedgerMap

/-- What is read of a ledger can be written. -/
theorem writable_of_ofValue? {v : Value} {m : LedgerMap} (h : ofValue? v = some m) : m.Writable := by
  have fold (members : List (String × Value)) (before : LedgerMap) (hbefore : before.Writable)
      (h : members.foldlM
        (fun m e => (Record.ofValue? e.2).map fun r => insertAt m ⟨e.1⟩ r) before = some m) :
      m.Writable := by
    induction members generalizing before with
    | nil =>
      cases h
      exact hbefore
    | cons member rest ih =>
      rw [List.foldlM_cons] at h
      obtain ⟨after, hafter, h⟩ := Option.bind_eq_some_iff.mp h
      obtain ⟨r, hr, rfl⟩ := Option.map_eq_some_iff.mp hafter
      exact ih _ (hbefore.insertAt _ (Record.writable_of_ofValue? hr)) h
  unfold ofValue? at h
  split at h
  · exact fold _ _ writable_empty h
  · cases h

/-- What a ledger file holds can be written. -/
theorem writable_of_parse? {bytes : Bytes} {m : LedgerMap} (h : parse? bytes = some m) : m.Writable := by
  unfold parse? at h
  split at h
  · obtain ⟨v, -, hv⟩ := Option.bind_eq_some_iff.mp h
    exact writable_of_ofValue? hv
  · cases h

end LedgerMap

/-! ### Saves -/

namespace Ledger

variable {l l' : Ledger} {fs fs' : Files}

/-- What is loaded can be written. -/
theorem writable_of_load {m : LedgerMap} (h : l.load fs = (.ok m, l')) :
    m.Writable ∧ l' = l.install m := by
  unfold load fileRecords at h
  split at h
  · next hrecords =>
    cases h
    refine ⟨?_, rfl⟩
    split at hrecords
    · split at hrecords
      · next hparse =>
        cases hrecords
        exact LedgerMap.writable_of_parse? hparse
      · cases hrecords
    · cases hrecords
      exact LedgerMap.writable_empty
    · cases hrecords
  · cases h

/-- A save writes the records and notes their count. -/
theorem save_eq_ok : l.save fs = .ok (l', fs') ↔
    l.writeRecords fs l.records = .ok fs' ∧ l' = { l with saved := l.generation } := by
  unfold save
  dsimp only [beginSave, endSave]
  cases l.writeRecords fs l.records with
  | error e => exact ⟨nofun, nofun⟩
  | ok fs₁ =>
    simp only [Except.ok.injEq, Prod.mk.injEq]
    exact ⟨fun h => ⟨h.2, h.1.symm⟩, fun h => ⟨h.2.symm, h.1⟩⟩

/-- A save succeeds just when the directory can be made and no directory in it bears the name of the
ledger file, whatever the records are. -/
theorem exists_save_iff : (∃ l' fs', l.save fs = .ok (l', fs')) ↔
    ∃ fs₁ location, fs.makeDirectories l.dir = .ok fs₁ ∧ fs₁.LeadsTo l.dir location ∧
      fs₁.node? (location ++ [ledgerFileName]) ≠ some .directory := by
  constructor
  · rintro ⟨l', fs', hsave⟩
    obtain ⟨fs₁, hmake, hreplace⟩ := Outcome.bind_eq_ok.mp (save_eq_ok.mp hsave).1
    obtain ⟨location, hdir, hnode, -⟩ := (Files.replace_join isName_ledgerFileName).mp hreplace
    exact ⟨fs₁, location, hmake, hdir, hnode⟩
  · rintro ⟨fs₁, location, hmake, hdir, hnode⟩
    have hreplace : fs₁.replace l.file (Text.encodeUtf8 l.records.render) = .ok _ :=
      (Files.replace_join isName_ledgerFileName).mpr ⟨location, hdir, hnode, rfl⟩
    exact ⟨_, _, save_eq_ok.mpr ⟨Outcome.bind_eq_ok.mpr ⟨fs₁, hmake, hreplace⟩, rfl⟩⟩

/-- A file that was written is found where no link bears its name. -/
theorem exists_of_writeRecords {m : LedgerMap} (h : l.writeRecords fs m = .ok fs')
    (hlink : ∀ location target, fs.node? (location ++ [ledgerFileName]) ≠ some (.link target)) :
    fs'.exists? l.file = true := by
  obtain ⟨fs₁, hmake, hreplace⟩ := Outcome.bind_eq_ok.mp h
  refine Files.exists_replace isName_ledgerFileName hreplace fun location target hnode => ?_
  obtain hsame | ⟨-, hdirectory⟩ :=
    (Files.written_makeDirectories [] hmake).kept_or_made (location ++ [ledgerFileName])
  · exact hlink location target (hsame ▸ hnode)
  · rw [hdirectory] at hnode
    cases hnode

/-- Whether a new ledger of the directory loads exactly the records that are saved, if the file is found
under its path. -/
def Survives (l : Ledger) (fs : Files) : Prop :=
  ∀ l' fs', l.save fs = .ok (l', fs') → fs'.exists? l.file = true →
    (initial l.dir).load fs' = (.ok l.records, (initial l.dir).install l.records)

/-- Records that can be written survive. -/
theorem survives_of_writable (h : l.records.Writable) (fs : Files) : l.Survives fs :=
  fun _ _ hsave hexists =>
    load_of_content h (content_of_writeRecords (save_eq_ok.mp hsave).1 hexists)

/-- What is saved is loaded by a new ledger of the directory: all records that can be written, and so all
that were loaded. The file is found where no link bears its name, and whether a save succeeds does not
depend on the records. -/
theorem round_trip (l : Ledger) (fs : Files) :
    (l.records.Writable → l.Survives fs) ∧
    (∀ m l', l.load fs = (.ok m, l') → l'.records = m ∧ ∀ fs', l'.Survives fs') ∧
    ((∀ location target, fs.node? (location ++ [ledgerFileName]) ≠ some (.link target)) →
      ∀ l' fs', l.save fs = .ok (l', fs') → fs'.exists? l.file = true) ∧
    ((∃ l' fs', l.save fs = .ok (l', fs')) ↔
      ∃ fs₁ location, fs.makeDirectories l.dir = .ok fs₁ ∧ fs₁.LeadsTo l.dir location ∧
        fs₁.node? (location ++ [ledgerFileName]) ≠ some .directory) := by
  refine ⟨fun h => survives_of_writable h fs, fun m l' hload => ?_,
    fun hlink l' fs' hsave => exists_of_writeRecords (save_eq_ok.mp hsave).1 hlink, exists_save_iff⟩
  obtain ⟨hm, rfl⟩ := writable_of_load hload
  exact ⟨rfl, fun fs' => survives_of_writable hm fs'⟩

/-- A record of `x.json`. -/
def sampleRecord : Record where
  source := ⟨⟨"x.json"⟩, 9, 7, none⟩
  converter := "json"
  primary := ⟨"x", ⟨"a/x.parquet"⟩, ⟨⟨"a/x.parquet"⟩, 42, 8, none⟩⟩
  convertedAt := 9
  params := Keyed.empty
  additional := []

/-- A ledger of a directory that holds this record. -/
def sample (dir : Path) : Ledger := ((initial dir).record sampleRecord).2

/-- This ledger can be written. -/
theorem writable_sample (dir : Path) : (sample dir).records.Writable := by
  refine LedgerMap.writable_empty.insertAt _ ⟨⟨?_, ?_⟩, fun a ha => ?_, ?_, Keyed.sorted_empty⟩
  · show 9 < UInt64.size
    decide
  · show 7 < UInt64.size
    decide
  · rw [List.mem_singleton.mp ha]
    exact ⟨show 42 < UInt64.size by decide, show 8 < UInt64.size by decide⟩
  · show 9 < UInt64.size
    decide

/-- In a directory that is yet to be made, what is saved is loaded, and what was loaded is saved and
loaded again. -/
theorem round_trip_made : ∃ (l₁ l₂ l₃ : Ledger) (fs₁ fs₂ : Files),
    (sample ⟨"d"⟩).save (Files.initial ["w"] 7) = .ok (l₁, fs₁) ∧
    (initial ⟨"d"⟩).load fs₁ = (.ok (sample ⟨"d"⟩).records, l₂) ∧
    l₂.save fs₁ = .ok (l₃, fs₂) ∧ (initial ⟨"d"⟩).load fs₂ = (.ok (sample ⟨"d"⟩).records, l₂) := by
  have hsaves : ((sample ⟨"d"⟩).save (Files.initial ["w"] 7)).toOption.bind (fun (_, fs₁) =>
      (((initial ⟨"d"⟩).install (sample ⟨"d"⟩).records).save fs₁).toOption.map fun (_, fs₂) =>
        fs₁.exists? (initial ⟨"d"⟩).file && fs₂.exists? (initial ⟨"d"⟩).file) = some true := by
    decide +kernel
  obtain ⟨⟨l₁, fs₁⟩, hfirst, hrest⟩ := Option.bind_eq_some_iff.mp hsaves
  obtain ⟨⟨l₃, fs₂⟩, hsecond, hexists⟩ := Option.map_eq_some_iff.mp hrest
  obtain ⟨hexists₁, hexists₂⟩ := Bool.and_eq_true_iff.mp hexists
  have hsave₁ := Outcome.eq_ok_of_toOption hfirst
  have hsave₂ := Outcome.eq_ok_of_toOption hsecond
  have hload := (round_trip (sample ⟨"d"⟩) (Files.initial ["w"] 7)).1 (writable_sample _) _ _ hsave₁ hexists₁
  have hsurvives := ((round_trip (initial ⟨"d"⟩) fs₁).2.1 _ _ hload).2 fs₁
  exact ⟨l₁, _, l₃, fs₁, fs₂, hsave₁, hload, hsave₂, hsurvives _ _ hsave₂ hexists₂⟩

/-- A directory whose path leads through a link with the name of the ledger file. -/
def linkedDirectory : Path := ⟨"d/.conversions.json/.."⟩

/-- The tree in which it does. -/
def linkedFiles : Files where
  nodes := ⟨[(["d"], .directory), (["d", ".conversions.json"], .link ⟨"sub"⟩), (["d", "sub"], .directory)]⟩
  home := []
  clock := 2

/-- A save that puts the ledger file in the place of a link in its own path is not loaded again. -/
theorem not_round_trip : ∃ (l l' : Ledger) (fs fs' : Files), l.records.Writable ∧
    l.save fs = .ok (l', fs') ∧ ((initial l.dir).load fs').1 = .error (.file .notDirectory) := by
  have hlost : ((sample linkedDirectory).save linkedFiles).toOption.map
      (fun (l', fs') => match fs'.content (initial linkedDirectory).file with
        | .error cause => cause == .notDirectory
        | .ok _ => false) = some true := by decide +kernel
  obtain ⟨⟨l', fs'⟩, hsave, hcause⟩ := Option.map_eq_some_iff.mp hlost
  refine ⟨sample linkedDirectory, l', linkedFiles, fs', writable_sample _,
    Outcome.eq_ok_of_toOption hsave, ?_⟩
  show ((initial linkedDirectory).load fs').1 = _
  unfold load fileRecords
  dsimp only at hcause
  split at hcause
  · next cause hcontent =>
    rw [hcontent, beq_iff_eq.mp hcause]
  · cases hcause

end Ledger

end SourceTables
