import SourceTables.Proofs.Artifact.Entry
import SourceTables.Proofs.Text.Name

/-!
# `SourceTables.Proofs.Convert.Names`: the names of the tables of one source

A source with several tables gives each of them a suffix. A suffix is a word, as the source's own name is,
so the name of a table, which has two underscores between the two, tells both, and no source that has a
single table has that name.

Suffixes are numbered until they are new. So the artifacts of one source have different names in their
directory: none is put in the place of another, wherever the path of the directory leads meanwhile.

The theorems:

* `Convert.produced_of_writeAll`: the names and paths of tables, in the order of the tables.
* `Convert.stands_of_writeAll`: what was written for each table stands in the end.
* `Convert.names_apart`: the tables of one source, and those of any two.
-/

set_option autoImplicit false

namespace SourceTables.Convert

/-! ### Suffixes -/

/-- Whether a table can have a suffix: it has none if its source has no other table. -/
def Assigned (suffix : Option String) : Prop := ∃ names, suffix ∈ suffixes names

/-- A table alone has no suffix. -/
theorem assigned_none : Assigned none := ⟨[none], .head _⟩

/-- Suffixes are words. -/
theorem isWord_of_mem_suffixesFrom {taken : List String} {position : Nat} {names : List (Option String)}
    {s : String} (h : s ∈ suffixesFrom taken position names) : Text.IsWord s.toList := by
  induction names generalizing taken position with
  | nil => cases h
  | cons name rest ih =>
    rw [suffixesFrom] at h
    obtain rfl | h := List.mem_cons.mp h
    · obtain ⟨k, hk, -⟩ :=
        Text.fresh_spec taken (Text.tableName (name.getD ("table" ++ toString (position + 1))))
      rw [hk]
      exact Text.isWord_numbered (Text.isWord_tableName _) k
    · exact ih h

theorem isWord_of_assigned {s : String} (h : Assigned (some s)) : Text.IsWord s.toList := by
  obtain ⟨names, hmem⟩ := h
  unfold suffixes at hmem
  split at hmem
  · exact absurd (List.mem_singleton.mp hmem) nofun
  · obtain ⟨s', hs', heq⟩ := List.mem_map.mp hmem
    cases heq
    exact isWord_of_mem_suffixesFrom hs'

/-- The name of a source is one. -/
theorem isWord_tableStem (p : Path) : Text.IsWord (tableStem p).toList := Text.isWord_tableName _

/-- The name of a table that has a suffix. -/
theorem toList_tableName (stem s : String) :
    (tableName stem (some s)).toList = Text.join stem.toList s.toList := by
  simp [tableName, Text.join]

/-- The name of a table tells the name of its source and the suffix. -/
theorem eq_of_tableName {stem stem' : String} {suffix suffix' : Option String}
    (hstem : Text.IsWord stem.toList) (hstem' : Text.IsWord stem'.toList)
    (h : tableName stem suffix = tableName stem' suffix') : stem = stem' ∧ suffix = suffix' := by
  have hlists := congrArg String.toList h
  cases suffix with
  | none =>
    cases suffix' with
    | none => exact ⟨h, rfl⟩
    | some s' =>
      rw [toList_tableName] at hlists
      exact absurd (show Text.IsWord (Text.join _ _) from hlists ▸ hstem) (Text.not_isWord_join _ _)
  | some s =>
    rw [toList_tableName] at hlists
    cases suffix' with
    | none =>
      exact absurd (show Text.IsWord (Text.join _ _) from hlists ▸ hstem') (Text.not_isWord_join _ _)
    | some s' =>
      rw [toList_tableName] at hlists
      obtain ⟨hsource, hsuffix⟩ := Text.join_injective hstem hstem' hlists
      exact ⟨String.toList_inj.mp hsource, congrArg some (String.toList_inj.mp hsuffix)⟩

/-! ### Tables that were written -/

section

variable {f : Format} {source : Path} {d : Destination} {fs fs' : Files}

/-- What is told of a table that was written. -/
def producedOf (source : Path) (d : Destination) (suffix : Option String) : Produced :=
  ⟨tableName (tableStem source) suffix, d.artifactPath suffix⟩

theorem produced_of_writeOne {suffix : Option String} {t : Table} {p : Produced}
    (h : writeOne f source d fs suffix t = (.ok p, fs')) : p = producedOf source d suffix := by
  unfold writeOne at h
  dsimp only at h
  split at h
  · cases h
  · split at h
    · cases h
    · cases h
      rfl

/-- Tables that were written are told of in their order. -/
theorem produced_of_writeAll {named : List (Option String × Table)} {produced : List Produced}
    (h : writeAll f source d fs named = (.ok produced, fs')) :
    produced = named.map fun n => producedOf source d n.1 := by
  induction named generalizing fs produced with
  | nil =>
    rw [writeAll] at h
    cases h
    rfl
  | cons n rest ih =>
    obtain ⟨suffix, t⟩ := n
    rw [writeAll] at h
    split at h
    · cases h
    · next first fs₁ hone =>
      rcases hrest : writeAll f source d fs₁ rest with ⟨result, fs₂⟩
      rw [hrest] at h
      cases result with
      | error e => cases h
      | ok later =>
        cases h
        rw [produced_of_writeOne hone, ih hrest, List.map_cons]

/-- A location at which what was written for a table stands. -/
def StandsAt (d : Destination) (fs : Files) (n : Option String × Table) (location : Location) : Prop :=
  ∃ place, location = place ++ [(d.entry n).name] ∧ (d.entry n).Stands place fs

/-- What was written for each table stands in the end, at a location of its own. -/
theorem stands_of_writeAll {named : List (Option String × Table)} {produced : List Produced}
    (hnodup : (named.map Prod.fst).Nodup) (hnames : ∀ n ∈ named, d.Names n.1)
    (h : writeAll f source d fs named = (.ok produced, fs')) :
    ∃ locations : List Location, locations.Nodup ∧
      List.Forall₂ (StandsAt d fs') named locations := by
  induction named generalizing fs produced with
  | nil => exact ⟨[], List.nodup_nil, .nil⟩
  | cons n rest ih =>
    obtain ⟨suffix, t⟩ := n
    obtain ⟨hnew, hnodup⟩ := List.nodup_cons.mp hnodup
    have hlater := fun n hn => hnames n (.tail (suffix, t) hn)
    -- A later table has another suffix, and so another name in whatever directory.
    have hother : ∀ n ∈ rest, d.fileName n.1 ≠ d.fileName suffix := fun n hn hsame =>
      hnew (List.mem_map.mpr ⟨n, hn, d.fileName_injective hsame⟩)
    rw [writeAll] at h
    split at h
    · cases h
    · next first fs₁ hone =>
      rcases hrest : writeAll f source d fs₁ rest with ⟨result, fs₂⟩
      rw [hrest] at h
      cases result with
      | error e => cases h
      | ok later =>
        cases h
        obtain ⟨locations, hlocations, hstands⟩ := ih hnodup hlater hrest
        obtain ⟨-, fs₀, place, -, -, rfl⟩ := of_writeOne (hnames _ (.head _)) hone
        have hkept := (written_writeAll hlater hrest).file (Files.node?_writeAt _ _ _ _)
          fun name hname hlast => by
            rw [List.getLast?_concat] at hlast
            obtain ⟨n, hn, rfl⟩ := List.mem_map.mp hname
            exact hother n hn (Option.some.inj hlast).symm
        refine ⟨(place ++ [d.fileName suffix]) :: locations,
          List.nodup_cons.mpr ⟨fun hmem => ?_, hlocations⟩, .cons ⟨place, rfl, _, hkept⟩ hstands⟩
        obtain ⟨n, hn, place', hlocation, -⟩ := Outcome.exists_of_forall₂ hstands.flip hmem
        exact hother n hn (List.singleton_inj.mp (List.append_inj_right' hlocation.symm rfl))

end

/-! ### Conversions -/

/-- What a conversion does with the tables that it has read. -/
def ofTables (f : Format) (source : Path) (d : Destination) (fs : Files) :
    List Table → Except Error (List Produced) × Files
  | [] => (.error (.conversion source f.id "no tables found"), fs)
  | tables => writeAll f source d fs ((suffixes (tables.map Table.name)).zip tables)

/-- Whether tables have names, artifacts and files apart from each other, and in their order. -/
structure Apart (source : Path) (d : Destination) (tables : List Table) (produced : List Produced)
    (fs : Files) : Prop where
  /-- Each table has a suffix, and no suffix is repeated. -/
  suffixes : ∃ assigned : List String, assigned.length = tables.length ∧ assigned.Nodup ∧
    produced = assigned.map fun s => producedOf source d (some s)
  names : (produced.map Produced.table).Nodup
  paths : produced.Pairwise fun p q => p.artifact.same q.artifact = false
  /-- What was written for each table stands at a location that is no other table's. -/
  stands : ∃ locations : List Location, locations.Nodup ∧
    List.Forall₂ (StandsAt d fs) ((Convert.suffixes (tables.map Table.name)).zip tables) locations
  /-- A path that leads anywhere leads to the table in its position. -/
  reads : List.Forall₂ (fun t p => fs.exists? p.artifact = true →
    Artifact.content fs p.artifact = .ok (d.engine, contentOf t)) tables produced

/-- Several tables all have suffixes. -/
theorem suffixes_of_two {names : List (Option String)} (htwo : 2 ≤ names.length) :
    suffixes names = (suffixesFrom [] 0 names).map some := by
  match names, htwo with
  | _ :: _ :: _, _ => rfl

section

variable {f : Format} {source : Path} {d : Destination} {fs fs' : Files} {tables : List Table}
  {produced : List Produced}

/-- Artifacts of one source with different suffixes are at different places. -/
theorem same_artifactPath {suffix suffix' : Option String} (h : d.Names suffix) (h' : d.Names suffix')
    (hne : suffix ≠ suffix') : (d.artifactPath suffix).same (d.artifactPath suffix') = false := by
  refine Bool.of_not_eq_true fun hsame => hne (d.fileName_injective ?_)
  rw [Path.same, beq_iff_eq, Destination.artifactPath_eq, Destination.artifactPath_eq,
    Path.components_join _ h.isName, Path.components_join _ h'.isName] at hsame
  have hnames := List.append_cancel_left hsame
  rwa [List.cons.injEq, Component.name.injEq, and_iff_left rfl] at hnames

/-- Several tables that were written are apart from each other. -/
theorem apart_of_ofTables (htwo : 2 ≤ tables.length)
    (hnames : ∀ suffix ∈ suffixes (tables.map Table.name), d.Names suffix)
    (h : ofTables f source d fs tables = (.ok produced, fs')) : Apart source d tables produced fs' := by
  have hwritten : writeAll f source d fs ((suffixes (tables.map Table.name)).zip tables)
      = (.ok produced, fs') := by
    match tables, htwo with
    | _ :: _ :: _, _ => exact h
  have hassigned : suffixes (tables.map Table.name) = (suffixesFrom [] 0 (tables.map Table.name)).map some :=
    suffixes_of_two (by rwa [List.length_map])
  obtain ⟨hnodup, -, hlength⟩ := of_suffixesFrom [] 0 (tables.map Table.name)
  rw [List.length_map] at hlength
  have hfst : ((suffixes (tables.map Table.name)).zip tables).map Prod.fst
      = suffixes (tables.map Table.name) :=
    List.map_fst_zip (by rw [length_suffixes, List.length_map])
  have hsnd : ((suffixes (tables.map Table.name)).zip tables).map Prod.snd = tables :=
    List.map_snd_zip (by rw [length_suffixes, List.length_map])
  have hdifferent : (((suffixes (tables.map Table.name)).zip tables).map Prod.fst).Nodup := by
    rw [hfst]
    exact nodup_suffixes _
  have hnamed : ∀ n ∈ (suffixes (tables.map Table.name)).zip tables, d.Names n.1 := fun n hn =>
    hnames n.1 (List.of_mem_zip hn).1
  have hproduced : produced = (suffixes (tables.map Table.name)).map (producedOf source d) := calc
    produced = ((suffixes (tables.map Table.name)).zip tables).map (producedOf source d ∘ Prod.fst) :=
      produced_of_writeAll hwritten
    _ = (((suffixes (tables.map Table.name)).zip tables).map Prod.fst).map (producedOf source d) :=
      List.map_map.symm
    _ = (suffixes (tables.map Table.name)).map (producedOf source d) := congrArg _ hfst
  refine ⟨⟨_, hlength, hnodup, ?_⟩, ?_, ?_, stands_of_writeAll hdifferent hnamed hwritten, ?_⟩
  · rw [hproduced, hassigned, List.map_map]
    rfl
  · rw [hproduced, List.map_map]
    exact (nodup_suffixes _).map fun suffix suffix' hsame =>
      (eq_of_tableName (isWord_tableStem source) (isWord_tableStem source) hsame).2
  · rw [hproduced, List.pairwise_map]
    exact (nodup_suffixes _).imp_of_mem fun hs ht hne => same_artifactPath (hnames _ hs) (hnames _ ht) hne
  · have hreads := of_writeAll hdifferent hnamed hwritten
    rw [← hsnd, List.forall₂_map_left_iff]
    exact hreads

/-- A conversion writes the tables that it has read. -/
theorem convert_of_decode {o : ConvertOptions} (hdecode : f.decode fs source o = .ok tables)
    (hne : tables ≠ []) : f.convert fs source d o = ofTables f source d fs tables := by
  have hf : f.isPassthrough = false := by
    cases f with
    | native => exact absurd (Except.ok.inj hdecode).symm hne
    | delimited | json | spreadsheet | document | presentation | markdown | html => rfl
  rw [Format.convert, hf, if_neg Bool.false_ne_true, hdecode]
  cases tables with
  | nil => exact absurd rfl hne
  | cons => rfl

/-- All tables of conversions have names that are put together from the source's and a suffix. -/
theorem exists_assigned {o : ConvertOptions} (h : f.convert fs source d o = (.ok produced, fs')) :
    ∀ p ∈ produced, ∃ suffix, Assigned suffix ∧ p.table = tableName (tableStem source) suffix := by
  intro p hp
  cases hf : f.isPassthrough with
  | true =>
    unfold Format.convert at h
    rw [hf, if_pos rfl] at h
    split at h
    · cases h
      rw [List.mem_singleton.mp hp]
      exact ⟨none, assigned_none, rfl⟩
    · cases h
  | false =>
    obtain ⟨-, e, hconvert⟩ | ⟨-, hconvert⟩ := Format.convert_cases hf d
    · rw [hconvert] at h
      cases h
    · rw [hconvert] at h
      rw [produced_of_writeAll h] at hp
      obtain ⟨n, hn, rfl⟩ := List.mem_map.mp hp
      refine ⟨n.1, ?_, rfl⟩
      unfold Format.named at hn
      split at hn
      · cases hn
      · exact ⟨_, (List.of_mem_zip hn).1⟩

end

/-- When several tables of a source are written, whatever names they have or lack, their suffixes are
different, and so are their names and the paths of their artifacts. They are told of in their order, and what
was written for each of them stands in the end, at a location of its own. Each conversion that reads several
tables does this with them.

The name of any table tells the name of its source, and what its suffix is, if it has one: both are words,
in which no two underscores stand beside each other and none at an end. -/
theorem names_apart :
    (∀ (f : Format) (source dir : Path) (version : Fingerprint) (params : Params) (engine : Engine)
      (fs fs' : Files) (tables : List Table) (produced : List Produced), 2 ≤ tables.length →
      ofTables f source (.ofSource dir version params engine) fs tables = (.ok produced, fs') →
      Apart source (.ofSource dir version params engine) tables produced fs') ∧
    (∀ (f : Format) (source : Path) (d : Destination) (o : ConvertOptions) (fs : Files)
      (tables : List Table), f.decode fs source o = .ok tables → 2 ≤ tables.length →
      f.convert fs source d o = ofTables f source d fs tables) ∧
    (∀ (f : Format) (source : Path) (d : Destination) (o : ConvertOptions) (fs fs' : Files)
      (produced : List Produced), f.convert fs source d o = (.ok produced, fs') →
      ∀ p ∈ produced, ∃ suffix, Assigned suffix ∧ p.table = tableName (tableStem source) suffix) ∧
    (∀ (source source' : Path) (suffix suffix' : Option String),
      tableName (tableStem source) suffix = tableName (tableStem source') suffix' →
      tableStem source = tableStem source' ∧ suffix = suffix') ∧
    (∀ source : Path, Text.IsWord (tableStem source).toList) ∧
    ∀ s : String, Assigned (some s) → Text.IsWord s.toList := by
  refine ⟨?_, ?_, ?_, ?_, isWord_tableStem, fun s => isWord_of_assigned⟩
  · intro f source dir version params engine fs fs' tables produced htwo h
    refine apart_of_ofTables htwo (fun suffix hsuffix => ?_) h
    exact Destination.names_ofSource _ _ _ _ fun s hs => of_mem_suffixes (hs ▸ hsuffix)
  · intro f source d o fs tables hdecode htwo
    refine convert_of_decode hdecode fun hnone => ?_
    rw [hnone] at htwo
    exact absurd htwo (by decide)
  · intro f source d o fs fs' produced h
    exact exists_assigned h
  · intro source source' suffix suffix'
    exact eq_of_tableName (isWord_tableStem source) (isWord_tableStem source')

/-- Sheets whose names come to the same, one that has the name that a number would make, and one without a
name. -/
def sheets : List Table := [some "High tides", some "high_tides", some "high tides 2", none].map
  fun name => ⟨name, [], []⟩

/-- The destination of a workbook's tables. -/
def sheetsDestination : Destination := .ofSource ⟨"out"⟩ ⟨⟨"d/x.xlsx"⟩, 3, 7, none⟩ ⟨[]⟩ .arrow

/-- What becomes of the sheets. -/
def sheetsWritten : Except Error (List Produced) × Files :=
  ofTables .spreadsheet ⟨"d/x.xlsx"⟩ sheetsDestination ⟨⟨[]⟩, [], 0⟩ sheets

/-- They are told apart. -/
theorem names_apart_sheets :
    ∃ produced fs', sheetsWritten = (.ok produced, fs') ∧ 2 ≤ sheets.length ∧
      Apart ⟨"d/x.xlsx"⟩ sheetsDestination sheets produced fs' ∧
      produced.map Produced.table
        = ["x__high_tides", "x__high_tides_2", "x__high_tides_2_2", "x__table4"] := by
  have hnames : sheetsWritten.1.toOption.map (List.map Produced.table)
      = some ["x__high_tides", "x__high_tides_2", "x__high_tides_2_2", "x__table4"] := by decide +kernel
  have htwo : 2 ≤ sheets.length := by decide
  rcases hwritten : sheetsWritten with ⟨result, fs'⟩
  rw [hwritten] at hnames
  obtain ⟨produced, hproduced, htables⟩ := Option.map_eq_some_iff.mp hnames
  obtain rfl := Outcome.eq_ok_of_toOption hproduced
  exact ⟨produced, fs', rfl, htwo, names_apart.1 _ _ _ _ _ _ _ _ _ _ htwo hwritten, htables⟩

end SourceTables.Convert
