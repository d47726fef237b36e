import SourceTables.Proofs.Artifact.Name
import SourceTables.Proofs.Format.Decode
import SourceTables.Proofs.Ledger.Document

/-!
# `SourceTables.Proofs.Artifact.Distinct`: what the name of an artifact tells

The name of an artifact is put together from a stem, a digest, the name of a table and an extension. The
digest is taken of the digest of a source's version, followed by the parameters of the conversion. Every
part can be told from the next one: table names hold neither dashes nor dots, digests have a fixed length,
names of parameters hold no equals sign, and their values no semicolon.

A version is known by the bytes that its digest is taken of only beside versions that were taken in the
same way, since the digest of the content stands at the end and may be missing.

The theorems:

* `Destination.of_fileName_eq`: a name tells the digest, the table and the encoding.
* `Destination.of_digestBytes_eq`, `Destination.params_eq_of_text`: the hashed bytes tell the digest of the
  version, and the parameters.
* `Fingerprint.eq_of_bytes`: versions that were taken in the same way are known by their bytes.
* `Format.eq_of_accepts`: no two formats take the same file.
* `Destination.eq_of_artifactPath`: the path of an artifact tells the version of its source, the parameters
  and the table.
-/

set_option autoImplicit false

namespace SourceTables

/-- What stands before the first separator, and what stands after it. -/
theorem Text.of_append_cons {sep : Char} {s s' rest rest' : List Char} (hs : sep ∉ s) (hs' : sep ∉ s')
    (h : s ++ sep :: rest = s' ++ sep :: rest') : s = s' ∧ rest = rest' := by
  induction s generalizing s' with
  | nil =>
    cases s' with
    | nil => exact ⟨rfl, (List.cons.inj h).2⟩
    | cons c _ => exact absurd ((List.cons.inj h).1 ▸ .head _) hs'
  | cons c s ih =>
    cases s' with
    | nil => exact absurd ((List.cons.inj h).1 ▸ .head _) hs
    | cons c' s' =>
      obtain ⟨rfl, htail⟩ := List.cons.inj h
      obtain ⟨rfl, hrest⟩ := ih (fun hmem => hs (.tail _ hmem)) (fun hmem => hs' (.tail _ hmem)) htail
      exact ⟨rfl, hrest⟩

/-- A function that tells two values apart does so however often they occur. -/
theorem injOn_twice {α β : Type} {f : α → β} {a b : α} (h : f a ≠ f b) : Set.InjOn f {a, b, a, b} := by
  rintro _ (rfl | rfl | rfl | rfl) _ (rfl | rfl | rfl | rfl) hsame
  all_goals first | rfl | exact absurd hsame h | exact absurd hsame.symm h

/-! ### Versions of sources -/

namespace Fingerprint

/-- Whether the digest of the content was taken if and only if that was asked for. A digest is written with
64 digits, of one byte each. -/
structure HashedAs (withHash : Bool) (f : Fingerprint) : Prop where
  isSome : f.hash.isSome = withHash
  length : ∀ digest, f.hash = some digest → (Text.encodeUtf8 digest).length = 64

/-- A digest of some content has this length. -/
theorem length_encodeUtf8_sha256Hex (bytes : Bytes) :
    (Text.encodeUtf8 (Digest.sha256Hex bytes)).length = 64 := by
  rw [Text.length_encodeUtf8_of_ascii fun c hc => (Digest.of_mem_sha256Hex hc).2,
    Digest.length_sha256Hex]

theorem hashedAs_of_digest {f : Fingerprint} {bytes : Bytes}
    (h : f.hash = some (Digest.sha256Hex bytes)) : f.HashedAs true where
  isSome := by rw [h, Option.isSome_some]
  length digest hdigest := by
    rw [h, Option.some.injEq] at hdigest
    exact hdigest ▸ length_encodeUtf8_sha256Hex bytes

/-- Versions are taken as asked for. -/
theorem hashedAs_of_compute {fs : Files} {p : Path} {withHash : Bool} {f : Fingerprint}
    (h : compute fs p withHash = .ok f) : f.HashedAs withHash := by
  unfold compute at h
  split at h
  · cases h
  · next bytes _ _ =>
    cases h
    cases withHash with
    | false => exact ⟨rfl, nofun⟩
    | true => exact hashedAs_of_digest rfl
  · split at h
    · cases h
    · next hhash =>
      cases h
      exact ⟨(Bool.of_not_eq_true hhash).symm, nofun⟩

section

variable {withHash : Bool} {f f' : Fingerprint}

/-- Versions that were taken in the same way have one path and one digest of the content if their digests
are taken of the same bytes; their sizes and times have the same last eight bytes. -/
theorem of_bytes_eq (hf : f.HashedAs withHash) (hf' : f'.HashedAs withHash) (h : f.bytes = f'.bytes) :
    f.path = f'.path ∧ f.hash = f'.hash ∧
      Digest.littleEndian 8 f.size = Digest.littleEndian 8 f'.size ∧
      Digest.littleEndian 8 f.modified = Digest.littleEndian 8 f'.modified := by
  obtain ⟨hsome, hlength⟩ := hf
  obtain ⟨hsome', hlength'⟩ := hf'
  obtain ⟨path, size, modified, hash⟩ := f
  obtain ⟨path', size', modified', hash'⟩ := f'
  -- All parts but the path have lengths that are known, so they are cut off from the end.
  have hends : (Text.encodeUtf8 (hash.getD "")).length = (Text.encodeUtf8 (hash'.getD "")).length := by
    cases hash <;> cases hash' <;> simp_all
  obtain ⟨h, hhash⟩ := List.append_inj' h hends
  obtain ⟨h, hmodified⟩ := List.append_inj' h (by simp)
  obtain ⟨hpath, hsize⟩ := List.append_inj' h (by simp)
  refine ⟨congrArg Path.mk (Text.encodeUtf8_injective hpath), ?_, hsize, hmodified⟩
  have hdigest := Text.encodeUtf8_injective hhash
  cases hash <;> cases hash' <;> simp_all

/-- Versions that were taken in the same way are known by the bytes that their digests are taken of. -/
theorem eq_of_bytes (hf : f.HashedAs withHash) (hf' : f'.HashedAs withHash)
    (hfits : f.Fits64) (hfits' : f'.Fits64) (h : f.bytes = f'.bytes) : f = f' := by
  obtain ⟨hpath, hhash, hsize, hmodified⟩ := of_bytes_eq hf hf' h
  obtain ⟨path, size, modified, hash⟩ := f
  obtain ⟨path', size', modified', hash'⟩ := f'
  obtain rfl : path = path' := hpath
  obtain rfl : hash = hash' := hhash
  obtain rfl : size = size' := Digest.littleEndian_injective hfits.size hfits'.size hsize
  obtain rfl : modified = modified' :=
    Digest.littleEndian_injective hfits.modified hfits'.modified hmodified
  rfl

end

end Fingerprint

/-! ### Formats -/

namespace Format

/-- No two formats have an extension in common. -/
theorem eq_of_mem_extensions (f g : Format) : ∀ ext ∈ f.extensions, ext ∈ g.extensions → f = g := by
  cases f <;> cases g <;> decide

/-- No two formats take the same file. -/
theorem eq_of_accepts {f g : Format} {p : Path} (hf : f.accepts p = true) (hg : g.accepts p = true) :
    f = g := by
  unfold accepts at hf hg
  split at hf
  · next ext hext =>
    rw [hext] at hg
    exact eq_of_mem_extensions f g ext (List.contains_iff_mem.mp hf) (List.contains_iff_mem.mp hg)
  · cases hf

variable {f : Format} {p p' : Path} {o o' : ConvertOptions}

/-- Whether an entry of parameters ends where its text says so. -/
def Separated (e : String × String) : Prop := '=' ∉ e.1.toList ∧ ';' ∉ e.2.toList

theorem separated_of {name value : String} (hname : '=' ∉ name.toList) (hvalue : ';' ∉ value.toList) :
    Separated (name, value) := ⟨hname, hvalue⟩

/-- No name of a parameter holds an equals sign, and no value a semicolon. -/
theorem separated_of_mem_params {e : String × String} (he : e ∈ (f.params p o).entries) : Separated e := by
  -- Values are the names of engines, numbers, delimiters and one fixed text.
  have hengine : ';' ∉ o.engine.name.toList := by cases o.engine <;> decide
  have hnumber (n : Nat) : ';' ∉ (toString n).toList := fun hmem =>
    absurd (Number.isDigit_of_mem_toString hmem) (by decide)
  have hdelimiter : ';' ∉ (String.singleton (delimiter p)).toList := by
    unfold delimiter
    split <;> decide
  have hshared : ∀ e ∈ (Keyed.ofList
      [("engine", o.engine.name), ("batch_size", toString o.batchSize)]).entries, Separated e := by
    intro e he
    obtain rfl | he := List.mem_cons.mp (Keyed.mem_ofList he)
    · exact separated_of (by decide) hengine
    · exact List.mem_singleton.mp he ▸ separated_of (by decide) (hnumber _)
  have hinferred {m : Params} (hm : ∀ e ∈ m.entries, Separated e) :
      ∀ e ∈ (m.insert "schema_infer_max_records" (toString o.inferRecords)).entries, Separated e := by
    intro e he
    obtain rfl | he := Keyed.mem_insert he
    · exact separated_of (by decide) (hnumber _)
    · exact hm e he
  cases f with
  | native => cases he
  | delimited =>
    refine hinferred (fun e he => ?_) e he
    obtain rfl | he := Keyed.mem_insert he
    · exact separated_of (by decide) (by decide)
    · obtain rfl | he := Keyed.mem_insert he
      · exact separated_of (by decide) hdelimiter
      · exact hshared e he
  | json => exact hinferred hshared e he
  | spreadsheet | document | presentation | markdown | html => exact hshared e he

end Format

/-! ### Names of artifacts -/

namespace Destination

/-- The characters that are hashed for parameters. -/
def paramsText (entries : List (String × String)) : List Char :=
  entries.flatMap fun e => e.1.toList ++ '=' :: (e.2.toList ++ [';'])

/-- Parameters are hashed as text. -/
theorem digestBytes_eq (source : Fingerprint) (params : Params) :
    digestBytes source params = Text.encodeUtf8 source.digest
      ++ Text.encodeUtf8 (String.ofList (paramsText params.entries)) := by
  unfold digestBytes paramsText
  rw [Text.encodeUtf8_eq_flatMap (String.ofList _), String.toList_ofList, List.flatMap_assoc]
  congr 2
  funext ⟨name, value⟩
  exact (Text.encodeUtf8_eq_flatMap _).trans (by simp)

/-- Parameters are known by their text where every entry ends where the text says so. -/
theorem eq_of_paramsText {entries entries' : List (String × String)}
    (hends : ∀ e ∈ entries, Format.Separated e) (hends' : ∀ e ∈ entries', Format.Separated e)
    (h : paramsText entries = paramsText entries') : entries = entries' := by
  induction entries generalizing entries' with
  | nil =>
    cases entries' with
    | nil => rfl
    | cons e' rest' => simp [paramsText] at h
  | cons e rest ih =>
    cases entries' with
    | nil => simp [paramsText] at h
    | cons e' rest' =>
      obtain ⟨hname, hvalue⟩ := hends e (.head _)
      obtain ⟨hname', hvalue'⟩ := hends' e' (.head _)
      simp only [paramsText, List.flatMap_cons, List.append_assoc, List.cons_append, List.nil_append] at h
      -- The name ends at the first equals sign, and the value at the first semicolon after it.
      obtain ⟨hsame, h⟩ := Text.of_append_cons hname hname' h
      obtain ⟨hsame', h⟩ := Text.of_append_cons hvalue hvalue' h
      rw [ih (fun e he => hends e (.tail _ he)) (fun e he => hends' e (.tail _ he)) h,
        Prod.ext (String.toList_inj.mp hsame) (String.toList_inj.mp hsame')]

/-- The parameters of conversions are known by their text, whatever the formats. -/
theorem params_eq_of_text {f f' : Format} {p p' : Path} {o o' : ConvertOptions}
    (h : paramsText (f.params p o).entries = paramsText (f'.params p' o').entries) :
    f.params p o = f'.params p' o' :=
  congrArg Keyed.mk <| eq_of_paramsText (fun _ => Format.separated_of_mem_params)
    (fun _ => Format.separated_of_mem_params) h

/-- The hashed bytes tell the digest of the version and the text of the parameters. -/
theorem of_digestBytes_eq {source source' : Fingerprint} {params params' : Params}
    (h : digestBytes source params = digestBytes source' params') :
    source.digest = source'.digest ∧ paramsText params.entries = paramsText params'.entries := by
  have hlength (bytes : Bytes) : (Text.encodeUtf8 (Fingerprint.shortDigest bytes)).length = 16 := by
    rw [Text.length_encodeUtf8_of_ascii fun c hc => (Fingerprint.of_mem_shortDigest hc).2,
      Fingerprint.length_shortDigest]
  rw [digestBytes_eq, digestBytes_eq] at h
  obtain ⟨hdigest, htext⟩ := List.append_inj h ((hlength _).trans (hlength _).symm)
  exact ⟨Text.encodeUtf8_injective hdigest,
    String.ofList_injective (Text.encodeUtf8_injective htext)⟩

/-- What a table adds to the name of its artifact. -/
def addition : Option String → List Char
  | some table => '_' :: '_' :: table.toList
  | none => []

theorem addition_injective : Function.Injective addition := by
  intro s t h
  cases s <;> cases t <;> simp_all [addition, String.toList_inj]

/-- The parts of an artifact's name. -/
theorem toList_fileName (d : Destination) (table : Option String) :
    (d.fileName table).toList
      = d.stem.toList ++ '-' :: (d.digest.toList ++ (addition table ++ '.' :: d.engine.name.toList)) := by
  cases table <;> simp [fileName, addition]

variable {dir dir' : Path} {source source' : Fingerprint} {params params' : Params}
  {engine engine' : Engine} {table table' : Option String}

/-- A name tells the digest, the table and the encoding. -/
theorem of_fileName_eq (htable : ∀ t, table = some t → ∀ c ∈ t.toList, Text.IsTableChar c)
    (htable' : ∀ t, table' = some t → ∀ c ∈ t.toList, Text.IsTableChar c)
    (h : (ofSource dir source params engine).fileName table
      = (ofSource dir' source' params' engine').fileName table') :
    Fingerprint.shortDigest (digestBytes source params)
        = Fingerprint.shortDigest (digestBytes source' params') ∧
      table = table' ∧ engine = engine' := by
  have hdash (p : Path) : '-' ∉ (tableStem p).toList := fun hmem =>
    absurd (Text.of_mem_tableName hmem) (by unfold Text.IsTableChar; decide)
  have hdot {table : Option String} (htable : ∀ t, table = some t → ∀ c ∈ t.toList, Text.IsTableChar c) :
      '.' ∉ addition table := by
    intro hmem
    cases table with
    | none => cases hmem
    | some t =>
      obtain h | hmem := List.mem_cons.mp hmem
      · exact absurd h (by decide)
      · obtain h | hmem := List.mem_cons.mp hmem
        · exact absurd h (by decide)
        · exact absurd (htable t rfl _ hmem) (by unfold Text.IsTableChar; decide)
  have hlists := congrArg String.toList h
  rw [toList_fileName, toList_fileName] at hlists
  -- The stem ends at the first dash, and what the table adds at the first dot after the digest.
  obtain ⟨-, hlists⟩ := Text.of_append_cons (hdash _) (hdash _) hlists
  obtain ⟨hdigest, hlists⟩ := List.append_inj hlists
    ((Fingerprint.length_shortDigest _).trans (Fingerprint.length_shortDigest _).symm)
  obtain ⟨haddition, hengine⟩ := Text.of_append_cons (hdot htable) (hdot htable') hlists
  exact ⟨String.toList_inj.mp hdigest, addition_injective haddition,
    Engine.name_injective (String.toList_inj.mp hengine)⟩

/-- Paths of artifacts in one directory are the same place only if their names are the same. -/
theorem fileName_eq_of_same (htable : ∀ t, table = some t → ∀ c ∈ t.toList, Text.IsTableChar c)
    (htable' : ∀ t, table' = some t → ∀ c ∈ t.toList, Text.IsTableChar c)
    (h : ((ofSource dir source params engine).artifactPath table).same
      ((ofSource dir source' params' engine').artifactPath table') = true) :
    (ofSource dir source params engine).fileName table
      = (ofSource dir source' params' engine').fileName table' := by
  rw [Path.same, beq_iff_eq, artifactPath_eq, artifactPath_eq,
    Path.components_join _ (isName_fileName htable), Path.components_join _ (isName_fileName htable')] at h
  have hnames := List.append_cancel_left h
  rwa [List.cons.injEq, Component.name.injEq, and_iff_left rfl] at hnames

/-- The path of an artifact tells the version of its source, the parameters and the table. -/
theorem eq_of_artifactPath {withHash : Bool} {f f' : Format} {p p' : Path} {o o' : ConvertOptions}
    (hhash : source.HashedAs withHash) (hhash' : source'.HashedAs withHash)
    (hfits : source.Fits64) (hfits' : source'.Fits64)
    (htable : ∀ t, table = some t → ∀ c ∈ t.toList, Text.IsTableChar c)
    (htable' : ∀ t, table' = some t → ∀ c ∈ t.toList, Text.IsTableChar c)
    (hdigests : Set.InjOn Fingerprint.shortDigest
      {source.bytes, digestBytes source (f.params p o),
        source'.bytes, digestBytes source' (f'.params p' o')})
    (h : ((ofSource dir source (f.params p o) o.engine).artifactPath table).same
      ((ofSource dir source' (f'.params p' o') o'.engine).artifactPath table') = true) :
    source = source' ∧ f.params p o = f'.params p' o' ∧ table = table' := by
  have hname := fileName_eq_of_same htable htable' h
  obtain ⟨hdigest, hsameTable, -⟩ := of_fileName_eq htable htable' hname
  -- The digest of the conversion tells the digest of the version, and that one tells the version.
  have hbytes := hdigests (by simp) (by simp) hdigest
  obtain ⟨hversion, htext⟩ := of_digestBytes_eq hbytes
  have hsource := hdigests (by simp) (by simp) hversion
  exact ⟨Fingerprint.eq_of_bytes hhash hhash' hfits hfits' hsource, params_eq_of_text htext, hsameTable⟩

/-- A version of `d/x.md`, with the digest of its content. -/
def pageVersion : Fingerprint := ⟨⟨"d/x.md"⟩, 3, 7, some (Digest.sha256Hex [35, 32, 97])⟩

/-- Parameters of `d/x.md`, where types of columns would be inferred from some number of records. -/
def pageParams (f : Format) (records : Nat) : Params := f.params ⟨"d/x.md"⟩ ⟨.parquet, 8192, records⟩

/-- The name of a table that is called "High tides" in its source. -/
def tideTable : Option String := some (Text.tableName "High tides")

/-- Markdown and HTML have the same parameters, which no inference is among, so one table of one version
has one path. -/
theorem eq_of_artifactPath_page :
    pageVersion.HashedAs true ∧ pageVersion.Fits64 ∧
      (∀ t, tideTable = some t → ∀ c ∈ t.toList, Text.IsTableChar c) ∧
      Set.InjOn Fingerprint.shortDigest {pageVersion.bytes, digestBytes pageVersion (pageParams .markdown 1),
        pageVersion.bytes, digestBytes pageVersion (pageParams .html 2)} ∧
      pageVersion = pageVersion ∧ pageParams .markdown 1 = pageParams .html 2 ∧
      tideTable = tideTable := by
  have hhash : pageVersion.HashedAs true := Fingerprint.hashedAs_of_digest rfl
  have hfits : pageVersion.Fits64 := ⟨by decide, by decide⟩
  have htable : ∀ t, tideTable = some t → ∀ c ∈ t.toList, Text.IsTableChar c := by
    rintro _ ⟨⟩ c hc
    exact Text.of_mem_tableName hc
  have hne : Fingerprint.shortDigest pageVersion.bytes
      ≠ Fingerprint.shortDigest (digestBytes pageVersion (pageParams .markdown 1)) := by decide +kernel
  have hparams : pageParams .html 2 = pageParams .markdown 1 := by decide
  have hdigests := injOn_twice hne
  rw [← hparams] at hne
  have hsame : ((ofSource ⟨"a"⟩ pageVersion (pageParams .markdown 1) .parquet).artifactPath tideTable).same
      ((ofSource ⟨"a"⟩ pageVersion (pageParams .html 2) .parquet).artifactPath tideTable) = true := by
    rw [hparams]
    exact beq_self_eq_true _
  nth_rewrite 2 [← hparams] at hdigests
  exact ⟨hhash, hfits, htable, hdigests, eq_of_artifactPath hhash hhash hfits hfits htable htable
    hdigests hsame⟩

end Destination

end SourceTables
