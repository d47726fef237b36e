import SourceTables.Format.Decode
import SourceTables.Proofs.Keyed
import SourceTables.Proofs.Number
import SourceTables.Proofs.Outcome

/-!
# `SourceTables.Proofs.Format.Decode`: what the tables of a source depend on

The tables that a decoder makes of a file depend on the file's content, on the components of its path,
and on those settings that are parameters of the conversion. How the path is written shows in messages
alone, so it is the tables that are compared, and not what is said when there are none.

The theorems:

* `settings_of_params`: parameters tell the settings that a decoder looks at.
* `toOption_decode`: the tables are the same where content, components and parameters are.
-/

set_option autoImplicit false

namespace SourceTables

/-! ### Parameters -/

theorem Engine.name_injective : Function.Injective Engine.name := by
  intro a b h
  cases a <;> cases b <;> first | rfl | exact absurd h (by decide)

namespace Format

/-- A format is known by its name. -/
theorem id_injective : Function.Injective Format.id := by
  intro f g h
  cases f <;> cases g <;> first | rfl | exact absurd h (by decide)

/-- Parameters are in the order of their names. -/
theorem sorted_params (f : Format) (p : Path) (o : ConvertOptions) : (f.params p o).Sorted := by
  cases f with
  | native => exact Keyed.sorted_empty
  | delimited =>
    exact Keyed.sorted_insert (Keyed.sorted_insert (Keyed.sorted_insert (Keyed.sorted_ofList _) _ _) _ _) _ _
  | json => exact Keyed.sorted_insert (Keyed.sorted_ofList _) _ _
  | spreadsheet | document | presentation | markdown | html => exact Keyed.sorted_ofList _

section

variable {f : Format} {p q : Path} {o o' : ConvertOptions}

theorem get?_engine (hf : f.isPassthrough = false) :
    (f.params p o).get? "engine" = some o.engine.name := by
  cases f with
  | native => cases hf
  | delimited | json | spreadsheet | document | presentation | markdown | html =>
    simp [params, Keyed.ofList, Keyed.get?_insert]

theorem get?_batchSize (hf : f.isPassthrough = false) :
    (f.params p o).get? "batch_size" = some (toString o.batchSize) := by
  cases f with
  | native => cases hf
  | delimited | json | spreadsheet | document | presentation | markdown | html =>
    simp [params, Keyed.ofList, Keyed.get?_insert]

theorem get?_inferRecords (hf : f = .delimited ∨ f = .json) :
    (f.params p o).get? "schema_infer_max_records" = some (toString o.inferRecords) := by
  obtain rfl | rfl := hf <;> simp [params, Keyed.get?_insert]

/-- The parameters tell the settings that a decoder looks at. -/
theorem settings_of_params (hf : f.isPassthrough = false) (h : f.params p o = f.params q o') :
    o.engine = o'.engine ∧ o.batchSize = o'.batchSize ∧
      (f = .delimited ∨ f = .json → o.inferRecords = o'.inferRecords) := by
  refine ⟨Engine.name_injective ?_, Number.toString_injective ?_,
    fun hinfers => Number.toString_injective ?_⟩
  · have := get?_engine (p := p) (o := o) hf
    rw [h, get?_engine hf] at this
    exact (Option.some.inj this).symm
  · have := get?_batchSize (p := p) (o := o) hf
    rw [h, get?_batchSize hf] at this
    exact (Option.some.inj this).symm
  · have := get?_inferRecords (p := p) (o := o) hinfers
    rw [h, get?_inferRecords hinfers] at this
    exact (Option.some.inj this).symm

end

end Format

/-! ### Documents in parts -/

namespace Office

open Outcome

variable {p q : Package} (h : q.archive = p.archive)
include h

theorem Package.toOption_root? (part : String) :
    (q.root? part).toOption = (p.root? part).toOption := by
  have htext : (q.text? part).toOption = (p.text? part).toOption := by
    unfold Package.text?
    rw [h]
    cases p.archive.member? part with
    | none => rfl
    | some member =>
      dsimp only
      split <;> rfl
  have hroot (text : String) : (q.root text).toOption = (p.root text).toOption := by
    unfold Package.root
    split <;> rfl
  unfold Package.root?
  rw [toOption_bind, toOption_bind, htext]
  congr 1
  funext text
  cases text with
  | none => rfl
  | some text => rw [toOption_bind, toOption_bind, hroot]

theorem Package.toOption_requiredRoot (part : String) :
    (q.requiredRoot part).toOption = (p.requiredRoot part).toOption := by
  unfold Package.requiredRoot
  rw [toOption_bind, toOption_bind, Package.toOption_root? h]
  congr 1
  funext root
  cases root <;> rfl

theorem toOption_sheets : (sheets q).toOption = (sheets p).toOption := by
  have hrelationships : (relationships q).toOption = (relationships p).toOption := by
    unfold relationships
    rw [toOption_bind, toOption_bind, Package.toOption_root? h]
  unfold sheets
  rw [toOption_bind, toOption_bind, hrelationships]
  congr 1
  funext targets
  rw [toOption_bind, toOption_bind, Package.toOption_requiredRoot h]
  congr 1
  funext workbook
  cases (workbook.named "sheets").head? <;> rfl

theorem toOption_sheetRows? (shared : Array String) (sheet : SheetRef) :
    (sheetRows? q shared sheet).toOption = (sheetRows? p shared sheet).toOption := by
  unfold sheetRows?
  rw [toOption_bind, toOption_bind, Package.toOption_root? h]
  congr 1
  funext root
  cases root with
  | none => rfl
  | some root =>
    dsimp only
    cases sheetGrid shared root <;> rfl

theorem toOption_workbookGrids : (workbookGrids q).toOption = (workbookGrids p).toOption := by
  have hshared : (sharedTexts q).toOption = (sharedTexts p).toOption := by
    unfold sharedTexts
    rw [toOption_bind, toOption_bind, Package.toOption_root? h]
  unfold workbookGrids
  rw [toOption_bind, toOption_bind, hshared]
  congr 1
  funext shared
  rw [toOption_bind, toOption_bind, toOption_sheets h]
  congr 1
  funext sheets
  rw [toOption_bind, toOption_bind, toOption_mapM, toOption_mapM]
  congr 2
  funext sheet
  rw [toOption_bind, toOption_bind, toOption_sheetRows? h]

theorem toOption_documentGrids : (documentGrids q).toOption = (documentGrids p).toOption := by
  unfold documentGrids
  rw [toOption_bind, toOption_bind, Package.toOption_requiredRoot h]

theorem toOption_presentationGrids :
    (presentationGrids q).toOption = (presentationGrids p).toOption := by
  have hslides : slides q = slides p := by
    unfold slides
    rw [h]
  unfold presentationGrids
  rw [toOption_bind, toOption_bind, toOption_mapM, toOption_mapM, hslides]
  congr 2
  funext slide
  rw [toOption_bind, toOption_bind, Package.toOption_requiredRoot h]

end Office

/-! ### Decoders -/

namespace Format

variable {fs fs' : Files} {p q : Path} {o o' : ConvertOptions}

/-- Paths with the same components have the same extension. -/
theorem lowerExtension?_eq (hpath : q.components = p.components) :
    q.lowerExtension? = p.lowerExtension? := by
  unfold Path.lowerExtension? Path.extension? Path.fileName?
  rw [hpath]

/-- Of the settings, grids depend on the batch size alone. -/
theorem tablesOfGrids_eq (hbatch : o'.batchSize = o.batchSize) : tablesOfGrids o' = tablesOfGrids o := by
  funext named
  unfold tablesOfGrids
  rw [hbatch]

/-- A document has the same tables wherever it stands. -/
theorem toOption_tables (bytes : Bytes) :
    (Json.tables q o bytes).toOption = (Json.tables p o bytes).toOption := by
  unfold Json.tables
  split
  · rfl
  · unfold Json.documentTables
    split <;> rfl

theorem toOption_decodeOffice (f : Format)
    {grids : Office.Package → Except Error (List (String × List (List String)))}
    (hgrids : ∀ a b : Office.Package, b.archive = a.archive → (grids b).toOption = (grids a).toOption)
    (hcontent : fs'.content q = fs.content p) (hbatch : o'.batchSize = o.batchSize) :
    (decodeOffice fs' q o' f grids).toOption = (decodeOffice fs p o f grids).toOption := by
  unfold decodeOffice
  simp only [Outcome.toOption_bind, tablesOfGrids_eq hbatch]
  unfold Office.Package.ofFile
  rw [hcontent]
  cases fs.content p with
  | error e => cases e <;> rfl
  | ok bytes =>
    dsimp only
    cases Zip.Archive.ofBytes? bytes with
    | none => rfl
    | some archive =>
      show ((grids ⟨q, f, archive⟩).toOption.bind _) = (grids ⟨p, f, archive⟩).toOption.bind _
      rw [hgrids ⟨p, f, archive⟩ ⟨q, f, archive⟩ rfl]

/-- A decoder looks at nothing but the content of the file. -/
theorem decode_congr (f : Format) (h : fs'.content p = fs.content p) (o : ConvertOptions) :
    f.decode fs' p o = f.decode fs p o := by
  cases f with
  | native => rfl
  | delimited => rw [decode, decode, decodeDelimited, h, decodeDelimited]
  | json => rw [decode, decode, decodeJson, h, decodeJson]
  | markdown => rw [decode, decode, decodeMarkdown, Files.read, h, decodeMarkdown, Files.read]
  | html => rw [decode, decode, decodeHtml, Files.read, h, decodeHtml, Files.read]
  | spreadsheet | document | presentation =>
    rw [decode, decode, decodeOffice, Office.Package.ofFile, h, decodeOffice, Office.Package.ofFile]

/-- A file has the same tables where content, components and parameters are the same. -/
theorem toOption_decode (f : Format) (hcontent : fs'.content q = fs.content p)
    (hpath : q.components = p.components) (hparams : f.params q o' = f.params p o) :
    (f.decode fs' q o').toOption = (f.decode fs p o).toOption := by
  cases hnative : f.isPassthrough with
  | true =>
    cases f <;> first | rfl | cases hnative
  | false =>
    obtain ⟨hengine, hbatch, hinfer⟩ := settings_of_params hnative hparams
    have hextension := lowerExtension?_eq hpath
    have hoptions (hinfers : f = .delimited ∨ f = .json) : o' = o := by
      obtain ⟨engine, batchSize, inferRecords⟩ := o
      obtain ⟨engine', batchSize', inferRecords'⟩ := o'
      exact ConvertOptions.mk.injEq .. ▸ ⟨hengine, hbatch, hinfer hinfers⟩
    cases f with
    | native => rfl
    | delimited =>
      rw [hoptions (.inl rfl), decode, decode, decodeDelimited, decodeDelimited, hcontent, delimiter,
        hextension, delimiter]
    | json =>
      rw [hoptions (.inr rfl), decode, decode, decodeJson, decodeJson, hcontent, holdsRecords,
        hextension, holdsRecords]
      cases fs.content p with
      | error e => cases e <;> rfl
      | ok bytes =>
        dsimp only
        split
        · rfl
        · exact toOption_tables bytes
    | spreadsheet => exact toOption_decodeOffice _ (fun _ _ => Office.toOption_workbookGrids) hcontent hbatch
    | document => exact toOption_decodeOffice _ (fun _ _ => Office.toOption_documentGrids) hcontent hbatch
    | presentation =>
      exact toOption_decodeOffice _ (fun _ _ => Office.toOption_presentationGrids) hcontent hbatch
    | markdown =>
      rw [decode, decode, decodeMarkdown, decodeMarkdown, Files.read, hcontent, ← Files.read,
        tablesOfGrids_eq hbatch]
    | html =>
      rw [decode, decode, decodeHtml, decodeHtml, Files.read, hcontent, ← Files.read,
        tablesOfGrids_eq hbatch]

end Format

end SourceTables
