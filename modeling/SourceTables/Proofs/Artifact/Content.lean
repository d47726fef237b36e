import Mathlib
import SourceTables.Artifact.Content
import SourceTables.Proofs.Outcome

/-!
# `SourceTables.Proofs.Artifact.Content`: artifacts read back

Whatever is packed is found again: texts of any characters, types and cells nested in any way, and
doubles bit by bit. Both encodings hold the contents that were written, so what is read differs from it
by what the encoding does not keep alone.

Main statement: `Content.decode?_encode`.
-/

set_option autoImplicit false

namespace SourceTables.Artifact

/-! ### Texts and numbers -/

@[simp] theorem text?_packText (s : String) : text? (packText s) = some s := by
  have hnumbers : (s.toList.map fun c => Packed.number c.toNat).mapM Packed.number?
      = some (s.toList.map Char.toNat) := by
    have h : ((s.toList.map Char.toNat).map Packed.number).mapM Packed.number?
        = some (s.toList.map Char.toNat) := Outcome.mapM_map_eq_some fun _ _ => rfl
    rwa [List.map_map] at h
  simp [text?, packText, Packed.items?, hnumbers, Function.comp_def]

@[simp] theorem integer?_packInteger (n : Int) : integer? (packInteger n) = some n := by
  cases n <;> rfl

/-! ### Types -/

@[simp] theorem scalarKinds_idxOf (kind : Scalar) : scalarKinds[scalarKinds.idxOf kind]? = some kind := by
  cases kind with
  | signed width | unsigned width => cases width <;> rfl
  | timestamp unit => cases unit <;> rfl
  | boolean | float32 | float64 | utf8 | date => rfl

mutual

/-- A type is found again. -/
theorem type?_packType (t : DataType) : type? (packType t) = some t := by
  cases t with
  | null => rfl
  | scalar kind => simp [packType, type?, typeOf?]
  | list item => simp [packType, type?, typeOf?, itemType?, type?_packType item]
  | struct fields =>
    simp [packType, type?, typeOf?, memberTypes?, fieldsOf?, fields?_packFields fields]
termination_by structural t

/-- Fields are found again. -/
theorem fields?_packFields (fs : List (Field DataType)) : fields? (packFields fs) = some fs := by
  cases fs with
  | nil => rfl
  | cons f rest => simp [packFields, fields?, field?_packField f, fields?_packFields rest]
termination_by structural fs

/-- A field is found again. -/
theorem field?_packField (f : Field DataType) : field? (packField f) = some f := by
  obtain ⟨name, type, nullable⟩ := f
  cases nullable <;>
    simp [packField, field?, fieldParts?, typeAndFlag?, type?_packType type]
termination_by structural f

end

/-! ### Cells -/

mutual

/-- A cell is found again. -/
theorem cell?_packCell (c : Cell) : cell? (packCell c) = some c := by
  cases c with
  | null => rfl
  | bool b => cases b <;> rfl
  | int n => simp [packCell, cell?, cellOf?]
  | float x => simp [packCell, cell?, cellOf?]
  | text s => simp [packCell, cell?, cellOf?]
  | date n => simp [packCell, cell?, cellOf?]
  | instant n => simp [packCell, cell?, cellOf?]
  | list items => simp [packCell, cell?, cellOf?, cells?_packCells items]
  | struct members => simp [packCell, cell?, cellOf?, cells?_packCells members]
termination_by structural c

/-- Cells are found again. -/
theorem cells?_packCells (cs : List Cell) : cells? (packCells cs) = some cs := by
  cases cs with
  | nil => rfl
  | cons c rest => simp [packCells, cells?, cell?_packCell c, cells?_packCells rest]
termination_by structural cs

end

/-! ### Contents -/

namespace Content

/-- Contents are found again. -/
theorem ofPacked?_pack (c : Content) : ofPacked? c.pack = some c := by
  have hrow (row : Row) : row? (.group (packCells row)) = some row := by
    simp [row?, Packed.items?, cells?_packCells]
  have hbatch (batch : List Row) :
      batch? (.group (batch.map fun row => .group (packCells row))) = some batch := by
    simp [batch?, Packed.items?, Outcome.mapM_map_eq_some fun row _ => hrow row]
  simp [pack, ofPacked?, Packed.items?, fields?_packFields,
    Outcome.mapM_map_eq_some fun batch _ => hbatch batch]

/-- An artifact holds what was written. -/
theorem decode?_encode (engine : Engine) (c : Content) : decode? engine (c.encode engine) = some c := by
  have hmark : (mark engine).isPrefixOf (c.encode engine) = true :=
    List.isPrefixOf_iff_prefix.mpr (List.prefix_append _ _)
  rw [decode?, if_pos hmark, encode, List.drop_left, Packed.ofBytes?_bytes, Option.bind_some,
    ofPacked?_pack]

end Content

end SourceTables.Artifact
