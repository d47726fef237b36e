import Mathlib
import SourceTables.Artifact.Name
import SourceTables.Fingerprint
import SourceTables.Proofs.Path
import SourceTables.Proofs.Text.Name
import SourceTables.Proofs.Text.Utf8

/-!
# `SourceTables.Proofs.Artifact.Name`: digests and the file names of artifacts

What is hashed is put together from parts. Most of them have a length that is always the same, which is
how the parts can be told apart.

An artifact stands in its directory under a name of its own: made of a table name, a digest and a table's
name, it has no slash, and tables with different names have different files.

The theorems:

* `Digest.littleEndian_injective`: a number is known by its bytes.
* `Digest.length_sha256Hex`, `Fingerprint.length_shortDigest`: how long digests are.
* `Text.encodeUtf8_injective`: a text is known by its bytes.
* `Destination.isName_fileName`: an artifact's name is one name.
* `Destination.ofPath?_artifactPath`: its extension tells how it is encoded.
* `Destination.fileName_injective`: different tables of a source have different artifacts.
-/

set_option autoImplicit false

namespace SourceTables

namespace Text

/-- A text is known by its bytes. -/
theorem encodeUtf8_injective : Function.Injective encodeUtf8 := by
  intro s t h
  have hdecoded := decodeUtf8?_encodeUtf8 s
  rw [h, decodeUtf8?_encodeUtf8] at hdecoded
  exact (Except.ok.inj hdecoded).symm

/-- Plain characters have one byte each. -/
theorem length_encodeUtf8_of_ascii {s : String} (h : ∀ c ∈ s.toList, c.toNat < 128) :
    (encodeUtf8 s).length = s.toList.length := by
  rw [encodeUtf8_eq_flatMap]
  generalize s.toList = cs at h
  induction cs with
  | nil => rfl
  | cons c cs ih =>
    have hone : (String.utf8EncodeChar c).length = 1 := by
      rw [String.length_utf8EncodeChar, Char.utf8Size_eq_one_iff]
      exact UInt32.le_iff_toNat_le.mpr (Nat.le_of_lt_succ (h c (.head _)))
    rw [List.flatMap_cons, List.length_append, hone, ih fun c hc => h c (.tail _ hc), List.length_cons,
      Nat.add_comm]

end Text

namespace Digest

/-! ### Numbers -/

@[simp] theorem length_bigEndian (count n : Nat) : (bigEndian count n).length = count := by
  simp [bigEndian]

@[simp] theorem length_littleEndian (count n : Nat) : (littleEndian count n).length = count := by
  simp [littleEndian]

/-- The last byte is what is left over, and the others are those of the number without it. -/
theorem bigEndian_succ (count n : Nat) :
    bigEndian (count + 1) n = bigEndian count (n / 256) ++ [UInt8.ofNat n] := by
  unfold bigEndian
  rw [List.range_succ, List.map_append]
  congr 1
  · refine List.map_congr_left fun i hi => ?_
    have hi : i < count := List.mem_range.mp hi
    have hshift : 8 * (count + 1 - 1 - i) = 8 + 8 * (count - 1 - i) := by omega
    rw [hshift, Nat.shiftRight_add, Nat.shiftRight_eq_div_pow n 8]
  · simp

/-- A number is known by enough of its bytes. -/
theorem bigEndian_injective {count a b : Nat} (ha : a < 256 ^ count) (hb : b < 256 ^ count)
    (h : bigEndian count a = bigEndian count b) : a = b := by
  induction count generalizing a b with
  | zero => omega
  | succ count ih =>
    rw [bigEndian_succ, bigEndian_succ] at h
    obtain ⟨hhigh, hlow⟩ := List.append_inj h (by simp)
    have hhigh := ih (Nat.div_lt_of_lt_mul (by rwa [Nat.pow_succ, Nat.mul_comm] at ha))
      (Nat.div_lt_of_lt_mul (by rwa [Nat.pow_succ, Nat.mul_comm] at hb)) hhigh
    have hlow : a % 256 = b % 256 := congrArg UInt8.toNat (List.singleton_inj.mp hlow)
    omega

theorem littleEndian_injective {count a b : Nat} (ha : a < 256 ^ count) (hb : b < 256 ^ count)
    (h : littleEndian count a = littleEndian count b) : a = b :=
  bigEndian_injective ha hb (List.reverse_inj.mp h)

/-! ### Digests -/

/-- A digest is written with 64 digits. -/
theorem length_sha256Hex (bytes : List UInt8) : (sha256Hex bytes).toList.length = 64 := by
  have hbytes : (sha256 bytes).length = 32 := by
    simp [sha256, Chain.words]
  rw [sha256Hex, hex, String.toList_ofList, List.length_flatMap]
  show ((sha256 bytes).map fun _ => 2).sum = 64
  rw [List.map_const', List.sum_replicate_nat, hbytes]

/-- They are plain digits and letters. -/
theorem of_mem_sha256Hex {bytes : List UInt8} {c : Char} (hc : c ∈ (sha256Hex bytes).toList) :
    c.isAlphanum = true ∧ c.toNat < 128 := by
  have hdigit : ∀ n < 16, (hexDigit n).isAlphanum = true ∧ (hexDigit n).toNat < 128 := by decide
  rw [sha256Hex, hex, String.toList_ofList] at hc
  obtain ⟨b, -, hc⟩ := List.mem_flatMap.mp hc
  have hlt := b.toNat_lt
  obtain rfl | hc := List.mem_cons.mp hc
  · exact hdigit _ (by omega)
  · rw [List.mem_singleton.mp hc]
    exact hdigit _ (by omega)

end Digest

/-! ### Fingerprints -/

namespace Fingerprint

/-- A short digest has sixteen digits. -/
theorem length_shortDigest (bytes : Bytes) : (shortDigest bytes).toList.length = 16 := by
  rw [shortDigest, String.toList_ofList, List.length_take, Digest.length_sha256Hex]
  rfl

/-- They are plain digits and letters. -/
theorem of_mem_shortDigest {bytes : Bytes} {c : Char} (hc : c ∈ (shortDigest bytes).toList) :
    c.isAlphanum = true ∧ c.toNat < 128 := by
  rw [shortDigest, String.toList_ofList] at hc
  exact Digest.of_mem_sha256Hex (List.mem_of_mem_take hc)

end Fingerprint

end SourceTables

namespace SourceTables.Destination

/-- The name of an artifact in its directory. -/
def fileName (d : Destination) (table : Option String) : String :=
  let suffix := match table with
    | some table => "__" ++ table
    | none => ""
  d.stem ++ "-" ++ d.digest ++ suffix ++ "." ++ d.engine.name

theorem artifactPath_eq (d : Destination) (table : Option String) :
    d.artifactPath table = d.dir.join ⟨d.fileName table⟩ := rfl

/-- Different tables of a source have different artifacts. -/
theorem fileName_injective (d : Destination) : Function.Injective d.fileName := by
  intro s t h
  have hlists := congrArg String.toList h
  cases s with
  | none =>
    cases t with
    | none => rfl
    | some t => simp [fileName] at hlists
  | some s =>
    cases t with
    | none => simp [fileName] at hlists
    | some t =>
      have htables : s.toList = t.toList := by simpa [fileName] using hlists
      rw [String.toList_inj.mp htables]

section

variable {dir : Path} {source : Fingerprint} {params : Params} {engine : Engine} {table : Option String}

/-- An artifact's name is one name. -/
theorem isName_fileName (htable : ∀ t, table = some t → ∀ c ∈ t.toList, Text.IsTableChar c) :
    Path.IsName ((ofSource dir source params engine).fileName table) := by
  have hdash : '-' ∈ ((ofSource dir source params engine).fileName table).toList := by
    simp [fileName]
  have hengine (engine : Engine) : ∀ c ∈ engine.name.toList, (c == '/') = false :=
    Path.ne_slash_of_all (by cases engine <;> decide)
  refine ⟨?_, ?_, ?_, fun c hc => ?_⟩
  · intro h
    rw [h] at hdash
    exact absurd hdash (by decide)
  · intro h
    rw [h] at hdash
    exact absurd hdash (by decide)
  · intro h
    rw [h] at hdash
    exact absurd hdash (by decide)
  · have hdashes : ∀ c ∈ "-.__".toList, (c == '/') = false :=
      Path.ne_slash_of_all (by decide)
    simp only [fileName, String.toList_append, List.mem_append] at hc
    obtain ((((hc | hc) | hc) | hc) | hc) | hc := hc
    · exact (Text.of_mem_tableName hc).ne_slash
    · exact hdashes c (by rw [List.mem_singleton.mp hc]; decide)
    · exact Text.IsTableChar.ne_slash (.inl (Fingerprint.of_mem_shortDigest hc).1)
    · cases table with
      | none => exact absurd hc List.not_mem_nil
      | some t =>
        rw [String.toList_append, List.mem_append] at hc
        obtain hc | hc := hc
        · exact Path.ne_slash_of_all (by decide) c hc
        · exact (htable t rfl c hc).ne_slash
    · exact hdashes c (by rw [List.mem_singleton.mp hc]; decide)
    · exact hengine engine c hc

/-- An artifact's extension tells its encoding. -/
theorem ofPath?_artifactPath (htable : ∀ t, table = some t → ∀ c ∈ t.toList, Text.IsTableChar c) :
    Engine.ofPath? ((ofSource dir source params engine).artifactPath table) = some engine := by
  have hengine (engine : Engine) : ∀ c ∈ engine.name.toList, c ≠ '.' := by
    have hdot : '.' ∉ engine.name.toList := by cases engine <;> decide
    exact fun c hc heq => hdot (heq ▸ hc)
  have hstem (stem digest suffix : String) : stem ++ "-" ++ digest ++ suffix ≠ "" := by
    intro h
    have hlist := congrArg String.toList h
    simp at hlist
  have hextension : ((ofSource dir source params engine).artifactPath table).lowerExtension?
      = some engine.name.toLower := by
    rw [artifactPath_eq, Path.lowerExtension?, Path.extension?,
      Path.fileName?_join _ (isName_fileName htable)]
    exact congrArg (fun cut => cut.2.map String.toLower)
      (Path.cutName_append (hstem _ _ _) (hengine engine))
  have hlower : engine.name.toLower = engine.name := by
    cases engine <;> decide +kernel
  unfold Engine.ofPath?
  rw [hextension, hlower]
  cases engine <;> rfl

end

/-- Whether the artifact of a table has a name that is one, and tells its encoding. -/
structure Names (d : Destination) (table : Option String) : Prop where
  isName : Path.IsName (d.fileName table)
  engine : Engine.ofPath? (d.artifactPath table) = some d.engine

/-- The artifacts of a source have such names. -/
theorem names_ofSource (dir : Path) (source : Fingerprint) (params : Params) (engine : Engine)
    {table : Option String} (htable : ∀ t, table = some t → ∀ c ∈ t.toList, Text.IsTableChar c) :
    (ofSource dir source params engine).Names table :=
  ⟨isName_fileName htable, ofPath?_artifactPath htable⟩

end SourceTables.Destination
