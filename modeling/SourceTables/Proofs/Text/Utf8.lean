import SourceTables.Text.Utf8

/-!
# `SourceTables.Proofs.Text.Utf8`: texts and their bytes

The theorems:

* `encodeUtf8_eq_flatMap`: the bytes of a text are those of its characters, one after another.
* `compare_encodeUtf8`: two texts are in the order of their bytes. The first character in which they
  differ decides, and the bytes of a greater character are greater from the first one that differs.
* `decodeUtf8?_encodeUtf8`: what was encoded decodes to the same text.
* `decodeLossy_encodeUtf8`: so it does with replacements, which it does not need.
* `decodeLossyList_append_ascii`: bytes can be read apart where a character of ASCII begins, because no
  character goes on beyond it.
-/

set_option autoImplicit false

namespace SourceTables.Text

/-! ### Bytes of characters -/

/-- The bytes of an array as a list. -/
theorem toList_eq_data_toList (bs : ByteArray) : bs.toList = bs.data.toList := by
  have loop (i : Nat) (r : List UInt8) :
      ByteArray.toList.loop bs i r = r.reverse ++ bs.data.toList.drop i := by
    fun_induction ByteArray.toList.loop bs i r with
    | case1 i r h ih =>
      have hlt : i < bs.data.toList.length := h
      have hget : bs.get! i = bs.data.toList[i] := by
        show bs.data[i]! = _
        rw [getElem!_pos bs.data i h, Array.getElem_toList]
      rw [ih, List.drop_eq_getElem_cons hlt, hget]
      simp
    | case2 i r h =>
      have hle : bs.data.toList.length ≤ i := Nat.le_of_not_lt h
      rw [List.drop_eq_nil_of_le hle, List.append_nil]
  show ByteArray.toList.loop bs 0 [] = _
  rw [loop]
  rfl

/-- The bytes of a text are those of its characters. -/
theorem encodeUtf8_eq_flatMap (s : String) :
    encodeUtf8 s = s.toList.flatMap String.utf8EncodeChar := by
  rw [encodeUtf8, String.toUTF8_eq_toByteArray, toList_eq_data_toList, ← String.utf8Encode_toList]
  exact List.toList_data_toByteArray

/-- A character of ASCII is one byte. -/
theorem utf8EncodeChar_ascii {c : Char} (hc : c.toNat < 0x80) :
    String.utf8EncodeChar c = [UInt8.ofNat c.toNat] := by
  have hval : c.val.toNat ≤ 0x7f := Nat.le_of_lt_succ hc
  unfold String.utf8EncodeChar
  simp only [hval, if_pos]
  rfl

/-- The bytes of any other character are none of ASCII. -/
theorem le_of_mem_utf8EncodeChar {c : Char} (hc : 0x80 ≤ c.toNat) {b : UInt8}
    (hb : b ∈ String.utf8EncodeChar c) : 0x80 ≤ b.toNat := by
  have hval : 0x80 ≤ c.val.toNat := hc
  have hvalid : c.val.toNat < 0x110000 := by
    have h := c.valid
    unfold UInt32.isValidChar Nat.isValidChar at h
    omega
  unfold String.utf8EncodeChar at hb
  generalize c.val.toNat = v at *
  dsimp only at hb
  split at hb
  · omega
  · repeat' split at hb
    all_goals
      simp only [List.mem_cons, List.not_mem_nil, or_false] at hb
      rcases hb with rfl | rfl | rfl | rfl
    all_goals
      rw [UInt8.toNat_ofNat']
      omega

/-! ### The order of bytes -/

/-- The first bytes decide, and the other ones where these are equal. -/
theorem compare_cons_eq_lt (x y : UInt8) (xs ys : List UInt8) :
    compare (x :: xs) (y :: ys) = .lt ↔ x < y ∨ x = y ∧ compare xs ys = .lt := by
  show List.compareLex compare (x :: xs) (y :: ys) = .lt ↔ _
  rw [List.compareLex_cons_cons]
  show (compareOfLessAndEq x y).then (compare xs ys) = .lt ↔ _
  unfold compareOfLessAndEq
  split
  · simp_all
  · split <;> simp_all

/-- Bytes in common do not matter. -/
theorem compare_append_left (bs xs ys : List UInt8) :
    compare (bs ++ xs) (bs ++ ys) = compare xs ys := by
  induction bs with
  | nil => rfl
  | cons b bs ih =>
    show List.compareLex compare (b :: (bs ++ xs)) (b :: (bs ++ ys)) = _
    rw [List.compareLex_cons_cons, show compare b b = .eq from Std.ReflCmp.compare_self]
    exact ih

/-- The bytes of a greater character are greater, whatever follows. -/
theorem compare_utf8EncodeChar_append (c d : Char) (xs ys : List UInt8) (h : c < d) :
    compare (String.utf8EncodeChar c ++ xs) (String.utf8EncodeChar d ++ ys) = .lt := by
  have hlt : c.val.toNat < d.val.toNat := h
  have hd : d.val.toNat < 0x110000 := by
    have hvalid := d.valid
    unfold UInt32.isValidChar Nat.isValidChar at hvalid
    omega
  unfold String.utf8EncodeChar
  generalize c.val.toNat = m at *
  generalize d.val.toNat = n at *
  -- Leading bits are quotients of quotients, which is how they compare one byte after another.
  have quarters (k : Nat) : k / 4096 = k / 64 / 64 ∧ k / 262144 = k / 64 / 64 / 64 := by omega
  simp only [quarters m, quarters n]
  repeat' split
  all_goals
    simp only [List.cons_append, List.nil_append, compare_cons_eq_lt, UInt8.lt_iff_toNat_lt,
      ← UInt8.toNat_inj, UInt8.toNat_ofNat']
    omega

/-- The bytes of a greater text are greater. -/
theorem compare_flatMap_of_lt {as bs : List Char} (h : as < bs) :
    compare (as.flatMap String.utf8EncodeChar) (bs.flatMap String.utf8EncodeChar) = .lt := by
  induction h with
  | nil =>
    rename_i d ds
    obtain ⟨b, rest, hb⟩ := List.exists_cons_of_ne_nil (String.utf8EncodeChar_ne_nil (c := d))
    rw [List.flatMap_cons, hb]
    rfl
  | rel h =>
    rw [List.flatMap_cons, List.flatMap_cons]
    exact compare_utf8EncodeChar_append _ _ _ _ h
  | cons h ih =>
    rw [List.flatMap_cons, List.flatMap_cons, compare_append_left]
    exact ih

/-- Texts are in the order of their bytes. -/
theorem compare_encodeUtf8 (a b : String) : compare (encodeUtf8 a) (encodeUtf8 b) = compare a b := by
  rw [encodeUtf8_eq_flatMap, encodeUtf8_eq_flatMap]
  show _ = compareOfLessAndEq a b
  unfold compareOfLessAndEq
  split
  · next h => exact compare_flatMap_of_lt h
  · next h =>
    split
    · next heq =>
      rw [heq]
      exact Std.ReflCmp.compare_self
    · next hne =>
      have hlt : b < a := Std.lt_of_le_of_ne h (fun heq => hne heq.symm)
      exact Std.OrientedCmp.gt_iff_lt.mpr (compare_flatMap_of_lt hlt)

/-! ### Reading back -/

/-- What the second byte may be, in numbers. -/
theorem within_secondBounds {a b : UInt8} (hlow : 0x80 ≤ b.toNat) (hhigh : b.toNat ≤ 0xBF)
    (he0 : a.toNat = 0xE0 → 0xA0 ≤ b.toNat) (hed : a.toNat = 0xED → b.toNat ≤ 0x9F)
    (hf0 : a.toNat = 0xF0 → 0x90 ≤ b.toNat) (hf4 : a.toNat = 0xF4 → b.toNat ≤ 0x8F) :
    ((secondBounds a).1 ≤ b && b ≤ (secondBounds a).2) = true := by
  have is (n : UInt8) : (a == n) = true ↔ a.toNat = n.toNat := by
    rw [beq_iff_eq, UInt8.toNat_inj]
  have he0' := is 0xE0
  have hed' := is 0xED
  have hf0' := is 0xF0
  have hf4' := is 0xF4
  rw [Bool.and_eq_true, decide_eq_true_eq, decide_eq_true_eq, UInt8.le_iff_toNat_le,
    UInt8.le_iff_toNat_le]
  unfold secondBounds
  split
  · next h => exact ⟨he0 (he0'.mp h), hhigh⟩
  · split
    · next h => exact ⟨hlow, hed (hed'.mp h)⟩
    · split
      · next h => exact ⟨hf0 (hf0'.mp h), hhigh⟩
      · split
        · next h => exact ⟨hlow, hf4 (hf4'.mp h)⟩
        · exact ⟨hlow, hhigh⟩

/-- The value of a byte. -/
theorem toNat_byte {n : Nat} (h : n < 256) : (UInt8.ofNat n).toNat = n := by
  rw [UInt8.toNat_ofNat']
  exact Nat.mod_eq_of_lt h

/-- A byte that carries six bits continues a character. -/
theorem isContinuation_byte {n : Nat} (h : n < 64) :
    isContinuation (UInt8.ofNat (n + 128)) = true := by
  have hbyte := toNat_byte (n := n + 128) (by omega)
  rw [isContinuation, Bool.and_eq_true, decide_eq_true_eq, decide_eq_true_eq,
    UInt8.le_iff_toNat_le, UInt8.le_iff_toNat_le, hbyte]
  exact ⟨Nat.le_add_left 128 n, Nat.lt_succ_iff.mp (Nat.add_lt_add_right h 128)⟩

/-- Its six bits are those that it carries. -/
theorem sixBits_byte {n : Nat} (h : n < 64) : sixBits (UInt8.ofNat (n + 128)) = n := by
  rw [sixBits, toNat_byte (by omega)]
  omega

/-- What the bytes of a character begin is that character, whatever follows. -/
theorem leading_utf8EncodeChar (c : Char) :
    ∃ lead tail, String.utf8EncodeChar c = lead :: tail ∧
      ∀ rest, leading lead (tail ++ rest) = .character c (tail.length + 1) := by
  have hval : c.val.toNat < 0xD800 ∨ 0xDFFF < c.val.toNat ∧ c.val.toNat < 0x110000 := c.valid
  have hc (n : Nat) (h : n = c.val.toNat) : Char.ofNat n = c := by
    rw [h]
    exact Char.ofNat_toNat c
  unfold String.utf8EncodeChar
  generalize c.val.toNat = v at *
  have k₀ := isContinuation_byte (n := v % 64) (by omega)
  have k₁ := isContinuation_byte (n := v / 64 % 64) (by omega)
  have s₀ := sixBits_byte (n := v % 64) (by omega)
  have s₁ := sixBits_byte (n := v / 64 % 64) (by omega)
  have s₂ := sixBits_byte (n := v / 4096 % 64) (by omega)
  have h₀ := toNat_byte (n := v % 64 + 128) (by omega)
  have h₁ := toNat_byte (n := v / 64 % 64 + 128) (by omega)
  have h₂ := toNat_byte (n := v / 4096 % 64 + 128) (by omega)
  dsimp only
  split
  · refine ⟨_, _, rfl, fun rest => ?_⟩
    have hlead := toNat_byte (n := v) (by omega)
    simp only [leading, hlead]
    rw [if_pos (by omega), hc v rfl]
    rfl
  · split
    · refine ⟨_, _, rfl, fun rest => ?_⟩
      have hlead := toNat_byte (n := v / 64 % 32 + 192) (by omega)
      have hsecond := within_secondBounds (a := UInt8.ofNat (v / 64 % 32 + 192))
        (b := UInt8.ofNat (v % 64 + 128)) (by omega) (by omega) (by omega) (by omega) (by omega)
        (by omega)
      simp only [leading, hlead, List.cons_append, List.nil_append, hsecond, s₀]
      rw [if_neg (by omega), if_neg (by simp; omega), if_neg (by simp), if_pos (by omega),
        hc _ (by omega)]
      rfl
    · split
      · refine ⟨_, _, rfl, fun rest => ?_⟩
        have hlead := toNat_byte (n := v / 4096 % 16 + 224) (by omega)
        have hsecond := within_secondBounds (a := UInt8.ofNat (v / 4096 % 16 + 224))
          (b := UInt8.ofNat (v / 64 % 64 + 128)) (by omega) (by omega) (by omega) (by omega) (by omega)
          (by omega)
        simp only [leading, hlead, List.cons_append, List.nil_append, hsecond, s₀, s₁, k₀]
        rw [if_neg (by omega), if_neg (by simp; omega), if_neg (by simp), if_neg (by omega),
          if_neg (by simp), if_pos (by omega), hc _ (by omega)]
        rfl
      · refine ⟨_, _, rfl, fun rest => ?_⟩
        have hlead := toNat_byte (n := v / 262144 % 8 + 240) (by omega)
        have hsecond := within_secondBounds (a := UInt8.ofNat (v / 262144 % 8 + 240))
          (b := UInt8.ofNat (v / 4096 % 64 + 128)) (by omega) (by omega) (by omega) (by omega) (by omega)
          (by omega)
        simp only [leading, hlead, List.cons_append, List.nil_append, hsecond, s₀, s₁, s₂, k₀, k₁]
        rw [if_neg (by omega), if_neg (by simp; omega), if_neg (by simp), if_neg (by omega),
          if_neg (by simp), if_neg (by omega), if_neg (by simp), hc _ (by omega)]
        rfl

/-- The bytes of a text decode to its characters. -/
theorem decodeUtf8List?_flatMap (cs : List Char) (place : Nat) :
    decodeUtf8List? (cs.flatMap String.utf8EncodeChar) place = .ok cs := by
  induction cs generalizing place with
  | nil => simp [decodeUtf8List?]
  | cons c rest ih =>
    obtain ⟨lead, tail, hbytes, hleading⟩ := leading_utf8EncodeChar c
    rw [List.flatMap_cons, hbytes, List.cons_append, decodeUtf8List?, hleading]
    simp [ih, Except.map]

/-- What was encoded decodes to the same text. -/
theorem decodeUtf8?_encodeUtf8 (s : String) : decodeUtf8? (encodeUtf8 s) = .ok s := by
  rw [decodeUtf8?, encodeUtf8_eq_flatMap, decodeUtf8List?_flatMap]
  simp [Except.map]

/-! ### Reading with replacements -/

/-- How many bytes belong together, as a character or as a broken part. -/
def Leading.size : Leading → Nat
  | .character _ n | .broken n => n

/-- The character that is read for them. -/
def Leading.shown : Leading → Char
  | .character c _ => c
  | .broken _ => replacement

theorem size_leading_le (lead : UInt8) (rest : List UInt8) :
    (leading lead rest).size ≤ rest.length + 1 := by
  unfold leading
  dsimp only
  repeat' split
  all_goals simp only [Leading.size, List.length_cons]
  all_goals omega

theorem decodeLossyList_cons (lead : UInt8) (rest : List UInt8) :
    decodeLossyList (lead :: rest)
      = (leading lead rest).shown :: decodeLossyList (rest.drop ((leading lead rest).size - 1)) := by
  rw [decodeLossyList]
  cases leading lead rest <;> rfl

/-- What some bytes begin does not depend on what comes after them, if that is a character of ASCII. -/
theorem leading_append_ascii {b : UInt8} (hb : b.toNat < 0x80) (lead : UInt8) (rest more : List UInt8) :
    leading lead (rest ++ b :: more) = leading lead rest := by
  have hbelow (low high : UInt8) (hlow : 0x80 ≤ low.toNat) : (low ≤ b && b ≤ high) = false := by
    rw [Bool.and_eq_false_iff, decide_eq_false_iff_not, UInt8.le_iff_toNat_le]
    left
    omega
  have hsecond : 0x80 ≤ (secondBounds lead).1.toNat := by
    unfold secondBounds
    repeat' split
    all_goals decide
  have hcontinues : isContinuation b = false := hbelow 0x80 0xBF (by decide)
  unfold leading
  -- Where a byte is missing, such a character breaks off what has begun just as the end does.
  match rest with
  | [] => simp [hbelow _ (secondBounds lead).2 hsecond]
  | [c] => simp [hcontinues]
  | [c, d] => simp [hcontinues]
  | c :: d :: e :: rest => rfl

/-- Bytes can be read apart where a character of ASCII begins. -/
theorem decodeLossyList_append_ascii {b : UInt8} (hb : b.toNat < 0x80) (bytes more : List UInt8) :
    decodeLossyList (bytes ++ b :: more) = decodeLossyList bytes ++ decodeLossyList (b :: more) := by
  induction hlength : bytes.length using Nat.strongRecOn generalizing bytes with
  | ind n ih =>
    cases bytes with
    | nil => simp [decodeLossyList]
    | cons lead rest =>
      have hsize := size_leading_le lead rest
      have hshorter : (rest.drop ((leading lead rest).size - 1)).length < n := by
        simp only [List.length_cons, List.length_drop] at hlength ⊢
        omega
      rw [List.cons_append, decodeLossyList_cons, leading_append_ascii hb,
        List.drop_append_of_le_length (by omega), ih _ hshorter _ rfl, decodeLossyList_cons lead rest,
        List.cons_append]

/-- A character of ASCII stands for itself. -/
theorem decodeLossyList_ascii {c : Char} (hc : c.toNat < 0x80) (more : List UInt8) :
    decodeLossyList (UInt8.ofNat c.toNat :: more) = c :: decodeLossyList more := by
  have hbyte := toNat_byte (n := c.toNat) (by omega)
  have hleading : leading (UInt8.ofNat c.toNat) more = .character c 1 := by
    simp only [leading, hbyte, if_pos hc, Char.ofNat_toNat]
  rw [decodeLossyList_cons, hleading]
  rfl

/-- The bytes of a text are read as its characters. -/
theorem decodeLossyList_flatMap (cs : List Char) :
    decodeLossyList (cs.flatMap String.utf8EncodeChar) = cs := by
  induction cs with
  | nil => simp [decodeLossyList]
  | cons c rest ih =>
    obtain ⟨lead, tail, hbytes, hleading⟩ := leading_utf8EncodeChar c
    rw [List.flatMap_cons, hbytes, List.cons_append, decodeLossyList_cons, hleading]
    simp [Leading.shown, Leading.size, ih]

/-- What was encoded is read as the same text. -/
theorem decodeLossy_encodeUtf8 (s : String) : decodeLossy (encodeUtf8 s) = s := by
  rw [decodeLossy, encodeUtf8_eq_flatMap, decodeLossyList_flatMap, String.ofList_toList]

end SourceTables.Text
