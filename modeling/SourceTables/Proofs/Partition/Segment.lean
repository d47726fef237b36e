import SourceTables.Partition.Segment
import SourceTables.Proofs.Text.Utf8

/-!
# `SourceTables.Proofs.Partition.Segment`: escaped directory names are read back

A name that tells a key and its value may have any character of the two written as the escapes of its bytes.
Some have to be: each `%`, which would begin an escape, and each `=` of the key, at which the name would be
cut. Reading goes byte by byte, so a character that takes several bytes is put together again from as many
escapes, and what has been read is not read once more.

A `%` that no two digits follow begins no escape. Nor does it stand in one, since it is no digit itself. So the
bytes before it and after it can be read apart, and the same is true of the characters, because a character of
ASCII is never a part of another one.

The theorems:

* `unescape_of_escapes`: an escaped text is read back, whichever of its characters are escaped.
* `unescape_percent`, `unescape_of_kept`: what begins no escape is kept.
* `parse?_eq_none_iff`: which names tell no key.
* `parse?_written`: all of this for names of directories.
-/

set_option autoImplicit false

namespace SourceTables.Segment

/-! ### Escapes -/

/-- The characters that a number below sixteen is written with: its hexadecimal digit in either case. -/
def IsDigitOf (n : Nat) (c : Char) : Prop := c = n.digitChar ∨ c = n.digitChar.toUpper

instance (n : Nat) (c : Char) : Decidable (IsDigitOf n c) :=
  inferInstanceAs (Decidable (c = n.digitChar ∨ c = n.digitChar.toUpper))

/-- Bytes and their escapes: `%` and the two digits of each. -/
inductive EscapesBytes : (bytes : List UInt8) → (written : List Char) → Prop
  | nil : EscapesBytes [] []
  | cons {b : UInt8} {high low : Char} {bytes : List UInt8} {written : List Char}
    (hhigh : IsDigitOf (b.toNat / 16) high) (hlow : IsDigitOf (b.toNat % 16) low)
    (hrest : EscapesBytes bytes written) : EscapesBytes (b :: bytes) ('%' :: high :: low :: written)

/-- A text and what it is written as: some characters, and all those that have to be, as the escapes of
their bytes, and the others as they are. -/
inductive Escapes (must : Char → Prop) : (text written : List Char) → Prop
  | nil : Escapes must [] []
  | plain {c : Char} {text written : List Char} (hc : ¬ must c) (hrest : Escapes must text written) :
    Escapes must (c :: text) (c :: written)
  | escaped {c : Char} {text codes written : List Char}
    (hcodes : EscapesBytes (String.utf8EncodeChar c) codes) (hrest : Escapes must text written) :
    Escapes must (c :: text) (codes ++ written)

/-- What has to be escaped in a value. -/
def InValue (c : Char) : Prop := c = '%'

/-- What has to be escaped in a key. -/
def InKey (c : Char) : Prop := c = '%' ∨ c = '='

instance (c : Char) : Decidable (InValue c) := inferInstanceAs (Decidable (c = '%'))

instance (c : Char) : Decidable (InKey c) := inferInstanceAs (Decidable (c = '%' ∨ c = '='))

/-- Whether a character is a hexadecimal digit. -/
def IsDigit (c : Char) : Prop := ∃ n < 16, IsDigitOf n c

instance (c : Char) : Decidable (IsDigit c) :=
  decidable_of_iff ((List.range 16).any fun n => IsDigitOf n c) (by simp [IsDigit])

/-- Whether a text starts with two digits, so that a `%` before it begins an escape. -/
def StartsWithDigits : List Char → Prop
  | high :: low :: _ => IsDigit high ∧ IsDigit low
  | _ => False

instance (cs : List Char) : Decidable (StartsWithDigits cs) :=
  match cs with
  | high :: low :: _ => inferInstanceAs (Decidable (IsDigit high ∧ IsDigit low))
  | [] | [_] => inferInstanceAs (Decidable False)

/-- Whether no `%` of a text begins an escape. -/
def IsKept : List Char → Prop
  | [] => True
  | c :: rest => (c = '%' → ¬ StartsWithDigits rest) ∧ IsKept rest

/-- Going through a text tells whether it is kept. -/
def decidableIsKept : (cs : List Char) → Decidable (IsKept cs)
  | [] => .isTrue trivial
  | c :: rest =>
    have := decidableIsKept rest
    inferInstanceAs (Decidable ((c = '%' → ¬ StartsWithDigits rest) ∧ IsKept rest))

instance (cs : List Char) : Decidable (IsKept cs) := decidableIsKept cs

/-! ### Digits -/

/-- A digit is one byte, which is read as the digit's number. -/
theorem digit_of_isDigitOf {n : Nat} (hn : n < 16) {c : Char} (hc : IsDigitOf n c) :
    c.toNat < 0x80 ∧ c ≠ '=' ∧ hexValue? (UInt8.ofNat c.toNat) = some (UInt8.ofNat n) := by
  have digits : ∀ m : Fin 16,
      (m.val.digitChar.toNat < 0x80 ∧ m.val.digitChar ≠ '=' ∧
        hexValue? (UInt8.ofNat m.val.digitChar.toNat) = some (UInt8.ofNat m.val)) ∧
      (m.val.digitChar.toUpper.toNat < 0x80 ∧ m.val.digitChar.toUpper ≠ '=' ∧
        hexValue? (UInt8.ofNat m.val.digitChar.toUpper.toNat) = some (UInt8.ofNat m.val)) := by decide
  rcases hc with rfl | rfl
  · exact (digits ⟨n, hn⟩).1
  · exact (digits ⟨n, hn⟩).2

/-- A byte of ASCII that is read as a digit is one. -/
theorem isDigit_of_hexValue? {c : Char} (hc : c.toNat < 0x80)
    (h : (hexValue? (UInt8.ofNat c.toNat)).isSome = true) : IsDigit c := by
  have table : ∀ m : Fin 0x80, (hexValue? (UInt8.ofNat m.val)).isSome = true →
      IsDigit (Char.ofNat m.val) := by decide +kernel
  have hdigit := table ⟨c.toNat, hc⟩ h
  rwa [Char.ofNat_toNat] at hdigit

theorem hexValue?_eq_none {b : UInt8} (hb : 0x80 ≤ b.toNat) : hexValue? b = none := by
  have above (n : UInt8) (hn : n.toNat < 0x80) : (b ≤ n) = False := by
    rw [UInt8.le_iff_toNat_le, eq_iff_iff, iff_false]
    omega
  simp only [hexValue?, above 57 (by decide), above 70 (by decide), above 102 (by decide)]
  simp

/-- The first byte of a character is a digit just when the character is, and then it is all of it. -/
theorem first_byte (c : Char) : ∃ b bytes, String.utf8EncodeChar c = b :: bytes ∧
    ((hexValue? b).isSome = true → IsDigit c ∧ bytes = []) := by
  by_cases hascii : c.toNat < 0x80
  · exact ⟨_, [], Text.utf8EncodeChar_ascii hascii, fun h => ⟨isDigit_of_hexValue? hascii h, rfl⟩⟩
  · obtain ⟨b, bytes, hbytes⟩ := List.exists_cons_of_ne_nil (String.utf8EncodeChar_ne_nil (c := c))
    have hb := Text.le_of_mem_utf8EncodeChar (Nat.le_of_not_lt hascii) (hbytes ▸ List.mem_cons_self)
    exact ⟨b, bytes, hbytes, fun h => by rw [hexValue?_eq_none hb] at h; cases h⟩

/-- No byte of another character is a `%`. -/
theorem ne_percent_of_mem {c : Char} (hc : c ≠ '%') {b : UInt8} (hb : b ∈ String.utf8EncodeChar c) :
    b ≠ 0x25 := by
  rintro rfl
  by_cases hascii : c.toNat < 0x80
  · rw [Text.utf8EncodeChar_ascii hascii, List.mem_singleton, ← UInt8.toNat_inj, UInt8.toNat_ofNat',
      Nat.mod_eq_of_lt (by omega)] at hb
    exact hc (Char.toNat_inj.mp hb.symm)
  · have hle := Text.le_of_mem_utf8EncodeChar (Nat.le_of_not_lt hascii) hb
    exact absurd hle (by decide)

/-! ### Bytes that are read -/

/-- Whether bytes start with two digits. -/
def startsWithDigits : List UInt8 → Bool
  | high :: low :: _ => (hexValue? high).isSome && (hexValue? low).isSome
  | _ => false

theorem of_startsWithDigits {b : UInt8} {more : List UInt8} (h : startsWithDigits (b :: more) = true) :
    (hexValue? b).isSome = true ∧ ∃ b' more', more = b' :: more' ∧ (hexValue? b').isSome = true := by
  cases more with
  | nil => cases h
  | cons b' more =>
    rw [startsWithDigits, Bool.and_eq_true] at h
    exact ⟨h.1, b', more, rfl, h.2⟩

theorem unescapeBytes_cons {b : UInt8} (hb : b ≠ 0x25) (rest : List UInt8) :
    unescapeBytes (b :: rest) = b :: unescapeBytes rest := by
  rw [unescapeBytes]
  intro high low rest' h
  exact absurd h hb

theorem unescapeBytes_plain {bytes : List UInt8} (h : ∀ b ∈ bytes, b ≠ 0x25) (rest : List UInt8) :
    unescapeBytes (bytes ++ rest) = bytes ++ unescapeBytes rest := by
  induction bytes with
  | nil => rfl
  | cons b bytes ih =>
    rw [List.cons_append, unescapeBytes_cons (h b (.head _)), ih fun b hb => h b (.tail _ hb),
      List.cons_append]

theorem unescapeBytes_percent {rest : List UInt8} (h : startsWithDigits rest = false) :
    unescapeBytes (0x25 :: rest) = 0x25 :: unescapeBytes rest := by
  match rest with
  | [] => rfl
  | [_] => rfl
  | high :: low :: rest =>
    unfold startsWithDigits at h
    rw [unescapeBytes]
    split
    · next hhigh hlow => simp [hhigh, hlow] at h
    · rfl

/-- Bytes can be read apart where a `%` begins no escape. -/
theorem unescapeBytes_append {after : List UInt8} (h : startsWithDigits after = false)
    (before : List UInt8) :
    unescapeBytes (before ++ 0x25 :: after) = unescapeBytes before ++ 0x25 :: unescapeBytes after := by
  have hpercent : hexValue? 0x25 = none := by decide
  fun_induction unescapeBytes before with
  | case1 high low rest h l hhigh hlow ih =>
    simp only [List.cons_append]
    rw [unescapeBytes, hhigh, hlow]
    exact congrArg _ ih
  | case2 high low rest hnone ih =>
    have hkept : startsWithDigits (high :: low :: (rest ++ 0x25 :: after)) = false := by
      show ((hexValue? high).isSome && (hexValue? low).isSome) = false
      cases hhigh : hexValue? high with
      | none => rfl
      | some h =>
        cases hlow : hexValue? low with
        | none => rfl
        | some l => exact absurd hlow (hnone h l hhigh)
    simp only [List.cons_append] at ih ⊢
    rw [unescapeBytes_percent hkept, ih]
  | case3 b rest hshort ih =>
    rw [List.cons_append, List.cons_append, ← ih]
    by_cases hb : b = 0x25
    · -- At most one byte is left of `before`, and the `%` after it is no digit.
      subst hb
      refine unescapeBytes_percent ?_
      match rest with
      | [] => cases after <;> simp [startsWithDigits, hpercent]
      | [c] => simp [startsWithDigits, hpercent]
      | high :: low :: rest => exact absurd rfl (hshort high low rest rfl)
    · exact unescapeBytes_cons hb _
  | case4 => exact unescapeBytes_percent h

/-- The escapes of bytes are read as these bytes. -/
theorem unescapeBytes_escapes {bytes : List UInt8} {written : List Char} (h : EscapesBytes bytes written)
    (rest : List UInt8) :
    unescapeBytes (written.flatMap String.utf8EncodeChar ++ rest) = bytes ++ unescapeBytes rest := by
  induction h with
  | nil => rfl
  | @cons b high low bytes written hhigh hlow hrest ih =>
    have hb := b.toNat_lt
    obtain ⟨hhighAscii, -, hhighValue⟩ := digit_of_isDigitOf (by omega) hhigh
    obtain ⟨hlowAscii, -, hlowValue⟩ := digit_of_isDigitOf (by omega) hlow
    have hbyte : UInt8.ofNat (b.toNat / 16) * 16 + UInt8.ofNat (b.toNat % 16) = b := by
      rw [← UInt8.toNat_inj]
      simp
      omega
    have hcodes : ('%' :: high :: low :: written).flatMap String.utf8EncodeChar ++ rest
        = 0x25 :: UInt8.ofNat high.toNat :: UInt8.ofNat low.toNat
          :: (written.flatMap String.utf8EncodeChar ++ rest) := by
      simp only [List.flatMap_cons, Text.utf8EncodeChar_ascii hhighAscii,
        Text.utf8EncodeChar_ascii hlowAscii]
      rfl
    rw [hcodes, unescapeBytes, hhighValue, hlowValue, ih]
    simp only [hbyte, List.cons_append]

/-- The bytes of an escaped text are read as the bytes of the text. -/
theorem unescapeBytes_of_escapes {must : Char → Prop} (hmust : must '%') {text written : List Char}
    (h : Escapes must text written) :
    unescapeBytes (written.flatMap String.utf8EncodeChar) = text.flatMap String.utf8EncodeChar := by
  induction h with
  | nil => rfl
  | @plain c text written hc hrest ih =>
    have hne : c ≠ '%' := fun heq => hc (heq ▸ hmust)
    rw [List.flatMap_cons, unescapeBytes_plain fun b hb => ne_percent_of_mem hne hb, ih, List.flatMap_cons]
  | @escaped c text codes written hcodes hrest ih =>
    rw [List.flatMap_append, unescapeBytes_escapes hcodes, ih, List.flatMap_cons]

/-- The bytes of a text start with two digits only if the text does. -/
theorem startsWithDigits_flatMap {cs : List Char}
    (h : startsWithDigits (cs.flatMap String.utf8EncodeChar) = true) : StartsWithDigits cs := by
  cases cs with
  | nil => cases h
  | cons c rest =>
    obtain ⟨b, bytes, hbytes, hdigit⟩ := first_byte c
    rw [List.flatMap_cons, hbytes] at h
    obtain ⟨hsome, b₂, more, hmore, hsome₂⟩ := of_startsWithDigits h
    obtain ⟨hc, rfl⟩ := hdigit hsome
    -- The digit is one byte, so that the second byte is the first one of the next character.
    cases rest with
    | nil => cases hmore
    | cons d rest =>
      obtain ⟨b', bytes', hbytes', hdigit'⟩ := first_byte d
      have hmore : (d :: rest).flatMap String.utf8EncodeChar = b₂ :: more := hmore
      rw [List.flatMap_cons, hbytes', List.cons_append, List.cons.injEq] at hmore
      exact ⟨hc, (hdigit' (hmore.1 ▸ hsome₂)).1⟩

/-! ### Texts that are read -/

/-- An escaped text is read back. -/
theorem unescape_of_escapes {must : Char → Prop} (hmust : must '%') {text : String} {written : List Char}
    (h : Escapes must text.toList written) : unescape (String.ofList written) = text := by
  rw [unescape, Text.encodeUtf8_eq_flatMap, String.toList_ofList, unescapeBytes_of_escapes hmust h,
    ← Text.encodeUtf8_eq_flatMap, Text.decodeLossy_encodeUtf8]

/-- A `%` that begins no escape is kept, and what stands before and after it is read apart. -/
theorem unescape_percent {after : String} (h : ¬ StartsWithDigits after.toList) (before : String) :
    unescape (before ++ "%" ++ after) = unescape before ++ "%" ++ unescape after := by
  have hbytes : Text.encodeUtf8 (before ++ "%" ++ after)
      = Text.encodeUtf8 before ++ 0x25 :: Text.encodeUtf8 after := by
    simp only [Text.encodeUtf8_eq_flatMap, String.toList_append, List.flatMap_append]
    rw [List.append_assoc]
    rfl
  have hdigits : startsWithDigits (Text.encodeUtf8 after) = false := by
    rw [Text.encodeUtf8_eq_flatMap]
    exact Bool.eq_false_iff.mpr fun hstarts => h (startsWithDigits_flatMap hstarts)
  rw [← String.toList_inj, unescape, hbytes, unescapeBytes_append hdigits, Text.decodeLossy,
    Text.decodeLossyList_append_ascii (by decide), show (0x25 : UInt8) = UInt8.ofNat '%'.toNat from rfl,
    Text.decodeLossyList_ascii (by decide)]
  simp [unescape, Text.decodeLossy]

/-- A text in which no `%` begins an escape is read as it is. -/
theorem unescape_of_kept {s : String} (h : IsKept s.toList) : unescape s = s := by
  have hbytes : unescapeBytes (Text.encodeUtf8 s) = Text.encodeUtf8 s := by
    rw [Text.encodeUtf8_eq_flatMap]
    generalize s.toList = cs at h
    induction cs with
    | nil => rfl
    | cons c rest ih =>
      by_cases hc : c = '%'
      · have hdigits : startsWithDigits (rest.flatMap String.utf8EncodeChar) = false :=
          Bool.eq_false_iff.mpr fun hstarts => h.1 hc (startsWithDigits_flatMap hstarts)
        subst hc
        show unescapeBytes (0x25 :: rest.flatMap String.utf8EncodeChar) = _
        rw [unescapeBytes_percent hdigits, ih h.2]
        rfl
      · rw [List.flatMap_cons, unescapeBytes_plain fun b hb => ne_percent_of_mem hc hb, ih h.2]
  rw [unescape, hbytes, Text.decodeLossy_encodeUtf8]

/-! ### Names of directories -/

/-- A name is cut at its first `=`. -/
theorem parse?_eq {key : List Char} (hkey : '=' ∉ key) (value : List Char) :
    parse? (String.ofList (key ++ '=' :: value)) =
      if key = [] then none else some ⟨unescape (String.ofList key), unescape (String.ofList value)⟩ := by
  have htake : (key ++ '=' :: value).takeWhile (· != '=') = key := by
    rw [List.takeWhile_append_of_pos]
    · simp
    · intro c hc
      simpa using fun heq : c = '=' => hkey (heq ▸ hc)
  simp only [parse?, String.toList_ofList, htake, List.drop_left]
  cases key <;> simp

/-- A name tells no key just when it has no `=` or starts with it. -/
theorem parse?_eq_none_iff (name : String) :
    parse? name = none ↔ '=' ∉ name.toList ∨ name.toList.head? = some '=' := by
  rw [← String.ofList_toList (s := name), String.toList_ofList]
  generalize name.toList = cs
  by_cases hmem : '=' ∈ cs
  · obtain ⟨key, value, rfl, hkey⟩ := List.eq_append_cons_of_mem hmem
    rw [parse?_eq hkey, or_iff_right (not_not_intro hmem)]
    cases key with
    | nil => simp
    | cons c key =>
      have hc : c ≠ '=' := fun heq => hkey (heq ▸ List.mem_cons_self)
      simp [hc]
  · have hall : (cs ++ []).takeWhile (· != '=') = cs ++ [] :=
      List.takeWhile_append_of_pos fun c hc => by
        simpa using fun heq : c = '=' => hmem (heq ▸ hc)
    rw [List.append_nil] at hall
    simp [parse?, hall, hmem]

/-- What a key is written as has no `=` in it, and something if the key has. -/
theorem cuts_of_escapes {text written : List Char} (h : Escapes InKey text written) :
    '=' ∉ written ∧ (text ≠ [] → written ≠ []) := by
  have hcodes {bytes : List UInt8} {codes : List Char} (h : EscapesBytes bytes codes) :
      '=' ∉ codes ∧ (bytes ≠ [] → codes ≠ []) := by
    induction h with
    | nil => simp
    | @cons b high low bytes written hhigh hlow hrest ih =>
      have hb := b.toNat_lt
      have hhighNe := (digit_of_isDigitOf (by omega) hhigh).2.1
      have hlowNe := (digit_of_isDigitOf (by omega) hlow).2.1
      simp [ih.1, hhighNe.symm, hlowNe.symm]
  induction h with
  | nil => simp
  | @plain c text written hc hrest ih =>
    have hne : c ≠ '=' := fun heq => hc (.inr heq)
    simp [ih.1, hne.symm]
  | @escaped c text codes written hcode hrest ih =>
    obtain ⟨hmem, hne⟩ := hcodes hcode
    refine ⟨by simp [hmem, ih.1], fun _ => ?_⟩
    simp [hne String.utf8EncodeChar_ne_nil]

/-- A key and a value are read back from a name that is made of them, whichever characters are escaped. A
name tells none just when it has no `=` or starts with it. Whatever name tells a key, the parts on both sides
of the `=` are read, in which a `%` that begins no escape is kept. -/
theorem parse?_written :
    (∀ (key value : String) (writtenKey writtenValue : List Char), key ≠ "" →
      Escapes InKey key.toList writtenKey → Escapes InValue value.toList writtenValue →
      parse? (String.ofList (writtenKey ++ '=' :: writtenValue)) = some ⟨key, value⟩) ∧
    (∀ name : String, parse? name = none ↔ '=' ∉ name.toList ∨ name.toList.head? = some '=') ∧
    (∀ key value : String, key ≠ "" → '=' ∉ key.toList →
      parse? (key ++ "=" ++ value) = some ⟨unescape key, unescape value⟩) ∧
    (∀ before after : String, ¬ StartsWithDigits after.toList →
      unescape (before ++ "%" ++ after) = unescape before ++ "%" ++ unescape after) ∧
    ∀ s : String, IsKept s.toList → unescape s = s := by
  refine ⟨?_, parse?_eq_none_iff, ?_, fun before after h => unescape_percent h before,
    fun s => unescape_of_kept⟩
  · intro key value writtenKey writtenValue hne hkey hvalue
    obtain ⟨hmem, hwritten⟩ := cuts_of_escapes hkey
    have hnonempty : writtenKey ≠ [] := hwritten fun h => hne (String.toList_eq_nil_iff.mp h)
    rw [parse?_eq hmem, if_neg hnonempty, unescape_of_escapes (.inl rfl) hkey,
      @unescape_of_escapes InValue rfl _ _ hvalue]
  · intro key value hne hmem
    have hnonempty : key.toList ≠ [] := fun h => hne (String.toList_eq_nil_iff.mp h)
    have hname : key ++ "=" ++ value = String.ofList (key.toList ++ '=' :: value.toList) := by
      rw [← String.toList_inj]
      simp
    rw [hname, parse?_eq hmem, if_neg hnonempty, String.ofList_toList, String.ofList_toList]

/-- A key with an `=` and a value with a character of two bytes; an escape behind one that is cut short, and
a value with none. -/
theorem parse?_written_umlaut :
    ("a=b" ≠ "" ∧ Escapes InKey "a=b".toList "a%3Db".toList ∧
        Escapes InValue "ü=%41".toList "%c3%BC=%25%341".toList ∧
        parse? "a%3Db=%c3%BC=%25%341" = some ⟨"a=b", "ü=%41"⟩) ∧
      ("k" ≠ "" ∧ '=' ∉ "k".toList ∧ parse? ("k" ++ "=" ++ "5%zz%4") = some ⟨"k", "5%zz%4"⟩) ∧
      (¬ StartsWithDigits "4%41".toList ∧
        unescape ("5" ++ "%" ++ "4%41") = unescape "5" ++ "%" ++ unescape "4%41") ∧
      IsKept "5%zz%4".toList := by
  have hkey : Escapes InKey "a=b".toList "a%3Db".toList := by
    show Escapes InKey ['a', '=', 'b'] ('a' :: (['%', '3', 'D'] ++ ['b']))
    exact .plain (by decide) (.escaped (.cons (by decide) (by decide) .nil) (.plain (by decide) .nil))
  have hvalue : Escapes InValue "ü=%41".toList "%c3%BC=%25%341".toList := by
    show Escapes InValue ['ü', '=', '%', '4', '1']
      (['%', 'c', '3', '%', 'B', 'C'] ++ ('=' :: (['%', '2', '5'] ++ (['%', '3', '4'] ++ ['1']))))
    exact .escaped (.cons (by decide) (by decide) (.cons (by decide) (by decide) .nil))
      (.plain (by decide) (.escaped (.cons (by decide) (by decide) .nil)
        (.escaped (.cons (by decide) (by decide) .nil) (.plain (by decide) .nil))))
  obtain ⟨hread, -, hparts, hpercent, hkept⟩ := parse?_written
  have hvalueKept : IsKept "5%zz%4".toList := by decide
  have hcut : ¬ StartsWithDigits "4%41".toList := by decide
  have hsame : parse? ("k" ++ "=" ++ "5%zz%4") = some ⟨"k", "5%zz%4"⟩ := by
    rw [hparts "k" _ (by decide) (by decide), hkept "k" (by decide), hkept _ hvalueKept]
  exact ⟨⟨by decide, hkey, hvalue, hread _ _ _ _ (by decide) hkey hvalue⟩,
    ⟨by decide, by decide, hsame⟩, ⟨hcut, hpercent "5" "4%41" hcut⟩, hvalueKept⟩

end SourceTables.Segment
