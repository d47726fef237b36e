import SourceTables.Text.Blank

/-!
# `SourceTables.Html.Entity`: named characters

Six characters can be written by name or number: a blank, the angle brackets, both quotes and the
ampersand. Anything else that starts with an ampersand stands for itself.

`decode` reads, `encode` writes.
-/

set_option autoImplicit false

namespace SourceTables.Html

/-- A character by its name, and what follows, given what follows an ampersand. -/
def entity? : List Char → Option (Char × List Char)
  | 'n' :: 'b' :: 's' :: 'p' :: ';' :: rest => some (' ', rest)
  | 'l' :: 't' :: ';' :: rest => some ('<', rest)
  | 'g' :: 't' :: ';' :: rest => some ('>', rest)
  | 'q' :: 'u' :: 'o' :: 't' :: ';' :: rest => some ('"', rest)
  | '#' :: '3' :: '9' :: ';' :: rest => some ('\'', rest)
  | 'a' :: 'm' :: 'p' :: ';' :: rest => some ('&', rest)
  | _ => none

/-- What follows a named character is shorter than what it stands in. -/
theorem length_of_entity? (cs : List Char) (c : Char) (rest : List Char)
    (h : entity? cs = some (c, rest)) : rest.length < cs.length := by
  unfold entity? at h
  split at h <;> simp at h <;> obtain ⟨-, rfl⟩ := h <;> simp <;> omega

/-- A text with its named characters read. -/
def decodeList (cs : List Char) : List Char :=
  match cs with
  | [] => []
  | c :: rest =>
    if c = '&' then
      match _h : entity? rest with
      | some (named, after) => named :: decodeList after
      | none => c :: decodeList rest
    else c :: decodeList rest
termination_by cs.length
decreasing_by
  · have := length_of_entity? rest named after _h
    simp; omega
  · simp
  · simp

/-- A text with its named characters read. A text that has an ampersand is trimmed. -/
def decode (cs : List Char) : List Char :=
  if cs.contains '&' then Text.trimList (decodeList cs) else cs

/-- How a character is written. -/
def encodeChar (c : Char) : List Char :=
  if c = '&' then "&amp;".toList
  else if c = '<' then "&lt;".toList
  else if c = '>' then "&gt;".toList
  else if c = '"' then "&quot;".toList
  else if c = '\'' then "&#39;".toList
  else [c]

/-- A text with its special characters written by name or number. -/
def encode (cs : List Char) : List Char := cs.flatMap encodeChar

end SourceTables.Html
