import Mathlib
import SourceTables.Html.Entity
import SourceTables.Proofs.Text.Line
import SourceTables.Proofs.Text.Replace

/-!
# `SourceTables.Proofs.Html.Entity`: named characters are read once

Reading goes through a text once. The same comes out when the names are replaced one after another, each
wherever it stands, but only in an order in which nothing is put in that a later name has in it. The name of
the ampersand is the last one for this reason: an ampersand that was put in would begin a name with what
follows it, and a text that was written twice would be read twice.

So a text is read back from the way it is written, whatever it looks like itself, but for the blanks at its
ends. These stay only where no character is written by its name, because then the text is not looked at.

The theorems:

* `decodeList_eq_resolve`: reading is replacing one name after another.
* `decodeList_encode`: what is written is read back.
* `decode_encode`: both, with what becomes of blanks at the ends.
-/

set_option autoImplicit false

namespace SourceTables.Html

/-! ### Names that are replaced one after another -/

/-- A name of a character, from its ampersand to its semicolon, and the character. -/
abbrev Reference := List Char × Char

/-- The names of characters, that of the ampersand last. -/
def references : List Reference :=
  [("&nbsp;".toList, ' '), ("&lt;".toList, '<'), ("&gt;".toList, '>'), ("&quot;".toList, '"'),
   ("&#39;".toList, '\''), ("&amp;".toList, '&')]

/-- A text with names replaced, one after another, wherever they stand. -/
def resolve (names : List Reference) (cs : List Char) : List Char :=
  names.foldl (fun cs name => Text.replace name.1 [name.2] cs) cs

@[simp] theorem resolve_nil (names : List Reference) : resolve names [] = [] := by
  induction names with
  | nil => rfl
  | cons name names ih =>
    rw [resolve, List.foldl_cons, Text.replace_nil]
    exact ih

/-- Whether names can be replaced one after another. -/
structure InOrder (names : List Reference) : Prop where
  /-- A name has an ampersand at its start and nowhere else. -/
  ampersand : ∀ name ∈ names, name.1.head? = some '&' ∧ '&' ∉ name.1.tail
  /-- No name begins with another one. -/
  apart : names.Pairwise fun earlier later => ¬ earlier.1 <+: later.1 ∧ ¬ later.1 <+: earlier.1
  /-- What is put in for a name stands in none of those after it. -/
  late : names.Pairwise fun earlier later => earlier.2 ∉ later.1

theorem inOrder_references : InOrder references where
  ampersand := by decide
  apart := by decide
  late := by decide

namespace InOrder

variable {name : Reference} {names : List Reference}

theorem tail (h : InOrder (name :: names)) : InOrder names where
  ampersand other hother := h.ampersand other (.tail _ hother)
  apart := (List.pairwise_cons.mp h.apart).2
  late := (List.pairwise_cons.mp h.late).2

theorem eq_cons (h : InOrder names) (hname : name ∈ names) :
    ∃ rest, name.1 = '&' :: rest ∧ '&' ∉ rest := by
  obtain ⟨hhead, htail⟩ := h.ampersand name hname
  obtain ⟨rest, hrest⟩ := List.head?_eq_some_iff.mp hhead
  rw [hrest] at htail
  exact ⟨rest, hrest, htail⟩

/-- A character at which no name stands is kept. -/
theorem resolve_cons (h : InOrder names) {c : Char} {rest : List Char}
    (hnone : ∀ name ∈ names, ¬ name.1 <+: c :: rest) :
    resolve names (c :: rest) = c :: resolve names rest := by
  induction names generalizing rest with
  | nil => rfl
  | cons name names ih =>
    have hlate := (List.pairwise_cons.mp h.late).1
    -- No later name comes to stand there, because what is put in has no part in it.
    have hstill : ∀ other ∈ names, ¬ other.1 <+: c :: Text.replace name.1 [name.2] rest := by
      intro other hother hstands
      obtain ⟨more, hmore, -⟩ := h.tail.eq_cons hother
      rw [hmore] at hstands
      obtain ⟨hc, hstands⟩ := List.cons_prefix_cons.mp hstands
      refine hnone other (.tail _ hother) ?_
      rw [hmore]
      refine List.cons_prefix_cons.mpr ⟨hc, Text.prefix_of_replace (by simp) (fun d hd hput => ?_) rest hstands⟩
      refine hlate other hother ?_
      rw [hmore, ← List.mem_singleton.mp hput]
      exact .tail _ hd
    calc resolve (name :: names) (c :: rest)
      _ = resolve names (c :: Text.replace name.1 [name.2] rest) :=
        congrArg (resolve names) (Text.replace_cons_of_not (hnone name (.head _)))
      _ = c :: resolve names (Text.replace name.1 [name.2] rest) := ih h.tail hstill

/-- A name is replaced by its character, and what follows is read apart from it. -/
theorem resolve_append (h : InOrder names) (hname : name ∈ names) (rest : List Char) :
    resolve names (name.1 ++ rest) = name.2 :: resolve names rest := by
  induction names generalizing rest with
  | nil => cases hname
  | cons first names ih =>
    obtain ⟨start, hstart, -⟩ := h.eq_cons (.head names)
    obtain rfl | hlater := List.mem_cons.mp hname
    · have hlate := (List.pairwise_cons.mp h.late).1
      have hne : name.1 ≠ [] := by simp [hstart]
      -- The character that is put in begins no later name.
      have hnone : ∀ other ∈ names, ¬ other.1 <+: name.2 :: Text.replace name.1 [name.2] rest := by
        intro other hother hstands
        obtain ⟨more, hmore, -⟩ := h.tail.eq_cons hother
        rw [hmore] at hstands
        refine hlate other hother ?_
        rw [hmore, (List.cons_prefix_cons.mp hstands).1]
        exact .head more
      calc resolve (name :: names) (name.1 ++ rest)
        _ = resolve names (name.2 :: Text.replace name.1 [name.2] rest) :=
          congrArg (resolve names) (Text.replace_append hne rest)
        _ = name.2 :: resolve names (Text.replace name.1 [name.2] rest) := h.tail.resolve_cons hnone
    · obtain ⟨hother, hother'⟩ := (List.pairwise_cons.mp h.apart).1 name hlater
      obtain ⟨more, hmore, hmem⟩ := h.eq_cons hname
      -- Of two names that a text starts with one would begin with the other.
      have hnot : ¬ first.1 <+: name.1 ++ rest := fun hstands =>
        (List.prefix_or_prefix_of_prefix hstands (List.prefix_append name.1 rest)).elim hother hother'
      have hkept : Text.replace first.1 [first.2] (name.1 ++ rest)
          = name.1 ++ Text.replace first.1 [first.2] rest := by
        rw [hmore, List.cons_append] at hnot ⊢
        rw [Text.replace_cons_of_not hnot, hstart, Text.replace_append_of_not_mem hmem, List.cons_append]
      calc resolve (first :: names) (name.1 ++ rest)
        _ = resolve names (name.1 ++ Text.replace first.1 [first.2] rest) :=
          congrArg (resolve names) hkept
        _ = name.2 :: resolve names (Text.replace first.1 [first.2] rest) := ih h.tail hlater _

end InOrder

/-! ### Reading once -/

/-- What stands behind an ampersand is the rest of a name just when a name stands there. -/
theorem entity?_eq_some {rest after : List Char} {c : Char} (h : entity? rest = some (c, after)) :
    ∃ name ∈ references, name.2 = c ∧ '&' :: rest = name.1 ++ after := by
  unfold entity? at h
  split at h <;> simp only [Option.some.injEq, Prod.mk.injEq, reduceCtorEq] at h
  all_goals
    obtain ⟨rfl, rfl⟩ := h
    simp [references]

theorem not_prefix_of_entity? {rest : List Char} (h : entity? rest = none) :
    ∀ name ∈ references, ¬ name.1 <+: '&' :: rest := by
  rintro name hname ⟨after, hafter⟩
  simp only [references, List.mem_cons, List.not_mem_nil, or_false] at hname
  obtain rfl | rfl | rfl | rfl | rfl | rfl := hname
  all_goals
    obtain rfl := (List.cons.inj hafter).2
    cases h

/-- Reading a text once is replacing one name after another. -/
theorem decodeList_eq_resolve (cs : List Char) : decodeList cs = resolve references cs := by
  fun_induction decodeList cs with
  | case1 => exact (resolve_nil references).symm
  | case2 rest named after hname ih =>
    obtain ⟨name, hmem, rfl, hstands⟩ := entity?_eq_some hname
    rw [ih, hstands, inOrder_references.resolve_append hmem]
  | case3 rest hnone ih =>
    rw [ih, inOrder_references.resolve_cons (not_prefix_of_entity? hnone)]
  | case4 c rest hc ih =>
    have hnone : ∀ name ∈ references, ¬ name.1 <+: c :: rest := by
      intro name hname hstands
      obtain ⟨more, hmore, -⟩ := inOrder_references.eq_cons hname
      rw [hmore] at hstands
      exact hc (List.cons_prefix_cons.mp hstands).1.symm
    rw [ih, inOrder_references.resolve_cons hnone]

/-! ### Writing -/

/-- The characters that are written by their names. -/
def named : List Char := ['&', '<', '>', '"', '\'']

theorem encodeChar_of_not_mem {c : Char} (h : c ∉ named) : encodeChar c = [c] := by
  simp only [named, List.mem_cons, List.not_mem_nil, or_false, not_or] at h
  obtain ⟨hampersand, hless, hgreater, hquote, happostrophe⟩ := h
  rw [encodeChar, if_neg hampersand, if_neg hless, if_neg hgreater, if_neg hquote, if_neg happostrophe]

theorem mem_references_of_mem_named {c : Char} (h : c ∈ named) : (encodeChar c, c) ∈ references := by
  simp only [named, List.mem_cons, List.not_mem_nil, or_false] at h
  obtain rfl | rfl | rfl | rfl | rfl := h
  all_goals decide

/-- An ampersand is written just for the characters that are written by their names. -/
theorem ampersand_mem_encode {cs : List Char} : '&' ∈ encode cs ↔ ∃ c ∈ cs, c ∈ named := by
  have hchar (c : Char) : '&' ∈ encodeChar c ↔ c ∈ named := by
    by_cases h : c ∈ named
    · obtain ⟨rest, hrest, -⟩ := inOrder_references.eq_cons (mem_references_of_mem_named h)
      rw [show encodeChar c = '&' :: rest from hrest]
      exact iff_of_true (.head rest) h
    · rw [encodeChar_of_not_mem h, List.mem_singleton]
      exact iff_of_false (fun heq => h (heq ▸ .head _)) h
  simp [encode, hchar]

/-- A text in which no character is written by its name stays as it is. -/
theorem encode_of_none {cs : List Char} (h : ¬ ∃ c ∈ cs, c ∈ named) : encode cs = cs := by
  induction cs with
  | nil => rfl
  | cons c rest ih =>
    have hc : c ∉ named := fun hmem => h ⟨c, .head _, hmem⟩
    have hrest := ih fun ⟨d, hd, hmem⟩ => h ⟨d, .tail _ hd, hmem⟩
    rw [encode] at hrest ⊢
    rw [List.flatMap_cons, encodeChar_of_not_mem hc, hrest, List.singleton_append]

/-- What is written for a character has no blank at either end if the character is none. -/
theorem isBlank_of_encodeChar {c d : Char} (hc : Text.isBlank c = false)
    (hd : (encodeChar c).head? = some d ∨ (encodeChar c).getLast? = some d) : Text.isBlank d = false := by
  by_cases h : c ∈ named
  · have hends : ∀ name ∈ references, name.1.head? = some '&' ∧ name.1.getLast? = some ';' := by decide
    obtain ⟨hhead, hlast⟩ := hends _ (mem_references_of_mem_named h)
    obtain hd | hd := hd
    · obtain rfl : '&' = d := Option.some.inj (hhead.symm.trans hd)
      decide
    · obtain rfl : ';' = d := Option.some.inj (hlast.symm.trans hd)
      decide
  · rw [encodeChar_of_not_mem h] at hd
    obtain rfl : c = d := by simpa using hd
    exact hc

/-- A trimmed text is written as one. -/
theorem trimList_encode {cs : List Char} (h : Text.trimList cs = cs) :
    Text.trimList (encode cs) = encode cs := by
  have hne (c : Char) : encodeChar c ≠ [] := by
    unfold encodeChar
    repeat' split
    all_goals simp
  rw [Text.trimList_eq_self_iff] at h ⊢
  obtain ⟨hfirst, hlast⟩ := h
  constructor
  · intro d hd
    cases cs with
    | nil => cases hd
    | cons c rest =>
      rw [encode, List.flatMap_cons, List.head?_append_of_ne_nil _ (hne c)] at hd
      exact isBlank_of_encodeChar (hfirst c rfl) (.inl hd)
  · intro d hd
    obtain rfl | ⟨init, c, rfl⟩ := List.eq_nil_or_concat' cs
    · cases hd
    · rw [encode, List.flatMap_append, List.flatMap_singleton, List.getLast?_append_of_ne_nil _ (hne c)] at hd
      exact isBlank_of_encodeChar (hlast c List.getLast?_concat) (.inr hd)

/-! ### Reading what was written -/

/-- What is written for a character is read as the character. -/
theorem decodeList_encodeChar (c : Char) (rest : List Char) :
    decodeList (encodeChar c ++ rest) = c :: decodeList rest := by
  by_cases h : c ∈ named
  · simp only [decodeList_eq_resolve]
    exact inOrder_references.resolve_append (mem_references_of_mem_named h) rest
  · have hc : c ≠ '&' := fun heq => h (heq ▸ .head _)
    rw [encodeChar_of_not_mem h, List.singleton_append, decodeList, if_neg hc]

/-- What is written is read back. -/
theorem decodeList_encode (cs : List Char) : decodeList (encode cs) = cs := by
  induction cs with
  | nil => rw [encode, List.flatMap_nil, decodeList]
  | cons c rest ih =>
    rw [encode] at ih ⊢
    rw [List.flatMap_cons, decodeList_encodeChar, ih]

/-- A text comes back from the way it is written, trimmed if a character of it is written by its name. -/
theorem decode_encode_eq (cs : List Char) :
    decode (encode cs) = if ∃ c ∈ cs, c ∈ named then Text.trimList cs else cs := by
  by_cases h : ∃ c ∈ cs, c ∈ named
  · rw [if_pos h, decode, if_pos (List.contains_iff_mem.mpr (ampersand_mem_encode.mpr h)), decodeList_encode]
  · have hmem : ¬ (encode cs).contains '&' = true := fun hmem =>
      h (ampersand_mem_encode.mp (List.contains_iff_mem.mp hmem))
    rw [if_neg h, decode, if_neg hmem, encode_of_none h]

theorem decode_encode_of_trimmed {cs : List Char} (h : Text.trimList cs = cs) : decode (encode cs) = cs := by
  rw [decode_encode_eq, h, ite_self]

/-- A text without blanks at its ends is read back from the way it is written, whatever it looks like itself,
and so it is when it was written several times, if it is read as often. Blanks at the ends are kept if no
character is written by its name, and lost otherwise. This is how all texts are read: one that has an
ampersand has its names replaced one after another, that of the ampersand last, and is trimmed; any other is
kept as it is. -/
theorem decode_encode :
    (∀ cs : List Char, Text.trimList cs = cs → decode (encode cs) = cs) ∧
    (∀ (times : Nat) (cs : List Char), Text.trimList cs = cs → decode^[times] (encode^[times] cs) = cs) ∧
    (∀ cs : List Char, decode (encode cs) = if ∃ c ∈ cs, c ∈ named then Text.trimList cs else cs) ∧
    ∀ cs : List Char,
      decode cs = if '&' ∈ cs then Text.trimList (resolve references cs) else cs := by
  refine ⟨fun cs => decode_encode_of_trimmed, ?_, decode_encode_eq, ?_⟩
  · intro times
    induction times with
    | zero => exact fun cs _ => rfl
    | succ times ih =>
      intro cs h
      rw [Function.iterate_succ_apply', Function.iterate_succ_apply, ih _ (trimList_encode h),
        decode_encode_of_trimmed h]
  · intro cs
    simp only [decode, List.contains_iff_mem, decodeList_eq_resolve]

/-- A text that looks like the name of a name. -/
theorem decode_encode_nested :
    let text := "&amp;lt; 'a' & \"b\"".toList
    Text.trimList text = text ∧ decode (encode text) = text ∧ decode^[3] (encode^[3] text) = text := by
  have h : Text.trimList "&amp;lt; 'a' & \"b\"".toList = "&amp;lt; 'a' & \"b\"".toList := by decide
  exact ⟨h, decode_encode.1 _ h, decode_encode.2.1 3 _ h⟩

end SourceTables.Html
