import Mathlib.Data.List.Infix

/-!
# `SourceTables.Proofs.Text.Replace`: a word replaced wherever it stands

A text is searched for a word from the left. Where the word stands, another one is put in its place, and the
search goes on behind it, so what has been put in is not searched.

Nothing new comes to stand in a text in this way that is made of other characters than those that are put in:
what starts there with none of them has started there before.

The theorems:

* `replace_append`, `replace_cons_of_not`: a step at which the word stands, and one at which it does not.
* `prefix_of_replace`: what a text starts with has been there before.
* `length_replace_lt`: replacing by a shorter word shortens a text in which the word stands.
-/

set_option autoImplicit false

namespace SourceTables.Text

/-- A text with a word replaced wherever it stands. No place is left between the characters of a word, so
the empty word is not searched for. -/
def replace (word new cs : List Char) : List Char :=
  match cs with
  | [] => []
  | c :: rest =>
    if word ≠ [] ∧ word <+: c :: rest then new ++ replace word new ((c :: rest).drop word.length)
    else c :: replace word new rest
termination_by cs.length
decreasing_by
  · next h =>
    have hpos := List.length_pos_iff.mpr h.1
    rw [List.length_drop, List.length_cons]
    omega
  · exact Nat.lt_succ_self _

variable {word new : List Char}

@[simp] theorem replace_nil (word new : List Char) : replace word new [] = [] := by
  rw [replace]

/-- A word that stands at the start is replaced. -/
theorem replace_append (hword : word ≠ []) (rest : List Char) :
    replace word new (word ++ rest) = new ++ replace word new rest := by
  obtain ⟨c, more, rfl⟩ := List.exists_cons_of_ne_nil hword
  have hstands : c :: more ≠ [] ∧ c :: more <+: c :: (more ++ rest) := ⟨hword, rest, rfl⟩
  rw [List.cons_append, replace, if_pos hstands]
  simp

/-- Where the word does not stand, a character is kept. -/
theorem replace_cons_of_not {c : Char} {rest : List Char} (h : ¬ word <+: c :: rest) :
    replace word new (c :: rest) = c :: replace word new rest := by
  rw [replace, if_neg fun hstands => h hstands.2]

/-- Characters other than the first one of the word are kept. -/
theorem replace_append_of_not_mem {first : Char} {more kept : List Char} (h : first ∉ kept)
    (rest : List Char) :
    replace (first :: more) new (kept ++ rest) = kept ++ replace (first :: more) new rest := by
  induction kept with
  | nil => rfl
  | cons c kept ih =>
    have hstart : ¬ first :: more <+: c :: (kept ++ rest) := fun hstands =>
      h ((List.cons_prefix_cons.mp hstands).1 ▸ .head kept)
    rw [List.cons_append, replace_cons_of_not hstart, ih fun hmem => h (.tail c hmem), List.cons_append]

/-- What a text starts with after replacing, if it has none of the characters put in, it has started with
before. -/
theorem prefix_of_replace (hnew : new ≠ []) {start : List Char} (hstart : ∀ c ∈ start, c ∉ new)
    (cs : List Char) (h : start <+: replace word new cs) : start <+: cs := by
  induction start generalizing cs with
  | nil => exact List.nil_prefix
  | cons c start ih =>
    cases cs with
    | nil => rwa [replace_nil] at h
    | cons d rest =>
      rw [replace] at h
      split at h
      · obtain ⟨n, more, rfl⟩ := List.exists_cons_of_ne_nil hnew
        have hc : c = n := (List.cons_prefix_cons.mp h).1
        exact absurd (hc ▸ .head more) (hstart c (.head start))
      · obtain ⟨rfl, hmore⟩ := List.cons_prefix_cons.mp h
        exact List.cons_prefix_cons.mpr ⟨rfl, ih (fun c hc => hstart c (.tail _ hc)) rest hmore⟩

/-- Replacing by a word that is no longer lengthens no text. -/
theorem length_replace_le (hle : new.length ≤ word.length) (cs : List Char) :
    (replace word new cs).length ≤ cs.length := by
  fun_induction replace word new cs with
  | case1 => exact Nat.le_refl _
  | case2 c rest h ih =>
    have hlength := h.2.length_le
    rw [List.length_drop] at ih
    rw [List.length_append]
    omega
  | case3 c rest h ih => simpa using ih

/-- Replacing by a shorter word shortens a text in which the word stands. -/
theorem length_replace_lt (hlt : new.length < word.length) {cs : List Char} (h : word <:+: cs) :
    (replace word new cs).length < cs.length := by
  have hword : word ≠ [] := List.ne_nil_of_length_pos (by omega)
  fun_induction replace word new cs with
  | case1 => exact absurd (List.infix_nil.mp h) hword
  | case2 c rest hstands ih =>
    have hlength := hstands.2.length_le
    have hrest := length_replace_le (Nat.le_of_lt hlt) ((c :: rest).drop word.length)
    rw [List.length_drop] at hrest
    rw [List.length_append]
    omega
  | case3 c rest hnot ih =>
    have hlater := (List.infix_cons_iff.mp h).resolve_left fun hstands => hnot ⟨hword, hstands⟩
    simpa using ih hlater

end SourceTables.Text
