import Mathlib
import SourceTables.Proofs.Text.Name
import SourceTables.Proofs.Text.Replace

/-!
# `SourceTables.Proofs.Text.Identifier`: table names are identifiers

A table name is put together from the runs of letters and digits of a text. The same name comes out of steps:
blanks are taken off both ends, every other character becomes an underscore, two underscores that stand beside
each other are replaced by one as long as there are two, and the underscores at the ends are taken off. Each
round of replacing may leave two underscores beside each other, but the text is shorter after it, so the rounds
come to an end.

A step that drops underscores, be it one round, all of them, or a single pass that drops each underscore behind
another one, leaves the runs alone (`Alike`). And a text in which no two underscores stand beside each other is
told by its runs, once it has none at its ends (`strip_of_isChain`). So it does not matter how the underscores
are dropped, and texts that differ in nothing else have the same name.

The theorems:

* `collapse_eq_destutter`: the rounds do what a single pass does.
* `tableNameList_eq_clean`: names are made by the steps.
* `tableName_eq_self_iff`: the identifiers are the names that stay as they are.
* `identifier_tableName`: all of this for the names of tables.
-/

set_option autoImplicit false

namespace SourceTables.Text

/-! ### The steps -/

/-- What a character of a text becomes in a name. -/
def nameChar (c : Char) : Char := if isNameChar c then c.toLower else '_'

/-- A text in which two underscores are replaced by one wherever they stand beside each other, again and again
until there are none. -/
def collapse (cs : List Char) : List Char :=
  if ['_', '_'] <:+: cs then collapse (replace ['_', '_'] ['_'] cs) else cs
termination_by cs.length
decreasing_by exact length_replace_lt (by decide) ‹_›

/-- Whether a character is an underscore. -/
def isUnderscore (c : Char) : Bool := c = '_'

/-- A text without the underscores at its ends. -/
def strip (cs : List Char) : List Char := (cs.dropWhile isUnderscore).rdropWhile isUnderscore

/-- A name that is not empty and does not start with a digit. -/
def lead : List Char → List Char
  | [] => ['t', 'a', 'b', 'l', 'e']
  | c :: rest => if c.isDigit then 't' :: '_' :: c :: rest else c :: rest

/-- The name that the steps make of a text. -/
def clean (cs : List Char) : List Char := lead (strip (collapse ((trimList cs).map nameChar)))

/-- Whether two characters are not both underscores. -/
def NotBoth (c d : Char) : Prop := c ≠ '_' ∨ d ≠ '_'

instance : DecidableRel NotBoth := fun c d => inferInstanceAs (Decidable (c ≠ '_' ∨ d ≠ '_'))

/-- What a text comes to when its letters are put in lower case and all but letters and digits turned into
underscores, of which those behind another one, and those at the ends, are dropped. -/
def folded (cs : List Char) : List Char := strip ((cs.map nameChar).destutter NotBoth)

/-! ### Runs -/

section

variable {α β : Type} {p q : α → Bool}

theorem runs_cons {x : α} (hx : p x = true) (xs : List α) : runs p (x :: xs) = runs p xs := by
  simp [runs, split, hx]

theorem runs_concat {x : α} (hx : p x = true) (xs : List α) : runs p (xs ++ [x]) = runs p xs := by
  simp [runs, split_append p x hx, split]

/-- Separators at the start do not matter for the runs. -/
theorem runs_dropWhile (h : ∀ x, q x = true → p x = true) (xs : List α) :
    runs p (xs.dropWhile q) = runs p xs := by
  induction xs with
  | nil => rfl
  | cons x rest ih =>
    by_cases hx : q x = true
    · rw [List.dropWhile_cons_of_pos hx, ih, runs_cons (h x hx)]
    · rw [List.dropWhile_cons_of_neg hx]

/-- Nor do those at the end. -/
theorem runs_rdropWhile (h : ∀ x, q x = true → p x = true) (xs : List α) :
    runs p (xs.rdropWhile q) = runs p xs := by
  induction xs using List.reverseRecOn with
  | nil => rfl
  | append_singleton init x ih =>
    by_cases hx : q x = true
    · rw [List.rdropWhile_concat_pos _ _ _ hx, ih, runs_concat (h x hx)]
    · rw [List.rdropWhile_concat_neg _ _ _ hx]

/-- The runs of other elements, when these are separators just as those they stand for. -/
theorem runs_map {f : α → β} {q : β → Bool} (h : ∀ x, q (f x) = p x) (xs : List α) :
    runs q (xs.map f) = (runs p xs).map (List.map f) := by
  have hsplit : split q (xs.map f) = (split p xs).map (List.map f) := by
    induction xs with
    | nil => rfl
    | cons x rest ih =>
      obtain ⟨piece, pieces, hpieces⟩ := List.exists_cons_of_ne_nil (split_ne_nil p rest)
      simp only [List.map_cons, split, h, ih, hpieces]
      split <;> simp
  rw [runs, hsplit, runs, List.filter_map]
  simp [Function.comp_def]

end

/-- The runs that a name is made of are those between the underscores that other characters become. -/
theorem nameRuns_eq (cs : List Char) : nameRuns cs = runs isUnderscore (cs.map nameChar) := by
  have hsame : ∀ c, isUnderscore (nameChar c) = !isNameChar c := by
    intro c
    unfold nameChar
    cases h : isNameChar c with
    | false => rfl
    | true =>
      have hlower := isAlphanum_toLower h
      refine decide_eq_false fun hc : c.toLower = '_' => ?_
      rw [hc] at hlower
      exact absurd hlower (by decide)
  rw [runs_map hsame, nameRuns]
  refine List.map_congr_left fun run hrun => List.map_congr_left fun c hc => ?_
  have hnot := not_of_mem_split _ cs run (List.mem_filter.mp hrun).1 c hc
  rw [nameChar, if_pos (by simpa using hnot)]

/-- No letter or digit is blank. -/
theorem isBlank_of_isNameChar {c : Char} (h : isNameChar c = true) : isBlank c = false := by
  have hrange : 48 ≤ c.toNat ∧ c.toNat ≤ 122 := by
    simp only [isNameChar, Char.isAlphanum, Char.isAlpha, Char.isUpper, Char.isLower, Char.isDigit,
      Bool.or_eq_true, Bool.and_eq_true, decide_eq_true_eq, UInt32.le_iff_toNat_le, ge_iff_le] at h
    simp only [Char.toNat]
    have hbounds : ('0' : Char).val.toNat = 48 ∧ ('9' : Char).val.toNat = 57 ∧ ('A' : Char).val.toNat = 65
      ∧ ('Z' : Char).val.toNat = 90 ∧ ('a' : Char).val.toNat = 97 ∧ ('z' : Char).val.toNat = 122 := by decide
    omega
  simp [isBlank]
  omega

/-- Blanks around a text do not matter for the runs. -/
theorem nameRuns_trimList (cs : List Char) : nameRuns (trimList cs) = nameRuns cs := by
  have hblank : ∀ c, isBlank c = true → (!isNameChar c) = true := by
    intro c hc
    cases h : isNameChar c with
    | false => rfl
    | true => rw [isBlank_of_isNameChar h] at hc; cases hc
  have hruns : runs (fun c => !isNameChar c) (trimList cs) = runs (fun c => !isNameChar c) cs :=
    (runs_rdropWhile hblank (trimLeft cs)).trans (runs_dropWhile hblank cs)
  rw [nameRuns, hruns, nameRuns]

/-! ### Dropping underscores -/

/-- Whether two texts have the same runs, the first of which stands at the start of both texts or of
neither. -/
structure Alike (xs ys : List Char) : Prop where
  first : (split isUnderscore xs).head? = (split isUnderscore ys).head?
  same : runs isUnderscore xs = runs isUnderscore ys

namespace Alike

variable {xs ys zs : List Char}

theorem refl (xs : List Char) : Alike xs xs := ⟨rfl, rfl⟩

theorem trans (h : Alike xs ys) (h' : Alike ys zs) : Alike xs zs :=
  ⟨h.first.trans h'.first, h.same.trans h'.same⟩

/-- A character more at the start makes no difference. -/
theorem cons (c : Char) (h : Alike xs ys) : Alike (c :: xs) (c :: ys) := by
  by_cases hc : isUnderscore c = true
  · exact ⟨by simp [split, hc], by rw [runs_cons hc, runs_cons hc, h.same]⟩
  · have hc : isUnderscore c = false := Bool.of_not_eq_true hc
    obtain ⟨piece, pieces, hxs, hcxs⟩ := split_cons_of_not _ c xs hc
    obtain ⟨piece', pieces', hys, hcys⟩ := split_cons_of_not _ c ys hc
    obtain ⟨hfirst, hsame⟩ := h
    rw [hxs, hys] at hfirst
    obtain rfl : piece = piece' := Option.some.inj hfirst
    refine ⟨by rw [hcxs, hcys]; rfl, ?_⟩
    -- The rest of the runs are the same, whether the first piece is a run or empty.
    simp only [runs, hxs, hys, hcxs, hcys] at hsame ⊢
    cases piece with
    | nil => simpa using hsame
    | cons d piece => simpa using hsame

/-- An underscore behind another one makes no difference. -/
theorem double (xs : List Char) : Alike ('_' :: xs) ('_' :: '_' :: xs) :=
  ⟨rfl, (runs_cons rfl ('_' :: xs)).symm⟩

end Alike

theorem alike_replace (cs : List Char) : Alike (replace ['_', '_'] ['_'] cs) cs := by
  fun_induction replace ['_', '_'] ['_'] cs with
  | case1 => exact .refl []
  | case2 c rest h ih =>
    obtain ⟨more, hmore⟩ := h.2
    obtain ⟨rfl, rfl⟩ := List.cons.inj hmore
    exact (ih.cons '_').trans (.double more)
  | case3 c rest h ih => exact ih.cons c

theorem alike_collapse (cs : List Char) : Alike (collapse cs) cs := by
  fun_induction collapse cs with
  | case1 cs h ih => exact ih.trans (alike_replace cs)
  | case2 cs h => exact .refl cs

theorem alike_destutter' (c : Char) (cs : List Char) : Alike (cs.destutter' NotBoth c) (c :: cs) := by
  induction cs generalizing c with
  | nil => exact .refl [c]
  | cons d rest ih =>
    by_cases h : NotBoth c d
    · rw [List.destutter'_cons_pos _ h]
      exact (ih d).cons c
    · rw [List.destutter'_cons_neg _ h]
      obtain ⟨rfl, rfl⟩ : c = '_' ∧ d = '_' := by simpa [NotBoth] using h
      exact (ih '_').trans (.double rest)

theorem alike_destutter : (cs : List Char) → Alike (cs.destutter NotBoth) cs
  | [] => .refl []
  | c :: rest => alike_destutter' c rest

/-- When the rounds have come to an end, no two underscores stand beside each other. -/
theorem isChain_collapse (cs : List Char) : (collapse cs).IsChain NotBoth := by
  fun_induction collapse cs with
  | case1 cs h ih => exact ih
  | case2 cs h =>
    induction cs with
    | nil => exact .nil
    | cons c rest ih =>
      refine List.isChain_cons.mpr ⟨fun d hd => ?_, ih fun hrest => h (List.infix_cons hrest)⟩
      obtain ⟨more, rfl⟩ := List.head?_eq_some_iff.mp hd
      refine Decidable.byContradiction fun hboth => h ?_
      obtain ⟨rfl, rfl⟩ : c = '_' ∧ d = '_' := by simpa [NotBoth] using hboth
      exact (List.prefix_append ['_', '_'] more).isInfix

/-! ### Words and their runs -/

namespace IsWord

variable {c d : Char} {rest : List Char}

/-- What stands behind an underscore of a word is a word, too. -/
theorem behind (h : IsWord (c :: '_' :: rest)) : IsWord rest := by
  have hne : rest ≠ [] := by
    rintro rfl
    exact absurd rfl h.last
  refine ⟨hne, fun hfirst => ?_, fun hlast => h.last ?_, h.alone.tail.tail⟩
  · obtain ⟨more, rfl⟩ := List.head?_eq_some_iff.mp hfirst
    have halone := (List.isChain_cons_cons.mp h.alone.tail).1
    simp at halone
  · rw [List.getLast?_cons_of_ne_nil (by simp), List.getLast?_cons_of_ne_nil hne, hlast]

/-- So is what stands behind a character within a run. -/
theorem within (h : IsWord (c :: d :: rest)) (hd : d ≠ '_') : IsWord (d :: rest) where
  nonempty := List.cons_ne_nil d rest
  first hfirst := hd (Option.some.inj hfirst)
  last hlast := h.last hlast
  alone := h.alone.tail

end IsWord

/-- A character in front of a run belongs to it. -/
theorem joinRuns_cons (c : Char) (run : List Char) (rest : List (List Char)) :
    joinRuns ((c :: run) :: rest) = c :: joinRuns (run :: rest) := by
  cases rest with
  | nil => rfl
  | cons next rest => rfl

/-- Joining the runs of a word gives it back. -/
theorem joinRuns_runs {cs : List Char} (h : IsWord cs) : joinRuns (runs isUnderscore cs) = cs := by
  match cs, h with
  | [], h => exact absurd rfl h.nonempty
  | [c], h =>
    have hc : isUnderscore c = false := decide_eq_false fun hc => h.first (congrArg some hc)
    simp [runs, split, hc, joinRuns]
  | c :: d :: rest, h =>
    have hc : isUnderscore c = false := decide_eq_false fun hc => h.first (congrArg some hc)
    by_cases hd : d = '_'
    · subst hd
      have ih := joinRuns_runs h.behind
      have hsplit : split isUnderscore (c :: '_' :: rest) = [c] :: split isUnderscore rest := by
        rw [← List.singleton_append, split_append _ _ rfl,
          split_eq_singleton _ _ (List.forall_mem_singleton.mpr hc), List.singleton_append]
      have hruns : runs isUnderscore (c :: '_' :: rest) = [c] :: runs isUnderscore rest := by
        simp [runs, hsplit]
      cases hrest : runs isUnderscore rest with
      | nil =>
        rw [hrest] at ih
        exact absurd ih.symm h.behind.nonempty
      | cons run more =>
        rw [hrest] at ih
        rw [hruns, hrest, joinRuns, ih, List.singleton_append]
        simp
    · have ih := joinRuns_runs (h.within hd)
      obtain ⟨piece, pieces, -, hpiece⟩ := split_cons_of_not isUnderscore d rest (decide_eq_false hd)
      obtain ⟨first, more, hfirst, hsplit⟩ := split_cons_of_not isUnderscore c (d :: rest) hc
      obtain ⟨rfl, rfl⟩ := List.cons.inj (hfirst.symm.trans hpiece)
      have hruns : runs isUnderscore (c :: d :: rest)
          = (c :: d :: piece) :: more.filter fun piece => !piece.isEmpty := by
        simp [runs, hsplit]
      have hruns' : runs isUnderscore (d :: rest)
          = (d :: piece) :: more.filter fun piece => !piece.isEmpty := by
        simp [runs, hpiece]
      rw [hruns, joinRuns_cons, ← hruns', ih]

/-- A text in which no two underscores stand beside each other is told by its runs, once it has none at its
ends. -/
theorem strip_of_isChain {cs : List Char} (h : cs.IsChain NotBoth) :
    strip cs = joinRuns (runs isUnderscore cs) := by
  have hruns : runs isUnderscore (strip cs) = runs isUnderscore cs :=
    (runs_rdropWhile (fun _ => id) _).trans (runs_dropWhile (fun _ => id) cs)
  rw [← hruns]
  by_cases hnone : strip cs = []
  · rw [hnone]
    rfl
  · have hstart : strip cs <+: cs.dropWhile isUnderscore := List.rdropWhile_prefix _ _
    refine (joinRuns_runs ⟨hnone, fun hfirst => ?_, fun hlast => ?_, ?_⟩).symm
    · obtain ⟨more, hmore⟩ := hstart
      have hdropped := List.head?_dropWhile_not isUnderscore cs
      rw [← hmore, List.head?_append_of_ne_nil _ hnone, hfirst] at hdropped
      cases hdropped
    · refine List.rdropWhile_last_not isUnderscore (cs.dropWhile isUnderscore) hnone ?_
      rw [List.getLast?_eq_some_getLast hnone] at hlast
      exact decide_eq_true (Option.some.inj hlast)
    · exact h.infix (hstart.isInfix.trans (List.dropWhile_suffix _).isInfix)

/-! ### Names and their steps -/

theorem tableNameList_eq_lead (cs : List Char) : tableNameList cs = lead (joinRuns (nameRuns cs)) := by
  unfold tableNameList lead
  rfl

/-- The rounds do what a single pass does. -/
theorem strip_collapse (cs : List Char) : strip (collapse cs) = joinRuns (runs isUnderscore cs) := by
  rw [strip_of_isChain (isChain_collapse cs), (alike_collapse cs).same]

theorem folded_eq (cs : List Char) : folded cs = joinRuns (nameRuns cs) := by
  rw [folded, strip_of_isChain (List.isChain_destutter _ _), (alike_destutter _).same, nameRuns_eq]

/-- Names are made by the steps. -/
theorem tableNameList_eq_clean (cs : List Char) : tableNameList cs = clean cs := by
  rw [tableNameList_eq_lead, clean, strip_collapse, ← nameRuns_eq, nameRuns_trimList]

/-- A name tells no more of a text than what it is folded to. -/
theorem tableNameList_eq_folded (cs : List Char) : tableNameList cs = lead (folded cs) := by
  rw [tableNameList_eq_lead, folded_eq]

/-! ### Identifiers -/

/-- Whether a character is a lower-case letter or a digit. -/
def IsRunChar (c : Char) : Prop := c.isLower = true ∨ c.isDigit = true

/-- Whether a name is made of one or more runs of lower-case letters and digits, with single underscores between
them, and starts with a letter. -/
structure IsIdentifier (name : String) : Prop where
  runs : ∃ runs : List (List Char), runs ≠ [] ∧ (∀ run ∈ runs, run ≠ [] ∧ ∀ c ∈ run, IsRunChar c) ∧
    name.toList = ['_'].intercalate runs
  letter : ∃ c, name.toList.head? = some c ∧ c.isLower = true

theorem joinRuns_eq_intercalate (runs : List (List Char)) : joinRuns runs = ['_'].intercalate runs := by
  induction runs using joinRuns.induct with
  | case1 => rfl
  | case2 run => rw [joinRuns, List.intercalate_singleton]
  | case3 run rest hrest ih =>
    rw [joinRuns, ih, List.intercalate_cons_of_ne_nil hrest]
    · simp
    · exact hrest

theorem isDigit_of_isLower {c : Char} (h : c.isLower = true) : c.isDigit = false := by
  simp [Char.isLower, Char.isDigit, UInt32.le_iff_toNat_le] at h ⊢
  omega

namespace IsRunChar

variable {c : Char}

/-- Letters are put in lower case, and digits stay. -/
theorem of_isNameChar (h : isNameChar c = true) : IsRunChar c.toLower := by
  by_cases halpha : c.isAlpha = true
  · exact .inl (by rwa [Char.isLower_toLower_eq_isAlpha])
  · have hdigit : c.isDigit = true := ((Bool.or_eq_true _ _).mp h).resolve_left halpha
    have hupper : ¬ c.isUpper = true := fun hupper => halpha ((Bool.or_eq_true _ _).mpr (.inl hupper))
    exact .inr (by rwa [Char.toLower_eq_of_not_isUpper hupper])

theorem isNameChar (h : IsRunChar c) : isNameChar c = true := by
  obtain h | h := h
  · simp [Text.isNameChar, Char.isAlphanum, Char.isAlpha, h]
  · simp [Text.isNameChar, Char.isAlphanum, h]

/-- A lower-case letter or a digit stays as it is. -/
theorem nameChar_eq (h : IsRunChar c) : nameChar c = c := by
  have hupper : ¬ c.isUpper = true := by
    simp [IsRunChar, Char.isLower, Char.isDigit, Char.isUpper, UInt32.le_iff_toNat_le] at h ⊢
    omega
  rw [nameChar, if_pos h.isNameChar, Char.toLower_eq_of_not_isUpper hupper]

theorem ne_underscore (h : IsRunChar c) : c ≠ '_' := by
  rintro rfl
  exact absurd h.isNameChar (by decide)

end IsRunChar

/-- The runs of a name hold lower-case letters and digits, one at least. -/
theorem isRunChar_of_mem_nameRuns {cs run : List Char} (h : run ∈ nameRuns cs) :
    run ≠ [] ∧ ∀ c ∈ run, IsRunChar c := by
  refine ⟨ne_nil_of_mem_nameRuns h, fun c hc => ?_⟩
  obtain ⟨piece, hpiece, rfl⟩ := List.mem_map.mp h
  obtain ⟨d, hd, rfl⟩ := List.mem_map.mp hc
  have hnot := not_of_mem_split _ cs piece (List.mem_filter.mp hpiece).1 d hd
  exact .of_isNameChar (by simpa using hnot)

/-- A table name is an identifier. -/
theorem isIdentifier_tableName (raw : String) : IsIdentifier (tableName raw) := by
  have hall : ∀ run ∈ nameRuns raw.toList, run ≠ [] ∧ ∀ c ∈ run, IsRunChar c :=
    fun run => isRunChar_of_mem_nameRuns
  have hlist : (tableName raw).toList = lead (joinRuns (nameRuns raw.toList)) := by
    rw [tableName, String.toList_ofList, tableNameList_eq_lead]
  generalize nameRuns raw.toList = runs at hall hlist
  cases runs with
  | nil =>
    have hletters : ∀ c ∈ ['t', 'a', 'b', 'l', 'e'], c.isLower = true := List.all_eq_true.mp (by decide)
    refine ⟨⟨[['t', 'a', 'b', 'l', 'e']], by simp, ?_, ?_⟩, 't', ?_, by decide⟩
    · exact List.forall_mem_singleton.mpr ⟨by simp, fun c hc => .inl (hletters c hc)⟩
    · rw [hlist, List.intercalate_singleton]
      rfl
    · rw [hlist]
      rfl
  | cons run rest =>
    obtain ⟨hne, hrun⟩ := hall run (.head rest)
    obtain ⟨c, run, rfl⟩ := List.exists_cons_of_ne_nil hne
    rw [joinRuns_cons, lead] at hlist
    split at hlist
    · next hdigit =>
      -- The leader is a run of its own.
      refine ⟨⟨['t'] :: (c :: run) :: rest, by simp, ?_, ?_⟩, 't', by rw [hlist]; rfl, by decide⟩
      · exact List.forall_mem_cons.mpr
          ⟨⟨by simp, List.forall_mem_singleton.mpr (.inl (by decide))⟩, hall⟩
      · rw [hlist, List.intercalate_cons_cons, ← joinRuns_eq_intercalate, joinRuns_cons]
        rfl
    · next hdigit =>
      refine ⟨⟨(c :: run) :: rest, by simp, hall, ?_⟩, c, by rw [hlist]; rfl, ?_⟩
      · rw [hlist, ← joinRuns_eq_intercalate, joinRuns_cons]
      · exact (hrun c (.head run)).resolve_right hdigit

/-- The identifiers are the names that stay as they are. -/
theorem tableName_eq_self_iff (name : String) : tableName name = name ↔ IsIdentifier name := by
  refine ⟨fun h => h ▸ isIdentifier_tableName name, fun ⟨⟨runs, hne, hall, hname⟩, c, hc, hlower⟩ => ?_⟩
  rw [← joinRuns_eq_intercalate] at hname
  have hword : IsWord name.toList := hname ▸ isWord_joinRuns hne fun run hrun =>
    ⟨(hall run hrun).1, fun hmem => ((hall run hrun).2 _ hmem).ne_underscore rfl⟩
  have hmap : name.toList.map nameChar = name.toList := by
    refine (List.map_congr_left fun d hd => ?_).trans (List.map_id _)
    rw [hname] at hd
    obtain rfl | ⟨run, hrun, hd⟩ := of_mem_joinRuns hd
    · rfl
    · exact ((hall run hrun).2 d hd).nameChar_eq
  obtain ⟨rest, hrest⟩ := List.head?_eq_some_iff.mp hc
  rw [← String.toList_inj, tableName, String.toList_ofList, tableNameList_eq_lead, nameRuns_eq, hmap,
    joinRuns_runs hword, hrest, lead, isDigit_of_isLower hlower]
  rfl

/-! ### Table names -/

/-- The rounds come to an end before there are more of them than characters, and none is made when no two
underscores stand beside each other. -/
theorem collapse_rounds (cs : List Char) : ∃ rounds ≤ cs.length,
    collapse cs = (replace ['_', '_'] ['_'])^[rounds] cs ∧
    (∀ earlier < rounds, ['_', '_'] <:+: (replace ['_', '_'] ['_'])^[earlier] cs) ∧
    ¬ ['_', '_'] <:+: collapse cs := by
  fun_induction collapse cs with
  | case1 cs h ih =>
    obtain ⟨rounds, hle, heq, hearlier, hend⟩ := ih
    have hshorter : (replace ['_', '_'] ['_'] cs).length < cs.length := length_replace_lt (by decide) h
    refine ⟨rounds + 1, by omega, heq, fun earlier hlt => ?_, hend⟩
    cases earlier with
    | zero => exact h
    | succ earlier => exact hearlier earlier (by omega)
  | case2 cs h => exact ⟨0, Nat.zero_le _, rfl, nofun, h⟩

/-- Each table name is an identifier: it is made of one or more runs of lower-case letters and digits, with
single underscores between them, and starts with a letter. Just the identifiers are names that stay as they are,
so that a name that is made of a name is the same. Texts that come to the same when they are folded have the same
name. A name is made in steps, one of which goes on in rounds until no two underscores stand beside each other,
and there are no more rounds than characters. -/
theorem identifier_tableName :
    (∀ raw : String, IsIdentifier (tableName raw)) ∧
    (∀ raw : String, tableName (tableName raw) = tableName raw) ∧
    (∀ name : String, tableName name = name ↔ IsIdentifier name) ∧
    (∀ raw raw' : String, folded raw.toList = folded raw'.toList → tableName raw = tableName raw') ∧
    (∀ raw : String, tableName raw = String.ofList (clean raw.toList)) ∧
    ∀ cs : List Char, ∃ rounds ≤ cs.length,
      collapse cs = (replace ['_', '_'] ['_'])^[rounds] cs ∧
      (∀ earlier < rounds, ['_', '_'] <:+: (replace ['_', '_'] ['_'])^[earlier] cs) ∧
      ¬ ['_', '_'] <:+: collapse cs := by
  refine ⟨isIdentifier_tableName, fun raw => ?_, tableName_eq_self_iff, fun raw raw' h => ?_, fun raw => ?_,
    collapse_rounds⟩
  · exact (tableName_eq_self_iff _).mpr (isIdentifier_tableName raw)
  · rw [tableName, tableNameList_eq_folded, h, ← tableNameList_eq_folded, ← tableName]
  · rw [tableName, tableNameList_eq_clean]

/-- Texts that differ in letter case, blanks and signs, one of which starts with a digit. -/
theorem identifier_tableName_alike :
    folded "2024 - Q1 (Sales)".toList = folded "__2024_q1__SALES!".toList ∧
      tableName "2024 - Q1 (Sales)" = tableName "__2024_q1__SALES!" ∧
      tableName "2024 - Q1 (Sales)" = "t_2024_q1_sales" := by
  have h : folded "2024 - Q1 (Sales)".toList = folded "__2024_q1__SALES!".toList := by decide
  exact ⟨h, identifier_tableName.2.2.2.1 _ _ h, by decide⟩

end SourceTables.Text
