import Mathlib
import SourceTables.Proofs.Number
import SourceTables.Text.Name

/-!
# `SourceTables.Proofs.Text.Name`: names of tables, and numbered names

A table name is a word: an underscore in it stands alone, between other characters, and this stays so when it
is numbered. So a text that is put together from two words with two underscores between them is no word, and
tells both: the first word cannot end earlier or later, because then one of the two underscores would be its
last character, or both would stand in it.

The theorems:

* `of_mem_tableName`: a table name is made of letters, digits and underscores.
* `fresh_least`: a name that is chosen among numbered ones is the first that is not taken.
* `isWord_tableName`, `isWord_numbered`: table names are words, with numbers too.
* `not_isWord_join`, `join_injective`: two words that are joined are no word, and can be told apart again.
-/

set_option autoImplicit false

namespace SourceTables.Text

/-! ### Characters -/

/-- Whether a character may stand in a table name. -/
def IsTableChar (c : Char) : Prop := c.isAlphanum = true ∨ c = '_'

/-- A slash may not. -/
theorem IsTableChar.ne_slash {c : Char} (h : IsTableChar c) : (c == '/') = false := by
  rw [beq_eq_false_iff_ne]
  rintro rfl
  obtain h | h := h
  · exact absurd h (by decide)
  · exact absurd h (by decide)

/-- A letter or digit stays one in lower case. -/
theorem isAlphanum_toLower {c : Char} (h : c.isAlphanum = true) : c.toLower.isAlphanum = true := by
  by_cases hupper : c.isUpper = true
  · have halpha : c.toLower.isAlpha = true := by
      rw [Char.isAlpha_toLower_eq_isAlpha]
      exact (Bool.or_eq_true _ _).mpr (.inl hupper)
    exact (Bool.or_eq_true _ _).mpr (.inl halpha)
  · rwa [Char.toLower_eq_of_not_isUpper hupper]

/-- The runs of a text hold letters and digits alone. -/
theorem of_mem_nameRuns {cs run : List Char} (hrun : run ∈ nameRuns cs) {c : Char} (hc : c ∈ run) :
    c.isAlphanum = true := by
  obtain ⟨piece, hpiece, rfl⟩ := List.mem_map.mp hrun
  obtain ⟨d, hd, rfl⟩ := List.mem_map.mp hc
  have hnot := not_of_mem_split _ cs piece (List.mem_filter.mp hpiece).1 d hd
  exact isAlphanum_toLower (by simpa [isNameChar] using hnot)

/-- No run is empty. -/
theorem ne_nil_of_mem_nameRuns {cs run : List Char} (hrun : run ∈ nameRuns cs) : run ≠ [] := by
  obtain ⟨piece, hpiece, rfl⟩ := List.mem_map.mp hrun
  simpa using (List.mem_filter.mp hpiece).2

/-- Joined runs hold the characters of the runs, and underscores. -/
theorem of_mem_joinRuns {runs : List (List Char)} {c : Char} (hc : c ∈ joinRuns runs) :
    c = '_' ∨ ∃ run ∈ runs, c ∈ run := by
  induction runs using joinRuns.induct with
  | case1 => cases hc
  | case2 run => exact .inr ⟨run, .head _, hc⟩
  | case3 run rest hrest ih =>
    rw [joinRuns] at hc
    · obtain hc | hc := List.mem_append.mp hc
      · exact .inr ⟨run, .head _, hc⟩
      · obtain rfl | hc := List.mem_cons.mp hc
        · exact .inl rfl
        · exact (ih hc).imp_right fun ⟨run, hrun, hmem⟩ => ⟨run, .tail _ hrun, hmem⟩
    · exact hrest

/-- A table name is made of letters, digits and underscores. -/
theorem of_mem_tableName {raw : String} {c : Char} (hc : c ∈ (tableName raw).toList) :
    IsTableChar c := by
  have hjoined : ∀ c ∈ joinRuns (nameRuns raw.toList), IsTableChar c := fun c hc =>
    (of_mem_joinRuns hc).elim .inr fun ⟨_, hrun, hmem⟩ => .inl (of_mem_nameRuns hrun hmem)
  have hword : ∀ c ∈ ['t', 'a', 'b', 'l', 'e'], c.isAlphanum = true :=
    List.all_eq_true.mp (by decide)
  unfold tableName at hc
  rw [String.toList_ofList, tableNameList] at hc
  split at hc
  · exact .inl (hword c hc)
  · next first rest hruns =>
    rw [hruns] at hjoined
    split at hc
    · obtain rfl | hc := List.mem_cons.mp hc
      · exact .inl (by decide)
      · obtain rfl | hc := List.mem_cons.mp hc
        · exact .inr rfl
        · exact hjoined c hc
    · exact hjoined c hc

/-! ### New names -/

/-- A numbered name adds an underscore and digits to its base. -/
theorem of_mem_numbered {base : String} {n : Nat} {c : Char} (hc : c ∈ (numbered base n).toList) :
    c ∈ base.toList ∨ IsTableChar c := by
  cases n with
  | zero => exact .inl hc
  | succ n =>
    simp only [numbered, String.toList_append, List.mem_append] at hc
    obtain (hc | hc) | hc := hc
    · exact .inl hc
    · exact .inr (.inr (List.mem_singleton.mp hc))
    · exact .inr (.inl (by simp [Char.isAlphanum, Number.isDigit_of_mem_toString hc]))

/-- Names with different numbers differ. -/
theorem numbered_injective (base : String) : Function.Injective (numbered base) := by
  intro m n h
  have hlists := congrArg String.toList h
  cases m with
  | zero =>
    cases n with
    | zero => rfl
    | succ n => simp [numbered] at hlists
  | succ m =>
    cases n with
    | zero => simp [numbered] at hlists
    | succ n =>
      simp only [numbered, String.toList_append, List.append_assoc, List.append_cancel_left_eq] at hlists
      have := Number.toString_injective (String.toList_inj.mp hlists)
      omega

/-- The first name that is not taken is found if one is among those that are tried. -/
theorem freshFrom_least (taken : String → Bool) (base : String) (n fuel : Nat)
    (h : ∃ k, n ≤ k ∧ k < n + fuel ∧ taken (numbered base k) = false) :
    ∃ k < n + fuel, freshFrom taken base n fuel = numbered base k ∧ taken (numbered base k) = false ∧
      ∀ j, n ≤ j → j < k → taken (numbered base j) = true := by
  induction fuel generalizing n with
  | zero =>
    obtain ⟨k, hle, hlt, -⟩ := h
    omega
  | succ fuel ih =>
    rw [freshFrom]
    split
    · next htaken =>
      obtain ⟨k, hle, hlt, hfree⟩ := h
      have hne : k ≠ n := by
        rintro rfl
        rw [htaken] at hfree
        cases hfree
      obtain ⟨first, hfirst, heq, hnew, hbefore⟩ := ih (n + 1) ⟨k, by omega, by omega, hfree⟩
      refine ⟨first, by omega, heq, hnew, fun j hj hlt => ?_⟩
      obtain rfl | hlater := Nat.eq_or_lt_of_le hj
      · exact htaken
      · exact hbefore j hlater hlt
    · next htaken => exact ⟨n, by omega, rfl, by simpa using htaken, fun j hj hlt => by omega⟩

/-- A new name is the first numbered one that is not taken, and its number is no greater than the number of
those that are. -/
theorem fresh_least (taken : List String) (base : String) :
    ∃ k ≤ taken.length, fresh taken.contains taken.length base = numbered base k ∧
      numbered base k ∉ taken ∧ ∀ j < k, numbered base j ∈ taken := by
  have hfree : ∃ k, 0 ≤ k ∧ k < 0 + (taken.length + 1) ∧
      taken.contains (numbered base k) = false := by
    refine Classical.byContradiction fun hnone => ?_
    -- Otherwise there were more numbered names than taken ones.
    have hall : (List.range (taken.length + 1)).map (numbered base) ⊆ taken := by
      intro name hname
      obtain ⟨k, hk, rfl⟩ := List.mem_map.mp hname
      refine List.contains_iff_mem.mp (Bool.of_not_eq_false fun hfree => hnone ?_)
      exact ⟨k, Nat.zero_le k, by simpa using hk, hfree⟩
    have hnodup : ((List.range (taken.length + 1)).map (numbered base)).Nodup :=
      List.nodup_range.map (numbered_injective base)
    have hle := (List.subperm_of_subset hnodup hall).length_le
    rw [List.length_map, List.length_range] at hle
    omega
  obtain ⟨k, hk, heq, hnew, hbefore⟩ := freshFrom_least taken.contains base 0 (taken.length + 1) hfree
  refine ⟨k, by omega, heq, fun hmem => ?_, fun j hj =>
    List.contains_iff_mem.mp (hbefore j (Nat.zero_le j) hj)⟩
  rw [List.contains_iff_mem.mpr hmem] at hnew
  cases hnew

/-- A new name is a numbered one that is not taken. -/
theorem fresh_spec (taken : List String) (base : String) :
    ∃ k, fresh taken.contains taken.length base = numbered base k ∧ numbered base k ∉ taken := by
  obtain ⟨k, -, heq, hnew, -⟩ := fresh_least taken base
  exact ⟨k, heq, hnew⟩

/-! ### Words -/

/-- Whether every underscore of a name stands alone, between other characters. -/
structure IsWord (cs : List Char) : Prop where
  nonempty : cs ≠ []
  first : cs.head? ≠ some '_'
  last : cs.getLast? ≠ some '_'
  alone : cs.IsChain fun c d => c ≠ '_' ∨ d ≠ '_'

namespace IsWord

variable {xs ys : List Char}

/-- Characters without an underscore are a word. -/
theorem of_not_mem (hne : xs ≠ []) (h : '_' ∉ xs) : IsWord xs where
  nonempty := hne
  first hfirst := h (List.mem_of_head? hfirst)
  last hlast := h (List.mem_of_getLast? hlast)
  alone := List.Pairwise.isChain (List.pairwise_iff_forall_sublist.mpr fun hsub =>
    .inl fun hc => h (hc ▸ hsub.subset (.head _)))

/-- Two words with an underscore between them are a word. -/
theorem append (hxs : IsWord xs) (hys : IsWord ys) : IsWord (xs ++ '_' :: ys) where
  nonempty := by simp
  first := by
    rw [List.head?_append_of_ne_nil _ hxs.nonempty]
    exact hxs.first
  last := by
    rw [List.getLast?_append_cons, List.getLast?_cons_of_ne_nil hys.nonempty]
    exact hys.last
  alone := by
    -- Next to the new underscore stand the last character of one word and the first of the other.
    refine hxs.alone.append (List.isChain_cons.mpr ⟨fun d hd => .inr ?_, hys.alone⟩) fun c hc _ _ => .inl ?_
    · rintro rfl
      exact hys.first hd
    · rintro rfl
      exact hxs.last hc

end IsWord

/-- Runs without underscores, joined, are a word. -/
theorem isWord_joinRuns {runs : List (List Char)} (hne : runs ≠ [])
    (hruns : ∀ run ∈ runs, run ≠ [] ∧ '_' ∉ run) : IsWord (joinRuns runs) := by
  induction runs using joinRuns.induct with
  | case1 => exact absurd rfl hne
  | case2 run => exact .of_not_mem (hruns run (.head _)).1 (hruns run (.head _)).2
  | case3 run rest hrest ih =>
    rw [joinRuns]
    · exact .append (.of_not_mem (hruns run (.head _)).1 (hruns run (.head _)).2)
        (ih hrest fun run hrun => hruns run (.tail _ hrun))
    · exact hrest

/-- A table name is a word. -/
theorem isWord_tableName (raw : String) : IsWord (tableName raw).toList := by
  have hruns : ∀ run ∈ nameRuns raw.toList, run ≠ [] ∧ '_' ∉ run := fun run hrun =>
    ⟨ne_nil_of_mem_nameRuns hrun, fun hmem => absurd (of_mem_nameRuns hrun hmem) (by decide)⟩
  rw [tableName, String.toList_ofList, tableNameList]
  split
  · exact .of_not_mem (by decide) (by decide)
  · next first rest hjoined =>
    have hword : IsWord (first :: rest) := by
      rw [← hjoined]
      refine isWord_joinRuns (fun hnone => ?_) hruns
      rw [hnone] at hjoined
      cases hjoined
    split
    · have hletter : IsWord ['t'] := .of_not_mem (by decide) (by decide)
      exact hletter.append hword
    · exact hword

/-- A word with a number is a word. -/
theorem isWord_numbered {base : String} (h : IsWord base.toList) (n : Nat) :
    IsWord (numbered base n).toList := by
  cases n with
  | zero => exact h
  | succ n =>
    have hdigits : IsWord (toString (n + 2)).toList := by
      refine .of_not_mem ?_ fun hmem => absurd (Number.isDigit_of_mem_toString hmem) (by decide)
      exact Number.toString_ne_nil (n + 2)
    simpa [numbered] using h.append hdigits

/-- Two words with two underscores between them. -/
def join (xs ys : List Char) : List Char := xs ++ '_' :: '_' :: ys

/-- They are no word. -/
theorem not_isWord_join (xs ys : List Char) : ¬ IsWord (join xs ys) := by
  intro h
  have halone := (List.isChain_append.mp h.alone).2.1
  rw [List.isChain_cons_cons] at halone
  simp at halone

/-- A word does not go on into the underscores that follow another one. -/
theorem eq_nil_of_isWord {xs more ys ys' : List Char} (hword : IsWord (xs ++ more))
    (h : '_' :: '_' :: ys = more ++ '_' :: '_' :: ys') : more = [] := by
  match more, h with
  | [], _ => rfl
  | [_], h =>
    cases h
    exact absurd List.getLast?_concat hword.last
  | _ :: _ :: more, h =>
    cases h
    exact absurd hword (not_isWord_join xs more)

/-- They can be told apart again. -/
theorem join_injective {xs xs' ys ys' : List Char} (hxs : IsWord xs) (hxs' : IsWord xs')
    (h : join xs ys = join xs' ys') : xs = xs' ∧ ys = ys' := by
  have hfirst : xs = xs' := by
    obtain ⟨more, rfl, hmore⟩ | ⟨more, rfl, hmore⟩ := List.append_eq_append_iff.mp h
    · rw [eq_nil_of_isWord hxs' hmore, List.append_nil]
    · rw [eq_nil_of_isWord hxs hmore, List.append_nil]
  subst hfirst
  exact ⟨rfl, by simpa [join] using h⟩

end SourceTables.Text
