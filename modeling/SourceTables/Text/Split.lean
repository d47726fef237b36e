/-!
# `SourceTables.Text.Split`: lists cut at separators

`split p xs` cuts a list at every element that satisfies `p` and keeps the pieces, empty ones
included, so there is always one piece more than there are separators. `runs p xs` keeps the
non-empty pieces only.

Main statements:

* `split_ne_nil`: there is at least one piece;
* `not_of_mem_split`: no piece holds a separator;
* `length_split`: one piece more than separators;
* `split_append`: a list is cut on each side of a separator.
-/

set_option autoImplicit false

namespace SourceTables.Text

variable {α : Type}

/-- The pieces of a list between the elements that satisfy `p`. -/
def split (p : α → Bool) : List α → List (List α)
  | [] => [[]]
  | x :: rest =>
    if p x then [] :: split p rest
    else match split p rest with
      | piece :: pieces => (x :: piece) :: pieces
      | [] => [[x]]

/-- The non-empty pieces of a list between the elements that satisfy `p`. -/
def runs (p : α → Bool) (xs : List α) : List (List α) :=
  (split p xs).filter (fun piece => !piece.isEmpty)

/-- Splitting gives at least one piece. -/
theorem split_ne_nil (p : α → Bool) (xs : List α) : split p xs ≠ [] := by
  induction xs with
  | nil => simp [split]
  | cons x rest ih =>
    unfold split
    split
    · simp
    · split <;> simp

/-- A list that does not start with a separator gains its head in the first piece. -/
theorem split_cons_of_not (p : α → Bool) (x : α) (rest : List α) (h : p x = false) :
    ∃ piece pieces, split p rest = piece :: pieces ∧ split p (x :: rest) = (x :: piece) :: pieces := by
  obtain ⟨piece, pieces, hs⟩ := List.exists_cons_of_ne_nil (split_ne_nil p rest)
  exact ⟨piece, pieces, hs, by simp [split, h, hs]⟩

/-- No piece holds a separator. -/
theorem not_of_mem_split (p : α → Bool) (xs : List α) :
    ∀ piece ∈ split p xs, ∀ x ∈ piece, p x = false := by
  induction xs with
  | nil => simp [split]
  | cons x rest ih =>
    by_cases h : p x = true
    · intro piece hpiece y hy
      simp only [split, h, if_true, List.mem_cons] at hpiece
      rcases hpiece with rfl | hpiece
      · simp at hy
      · exact ih piece hpiece y hy
    · have hx : p x = false := by simpa using h
      obtain ⟨first, pieces, hs, hc⟩ := split_cons_of_not p x rest hx
      intro piece hpiece y hy
      rw [hc, List.mem_cons] at hpiece
      rw [hs] at ih
      rcases hpiece with rfl | hpiece
      · rcases List.mem_cons.1 hy with rfl | hy
        · exact hx
        · exact ih first (by simp) y hy
      · exact ih piece (by simp [hpiece]) y hy

/-- There is one piece more than there are separators. -/
theorem length_split (p : α → Bool) (xs : List α) :
    (split p xs).length = xs.countP p + 1 := by
  induction xs with
  | nil => simp [split]
  | cons x rest ih =>
    by_cases h : p x = true
    · simp [split, h, ih]
    · have hx : p x = false := by simpa using h
      obtain ⟨first, pieces, hs, hc⟩ := split_cons_of_not p x rest hx
      rw [hc, List.countP_cons_of_neg (by simp [hx]), ← ih, hs]
      simp

/-- A list without separators is one piece. -/
theorem split_eq_singleton (p : α → Bool) (xs : List α) (h : ∀ x ∈ xs, p x = false) :
    split p xs = [xs] := by
  induction xs with
  | nil => rfl
  | cons x rest ih =>
    rw [split, h x (.head _), ih fun y hy => h y (.tail _ hy)]
    rfl

/-- A list is cut on each side of a separator. -/
theorem split_append (p : α → Bool) (x : α) (hx : p x = true) (xs ys : List α) :
    split p (xs ++ x :: ys) = split p xs ++ split p ys := by
  induction xs with
  | nil => simp [split, hx]
  | cons y rest ih =>
    by_cases hy : p y = true
    · simp [split, hy, ih]
    · obtain ⟨piece, pieces, hs⟩ := List.exists_cons_of_ne_nil (split_ne_nil p rest)
      simp [split, hy, ih, hs]

end SourceTables.Text
