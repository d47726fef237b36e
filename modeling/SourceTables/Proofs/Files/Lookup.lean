import SourceTables.Fingerprint
import SourceTables.Proofs.Files.Follows

/-!
# `SourceTables.Proofs.Files.Lookup`: paths with the same components

Two texts with the same components name one place: they differ in empty pieces and in `.`, and these
stay where they stand. They may still ask for more, since a slash at the end needs a directory, so
what is proved is that they never lead to different things.

The theorems:

* `Follows.unique`: pieces that do not move make no difference to where a path leads.
* `filter_rawPieces`: the pieces of a path that move are those of its components.
* `stat_eq_of_same`: two paths with the same components that both lead somewhere lead to the same.
-/

set_option autoImplicit false

namespace SourceTables

namespace Files

variable {fs : Files} {links : Nat} {start : Location} {place : Place} {todo : List String}

/-! ### Pieces that do not move -/

/-- A path without pieces that move stays where it is. -/
theorem Follows.stays (htodo : todo.filter Path.moves = []) (h : fs.Follows true links start todo place) :
    ∃ node, fs.node? start = some node ∧ place = .taken start node := by
  induction todo with
  | nil =>
    cases h with
    | done hnode => exact ⟨_, hnode, rfl⟩
  | cons piece rest ih =>
    have hstay : ¬ Path.moves piece = true := List.filter_eq_nil_iff.mp htodo _ List.mem_cons_self
    rw [List.filter_cons_of_neg hstay] at htodo
    exact ih htodo (h.of_stay hstay)

/-- A path that leads somewhere goes on at its first piece that moves. -/
theorem Follows.skips {piece : String} {pieces : List String}
    (htodo : todo.filter Path.moves = piece :: pieces) (h : fs.Follows true links start todo place) :
    ∃ rest, rest.filter Path.moves = pieces ∧ fs.Follows true links start (piece :: rest) place := by
  induction todo with
  | nil => cases htodo
  | cons first rest ih =>
    by_cases hfirst : Path.moves first = true
    · rw [List.filter_cons_of_pos hfirst] at htodo
      obtain ⟨rfl, hrest⟩ := List.cons.inj htodo
      exact ⟨rest, hrest, h⟩
    · rw [List.filter_cons_of_neg hfirst] at htodo
      exact ih htodo (h.of_stay hfirst)

/-- Pieces that do not move make no difference to where a path leads. -/
theorem Follows.unique {links' : Nat} {todo' : List String} {location location' : Location}
    {node node' : Node} (h : fs.Follows true links start todo (.taken location node))
    (h' : fs.Follows true links' start todo' (.taken location' node'))
    (htodo : todo'.filter Path.moves = todo.filter Path.moves) : location' = location ∧ node' = node := by
  generalize hplace : Place.taken location node = place at h
  induction h generalizing links' todo' with
  | done hnode =>
    cases hplace
    obtain ⟨found, hfound, hplace'⟩ := h'.stays htodo
    cases hplace'
    exact ⟨rfl, Option.some.inj (hfound.symm.trans hnode)⟩
  | stay _ hstay _ ih =>
    rw [List.filter_cons_of_neg hstay] at htodo
    exact ih h' htodo hplace
  | up _ _ ih =>
    rw [List.filter_cons_of_pos (by decide)] at htodo
    obtain ⟨rest', hrest', h'⟩ := h'.skips htodo
    exact ih h'.of_up hrest' hplace
  | vacant => cases hplace
  | enter _ henters hnode hlink _ ih =>
    rw [List.filter_cons_of_pos henters.moves] at htodo
    obtain ⟨rest', hrest', h'⟩ := h'.skips htodo
    obtain ⟨hnone, -⟩ | ⟨_, -, -, h'⟩ | ⟨target, _, hnode', -⟩ := h'.of_enters henters
    · rw [hnone] at hnode
      cases hnode
    · exact ih h' hrest' hplace
    · exact absurd (Option.some.inj (hnode.symm.trans hnode')) (hlink target)
  | link _ _ _ hthrough => cases hthrough
  | onward _ henters hnode _ _ ih =>
    rw [List.filter_cons_of_pos henters.moves] at htodo
    obtain ⟨rest', hrest', h'⟩ := h'.skips htodo
    obtain ⟨hnone, -⟩ | ⟨_, hnode', hlink, -⟩ | ⟨target, below, hnode', -, h'⟩ := h'.of_enters henters
    · rw [hnone] at hnode
      cases hnode
    · exact absurd (Option.some.inj (hnode'.symm.trans hnode)) (hlink _)
    · cases hnode.symm.trans hnode'
      -- The link's own pieces come first on both sides.
      exact ih h' (by rw [List.filter_append, List.filter_append, hrest']) hplace

end Files

/-! ### Components -/

/-- The piece that a component asks to move by. -/
def Component.move? : Component → Option String
  | .name text => some text
  | .parent => some ".."
  | .root | .current => none

namespace Path

/-- The component of a piece moves by the piece, unless that is a dot. -/
theorem move?_component (piece : Piece) :
    piece.component.move? = if piece.text = "." then none else some piece.text := by
  unfold Piece.component
  split
  · rfl
  · split
    · next h => rw [h]; rfl
    · rfl

/-- The pieces after the first one move by their components. -/
theorem filterMap_move?_later (rest : List String) :
    (((rest.map fun s => Piece.mk s (s != "" && s != ".")).filter Piece.counts).map
      Piece.component).filterMap Component.move? = rest.filter moves := by
  induction rest with
  | nil => rfl
  | cons s rest ih =>
    have hcounts : (Piece.mk s (s != "" && s != ".")).counts = moves s := rfl
    by_cases hs : moves s = true
    · have hdot : s ≠ "." := by
        rintro rfl
        exact absurd hs (by decide)
      rw [List.map_cons, List.filter_cons_of_pos (hcounts.trans hs), List.filter_cons_of_pos hs,
        List.map_cons, List.filterMap_cons, move?_component, if_neg hdot, ih]
    · rw [List.map_cons, List.filter_cons_of_neg (hcounts ▸ hs), List.filter_cons_of_neg hs, ih]

/-- The moving pieces of a path are those of its components. -/
theorem filter_rawPieces (p : Path) :
    p.rawPieces.filter moves = p.components.filterMap Component.move? := by
  have hroot (below : List Component) :
      (if p.isAbsolute then Component.root :: below else below).filterMap Component.move?
        = below.filterMap Component.move? := by
    split <;> rfl
  unfold components
  rw [hroot]
  unfold pieces
  cases p.rawPieces with
  | nil => rfl
  | cons s rest =>
    have hlater := filterMap_move?_later rest
    by_cases habs : p.isAbsolute = true
    · have hall := filterMap_move?_later (s :: rest)
      rw [← hall]
      simp only [habs, if_true, List.map_cons]
    · simp only [habs]
      by_cases hempty : s = ""
      · subst hempty
        rw [List.filter_cons_of_neg (by decide), List.filter_cons_of_neg (by decide)]
        exact hlater.symm
      · -- A dot counts as the first piece, but its component does not move.
        have hcounts : (Piece.mk s (s != "")).counts = true := by simpa using hempty
        rw [if_neg Bool.false_ne_true, List.filter_cons_of_pos hcounts, List.map_cons,
          List.filterMap_cons, move?_component]
        by_cases hdot : s = "."
        · subst hdot
          rw [List.filter_cons_of_neg (by decide)]
          exact hlater.symm
        · have hmoves : moves s = true := moves_of_not (by simp [hempty, hdot])
          rw [List.filter_cons_of_pos hmoves, if_neg hdot]
          exact congrArg (s :: ·) hlater.symm

/-- A path starts at the root just when its components do. -/
theorem isAbsolute_eq (p : Path) : p.isAbsolute = (p.components.head? == some .root) := by
  have hcomponent (piece : Piece) : piece.component ≠ .root := by
    unfold Piece.component
    split
    · simp
    · split <;> simp
  unfold components
  cases habs : p.isAbsolute with
  | true => rfl
  | false =>
    cases hbelow : p.pieces.filter Piece.counts with
    | nil => simp
    | cons piece rest => simp [hcomponent]

end Path

namespace Files

/-- Two paths with the same components, if both lead to something, lead to the same. -/
theorem stat_eq_of_same {fs : Files} {p q : Path} (hpq : p.same q = true)
    {a b : Location × Node} (ha : fs.stat p = .ok a) (hb : fs.stat q = .ok b) : b = a := by
  have hcomponents : p.components = q.components := by simpa [Path.same] using hpq
  have hfollows := (resolve_eq_ok.mp (stat_eq_ok.mp ha)).2
  have hfollows' := (resolve_eq_ok.mp (stat_eq_ok.mp hb)).2
  rw [Path.isAbsolute_eq, ← hcomponents, ← Path.isAbsolute_eq] at hfollows'
  obtain ⟨hplace, hnode⟩ := hfollows.unique hfollows'
    (by rw [Path.filter_rawPieces, Path.filter_rawPieces, hcomponents])
  exact Prod.ext hplace hnode

end Files

end SourceTables
