import SourceTables.Proofs.Tree.Outermost

/-!
# `SourceTables.Proofs.Office.Cell`: how often a cell shows its runs

The text of a cell is put together from its paragraphs, each with all runs in it. Both are searched for in
depth. A paragraph may lie in another one, as in a text box that is anchored in it, and then the runs of the
inner paragraph are among those of the outer one, too. A run is shown as often as there are paragraphs around
it.

The theorems:

* `perm_shown`: how often the runs of some nodes are shown.
* `flatten_groups_iff`: the paragraphs of a cell show its runs once and in order just when none of them lies
  in two paragraphs.
* `cellText_of_runs`: what this says of the text of a cell.
-/

set_option autoImplicit false

namespace SourceTables.Office

open Xml (Element allElements allPlaces markup)

/-! ### Runs and paragraphs -/

/-- Whether an element is a paragraph. -/
def isParagraph (e : Element) : Bool := e.name == "p"

/-- Whether an element is a run of text. -/
def isRun (e : Element) : Bool := e.name == "t"

/-- The runs in an element, in their order. -/
def runs (e : Element) : List Element := e.all.filter isRun

/-- The runs of each paragraph of a cell. -/
def groups (cell : Element) : List (List Element) := (cell.all.filter isParagraph).map runs

/-- The places of the runs of a cell. -/
def runPlaces (cell : Element) : List Xml.Place := cell.places.filter fun p => isRun p.element

/-- The number of paragraphs that a place lies in. -/
def depth (p : Xml.Place) : Nat := p.above.countP isParagraph

/-- The runs at some places, each as often as there are paragraphs around it. -/
def shown (places : List Xml.Place) : List Element := places.flatMap fun p => List.replicate (depth p) p.element

theorem shown_append (places places' : List Xml.Place) :
    shown (places ++ places') = shown places ++ shown places' := List.flatMap_append

theorem isParagraph_eq_false {e : Element} (h : isRun e = true) : isParagraph e = false := by
  have hname : e.name = "t" := eq_of_beq h
  rw [isParagraph, hname]
  decide

/-! ### Runs of some nodes -/

/-- The runs of some nodes. -/
def runsIn (ns : List Xml.Node) : List Element := (allElements ns).filter isRun

/-- The runs of each paragraph among and in some nodes. -/
def groupsIn (ns : List Xml.Node) : List (List Element) := ((allElements ns).filter isParagraph).map runs

/-- The places of the runs of some nodes that lie in `above`. -/
def runPlacesIn (above : List Element) (ns : List Xml.Node) : List Xml.Place :=
  (allPlaces above ns).filter fun p => isRun p.element

theorem runsIn_cons (x : Element) (rest : List Xml.Node) :
    runsIn (x.node :: rest) = (if isRun x then [x] else []) ++ (runsIn x.children ++ runsIn rest) := by
  show List.filter isRun (x :: (allElements x.children ++ allElements rest)) = _
  rw [List.filter_cons, List.filter_append]
  split <;> rfl

theorem groupsIn_cons (x : Element) (rest : List Xml.Node) :
    groupsIn (x.node :: rest)
      = (if isParagraph x then [runsIn x.children] else []) ++ (groupsIn x.children ++ groupsIn rest) := by
  show List.map runs (List.filter isParagraph (x :: (allElements x.children ++ allElements rest))) = _
  rw [List.filter_cons, List.filter_append]
  split
  · next hparagraph =>
    have hrun : isRun x = false := by
      by_contra h
      rw [isParagraph_eq_false ((Bool.not_eq_false _).mp h)] at hparagraph
      cases hparagraph
    have hruns : runs x = runsIn x.children := by
      rw [runs, Element.all, List.filter_cons, hrun]
      rfl
    rw [List.map_cons, hruns, List.map_append]
    rfl
  · rw [List.map_append]
    rfl

theorem runPlacesIn_cons (above : List Element) (x : Element) (rest : List Xml.Node) :
    runPlacesIn above (x.node :: rest)
      = (if isRun x then [⟨x, above⟩] else [])
        ++ (runPlacesIn (x :: above) x.children ++ runPlacesIn above rest) := by
  show List.filter _ (⟨x, above⟩ :: (allPlaces (x :: above) x.children ++ allPlaces above rest)) = _
  rw [List.filter_cons, List.filter_append]
  split <;> rfl

theorem runPlacesIn_map (above : List Element) (ns : List Xml.Node) :
    (runPlacesIn above ns).map Xml.Place.element = runsIn ns := by
  induction ns using Xml.nodes_induction generalizing above with
  | nil => rfl
  | element x rest ihchildren ihrest =>
    rw [runPlacesIn_cons, runsIn_cons, List.map_append, List.map_append, ihchildren, ihrest]
    refine congrArg (· ++ _) ?_
    split <;> rfl
  | text content rest ih => exact ih above
  | aside rest ih => exact ih above

/-- How often the runs of some nodes are shown: once for each paragraph in the nodes, and once for each that
the nodes lie in. -/
theorem perm_shown (above : List Element) (ns : List Xml.Node) :
    (shown (runPlacesIn above ns)).Perm
      ((groupsIn ns).flatten ++ (List.replicate (above.countP isParagraph) (runsIn ns)).flatten) := by
  classical
  rw [List.perm_iff_count]
  intro e
  simp only [List.count_append, List.count_flatten, List.map_replicate, List.sum_replicate_nat]
  induction ns using Xml.nodes_induction generalizing above with
  | nil => simp [runPlacesIn, shown, groupsIn, runsIn, allPlaces, allElements]
  | element x rest ihchildren ihrest =>
    have hself : (shown (if isRun x then [⟨x, above⟩] else [])).count e
        = above.countP isParagraph * (if isRun x then [x] else []).count e := by
      split
      · rw [shown, List.flatMap_singleton, List.count_replicate, List.count_singleton]
        split
        · exact (Nat.mul_one _).symm
        · rfl
      · rfl
    -- A paragraph shows the runs in it once more.
    have hgroup : (x :: above).countP isParagraph * (runsIn x.children).count e
        = ((if isParagraph x then [runsIn x.children] else []).map (List.count e)).sum
          + above.countP isParagraph * (runsIn x.children).count e := by
      rw [List.countP_cons, Nat.add_mul, Nat.add_comm]
      split <;> simp
    rw [runPlacesIn_cons, groupsIn_cons, runsIn_cons, shown_append, shown_append]
    simp only [List.count_append, List.map_append, List.sum_append, Nat.mul_add]
    rw [hself, ihchildren, ihrest, hgroup]
    omega
  | text content rest ih => exact ih above
  | aside rest ih => exact ih above

/-! ### Runs that are shown once -/

theorem shown_eq_map {places : List Xml.Place} (hone : ∀ p ∈ places, depth p = 1) :
    shown places = places.map Xml.Place.element := by
  induction places with
  | nil => rfl
  | cons p rest ih =>
    rw [shown, List.flatMap_cons, hone p (.head _), List.map_cons, ← ih fun q hq => hone q (.tail _ hq)]
    rfl

theorem length_shown_cons (p : Xml.Place) (rest : List Xml.Place) :
    (shown (p :: rest)).length = depth p + (shown rest).length := by
  rw [shown, List.flatMap_cons, List.length_append, List.length_replicate, shown]

theorem length_le_shown {places : List Xml.Place} (h : ∀ p ∈ places, 1 ≤ depth p) :
    places.length ≤ (shown places).length := by
  induction places with
  | nil => exact Nat.le_refl 0
  | cons p rest ih =>
    have hp := h p (.head _)
    have hrest := ih fun q hq => h q (.tail _ hq)
    rw [length_shown_cons, List.length_cons]
    omega

/-- Where each run is shown and no more are shown than there are, each is shown once. -/
theorem depth_eq_one {places : List Xml.Place} (h : ∀ p ∈ places, 1 ≤ depth p)
    (hlength : (shown places).length = places.length) : ∀ p ∈ places, depth p = 1 := by
  induction places with
  | nil => exact nofun
  | cons p rest ih =>
    have hp := h p (.head _)
    have hrest := length_le_shown fun q hq => h q (.tail _ hq)
    rw [length_shown_cons, List.length_cons] at hlength
    rw [List.forall_mem_cons]
    exact ⟨by omega, ih (fun q hq => h q (.tail _ hq)) (by omega)⟩

/-- In a paragraph there is nothing left to show for those in it. -/
theorem flatten_groupsIn_eq_nil {above : List Element} {ns : List Xml.Node} (habove : above.countP isParagraph = 1)
    (hone : ∀ r ∈ runPlacesIn above ns, depth r = 1) : (groupsIn ns).flatten = [] := by
  have hlength := (perm_shown above ns).length_eq
  rw [shown_eq_map hone, runPlacesIn_map, habove, List.length_append] at hlength
  simp only [List.replicate_one, List.flatten_singleton] at hlength
  exact List.eq_nil_of_length_eq_zero (by omega)

/-- Where each run lies in one paragraph, the paragraphs show the runs once and in their order. -/
theorem flatten_groupsIn {above : List Element} {ns : List Xml.Node} (habove : above.countP isParagraph = 0)
    (hone : ∀ r ∈ runPlacesIn above ns, depth r = 1) : (groupsIn ns).flatten = runsIn ns := by
  induction ns using Xml.nodes_induction generalizing above with
  | nil => rfl
  | element x rest ihchildren ihrest =>
    simp only [runPlacesIn_cons, List.forall_mem_append] at hone
    obtain ⟨hself, hchildren, hrest⟩ := hone
    rw [groupsIn_cons, runsIn_cons, List.flatten_append, List.flatten_append, ihrest habove hrest]
    -- The element is no run, since a run here would lie in no paragraph.
    have hrun : isRun x = false := by
      by_contra hrun
      rw [if_pos ((Bool.not_eq_false _).mp hrun)] at hself
      have hdepth : above.countP isParagraph = 1 := hself _ (.head _)
      omega
    rw [hrun]
    cases hparagraph : isParagraph x with
    | true =>
      have hinside : (x :: above).countP isParagraph = 1 := by
        rw [List.countP_cons, habove, if_pos hparagraph]
      rw [flatten_groupsIn_eq_nil hinside hchildren]
      simp
    | false =>
      have houtside : (x :: above).countP isParagraph = 0 := by
        rw [List.countP_cons, habove, hparagraph]
        rfl
      rw [ihchildren houtside hchildren]
      rfl
  | text content rest ih => exact ih habove hone
  | aside rest ih => exact ih habove hone

theorem runs_eq (cell : Element) : runs cell = runsIn [cell.node] := by
  show _ = List.filter isRun (cell.all ++ [])
  rw [List.append_nil, runs]

theorem groups_eq (cell : Element) : groups cell = groupsIn [cell.node] := by
  show _ = List.map runs (List.filter isParagraph (cell.all ++ []))
  rw [List.append_nil, groups]

theorem runPlaces_eq (cell : Element) : runPlaces cell = runPlacesIn [] [cell.node] := by
  show _ = List.filter _ (cell.places ++ [])
  rw [List.append_nil, runPlaces]

/-- The paragraphs of a cell show each of its runs as often as there are paragraphs around it. -/
theorem perm_groups (cell : Element) : (groups cell).flatten.Perm (shown (runPlaces cell)) := by
  have hperm := perm_shown [] [cell.node]
  rw [List.countP_nil, List.replicate_zero, List.flatten_nil, List.append_nil] at hperm
  rw [groups_eq, runPlaces_eq]
  exact hperm.symm

/-- The paragraphs of a cell show its runs once and in their order just when none lies in two of them. -/
theorem flatten_groups_iff {cell : Element} (hruns : ∀ r ∈ runPlaces cell, 1 ≤ depth r) :
    (groups cell).flatten = runs cell ↔ ∀ r ∈ runPlaces cell, depth r = 1 := by
  constructor
  · intro heq
    have hlength := (perm_groups cell).length_eq
    rw [heq, runs_eq, ← runPlacesIn_map [], ← runPlaces_eq, List.length_map] at hlength
    exact depth_eq_one hruns hlength.symm
  · intro hone
    rw [runPlaces_eq] at hone
    rw [groups_eq, runs_eq, flatten_groupsIn rfl hone]

/-! ### The text of a cell -/

/-- The text of some runs, one after another. -/
def joined (runs : List Element) : String := String.join (runs.filterMap Element.text?)

/-- Texts with a space between any two. Blank ones are left out, unless all are blank. -/
def spaced (texts : List String) : String :=
  match texts.filter fun text => !Text.isBlankText text with
  | [] => String.join texts
  | kept => " ".intercalate kept

theorem joined_flatten (groups : List (List Element)) :
    joined groups.flatten = String.join (groups.map joined) := by
  induction groups with
  | nil => rfl
  | cons group rest ih =>
    rw [List.flatten_cons, joined, List.filterMap_append, String.join_append, List.map_cons, String.join_cons,
      ← ih]
    rfl

/-- What the text of a cell is put together from: the texts of its paragraphs, or all its runs where these are
blank. -/
theorem cellText_eq {cell : Element}
    (h : (groups cell).flatten = runs cell ∨ ∃ group ∈ groups cell, Text.isBlankText (joined group) = false) :
    cellText cell = spaced ((groups cell).map joined) := by
  have htexts : (cell.all.filter fun e => e.name == "p").map (fun p => p.textOf "t")
      = (groups cell).map joined := by
    rw [groups, List.map_map]
    rfl
  simp only [cellText, htexts, spaced]
  cases hkept : ((groups cell).map joined).filter fun text => !Text.isBlankText text with
  | cons text rest => rfl
  | nil =>
    rcases h with heq | ⟨group, hgroup, hshown⟩
    · rw [← joined_flatten, heq]
      rfl
    · have hblank := List.filter_eq_nil_iff.mp hkept (joined group) (List.mem_map_of_mem hgroup)
      rw [hshown] at hblank
      exact absurd rfl hblank

/-- The characters of a text that are not blank. -/
def marks (text : String) : List Char := text.toList.filter fun c => !Text.isBlank c

theorem marks_eq_nil {text : String} (h : Text.isBlankText text = true) : marks text = [] := by
  rw [marks, List.filter_eq_nil_iff]
  intro c hc
  rw [List.all_eq_true.mp h c hc]
  exact Bool.false_ne_true

theorem marks_append (text text' : String) : marks (text ++ text') = marks text ++ marks text' := by
  rw [marks, String.toList_append, List.filter_append, marks, marks]

theorem marks_intercalate (texts : List String) : marks (" ".intercalate texts) = texts.flatMap marks := by
  induction texts with
  | nil => rfl
  | cons text rest ih =>
    cases rest with
    | nil => rw [String.intercalate_singleton, List.flatMap_singleton]
    | cons next rest =>
      have hspace : marks " " = [] := by decide
      rw [String.intercalate_cons_cons, marks_append, marks_append, hspace, List.append_nil, ih]
      rfl

theorem marks_join (texts : List String) : marks (String.join texts) = texts.flatMap marks := by
  rw [marks, String.toList_join, List.filter_flatMap]
  rfl

/-- Apart from blanks nothing is added and nothing is left out. -/
theorem marks_spaced (texts : List String) : marks (spaced texts) = marks (String.join texts) := by
  have hkept : (texts.filter fun text => !Text.isBlankText text).flatMap marks = texts.flatMap marks := by
    induction texts with
    | nil => rfl
    | cons text rest ih =>
      rw [List.flatMap_cons, ← ih, List.filter_cons]
      split
      · rfl
      · next hblank =>
        rw [marks_eq_nil (by simpa using hblank)]
        rfl
  rw [spaced]
  split
  · rfl
  · rw [marks_intercalate, hkept, marks_join]

/-- What a cell shows whose runs lie in paragraphs. Each run is shown as often as there are paragraphs around it.
The paragraphs are the runs once and in their order just when none lies in two paragraphs. Then, and whenever
a paragraph is not blank, the text of the cell is that of its paragraphs with spaces between them. -/
theorem cellText_of_runs (cell : Element) (hruns : ∀ r ∈ runPlaces cell, 1 ≤ depth r) :
    (groups cell).flatten.Perm (shown (runPlaces cell)) ∧
    ((groups cell).flatten = runs cell ↔ ∀ r ∈ runPlaces cell, depth r = 1) ∧
    ((∀ r ∈ runPlaces cell, depth r = 1) ∨ (∃ group ∈ groups cell, Text.isBlankText (joined group) = false) →
      cellText cell = spaced ((groups cell).map joined)) := by
  have hiff := flatten_groups_iff hruns
  exact ⟨perm_groups cell, hiff, fun h => cellText_eq (h.imp_left hiff.mpr)⟩

/-- A cell with a text box in its paragraph, and a run in the paragraph of the box. -/
def boxedCell : Element :=
  let run := Xml.Node.element "r" [] [.element "t" [] [.text "7"]]
  let box := Xml.Node.element "txbxContent" [] [.element "p" [] [run]]
  ⟨"tc", [], [.element "p" [] [.element "r" [] [box]]]⟩

theorem cellText_of_runs_boxed :
    (∀ r ∈ runPlaces boxedCell, 1 ≤ depth r) ∧
      (groups boxedCell).flatten.Perm (shown (runPlaces boxedCell)) ∧
      cellText boxedCell = spaced ((groups boxedCell).map joined) := by
  have hruns : ∀ r ∈ runPlaces boxedCell, 1 ≤ depth r := by decide
  have h := cellText_of_runs boxedCell hruns
  exact ⟨hruns, h.1, h.2.2 (.inr (by decide))⟩

/-- The run in the box is shown twice: the text of the cell is not that of its runs, each once and in their order,
however these are divided into paragraphs. -/
theorem boxedCell_not_once :
    (∀ r ∈ runPlaces boxedCell, 1 ≤ depth r) ∧ cellText boxedCell = "7 7" ∧
      ¬ ∃ parts : List (List Element), parts.flatten = runs boxedCell ∧
        cellText boxedCell = spaced (parts.map joined) := by
  have htext : cellText boxedCell = "7 7" := by decide
  refine ⟨by decide, htext, ?_⟩
  rintro ⟨parts, hparts, hspaced⟩
  have hmarks := congrArg marks hspaced
  rw [htext, marks_spaced, ← joined_flatten, hparts] at hmarks
  revert hmarks
  decide

end SourceTables.Office
