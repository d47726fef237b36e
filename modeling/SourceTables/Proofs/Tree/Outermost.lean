import SourceTables.Html.Table
import SourceTables.Office.Document
import SourceTables.Proofs.Tree.Position

/-!
# `SourceTables.Proofs.Tree.Outermost`: tables that lie in no other

Pages and documents hold tables in which further tables lie. Pages are searched from the outside, and the
search stops at a table. Of a document all elements are looked at, each with those that it lies in. Both find
the tables that lie in no other.

The rows of a table stand right in it or in one of its sections. Neither rows nor sections are tables, so
between a row and its table there is no room for another one.

The theorems:

* `lists_rows`: the rows of a table by their places.
* `readsOutermost`: what finds the outermost tables and their rows keeps inner tables apart.
* `outermost_tables`: both kinds of trees are read so.
-/

set_option autoImplicit false

namespace SourceTables

/-- A kind of tree with tables, which have rows and sections. -/
structure Markup (ν : Type) extends Branching ν where
  isTable : ν → Bool
  isRow : ν → Bool
  isSection : ν → Bool
  row_ne_table : ∀ n, isRow n = true → isTable n = false
  section_ne_table : ∀ n, isSection n = true → isTable n = false
  section_ne_row : ∀ n, isSection n = true → isRow n = false

namespace Markup

variable {ν ε : Type} (m : Markup ν)

/-- Whether a row stands at `q` right below the place `p` or in a section there. -/
def IsRowOf (ns : List ν) (p q : List Nat) : Prop :=
  m.IsAt m.isRow ns q ∧ ((∃ i, q = p ++ [i]) ∨ ∃ i j, m.IsAt m.isSection ns (p ++ [i]) ∧ q = p ++ [i, j])

/-- How the outermost tables among some nodes are read. -/
structure ReadsOutermost (node : ε → ν) (page : List ν) (tables : List ε) (rows : ε → List ε) : Prop where
  /-- The tables are those that lie in no other, each once and in the order of their starts. -/
  tables : m.Lists page (m.IsOutermost m.isTable page) (tables.map node)
  /-- The rows of a table are those right in it or in its sections, each once and in this order. -/
  rows : ∀ p table, m.node? page p = some (node table) → m.Lists page (m.IsRowOf page p) ((rows table).map node)
  /-- No row of such a table lies in another table. -/
  apart : ∀ p q, m.IsOutermost m.isTable page p → m.IsRowOf page p q →
    ∀ r, m.IsAt m.isTable page r → r <+: q → r = p
  /-- Each table is one of them or lies in one of them, and in one only. -/
  once : ∀ q, m.IsAt m.isTable page q → ∃! p, m.IsOutermost m.isTable page p ∧ p <+: q

/-- The rows that stand among some nodes and in the sections among them. -/
def rowsAmong (ns : List ν) : List ν :=
  ns.flatMap fun n => if m.isRow n then [n] else if m.isSection n then (m.below n).filter m.isRow else []

variable {m} {ns rest : List ν} {n : ν} {p q : List Nat}

theorem isRowOf_append (hp : m.node? ns p = some n) :
    m.IsRowOf ns p (p ++ q) ↔ m.IsRowOf (m.below n) [] q := by
  by_cases hq : q = []
  · subst hq
    refine iff_of_false ?_ ?_
    · rintro ⟨-, ⟨i, h⟩ | ⟨i, j, -, h⟩⟩ <;> simp at h
    · rintro ⟨h, -⟩
      exact Branching.not_isAt_nil h
  · simp only [IsRowOf, Branching.isAt_append hp hq, Branching.isAt_append hp (List.cons_ne_nil _ _),
      List.append_cancel_left_eq, List.nil_append]

theorem isRowOf_shift : m.IsRowOf (n :: rest) [] (Branching.shift p) ↔ m.IsRowOf rest [] p := by
  refine and_congr (Branching.isAt_shift p) (or_congr ?_ ?_)
  · match p with
    | [] => exact iff_of_false nofun nofun
    | i :: p => simp [Branching.shift]
  · match p with
    | [] => exact iff_of_false (by simp [Branching.shift]) (by simp)
    | i :: p =>
      have h : m.IsAt m.isSection (n :: rest) [i + 1] ↔ m.IsAt m.isSection rest [i] := Branching.isAt_shift [i]
      simp [Branching.shift, h]

/-- The rows at the first node are the node itself or what is right in it. -/
theorem isRowOf_first : m.IsRowOf (n :: rest) [] p ∧ p.head? = some 0 ↔
    (p = [0] ∧ m.isRow n = true) ∨
      ∃ j, p = [0, j] ∧ m.isSection n = true ∧ m.IsAt m.isRow (m.below n) [j] := by
  constructor
  · rintro ⟨⟨hat, ⟨i, rfl⟩ | ⟨i, j, hsection, rfl⟩⟩, hhead⟩
    · obtain rfl : i = 0 := Option.some_inj.mp hhead
      exact .inl ⟨rfl, Branching.isAt_zero.mp hat⟩
    · obtain rfl : i = 0 := Option.some_inj.mp hhead
      have hrow := (Branching.isAt_below (List.cons_ne_nil j [])).mp hat
      exact .inr ⟨j, rfl, Branching.isAt_zero.mp hsection, hrow⟩
  · rintro (⟨rfl, hrow⟩ | ⟨j, rfl, hsection, hrow⟩)
    · exact ⟨⟨Branching.isAt_zero.mpr hrow, .inl ⟨0, rfl⟩⟩, rfl⟩
    · have hat : m.IsAt m.isRow (n :: rest) [0, j] := (Branching.isAt_below (List.cons_ne_nil j [])).mpr hrow
      exact ⟨⟨hat, .inr ⟨0, j, Branching.isAt_zero.mpr hsection, rfl⟩⟩, rfl⟩

theorem lists_rows_first :
    m.Lists [n] (fun p => m.IsRowOf (n :: rest) [] p ∧ p.head? = some 0)
      (if m.isRow n then [n] else if m.isSection n then (m.below n).filter m.isRow else []) := by
  refine Branching.Lists.congr ?_ fun p => isRowOf_first.symm
  by_cases hrow : m.isRow n = true
  · have hsection : ¬ m.isSection n = true := fun h => by simp [m.section_ne_row n h] at hrow
    rw [if_pos hrow]
    exact Branching.lists_self fun p => by simp [hrow, hsection]
  · rw [if_neg hrow]
    by_cases hsection : m.isSection n = true
    · rw [if_pos hsection]
      refine ((Branching.lists_filter (m.below n)).congr fun q => ⟨?_, ?_⟩).below (n := n) (p := [0]) rfl ?_
      · rintro ⟨hat, j, rfl⟩
        exact .inr ⟨j, rfl, hsection, hat⟩
      · rintro (⟨-, h⟩ | ⟨j, hj, -, hat⟩)
        · exact absurd h hrow
        · obtain rfl : q = [j] := (List.cons.inj hj).2
          exact ⟨hat, j, rfl⟩
      · rintro p (⟨-, h⟩ | ⟨j, rfl, -⟩)
        · exact absurd h hrow
        · exact ⟨[j], List.cons_ne_nil j [], rfl⟩
    · rw [if_neg hsection]
      exact Branching.lists_none fun p => by simp [hrow, hsection]

theorem lists_rowsAmong (ns : List ν) : m.Lists ns (m.IsRowOf ns []) (m.rowsAmong ns) := by
  induction ns with
  | nil =>
    refine Branching.lists_none ?_
    rintro p ⟨⟨n, hn, -⟩, ⟨i, rfl⟩ | ⟨i, j, -, rfl⟩⟩ <;> cases hn
  | cons n rest ih =>
    exact lists_rows_first.cons (ih.congr fun p => isRowOf_shift.symm) fun h => Branching.not_isAt_nil h.1

/-- The rows of a table, by its place. -/
theorem lists_rows (hp : m.node? ns p = some n) : m.Lists ns (m.IsRowOf ns p) (m.rowsAmong (m.below n)) := by
  refine ((lists_rowsAmong (m.below n)).congr fun q => (isRowOf_append hp).symm).below hp ?_
  rintro q ⟨-, ⟨i, rfl⟩ | ⟨i, j, -, rfl⟩⟩
  · exact ⟨[i], List.cons_ne_nil i [], rfl⟩
  · exact ⟨[i, j], List.cons_ne_nil i [j], rfl⟩

/-- Between a table and its rows there is no other table. -/
theorem eq_of_isRowOf (hp : m.IsOutermost m.isTable ns p) (hq : m.IsRowOf ns p q) {r : List Nat}
    (hr : m.IsAt m.isTable ns r) (hle : r <+: q) : r = p := by
  have hdiffers {isOther : ν → Bool} (hother : ∀ n, isOther n = true → m.isTable n = false) {s : List Nat}
      (hs : m.IsAt isOther ns s) : r ≠ s := by
    rintro rfl
    obtain ⟨n, hn, htable⟩ := hr
    obtain ⟨n', hn', hselected⟩ := hs
    obtain rfl : n = n' := Option.some_inj.mp (hn.symm.trans hn')
    rw [hother n hselected] at htable
    cases htable
  have habove (h : r <+: p) : r = p := by
    by_contra hne
    exact hp.2 r h hne hr
  have hrow := hdiffers m.row_ne_table hq.1
  -- One or two steps lead from the table to its row, to a section and then to the row.
  obtain ⟨-, ⟨i, rfl⟩ | ⟨i, j, hsection, rfl⟩⟩ := hq
  · exact habove ((List.prefix_concat_iff.mp hle).resolve_left hrow)
  · have hinner := hdiffers m.section_ne_table hsection
    rw [List.append_cons] at hle hrow
    exact habove ((List.prefix_concat_iff.mp ((List.prefix_concat_iff.mp hle).resolve_left hrow)).resolve_left
      hinner)

/-- A search that finds the outermost tables and the rows in them and in their sections keeps them apart. -/
theorem readsOutermost {node : ε → ν} {page : List ν} {tables : List ε} {rows : ε → List ε}
    (htables : m.Lists page (m.IsOutermost m.isTable page) (tables.map node))
    (hrows : ∀ table, (rows table).map node = m.rowsAmong (m.below (node table))) :
    m.ReadsOutermost node page tables rows where
  tables := htables
  rows p table hp := by
    rw [hrows]
    exact lists_rows hp
  apart p q hp hq r hr hle := eq_of_isRowOf hp hq hr hle
  once q hq := by
    obtain ⟨p, hp, hle⟩ := Branching.exists_outermost hq
    exact ⟨p, ⟨hp, hle⟩, fun p' h => Branching.outermost_unique hp h.1 hle h.2⟩

end Markup

/-- Numbering some tables leaves their grids as they are. -/
theorem map_snd_mapIdx {α β γ : Type} (name : Nat → α → β) (grid : α → γ) (tables : List α) :
    (tables.mapIdx fun n table => (name n table, grid table)).map Prod.snd = tables.map grid := by
  rw [List.mapIdx_eq_zipIdx_map, List.map_map]
  show tables.zipIdx.map (grid ∘ Prod.fst) = _
  rw [← List.map_map, List.zipIdx_map_fst]

/-! ### Pages -/

namespace Html

/-- The node of an element. -/
def Element.node (e : Element) : Node := .element e.name e.id e.children

/-- Whether a node is an element with a name. -/
def Node.is (n : Node) (lower : String) : Bool :=
  match n with
  | .text _ => false
  | .element name _ _ => isNamed name lower

theorem Node.ne_of_is {n : Node} {name other : String} (h : n.is name = true) (hne : name ≠ other) :
    n.is other = false := by
  cases n with
  | text content => rfl
  | element text id children =>
    have htext : String.ofList (text.map Char.toLower) = name := of_decide_eq_true h
    show decide (String.ofList (text.map Char.toLower) = other) = false
    rw [htext]
    exact decide_eq_false hne

/-- The nodes right in a node. -/
def Node.children : Node → List Node
  | .text _ => []
  | .element _ _ children => children

/-- Pages as trees with tables. -/
def markup : Markup Node where
  below := Node.children
  shrinks := by
    refine ⟨sizeOf, fun n m hm => ?_⟩
    cases n with
    | text content => cases hm
    | element name id children =>
      have hlt := List.sizeOf_lt_of_mem hm
      simp only [Node.children, Node.element.sizeOf_spec] at hlt ⊢
      omega
  isTable n := n.is "table"
  isRow n := n.is "tr"
  isSection n := n.is "thead" || n.is "tbody" || n.is "tfoot"
  row_ne_table n h := n.ne_of_is h (by decide)
  section_ne_table n h := by
    simp only [Bool.or_eq_true] at h
    obtain (h | h) | h := h <;> exact n.ne_of_is h (by decide)
  section_ne_row n h := by
    simp only [Bool.or_eq_true] at h
    obtain (h | h) | h := h <;> exact n.ne_of_is h (by decide)

/-- The search of a page stops at tables. -/
theorem lists_outerTables (page : List Node) :
    markup.Lists page (markup.IsOutermost markup.isTable page) ((outerTables page).map Element.node) := by
  refine Branching.lists_outermost (fun (_ : Unit) ns => (outerTables ns).map Element.node) (fun _ => rfl)
    (fun _ n rest => ⟨(), ?_⟩) () page
  rw [outerTables, List.map_append]
  congr 1
  cases n with
  | text content => rfl
  | element name id children =>
    rw [Node.outerTables]
    show _ = if isNamed name "table" then _ else _
    split <;> rfl

theorem elements_filter (name : String) (ns : List Node) :
    ((elements ns).filter fun e => e.is name).map Element.node = ns.filter fun n => n.is name := by
  induction ns with
  | nil => rfl
  | cons n rest ih =>
    cases n with
    | text content => exact ih
    | element text id children =>
      rw [elements, List.filter_cons, List.filter_cons, ← ih]
      show List.map _ (if isNamed text name then _ else _) = if isNamed text name then _ else _
      split <;> rfl

/-- The rows of a table are searched for in it and in its sections. -/
theorem rows_eq (table : Element) :
    table.rows.map Element.node = markup.rowsAmong (markup.below table.node) := by
  have hamong (ns : List Node) :
      ((elements ns).flatMap fun child =>
        if child.is "tr" then [child]
        else if child.isSection then (elements child.children).filter (fun row => row.is "tr")
        else []).map Element.node = markup.rowsAmong ns := by
    induction ns with
    | nil => rfl
    | cons n rest ih =>
      rw [Markup.rowsAmong, List.flatMap_cons]
      cases n with
      | text content => exact ih
      | element name id children =>
        rw [elements, List.flatMap_cons, List.map_append, ih]
        refine congrArg (· ++ _) ?_
        rw [apply_ite (List.map Element.node), apply_ite (List.map Element.node), elements_filter]
        rfl
  exact hamong table.children

/-- The grids of a page are those of its tables, row for row. -/
theorem grids_eq (page : String) :
    (grids page).map Prod.snd
      = (outerTables (parse page)).map fun table => table.rows.map Element.cellTexts :=
  map_snd_mapIdx _ _ _

end Html

/-! ### Documents -/

namespace Xml

/-- The node of an element. -/
def Element.node (e : Element) : Node := .element e.name e.attributes e.children

/-- Whether a node is an element with a name. -/
def Node.is (n : Node) (name : String) : Bool :=
  match n with
  | .element own _ _ => own == name
  | .text _ | .aside => false

/-- The nodes right in a node. -/
def Node.children : Node → List Node
  | .element _ _ children => children
  | .text _ | .aside => []

/-- Documents as trees with tables, which have no sections. -/
def markup : Markup Node where
  below := Node.children
  shrinks := by
    refine ⟨sizeOf, fun n m hm => ?_⟩
    cases n with
    | element name attributes children =>
      have hlt := List.sizeOf_lt_of_mem hm
      simp only [Node.children, Node.element.sizeOf_spec] at hlt ⊢
      omega
    | text content => cases hm
    | aside => cases hm
  isTable n := n.is "tbl"
  isRow n := n.is "tr"
  isSection _ := false
  row_ne_table n h := by
    cases n with
    | element name attributes children =>
      have hname : name = "tr" := eq_of_beq h
      rw [hname]
      rfl
    | text content => rfl
    | aside => rfl
  section_ne_table n h := by cases h
  section_ne_row n h := by cases h

/-- Induction on some nodes, by what is in the first one, if it is an element, and what stands beside it. -/
theorem nodes_induction {motive : List Node → Prop} (nil : motive [])
    (element : ∀ (e : Element) (rest : List Node), motive e.children → motive rest → motive (e.node :: rest))
    (text : ∀ (content : String) (rest : List Node), motive rest → motive (.text content :: rest))
    (aside : ∀ rest : List Node, motive rest → motive (.aside :: rest)) (ns : List Node) : motive ns := by
  induction ns using markup.forest_induction with
  | nil => exact nil
  | cons n rest ihbelow ihrest =>
    cases n with
    | element name attributes children => exact element ⟨name, attributes, children⟩ rest ihbelow ihrest
    | text content => exact text content rest ihrest
    | aside => exact aside rest ihrest

/-- What the nodes lie in, the elements among and in them lie in, too. -/
theorem above_suffix {ns : List Node} {above : List Element} {p : Place} (hp : p ∈ allPlaces above ns) :
    above <:+ p.above := by
  induction ns using nodes_induction generalizing above with
  | nil => cases hp
  | element e rest ihchildren ihrest =>
    rw [allPlaces, List.mem_append] at hp
    rcases hp with hp | hp
    · obtain rfl | hp := List.mem_cons.mp hp
      · exact List.suffix_rfl
      · exact (List.suffix_cons _ _).trans (ihchildren hp)
    · exact ihrest hp
  | text content rest ih => exact ih hp
  | aside rest ih => exact ih hp

theorem named_eq (e : Element) (name : String) :
    (e.named name).map Element.node = e.children.filter fun n => n.is name := by
  rw [Element.named]
  induction e.children with
  | nil => rfl
  | cons n rest ih =>
    cases n with
    | element own attributes children =>
      rw [List.filter_cons, ← ih]
      show List.map _ (List.filter _ (_ :: _)) = if own == name then _ else _
      rw [List.filter_cons]
      show List.map _ (if own == name then _ else _) = _
      split <;> rfl
    | text content => exact ih
    | aside => exact ih

theorem rowsAmong_eq (ns : List Node) : markup.rowsAmong ns = ns.filter fun n => n.is "tr" := by
  induction ns with
  | nil => rfl
  | cons n rest ih =>
    rw [Markup.rowsAmong, List.flatMap_cons, List.filter_cons, ← ih]
    show (if n.is "tr" then [n] else []) ++ _ = _
    split <;> rfl

end Xml

namespace Office

open Xml (Element allPlaces markup)

/-- Whether an element is a table that lies in no other. -/
def isOuter (p : Xml.Place) : Bool := isTable p.element && !p.above.any isTable

/-- The tables that some nodes are and hold and that lie in no other; `above` are the elements that the nodes
lie in. -/
def outerNodes (above : List Element) (ns : List Xml.Node) : List Xml.Node :=
  ((allPlaces above ns).filter isOuter).map fun p => p.element.node

theorem outerNodes_cons (above : List Element) (n : Xml.Node) (rest : List Xml.Node) :
    outerNodes above (n :: rest)
      = ((n.places above).filter isOuter).map (fun p => p.element.node) ++ outerNodes above rest := by
  rw [outerNodes, allPlaces, List.filter_append, List.map_append, outerNodes]

/-- Nothing that lies in a table is found. -/
theorem outerNodes_eq_nil {above : List Element} (h : above.any isTable = true) (ns : List Xml.Node) :
    outerNodes above ns = [] := by
  rw [outerNodes, List.map_eq_nil_iff, List.filter_eq_nil_iff]
  intro p hp
  obtain ⟨e, he, htable⟩ := List.any_eq_true.mp h
  have hinner : p.above.any isTable = true :=
    List.any_eq_true.mpr ⟨e, (Xml.above_suffix hp).subset he, htable⟩
  rw [isOuter, hinner]
  simp

/-- The filter by the elements above is a search that stops at tables. -/
theorem lists_outerNodes (ns : List Xml.Node) :
    markup.Lists ns (markup.IsOutermost markup.isTable ns) (outerNodes [] ns) := by
  refine Branching.lists_outermost
    (fun (above : { above : List Element // above.any isTable = false }) ns => outerNodes above.val ns)
    (fun _ => rfl) (fun above n rest => ?_) ⟨[], rfl⟩ ns
  simp only [outerNodes_cons, List.append_left_inj]
  cases n with
  | text content => exact ⟨above, rfl⟩
  | aside => exact ⟨above, rfl⟩
  | element name attributes children =>
    let e : Element := ⟨name, attributes, children⟩
    have hself : isOuter ⟨e, above.val⟩ = isTable e := by
      rw [isOuter, above.property]
      exact Bool.and_true _
    have hplaces : (((Xml.Node.element name attributes children).places above.val).filter isOuter).map
          (fun p => p.element.node)
        = (if isTable e then [e.node] else []) ++ outerNodes (e :: above.val) children := by
      show (List.filter isOuter (⟨e, above.val⟩ :: allPlaces (e :: above.val) children)).map _ = _
      rw [List.filter_cons, hself]
      split <;> rfl
    rw [hplaces]
    show ∃ _, _ = if isTable e then _ else _
    -- From a table on nothing passes the filter; from another element on it is the same filter as before.
    cases htable : isTable e with
    | true =>
      refine ⟨above, ?_⟩
      rw [outerNodes_eq_nil (by rw [List.any_cons, htable, Bool.true_or])]
      rfl
    | false => exact ⟨⟨e :: above.val, by rw [List.any_cons, htable, above.property]; rfl⟩, rfl⟩

/-- The tables of a document. -/
theorem lists_tables (root : Element) :
    markup.Lists [root.node] (markup.IsOutermost markup.isTable [root.node])
      ((tables root).map Element.node) := by
  have htables : (tables root).map Element.node = outerNodes [] [root.node] := by
    rw [tables, List.map_map]
    show _ = (List.filter isOuter (root.places ++ [])).map _
    rw [List.append_nil]
    rfl
  rw [htables]
  exact lists_outerNodes _

/-- The grids of a document are those of its tables, row for row. -/
theorem namedGrids_eq (leader : String) (root : Element) :
    (namedGrids leader root).map Prod.snd
      = (tables root).map fun table => (table.named "tr").map fun row => (row.named "tc").map cellText :=
  map_snd_mapIdx _ _ _

end Office

/-- Both searches find the tables that lie in no other, and their rows. -/
theorem outermost_tables :
    (∀ page : List Html.Node,
      Html.markup.ReadsOutermost Html.Element.node page (Html.outerTables page) Html.Element.rows) ∧
    (∀ page : String, (Html.grids page).map Prod.snd
      = (Html.outerTables (Html.parse page)).map fun table => table.rows.map Html.Element.cellTexts) ∧
    (∀ root : Xml.Element,
      Xml.markup.ReadsOutermost Xml.Element.node [root.node] (Office.tables root) fun table => table.named "tr") ∧
    (∀ (leader : String) (root : Xml.Element), (Office.namedGrids leader root).map Prod.snd
      = (Office.tables root).map fun table =>
          (table.named "tr").map fun row => (row.named "tc").map Office.cellText) := by
  refine ⟨fun page => ?_, Html.grids_eq, fun root => ?_, Office.namedGrids_eq⟩
  · exact Markup.readsOutermost (Html.lists_outerTables page) Html.rows_eq
  · refine Markup.readsOutermost (Office.lists_tables root) fun table => ?_
    rw [Xml.named_eq, Xml.rowsAmong_eq]
    rfl

end SourceTables
