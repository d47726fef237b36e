import Mathlib.Data.Finset.Card
import SourceTables.Proofs.Files.Agree
import SourceTables.Proofs.Files.Outside

/-!
# `SourceTables.Proofs.Files.Passes`: the locations that a path passes

Where no links are, the locations that a path passes can be told from its components, whatever stands there,
and what the path leads to is decided by what stands at these locations alone. Two trees that agree there
cannot be told apart by the path, nor by making the directory that it names.

The theorems:

* `resolve_congr`, `located_of_resolve`: what a path leads to, and where.
* `makeDirectories_congr`: a directory that is made in both trees.
-/

set_option autoImplicit false

namespace SourceTables

namespace Path

/-- Where a path starts. -/
def start (p : Path) (home : Location) : Location := if p.isAbsolute then [] else home

/-- The locations that a path passes where it meets no links. The last one is the location that it tells. -/
def passes (p : Path) (home : Location) : Set Location :=
  { location | ∃ cs, cs <+: p.components ∧ location = cs.foldl Component.step (p.start home) }

variable {p q dir : Path} {home : Location} {name : String}

/-- An absolute path starts at the root, and tells so. -/
theorem located_eq (p : Path) (home : Location) :
    p.located home = p.components.foldl Component.step (p.start home) := by
  rw [located, start, components_eq]
  split <;> rfl

theorem located_mem_passes (p : Path) (home : Location) : p.located home ∈ p.passes home :=
  ⟨p.components, List.prefix_rfl, p.located_eq home⟩

/-- A path passes what a beginning of it passes. -/
theorem passes_subset (h : q.components <+: p.components) (habsolute : q.isAbsolute = p.isAbsolute) :
    q.passes home ⊆ p.passes home := fun location ⟨cs, hcs, hlocation⟩ => by
  refine ⟨cs, hcs.trans h, ?_⟩
  rw [hlocation, start, start, habsolute]

/-- No component after the first one is the root. -/
theorem root_notMem_below (absolute : Bool) (raw : List String) :
    Component.root ∉ below absolute raw := by
  intro hmem
  obtain ⟨piece, -, hpiece⟩ := List.mem_map.mp hmem
  unfold Piece.component at hpiece
  split at hpiece
  · cases hpiece
  · split at hpiece <;> cases hpiece

/-- The path above another one starts where that does. -/
theorem isAbsolute_parent? (h : p.parent? = some q) : q.isAbsolute = p.isAbsolute := by
  cases habsolute : p.isAbsolute with
  | true =>
    unfold parent? at h
    split at h
    · cases h
    · cases h
      rw [habsolute, if_pos rfl, isAbsolute]
      simp
  | false =>
    refine isAbsolute_eq_false fun hroot => ?_
    have hmem := (parent?_isPrefix h).subset hroot
    rw [components_eq, habsolute] at hmem
    exact root_notMem_below _ _ hmem

/-- Where a piece leads to from a location where it meets no link. -/
def move (location : Location) (piece : String) : Location :=
  if ¬ moves piece = true then location
  else if piece = ".." then location.dropLast
  else location ++ [piece]

theorem move_of_stay {piece : String} (hstay : ¬ moves piece = true) (location : Location) :
    move location piece = location := if_pos hstay

theorem move_of_enters {piece : String} (henters : Enters piece) (location : Location) :
    move location piece = location ++ [piece] := by
  rw [move, if_neg (not_not.mpr henters.moves), if_neg henters.down]

theorem foldl_move_filter (pieces : List String) (start : Location) :
    (pieces.filter moves).foldl move start = pieces.foldl move start := by
  induction pieces generalizing start with
  | nil => rfl
  | cons piece rest ih =>
    by_cases hmoves : moves piece = true
    · rw [List.filter_cons_of_pos hmoves, List.foldl_cons, List.foldl_cons, ih]
    · rw [List.filter_cons_of_neg hmoves, ih, List.foldl_cons, move_of_stay hmoves]

/-- Pieces that move as components do lead to where the components lead. -/
theorem foldl_move_components {cs : List Component} (hnames : ∀ text, .name text ∈ cs → IsName text)
    (hroot : .root ∉ cs) (start : Location) :
    (cs.filterMap Component.move?).foldl move start = cs.foldl Component.step start := by
  induction cs generalizing start with
  | nil => rfl
  | cons c rest ih =>
    have hrest := ih (fun text hmem => hnames text (.tail _ hmem)) fun hmem => hroot (.tail _ hmem)
    cases c with
    | root => exact absurd (.head _) hroot
    | current => exact hrest start
    | parent => exact hrest start.dropLast
    | name text =>
      have henters := (hnames text (.head _)).enters
      show (text :: rest.filterMap Component.move?).foldl move start = _
      rw [List.foldl_cons, hrest, move_of_enters henters]
      rfl

/-- The pieces of a path move as its components after the root do. -/
theorem filter_rawPieces_below (p : Path) :
    p.rawPieces.filter moves = (below p.isAbsolute p.rawPieces).filterMap Component.move? := by
  rw [filter_rawPieces, components_eq, List.filterMap_append]
  split <;> rfl

/-- Pieces lead where the components lead that move as they do. -/
theorem foldl_move {before : List String} {cs : List Component} (hcs : cs <+: below p.isAbsolute p.rawPieces)
    (hmoves : before.filter moves = cs.filterMap Component.move?) (home : Location) :
    before.foldl move (p.start home)
      = ((if p.isAbsolute then [Component.root] else []) ++ cs).foldl Component.step (p.start home) := by
  have hnames (text : String) (hmem : .name text ∈ cs) : IsName text :=
    isName_of_mem (p.components_eq ▸ List.mem_append_right _ (hcs.subset hmem))
  rw [← foldl_move_filter, hmoves, List.foldl_append,
    foldl_move_components hnames fun hmem => root_notMem_below _ _ (hcs.subset hmem), start]
  split <;> rfl

theorem foldl_move_mem_passes {before : List String} (h : before <+: p.rawPieces) (home : Location) :
    before.foldl move (p.start home) ∈ p.passes home := by
  obtain ⟨cs, hcs, hmoves⟩ := List.prefix_filterMap_iff.mp (p.filter_rawPieces_below ▸ h.filter moves)
  exact ⟨_, p.components_eq ▸ (List.prefix_append_right_inj _).mpr hcs, foldl_move hcs hmoves home⟩

theorem foldl_move_rawPieces (p : Path) (home : Location) :
    p.rawPieces.foldl move (p.start home) = p.located home := by
  rw [foldl_move List.prefix_rfl p.filter_rawPieces_below, ← components_eq, located_eq]

section

variable {names : List String} (h : p.components = dir.components ++ names.map .name)
include h

/-- A path with names after a directory starts where the directory's path does. -/
theorem start_of_components (home : Location) : p.start home = dir.start home := by
  have habsolute : p.isAbsolute = dir.isAbsolute := by
    rw [isAbsolute_eq, isAbsolute_eq, h]
    cases dir.components with
    | nil => cases names <;> rfl
    | cons => rfl
  rw [start, habsolute, ← start]

/-- Names below a directory are passed after what the path of the directory passes. -/
theorem mem_passes_of_components {location : Location} (hlocation : location ∈ p.passes home) :
    location ∈ dir.passes home ∨ ∃ more, more <+: names ∧ location = dir.located home ++ more := by
  obtain ⟨cs, hcs, rfl⟩ := hlocation
  rw [h] at hcs
  rw [start_of_components h]
  obtain hbefore | ⟨more, rfl⟩ := List.prefix_or_prefix_of_prefix hcs (List.prefix_append _ _)
  · exact .inl ⟨cs, hbefore, rfl⟩
  · obtain ⟨more, hmore, rfl⟩ := List.prefix_map_iff.mp ((List.prefix_append_right_inj _).mp hcs)
    refine .inr ⟨more, hmore, ?_⟩
    rw [List.foldl_append, ← located_eq, foldl_step_names]

end

/-- What a path passes is where beginnings of its pieces lead. -/
theorem exists_pieces_of_mem_passes {location : Location} (h : location ∈ p.passes home) :
    ∃ before, before <+: p.rawPieces ∧ before.foldl move (p.start home) = location := by
  obtain ⟨cs, hcs, rfl⟩ := h
  have hbelow {cs : List Component} (hcs : cs <+: below p.isAbsolute p.rawPieces) :
      ∃ before, before <+: p.rawPieces ∧ before.foldl move (p.start home)
        = ((if p.isAbsolute then [Component.root] else []) ++ cs).foldl Component.step (p.start home) := by
    have hbegins := hcs.filterMap Component.move?
    rw [← filter_rawPieces_below] at hbegins
    obtain ⟨before, hbefore, hmoves⟩ := List.prefix_filter_iff.mp hbegins
    exact ⟨before, hbefore, foldl_move hcs hmoves.symm home⟩
  rw [components_eq] at hcs
  cases habsolute : p.isAbsolute with
  | false =>
    rw [habsolute] at hcs hbelow
    exact hbelow hcs
  | true =>
    rw [habsolute] at hcs hbelow
    obtain rfl | ⟨rest, rfl, hrest⟩ := List.prefix_cons_iff.mp hcs
    · exact ⟨[], List.nil_prefix, rfl⟩
    · exact hbelow hrest

end Path

/-- The location of a place. -/
def Place.location : Place → Location
  | .taken location _ => location
  | .vacant location => location

namespace Files

variable {fs fs' : Files} {through : Bool} {spots : Set Location} {p dir : Path}

/-- Whether no links stand in some places. -/
def Unlinked (fs : Files) (spots : Set Location) : Prop :=
  ∀ location ∈ spots, ∀ target, fs.node? location ≠ some (.link target)

/-- Whether two trees agree in some places. -/
structure AgreesOn (spots : Set Location) (fs fs' : Files) : Prop where
  home : fs'.home = fs.home
  node : ∀ location ∈ spots, fs'.node? location = fs.node? location

/-! ### What paths lead to -/

section

variable {onward onward' : Location → List String → Except FileError Place} {start : Location}
  {pieces : List String}

/-- What pieces lead to is decided by what they pass. -/
theorem followPieces_congr (hpasses : ∀ before, before <+: pieces → before.foldl Path.move start ∈ spots)
    (hsame : ∀ location ∈ spots, fs'.node? location = fs.node? location) (hlinks : fs.Unlinked spots) :
    fs'.followPieces through onward' start pieces = fs.followPieces through onward start pieces := by
  induction pieces generalizing start with
  | nil =>
    rw [followPieces, followPieces, hsame start (hpasses [] List.prefix_rfl)]
  | cons piece rest ih =>
    have hstart := hsame start (hpasses [] List.nil_prefix)
    have hrest := ih fun before hbefore =>
      hpasses (piece :: before) (List.cons_prefix_cons.mpr ⟨rfl, hbefore⟩)
    by_cases hdir : fs.node? start = some .directory
    · have hdir' := hstart.trans hdir
      obtain hstay | rfl | henters := Path.piece_cases piece
      · rw [Path.move_of_stay hstay] at hrest
        rw [followPieces_stay hdir hstay, followPieces_stay hdir' hstay, hrest]
      · rw [followPieces_up hdir, followPieces_up hdir']
        exact hrest
      · rw [Path.move_of_enters henters] at hrest
        have hmem : start ++ [piece] ∈ spots :=
          Path.move_of_enters henters start ▸ hpasses [piece] (List.cons_prefix_cons.mpr ⟨rfl, List.nil_prefix⟩)
        rw [followPieces_enter hdir henters, followPieces_enter hdir' henters, hsame _ hmem, hrest]
        cases hnext : fs.node? (start ++ [piece]) with
        | none => rfl
        | some node =>
          cases node with
          | file | directory => rfl
          | link target => exact absurd hnext (hlinks _ hmem target)
    · rw [followPieces, followPieces, hstart]
      cases hnode : fs.node? start with
      | none => rfl
      | some node =>
        have hnot : node ≠ .directory := fun hsame => hdir (hsame ▸ hnode)
        dsimp only
        rw [if_pos hnot, if_pos hnot]

/-- Pieces lead to the location that they tell. -/
theorem location_of_followPieces
    (hpasses : ∀ before, before <+: pieces → before.foldl Path.move start ∈ spots)
    (hlinks : fs.Unlinked spots) {place : Place}
    (h : fs.followPieces through onward start pieces = .ok place) :
    place.location = pieces.foldl Path.move start := by
  induction pieces generalizing start with
  | nil =>
    rw [followPieces] at h
    split at h
    · cases h
    · cases h
      rfl
  | cons piece rest ih =>
    have hdir := directory_of_followPieces h
    have hrest := ih fun before hbefore =>
      hpasses (piece :: before) (List.cons_prefix_cons.mpr ⟨rfl, hbefore⟩)
    rw [List.foldl_cons]
    obtain hstay | rfl | henters := Path.piece_cases piece
    · rw [followPieces_stay hdir hstay] at h
      rw [Path.move_of_stay hstay] at hrest ⊢
      exact hrest h
    · rw [followPieces_up hdir] at h
      exact hrest h
    · have hmove := Path.move_of_enters henters start
      have hmem : start ++ [piece] ∈ spots :=
        hmove ▸ hpasses [piece] (List.cons_prefix_cons.mpr ⟨rfl, List.nil_prefix⟩)
      rw [hmove] at hrest ⊢
      rw [followPieces_enter hdir henters] at h
      split at h
      · split at h
        · next hslashes =>
          cases h
          -- Nothing moves after a name that is vacant.
          have hnone : rest.filter Path.moves = [] := List.filter_eq_nil_iff.mpr fun s hs => by
            rw [of_decide_eq_true (List.all_eq_true.mp hslashes s hs)]
            decide
          rw [← Path.foldl_move_filter, hnone]
          rfl
        · cases h
      · next target hlink => exact absurd hlink (hlinks _ hmem target)
      · exact hrest h

/-- Pieces that lead to a directory pass directories alone. -/
theorem directory_of_prefix (hpasses : ∀ before, before <+: pieces → before.foldl Path.move start ∈ spots)
    (hlinks : fs.Unlinked spots) {found : Location}
    (h : fs.followPieces through onward start pieces = .ok (.taken found .directory)) {before : List String}
    (hbefore : before <+: pieces) : fs.node? (before.foldl Path.move start) = some .directory := by
  induction pieces generalizing start before with
  | nil =>
    obtain rfl := List.prefix_nil.mp hbefore
    rw [followPieces] at h
    cases hnode : fs.node? start with
    | none =>
      rw [hnode] at h
      cases h
    | some node =>
      rw [hnode] at h
      cases h
      exact hnode
  | cons piece rest ih =>
    have hdir := directory_of_followPieces h
    obtain rfl | ⟨more, rfl, hmore⟩ := List.prefix_cons_iff.mp hbefore
    · exact hdir
    refine ih (fun before hbefore => hpasses (piece :: before) (List.cons_prefix_cons.mpr ⟨rfl, hbefore⟩)) ?_
      hmore
    obtain hstay | rfl | henters := Path.piece_cases piece
    · rw [followPieces_stay hdir hstay] at h
      rwa [Path.move_of_stay hstay]
    · rw [followPieces_up hdir] at h
      exact h
    · have hmove := Path.move_of_enters henters start
      have hmem : start ++ [piece] ∈ spots :=
        hmove ▸ hpasses [piece] (List.cons_prefix_cons.mpr ⟨rfl, List.nil_prefix⟩)
      rw [followPieces_enter hdir henters] at h
      rw [hmove]
      split at h
      · split at h <;> cases h
      · next target hlink => exact absurd hlink (hlinks _ hmem target)
      · exact h

end

/-- What a path leads to is decided by what it passes. -/
theorem resolve_congr (h : AgreesOn (p.passes fs.home) fs fs') (hlinks : fs.Unlinked (p.passes fs.home)) :
    fs'.resolve p through = fs.resolve p through := by
  have hpasses (before : List String) (hbefore : before <+: p.rawPieces) :=
    Path.foldl_move_mem_passes hbefore fs.home
  unfold resolve
  rw [follow_eq, follow_eq, h.home]
  split
  · rfl
  · exact followPieces_congr hpasses h.node hlinks

theorem stat_congr (h : AgreesOn (p.passes fs.home) fs fs') (hlinks : fs.Unlinked (p.passes fs.home)) :
    fs'.stat p = fs.stat p := by
  rw [stat, resolve_congr h hlinks, stat]

/-- A path leads to the location that it tells. -/
theorem located_of_resolve (hlinks : fs.Unlinked (p.passes fs.home)) {place : Place}
    (h : fs.resolve p through = .ok place) : place.location = p.located fs.home := by
  have hpasses (before : List String) (hbefore : before <+: p.rawPieces) :=
    Path.foldl_move_mem_passes hbefore fs.home
  unfold resolve at h
  split at h
  · cases h
  · rw [follow_eq] at h
    rw [← Path.foldl_move_rawPieces]
    exact location_of_followPieces hpasses hlinks h

section

variable {location : Location}

theorem located_of_leadsTo (hlinks : fs.Unlinked (dir.passes fs.home)) (h : fs.LeadsTo dir location) :
    location = dir.located fs.home := by
  have hpasses (before : List String) (hbefore : before <+: dir.above) :=
    Path.foldl_move_mem_passes (hbefore.trans dir.above_isPrefix) fs.home
  unfold LeadsTo at h
  rw [follow_eq] at h
  have hlocation := location_of_followPieces hpasses hlinks h
  rw [← Path.foldl_move_rawPieces, ← Path.foldl_move_filter, ← filter_above, Path.foldl_move_filter]
  exact hlocation

/-- The path of a directory passes directories alone. -/
theorem directory_of_passes (hlinks : fs.Unlinked (p.passes fs.home)) (h : fs.isDirectory p = true)
    (hlocation : location ∈ p.passes fs.home) : fs.node? location = some .directory := by
  obtain ⟨found, hstat⟩ := isDirectory_iff.mp h
  have hresolve := stat_eq_ok.mp hstat
  unfold resolve at hresolve
  split at hresolve
  · cases hresolve
  · rw [follow_eq] at hresolve
    obtain ⟨before, hbefore, rfl⟩ := Path.exists_pieces_of_mem_passes hlocation
    exact directory_of_prefix (fun _ hbefore => Path.foldl_move_mem_passes hbefore fs.home) hlinks hresolve
      hbefore

end

/-! ### Directories that are made -/

/-- Whether a tree is another one in which directories were made in some places where nothing stood. -/
structure Opened (spots : Set Location) (fs fs' : Files) : Prop where
  home : fs'.home = fs.home
  node : ∀ location, fs'.node? location = fs.node? location ∨
    location ∈ spots ∧ fs.node? location = none ∧ fs'.node? location = some .directory

namespace Opened

variable {fs'' : Files} {spots' : Set Location}

theorem refl (spots : Set Location) (fs : Files) : Opened spots fs fs := ⟨rfl, fun _ => .inl rfl⟩

theorem mono (h : Opened spots fs fs') (hsub : spots ⊆ spots') : Opened spots' fs fs' :=
  ⟨h.home, fun location => (h.node location).imp_right fun ⟨hmem, hmade⟩ => ⟨hsub hmem, hmade⟩⟩

theorem trans (h : Opened spots fs fs') (h' : Opened spots fs' fs'') : Opened spots fs fs'' := by
  refine ⟨h'.home.trans h.home, fun location => ?_⟩
  obtain hsame' | ⟨hmem', hnone', hmade'⟩ := h'.node location
  · obtain hsame | ⟨hmem, hnone, hmade⟩ := h.node location
    · exact .inl (hsame'.trans hsame)
    · exact .inr ⟨hmem, hnone, hsame'.trans hmade⟩
  · obtain hsame | ⟨-, -, hmade⟩ := h.node location
    · exact .inr ⟨hmem', hsame ▸ hnone', hmade'⟩
    · cases hmade.symm.trans hnone'

/-- No link is made. -/
theorem unlinked (h : Opened spots fs fs') (hlinks : fs.Unlinked spots') : fs'.Unlinked spots' :=
  fun location hlocation target hlink => by
    obtain hsame | ⟨-, -, hmade⟩ := h.node location
    · exact hlinks location hlocation target (hsame ▸ hlink)
    · cases hmade.symm.trans hlink

end Opened

/-- Whether something that makes directories comes to the same in two trees that agree off some places: it
fails for the same reason, or it succeeds and leaves trees that agree there, too. -/
inductive MadeAlike (off made : Set Location) (fs : Files) :
    Except FileError Files → Except FileError Files → Prop
  | error (e : FileError) : MadeAlike off made fs (.error e) (.error e)
  | ok {after after' : Files} : after.AgreesOff off after' → Opened made fs after →
    MadeAlike off made fs (.ok after) (.ok after')

section

variable {off made : Set Location}

theorem AgreesOff.on (h : fs.AgreesOff off fs') (hspots : ∀ location ∈ spots, location ∉ off) :
    AgreesOn spots fs fs' := ⟨h.home, fun location hlocation => h.node location (hspots location hlocation)⟩

theorem AgreesOff.put (h : fs.AgreesOff off fs') (location : Location) (node : Node) :
    (fs.put location node).AgreesOff off (fs'.put location node) := by
  refine ⟨h.home, fun other hother => ?_⟩
  rw [node?_put, node?_put, h.node other hother]

variable (h : fs.AgreesOff off fs') (hoff : ∀ location ∈ p.passes fs.home, location ∉ off)
  (hlinks : fs.Unlinked (p.passes fs.home)) (hmade : p.passes fs.home ⊆ made)
include h hoff hlinks hmade

theorem ensureDirectory_congr : MadeAlike off made fs (fs.ensureDirectory p) (fs'.ensureDirectory p) := by
  have hon := h.on hoff
  have hdir : fs'.isDirectory p = fs.isDirectory p := by rw [isDirectory, stat_congr hon hlinks, isDirectory]
  have hresolve : fs'.resolve p false = fs.resolve p false := resolve_congr hon hlinks
  have hfails (e : FileError) : MadeAlike off made fs
      (if fs.isDirectory p then .ok fs else .error e) (if fs.isDirectory p then .ok fs' else .error e) := by
    split
    · exact .ok h (.refl made fs)
    · exact .error e
  unfold ensureDirectory makeDirectory
  rw [hresolve, hdir]
  cases hplace : fs.resolve p false with
  | error e => exact hfails e
  | ok place =>
    cases place with
    | taken => exact hfails _
    | vacant location =>
      obtain rfl := located_of_resolve hlinks hplace
      refine .ok (h.put _ _) ⟨rfl, fun other => ?_⟩
      rw [node?_put]
      split
      · next hsame =>
        obtain ⟨rfl, -⟩ := hsame
        exact .inr ⟨hmade (p.located_mem_passes fs.home), (stands_of_resolve hplace).1, rfl⟩
      · exact .inl rfl

/-- A directory is made in the same way, with those above it that are missing. -/
theorem makeDirectories_congr : MadeAlike off made fs (fs.makeDirectories p) (fs'.makeDirectories p) := by
  unfold makeDirectories
  generalize p.text.length + 1 = fuel
  induction fuel generalizing p with
  | zero => exact .error _
  | succ fuel ih =>
    have hfirst := ensureDirectory_congr h hoff hlinks hmade
    unfold makeDirectoriesUpTo
    split
    · exact .ok h (.refl made fs)
    · generalize fs.ensureDirectory p = result, fs'.ensureDirectory p = result' at hfirst
      cases hfirst with
      | ok hagrees hopened => exact .ok hagrees hopened
      | error e =>
        cases e with
        | notFound =>
          dsimp only
          cases habove : p.parent? with
          | none => exact .error _
          | some above =>
            have hsub : above.passes fs.home ⊆ p.passes fs.home :=
              Path.passes_subset (Path.parent?_isPrefix habove) (Path.isAbsolute_parent? habove)
            have hrest := ih (fun l hl => hoff l (hsub hl)) (fun l hl => hlinks l (hsub hl)) (hsub.trans hmade)
            dsimp only
            generalize fs.makeDirectoriesUpTo above fuel = result,
              fs'.makeDirectoriesUpTo above fuel = result' at hrest
            cases hrest with
            | error e => exact .error e
            | @ok after after' hagrees hopened =>
              have hhome := hopened.home
              have hlast : MadeAlike off made after (after.ensureDirectory p) (after'.ensureDirectory p) :=
                ensureDirectory_congr hagrees (hhome ▸ hoff) (hopened.unlinked (hhome ▸ hlinks))
                  (hhome ▸ hmade)
              show MadeAlike off made fs (after.ensureDirectory p) (after'.ensureDirectory p)
              generalize after.ensureDirectory p = result, after'.ensureDirectory p = result' at hlast
              cases hlast with
              | error e => exact .error e
              | ok hagrees' hopened' => exact .ok hagrees' (hopened.trans hopened')
        | _ => exact .error _

end

/-! ### Walks -/

section

variable {location : Location}

/-- Something stands at a location below the root just when it is one of the tree's. -/
theorem mem_keys_iff (hne : location ≠ []) : location ∈ fs.nodes.keys ↔ fs.node? location ≠ none := by
  rw [Keyed.mem_keys_iff, node?, if_neg hne]
  exact Option.isSome_iff_ne_none

/-- How many locations of a tree are below one. -/
def below (fs : Files) (location : Location) : Nat :=
  (fs.nodes.keys.toFinset.filter fun key => location <+: key ∧ key ≠ location).card

end

end Files

end SourceTables
