import SourceTables.Files.Basic

/-!
# `SourceTables.Proofs.Files.Follows`: where a path leads, piece by piece

Following a path is a recursion over its pieces that begins anew at each link. The relation `Follows` has
one constructor for each thing that can happen at a piece, so that what holds of every path is shown by
one induction with a case for each.

The theorems:

* `follow_eq_ok`, `resolve_eq_ok`, `stat_eq_ok`: where a path leads, as a relation.
* `Follows.of_stay`, `Follows.of_up`, `Follows.of_enters`: what happens at a first piece of each kind.
* `Follows.stands`: what stands where a path leads.
* `Follows.append`, `Follows.of_append`: a path goes one name further from the directory it leads to.
-/

set_option autoImplicit false

namespace SourceTables

/-! ### Pieces -/

namespace Path

/-- Whether a piece of a path leads to another place. -/
def moves (piece : String) : Bool := piece != "" && piece != "."

/-- A piece that does not move is empty or a dot. -/
theorem not_moves {piece : String} (h : ¬ moves piece = true) : piece = "" ∨ piece = "." := by
  unfold moves at h
  by_cases he : piece = ""
  · exact .inl he
  · exact .inr (by simpa [he] using h)

/-- Any other piece moves. -/
theorem moves_of_not {piece : String} (h : ¬ (piece = "" ∨ piece = ".")) : moves piece = true := by
  rw [not_or] at h
  simp [moves, h]

/-- Whether a piece of a path goes to what has its name. -/
structure Enters (piece : String) : Prop where
  moves : moves piece = true
  down : piece ≠ ".."

/-- A piece stays, goes up, or goes to what has its name. -/
theorem piece_cases (piece : String) : ¬ moves piece = true ∨ piece = ".." ∨ Enters piece := by
  by_cases hmoves : moves piece = true
  · by_cases hup : piece = ".."
    · exact .inr (.inl hup)
    · exact .inr (.inr ⟨hmoves, hup⟩)
  · exact .inl hmoves

theorem not_enters_parent : ¬ Enters ".." := fun h => h.down rfl

end Path

namespace Files

variable {fs : Files} {through : Bool} {links : Nat} {start : Location} {piece : String}
  {rest pieces : List String} {place : Place}

/-! ### One piece -/

section

variable {onward : Location → List String → Except FileError Place}

/-- What follows a piece needs a directory to start from. -/
theorem directory_of_followPieces (h : fs.followPieces through onward start (piece :: rest) = .ok place) :
    fs.node? start = some .directory := by
  rw [followPieces] at h
  cases hnode : fs.node? start with
  | none =>
    rw [hnode] at h
    cases h
  | some node =>
    rw [hnode] at h
    by_cases hdir : node = .directory
    · rw [hdir]
    · simp [hdir] at h

/-- A piece that does not move is passed over. -/
theorem followPieces_stay (hdir : fs.node? start = some .directory) (hstay : ¬ Path.moves piece = true) :
    fs.followPieces through onward start (piece :: rest) = fs.followPieces through onward start rest := by
  rw [followPieces, hdir]
  simp [Path.not_moves hstay]

/-- Two dots go up. -/
theorem followPieces_up (hdir : fs.node? start = some .directory) :
    fs.followPieces through onward start (".." :: rest)
      = fs.followPieces through onward start.dropLast rest := by
  rw [followPieces, hdir]
  rfl

/-- How a path goes on at a name. -/
theorem followPieces_enter (hdir : fs.node? start = some .directory) (henters : Path.Enters piece) :
    fs.followPieces through onward start (piece :: rest)
      = match fs.node? (start ++ [piece]) with
        | none => if rest.all (· = "") then .ok (.vacant (start ++ [piece])) else .error .notFound
        | some (.link target) =>
          if rest = [] ∧ !through then .ok (.taken (start ++ [piece]) (.link target))
          else onward (if target.isAbsolute then [] else start) (target.rawPieces ++ rest)
        | some _ => fs.followPieces through onward (start ++ [piece]) rest := by
  have hpiece : ¬ (piece = "" ∨ piece = ".") := by
    rintro (rfl | rfl) <;> exact absurd henters.moves (by decide)
  rw [followPieces, hdir]
  exact (if_neg fun h => h rfl).trans ((if_neg hpiece).trans (if_neg henters.down))

end

/-! ### All pieces -/

/-- Where pieces lead from a directory, if no more than so many links are followed. -/
inductive Follows (fs : Files) (through : Bool) : Nat → Location → List String → Place → Prop
  | done {links : Nat} {start : Location} {node : Node} : fs.node? start = some node →
    Follows fs through links start [] (.taken start node)
  | stay {links : Nat} {start : Location} {piece : String} {rest : List String} {place : Place} :
    fs.node? start = some .directory → ¬ Path.moves piece = true →
    Follows fs through links start rest place → Follows fs through links start (piece :: rest) place
  | up {links : Nat} {start : Location} {rest : List String} {place : Place} :
    fs.node? start = some .directory →
    Follows fs through links start.dropLast rest place → Follows fs through links start (".." :: rest) place
  /-- There is nothing of that name, and only slashes come after it. -/
  | vacant {links : Nat} {start : Location} {piece : String} {rest : List String} :
    fs.node? start = some .directory → Path.Enters piece → fs.node? (start ++ [piece]) = none →
    rest.all (· = "") = true → Follows fs through links start (piece :: rest) (.vacant (start ++ [piece]))
  | enter {links : Nat} {start : Location} {piece : String} {rest : List String} {node : Node}
    {place : Place} : fs.node? start = some .directory → Path.Enters piece →
    fs.node? (start ++ [piece]) = some node → (∀ target, node ≠ .link target) →
    Follows fs through links (start ++ [piece]) rest place → Follows fs through links start (piece :: rest) place
  /-- A link that is not to be followed comes last. -/
  | link {links : Nat} {start : Location} {piece : String} {target : Path} :
    fs.node? start = some .directory → Path.Enters piece →
    fs.node? (start ++ [piece]) = some (.link target) → through = false →
    Follows fs through links start [piece] (.taken (start ++ [piece]) (.link target))
  | onward {links : Nat} {start : Location} {piece : String} {rest : List String} {target : Path}
    {place : Place} : fs.node? start = some .directory → Path.Enters piece →
    fs.node? (start ++ [piece]) = some (.link target) → (rest = [] → through = true) →
    Follows fs through links (if target.isAbsolute then [] else start) (target.rawPieces ++ rest) place →
    Follows fs through (links + 1) start (piece :: rest) place

/-- How a path goes on at a link. -/
def onward (fs : Files) (through : Bool) : Nat → Location → List String → Except FileError Place
  | 0, _, _ => .error .tooManyLinks
  | links + 1, start, pieces => fs.follow through links start pieces

theorem follow_eq (fs : Files) (through : Bool) (links : Nat) :
    fs.follow through links = fs.followPieces through (fs.onward through links) := by
  cases links <;> rfl

/-- Where pieces lead if it is known where they lead from a link. -/
theorem follows_of_followPieces
    (honward : ∀ start pieces place, fs.onward through links start pieces = .ok place →
      ∃ below, links = below + 1 ∧ fs.Follows through below start pieces place)
    (h : fs.followPieces through (fs.onward through links) start pieces = .ok place) :
    fs.Follows through links start pieces place := by
  induction pieces generalizing start with
  | nil =>
    unfold followPieces at h
    split at h
    · cases h
    · next hnode =>
      cases h
      exact .done hnode
  | cons piece rest ih =>
    have hdir := directory_of_followPieces h
    obtain hstay | rfl | henters := Path.piece_cases piece
    · rw [followPieces_stay hdir hstay] at h
      exact .stay hdir hstay (ih h)
    · rw [followPieces_up hdir] at h
      exact .up hdir (ih h)
    · rw [followPieces_enter hdir henters] at h
      cases hnode : fs.node? (start ++ [piece]) with
      | none =>
        simp only [hnode] at h
        split at h
        · next hrest =>
          cases h
          exact .vacant hdir henters hnode hrest
        · cases h
      | some node =>
        cases node with
        | file | directory =>
          simp only [hnode] at h
          exact .enter hdir henters hnode (by simp) (ih h)
        | link target =>
          simp only [hnode] at h
          split at h
          · next hlast =>
            cases h
            obtain ⟨rfl, hthrough⟩ := hlast
            exact .link hdir henters hnode (by simpa using hthrough)
          · next hlast =>
            obtain ⟨below, rfl, hfollows⟩ := honward _ _ _ h
            refine .onward hdir henters hnode (fun hrest => ?_) hfollows
            simpa [hrest] using hlast

/-- Where a path leads, as a relation. -/
theorem follow_eq_ok : fs.follow through links start pieces = .ok place ↔
    fs.Follows through links start pieces place := by
  constructor
  · intro h
    induction links generalizing start pieces place with
    | zero =>
      refine follows_of_followPieces (fun start pieces place honward => ?_) h
      cases honward
    | succ links ih => exact follows_of_followPieces (fun _ _ _ honward => ⟨links, rfl, ih honward⟩) h
  · intro h
    rw [follow_eq]
    induction h with
    | done hnode => rw [followPieces, hnode]
    | stay hdir hstay _ ih => rw [followPieces_stay hdir hstay, ih]
    | up hdir _ ih => rw [followPieces_up hdir, ih]
    | vacant hdir henters hnone hrest =>
      rw [followPieces_enter hdir henters, hnone]
      exact if_pos hrest
    | @enter _ _ _ _ node _ hdir henters hnode hlink _ ih =>
      rw [followPieces_enter hdir henters, hnode]
      cases node with
      | file | directory => exact ih
      | link target => exact absurd rfl (hlink target)
    | link hdir henters hnode hthrough =>
      rw [followPieces_enter hdir henters, hnode]
      exact if_pos ⟨rfl, by simp [hthrough]⟩
    | @onward links _ _ _ _ _ hdir henters hnode hlast _ ih =>
      rw [followPieces_enter hdir henters, hnode]
      have honward : fs.follow through links _ _ = _ := (congrFun (congrFun (follow_eq ..) _) _).trans ih
      refine (if_neg fun h => ?_).trans honward
      simpa [hlast h.1] using h.2

/-- Where a path leads that is not empty. -/
theorem resolve_eq_ok {p : Path} : fs.resolve p through = .ok place ↔ p.text ≠ "" ∧
    fs.Follows through linkLimit (if p.isAbsolute then [] else fs.home) p.rawPieces place := by
  unfold resolve
  by_cases hempty : p.text = ""
  · rw [if_pos hempty]
    exact ⟨fun h => (by cases h), fun h => absurd hempty h.1⟩
  · rw [if_neg hempty, follow_eq_ok]
    exact ⟨fun h => ⟨hempty, h⟩, fun h => h.2⟩

/-- What a path leads to, links followed. -/
theorem stat_eq_ok {p : Path} {location : Location} {node : Node} : fs.stat p = .ok (location, node) ↔
    fs.resolve p true = .ok (.taken location node) := by
  unfold stat
  constructor
  · intro h
    split at h
    · next hresolve =>
      cases h
      exact hresolve
    · cases h
    · cases h
  · intro h
    rw [h]

namespace Follows

/-- A first piece that does not move makes no difference. -/
theorem of_stay (hstay : ¬ Path.moves piece = true)
    (h : fs.Follows through links start (piece :: rest) place) :
    fs.Follows through links start rest place := by
  cases h with
  | stay _ _ h => exact h
  | up => exact absurd (by decide) hstay
  | vacant _ henters | enter _ henters | link _ henters | onward _ henters => exact absurd henters.moves hstay

/-- What comes after two dots is seen from above. -/
theorem of_up (h : fs.Follows through links start (".." :: rest) place) :
    fs.Follows through links start.dropLast rest place := by
  cases h with
  | stay _ hstay => exact absurd (by decide) hstay
  | up _ h => exact h
  | vacant _ henters | enter _ henters | link _ henters | onward _ henters =>
    exact absurd henters Path.not_enters_parent

/-- What follows a piece needs a directory to start from. -/
theorem directory (h : fs.Follows through links start (piece :: rest) place) :
    fs.node? start = some .directory := by
  cases h <;> assumption

/-- What happens at a name, if links are followed. -/
theorem of_enters (henters : Path.Enters piece) (h : fs.Follows true links start (piece :: rest) place) :
    (fs.node? (start ++ [piece]) = none ∧ place = .vacant (start ++ [piece])) ∨
    (∃ node, fs.node? (start ++ [piece]) = some node ∧ (∀ target, node ≠ .link target) ∧
      fs.Follows true links (start ++ [piece]) rest place) ∨
    ∃ target below, fs.node? (start ++ [piece]) = some (.link target) ∧ links = below + 1 ∧
      fs.Follows true below (if target.isAbsolute then [] else start) (target.rawPieces ++ rest) place := by
  cases h with
  | stay _ hstay => exact absurd henters.moves hstay
  | up => exact absurd henters Path.not_enters_parent
  | vacant _ _ hnone => exact .inl ⟨hnone, rfl⟩
  | enter _ _ hnode hlink h => exact .inr (.inl ⟨_, hnode, hlink, h⟩)
  | link _ _ _ hthrough => cases hthrough
  | onward _ _ hnode _ h => exact .inr (.inr ⟨_, _, hnode, rfl, h⟩)

end Follows

/-! ### Where a path leads -/

/-- Whether what is said to stand at a place does; nothing does at a vacant one, but a directory above. -/
def Stands (fs : Files) : Place → Prop
  | .taken location node => fs.node? location = some node
  | .vacant location => fs.node? location = none ∧
    ∃ above name, location = above ++ [name] ∧ fs.node? above = some .directory

/-- What a path leads to stands where it leads. -/
theorem Follows.stands (h : fs.Follows through links start pieces place) : fs.Stands place := by
  induction h with
  | done hnode => exact hnode
  | vacant hdir _ hnone _ => exact ⟨hnone, _, _, rfl, hdir⟩
  | link _ _ hnode _ => exact hnode
  | stay _ _ _ ih | up _ _ ih | enter _ _ _ _ _ ih | onward _ _ _ _ _ ih => exact ih

/-- What a path leads to stands where it leads. -/
theorem stands_of_resolve {p : Path} (h : fs.resolve p through = .ok place) : fs.Stands place :=
  (resolve_eq_ok.mp h).2.stands

/-- What a path leads to stands where it leads. -/
theorem node?_of_stat {p : Path} {location : Location} {node : Node}
    (h : fs.stat p = .ok (location, node)) : fs.node? location = some node :=
  stands_of_resolve (stat_eq_ok.mp h)

/-- A path goes further from the directory it leads to. -/
theorem Follows.append {dir : Location} {last : String}
    (h : fs.Follows true links start pieces (.taken dir .directory))
    (hlast : ∀ links, fs.Follows through links dir [last] place) :
    fs.Follows through links start (pieces ++ [last]) place := by
  generalize hdir : Place.taken dir .directory = reached at h
  induction h with
  | done =>
    cases hdir
    exact hlast _
  | stay hdirectory hstay _ ih => exact .stay hdirectory hstay (ih hdir)
  | up hdirectory _ ih => exact .up hdirectory (ih hdir)
  | vacant => cases hdir
  | enter hdirectory henters hnode hlink _ ih => exact .enter hdirectory henters hnode hlink (ih hdir)
  | link _ _ _ hthrough => cases hthrough
  | onward hdirectory henters hnode _ _ ih =>
    refine .onward hdirectory henters hnode (fun hnil => by simp at hnil) ?_
    rw [List.append_eq, ← List.append_assoc]
    exact ih hdir

/-- A path that ends in a name leads to a directory first, and on from there. -/
theorem Follows.of_append {last : String} (hlast : Path.Enters last)
    (h : fs.Follows through links start (pieces ++ [last]) place) :
    ∃ dir below, fs.Follows true links start pieces (.taken dir .directory) ∧
      fs.Follows through below dir [last] place := by
  generalize hpath : pieces ++ [last] = path at h
  induction h generalizing pieces with
  | done => simp at hpath
  | @stay links _ piece _ _ hdir hstay _ ih =>
    cases pieces with
    | nil =>
      cases hpath
      exact absurd hlast.moves hstay
    | cons first pieces =>
      cases hpath
      obtain ⟨dir, below, hfirst, hthen⟩ := ih rfl
      exact ⟨dir, below, .stay hdir hstay hfirst, hthen⟩
  | up hdir _ ih =>
    cases pieces with
    | nil =>
      cases hpath
      exact absurd hlast Path.not_enters_parent
    | cons first pieces =>
      cases hpath
      obtain ⟨dir, below, hfirst, hthen⟩ := ih rfl
      exact ⟨dir, below, .up hdir hfirst, hthen⟩
  | vacant hdir henters hnone hrest =>
    cases pieces with
    | nil =>
      cases hpath
      exact ⟨_, 0, .done hdir, .vacant hdir henters hnone hrest⟩
    | cons first pieces =>
      cases hpath
      have hempty : last = "" := by simpa using List.all_eq_true.mp hrest last (by simp)
      exact absurd hlast.moves (by rw [hempty]; decide)
  | enter hdir henters hnode hlink hfollows ih =>
    cases pieces with
    | nil =>
      cases hpath
      exact ⟨_, _, .done hdir, .enter hdir henters hnode hlink hfollows⟩
    | cons first pieces =>
      cases hpath
      obtain ⟨dir, below, hfirst, hthen⟩ := ih rfl
      exact ⟨dir, below, .enter hdir henters hnode hlink hfirst, hthen⟩
  | link hdir henters hnode hthrough =>
    cases pieces with
    | nil =>
      cases hpath
      exact ⟨_, 0, .done hdir, .link hdir henters hnode hthrough⟩
    | cons first pieces => simp at hpath
  | onward hdir henters hnode hthrough hfollows ih =>
    cases pieces with
    | nil =>
      cases hpath
      exact ⟨_, _, .done hdir, .onward hdir henters hnode hthrough hfollows⟩
    | cons first pieces =>
      cases hpath
      obtain ⟨dir, below, hfirst, hthen⟩ := ih (List.append_assoc ..)
      exact ⟨dir, below, .onward hdir henters hnode (fun _ => rfl) hfirst, hthen⟩

end Files

end SourceTables
