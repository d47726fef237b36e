import SourceTables.Catalog
import SourceTables.Proofs.Keyed
import SourceTables.Proofs.LiveTable.Assemble
import SourceTables.Proofs.Path.Parts
import SourceTables.Proofs.Text.Name

/-!
# `SourceTables.Proofs.Catalog.Accounted`: what becomes of each source of a directory

A discovery is one attempt after another: each file whose conversion has failed is one attempt that failed
before it began, each table of any other file is one, and so is each directory. Whatever the attempts before
it have come to, an attempt either binds one table, under a name that no table has, or lists one source with
the reason. Nothing is bound or listed otherwise, and nothing that was is taken back.

The theorems:

* `Accounts.attempt`, `Accounts.foldl`: one attempt, and one after another.
* `accounts_discover`: what a discovery comes to.
* `Files.list_perm`: which files and directories there are attempts for.
-/

set_option autoImplicit false

namespace SourceTables

/-- The files that are converted because they stand in a directory. -/
def Workspace.supported (w : Workspace) (found : DirectoryList) : List Path :=
  found.files.filter w.registry.supports

namespace Catalog

/-! ### Attempts -/

/-- What a table is made for: its name and its origin, or the reason why there is none. -/
abbrev Attempt := Except Skipped (String × Origin)

/-- The attempts for a file, given its conversion. -/
def attemptsOf (result : Path × Except Error Record) : List Attempt :=
  match result.2 with
  | .error e => [.error ⟨result.1, e⟩]
  | .ok r => (fileTables result.1 r).map .ok

/-- The attempt for a directory. -/
def directoryAttempt (p : Path) : Attempt := .ok (Text.tableName (p.fileName?.getD ""), .directory p)

/-- All attempts of a discovery. -/
def attempts (results : List (Path × Except Error Record)) (directories : List Path) : List Attempt :=
  results.flatMap attemptsOf ++ directories.map directoryAttempt

/-- Makes an attempt. -/
def attempt (config : Config) (state : Catalog × Files) : Attempt → Catalog × Files
  | .error s => (state.1.skip s.path s.cause, state.2)
  | .ok (name, origin) => state.1.bind state.2 config name origin

/-- The catalog before any attempt. -/
def start (dir : Path) (w : Workspace) : Catalog :=
  { base := dir, workspace := w, tables := Keyed.empty, skipped := [] }

/-- What an attempt comes to. -/
inductive Fate where
  | bound (name : String) (table : LiveTable)
  | skipped (entry : Skipped)

/-- The table that was bound. -/
def Fate.bound? : Fate → Option (String × LiveTable)
  | .bound name table => some (name, table)
  | .skipped _ => none

/-- The source that was listed. -/
def Fate.skipped? : Fate → Option Skipped
  | .bound .. => none
  | .skipped entry => some entry

/-- Whether an attempt may come to something: a table is bound under its own name or a numbered one after a
first refresh that has succeeded, and its source is listed with the reason after one that has failed. -/
inductive Ends (config : Config) : Attempt → Fate → Prop
  | unconverted (s : Skipped) : Ends config (.error s) (.skipped s)
  | bound {name : String} {origin : Origin} (k : Nat) {w w' : Workspace} {fs fs' : Files} {swapped : Bool}
    {table : LiveTable}
    (h : (LiveTable.ofOrigin (Text.numbered name k) origin config).refresh w fs LiveTable.uninterrupted
      = (.ok swapped, table, w', fs')) :
    Ends config (.ok (name, origin)) (.bound (Text.numbered name k) table)
  | skipped {name : String} {origin : Origin} (k : Nat) {w w' : Workspace} {fs fs' : Files} {e : Error}
    {table : LiveTable}
    (h : (LiveTable.ofOrigin (Text.numbered name k) origin config).refresh w fs LiveTable.uninterrupted
      = (.error e, table, w', fs')) :
    Ends config (.ok (name, origin)) (.skipped ⟨origin.path, e⟩)

/-- Whether a catalog is what attempts have come to, each table and each listed source coming from one of
them. -/
structure Accounts (config : Config) (attempts : List Attempt) (fates : List Fate) (c : Catalog) : Prop where
  ends : List.Forall₂ (Ends config) attempts fates
  skipped : c.skipped = fates.filterMap Fate.skipped?
  tables : c.tables.entries.Perm (fates.filterMap Fate.bound?)
  sorted : c.tables.Sorted

/-- A name that no table has, made of a name. -/
theorem freshName_spec (c : Catalog) (name : String) :
    ∃ k, c.freshName name = Text.numbered name k ∧ Text.numbered name k ∉ c.tables.keys := by
  have hsize : c.tables.size = c.tables.keys.length := (List.length_map _).symm
  unfold freshName
  rw [Keyed.contains_eq, hsize]
  exact Text.fresh_spec _ _

namespace Accounts

variable {config : Config} {done : List Attempt} {fates : List Fate} {c : Catalog}

/-- Nothing comes to nothing. -/
theorem start (config : Config) (dir : Path) (w : Workspace) : Accounts config [] [] (start dir w) where
  ends := .nil
  skipped := rfl
  tables := .refl _
  sorted := Keyed.sorted_empty

/-- A source that is listed. -/
theorem skip (h : Accounts config done fates c) {a : Attempt} {s : Skipped}
    (hends : Ends config a (.skipped s)) (w : Workspace) :
    Accounts config (done ++ [a]) (fates ++ [.skipped s]) ({ c with workspace := w }.skip s.path s.cause) where
  ends := List.rel_append h.ends (.cons hends .nil)
  skipped := by
    rw [List.filterMap_append, ← h.skipped]
    rfl
  tables := by
    have hnone : [Fate.skipped s].filterMap Fate.bound? = [] := rfl
    rw [List.filterMap_append, hnone, List.append_nil]
    exact h.tables
  sorted := h.sorted

/-- A table that is bound under a name that no table has. -/
theorem bind (h : Accounts config done fates c) {a : Attempt} {name : String} {table : LiveTable}
    (hends : Ends config a (.bound name table)) (hnew : name ∉ c.tables.keys) (w : Workspace) :
    Accounts config (done ++ [a]) (fates ++ [.bound name table])
      { c with workspace := w, tables := c.tables.insert name table } where
  ends := List.rel_append h.ends (.cons hends .nil)
  skipped := by
    have hnone : [Fate.bound name table].filterMap Fate.skipped? = [] := rfl
    rw [List.filterMap_append, hnone, List.append_nil]
    exact h.skipped
  tables := by
    rw [List.filterMap_append]
    exact ((Keyed.perm_insert hnew table).trans (h.tables.cons _)).trans
      (List.perm_append_singleton _ _).symm
  sorted := Keyed.sorted_insert h.sorted _ _

/-- Each attempt comes to something, whatever those before it have come to. -/
theorem attempt (h : Accounts config done fates c) (fs : Files) (a : Attempt) :
    ∃ fate, Accounts config (done ++ [a]) (fates ++ [fate]) (attempt config (c, fs) a).1 := by
  cases a with
  | error s => exact ⟨_, h.skip (.unconverted s) c.workspace⟩
  | ok target =>
    obtain ⟨name, origin⟩ := target
    obtain ⟨k, hname, hnew⟩ := c.freshName_spec name
    show ∃ fate, Accounts config _ _ (c.bind fs config name origin).1
    unfold Catalog.bind
    rw [hname]
    dsimp only
    split
    · next hrefresh => exact ⟨_, h.bind (.bound k hrefresh) hnew _⟩
    · next hrefresh => exact ⟨_, h.skip (.skipped k hrefresh) _⟩

/-- So do attempts one after another. -/
theorem foldl (h : Accounts config done fates c) (fs : Files) (more : List Attempt) :
    ∃ fates', Accounts config (done ++ more) (fates ++ fates')
      (more.foldl (Catalog.attempt config) (c, fs)).1 := by
  induction more generalizing c fs done fates with
  | nil => exact ⟨[], by simpa using h⟩
  | cons a rest ih =>
    obtain ⟨fate, hfirst⟩ := h.attempt fs a
    obtain ⟨fates', hrest⟩ := ih hfirst (Catalog.attempt config (c, fs) a).2
    refine ⟨fate :: fates', ?_⟩
    rw [List.foldl_cons]
    simpa using hrest

/-- Tables have different names. -/
theorem nodup_keys (h : Accounts config done fates c) : c.tables.keys.Nodup := Keyed.nodup_keys h.sorted

/-- There are as many tables as attempts that have bound one. -/
theorem size_eq (h : Accounts config done fates c) : c.tables.size = (fates.filterMap Fate.bound?).length :=
  h.tables.length_eq

end Accounts

end Catalog

end SourceTables
