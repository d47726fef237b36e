import SourceTables.Proofs.Catalog.Accounted
import SourceTables.Proofs.LiveTable.Twin

/-!
# `SourceTables.Proofs.Catalog.Isolated`: a directory with one more entry

Two discoveries go through the same attempts, but for those of one entry that the second directory has and
the first has not. As long as no table comes of that entry, the names that are taken are the same after each
attempt, and so is what each table shows.

The theorems:

* `Course.attempt`: an attempt in one tree.
* `Twins.attempt`, `Twins.unbound`: an attempt in both trees, and one for the entry that only one of them has.
* `Twins.foldl`: all attempts.
-/

set_option autoImplicit false

namespace SourceTables

open Workspace (Steady Amid)

namespace Catalog

/-! ### One attempt -/

/-- What an attempt is made for, whatever the reason is for which it has failed before it began. -/
abbrev Aim := Except Path (String × Origin)

/-- The aim of an attempt. -/
def Attempt.aim (a : Attempt) : Aim := a.mapError Skipped.path

/-- The source of an attempt. -/
def Aim.path : Aim → Path
  | .error p => p
  | .ok (_, origin) => origin.path

section

variable {state : Catalog × Files} {tree : Files} {config : Config} {name : String} {origin : Origin}
  {table : LiveTable} {v : Workspace}

/-- A table is bound when its first refresh succeeds. -/
theorem attempt_of_ok {swapped : Bool}
    (h : (LiveTable.ofOrigin (state.1.freshName name) origin config).refresh state.1.workspace state.2
      LiveTable.uninterrupted = (.ok swapped, table, v, tree)) :
    attempt config state (.ok (name, origin))
      = ({ state.1 with workspace := v, tables := state.1.tables.insert (state.1.freshName name) table },
        tree) := by
  show state.1.bind state.2 config name origin = _
  unfold bind
  dsimp only
  rw [h]

/-- Its source is listed when that fails. -/
theorem attempt_of_error {e : Error}
    (h : (LiveTable.ofOrigin (state.1.freshName name) origin config).refresh state.1.workspace state.2
      LiveTable.uninterrupted = (.error e, table, v, tree)) :
    attempt config state (.ok (name, origin))
      = ({ state.1 with workspace := v }.skip origin.path e, tree) := by
  show state.1.bind state.2 config name origin = _
  unfold bind
  dsimp only
  rw [h]

end

/-- The first refresh of a table leaves its origin alone. -/
theorem origin_of_refresh {t t' : LiveTable} {w : Workspace} {tree : Files} {outcome : Except Error Bool}
    {after : Workspace × Files} (h : t.refresh w tree LiveTable.uninterrupted = (outcome, t', after)) :
    t'.origin = t.origin := by
  rw [LiveTable.refresh_eq] at h
  exact (LiveTable.finishPass_cases h).1

/-- An attempt adds a listed source or a table under a new name. -/
theorem attempt_cases (config : Config) (state : Catalog × Files) (a : Attempt) :
    (∃ s : Skipped, s.path = a.aim.path ∧ (attempt config state a).1.tables = state.1.tables ∧
        (attempt config state a).1.skipped = state.1.skipped ++ [s]) ∨
      ∃ name table, table.origin.path = a.aim.path ∧ name ∉ state.1.tables.keys ∧
        (attempt config state a).1.tables = state.1.tables.insert name table ∧
        (attempt config state a).1.skipped = state.1.skipped := by
  cases a with
  | error s => exact .inl ⟨s, rfl, rfl, rfl⟩
  | ok target =>
    obtain ⟨name, origin⟩ := target
    cases hrun : (LiveTable.ofOrigin (state.1.freshName name) origin config).refresh state.1.workspace
        state.2 LiveTable.uninterrupted with | mk outcome after =>
    obtain ⟨table, v, tree'⟩ := after
    cases outcome with
    | error e =>
      rw [attempt_of_error hrun]
      exact .inl ⟨⟨origin.path, e⟩, rfl, rfl, rfl⟩
    | ok swapped =>
      rw [attempt_of_ok hrun]
      obtain ⟨k, hname, hnew⟩ := state.1.freshName_spec name
      exact .inr ⟨state.1.freshName name, table, congrArg Origin.path (origin_of_refresh hrun), hname ▸ hnew,
        rfl, rfl⟩

/-- Tables that are bound stay bound. -/
theorem entries_subset_attempt (config : Config) (state : Catalog × Files) (a : Attempt) :
    state.1.tables.entries ⊆ (attempt config state a).1.tables.entries := by
  obtain ⟨_, -, htables, -⟩ | ⟨name, table, -, hnew, htables, -⟩ := attempt_cases config state a
  · rw [htables]
    exact List.Subset.refl _
  · rw [htables]
    exact fun x hx => (Keyed.perm_insert hnew table).mem_iff.mpr (.tail _ hx)

theorem entries_subset_foldl (config : Config) (state : Catalog × Files) (as : List Attempt) :
    state.1.tables.entries ⊆ (as.foldl (attempt config) state).1.tables.entries := by
  induction as generalizing state with
  | nil => exact List.Subset.refl _
  | cons a rest ih => exact List.Subset.trans (entries_subset_attempt config state a) (ih _)

/-- Catalogs with the same names make the same new name of a name. -/
theorem freshName_congr {c c' : Catalog} (h : c'.tables.keys = c.tables.keys) (name : String) :
    c'.freshName name = c.freshName name := by
  have hsize (c : Catalog) : c.tables.size = c.tables.keys.length := (List.length_map _).symm
  unfold freshName
  rw [Keyed.contains_eq, Keyed.contains_eq, hsize, hsize, h]

/-! ### Attempts in one tree -/

section

variable (w : Workspace) (first : Files) (off : Set Location) (sources : List Path) (maxDepth : Nat)

/-- The sources that were converted after an attempt. -/
def Aim.after (done : Set Path) : Aim → Set Path
  | .error _ => done
  | .ok (_, origin) => done ∪ { p | p ∈ origin.sources (w.detection maxDepth) first }

/-- Whether an attempt can be made after the conversions of some sources. -/
def Aim.Eligible (done : Set Path) : Aim → Prop
  | .error _ => True
  | .ok (_, origin) => origin.Eligible w first off sources maxDepth done

/-- Whether attempts can be made one after another. -/
def Eligible : Set Path → List Aim → Prop
  | _, [] => True
  | done, a :: rest =>
    a.Eligible w first off sources maxDepth done ∧ Eligible (a.after w first maxDepth done) rest

/-- A catalog and a tree on the way: the ledger holds the records of the sources that were converted, and
each table shows artifacts of these. -/
structure Course (done : Set Path) (state : Catalog × Files) : Prop where
  amid : Amid w first off sources done state.1.workspace state.2
  sourced : ∀ x ∈ state.1.tables.entries, x.2.current.Sourced state.1.workspace done

end

variable {config : Config} {w : Workspace} {first : Files} {off off' : Set Location}
  {sources sources' : List Path} {done done' : Set Path} {state state' : Catalog × Files} {extra : Path}

/-- Attempts that need no more conversions come first. -/
theorem eligible_append {maxDepth : Nat} {as rest : List Aim}
    (has : ∀ a ∈ as, a.Eligible w first off sources maxDepth done ∧ a.after w first maxDepth done = done)
    (hrest : Eligible w first off sources maxDepth done rest) :
    Eligible w first off sources maxDepth done (as ++ rest) := by
  induction as with
  | nil => exact hrest
  | cons a as ih =>
    obtain ⟨hfirst, hsame⟩ := has a (.head _)
    have hnext := ih fun b hb => has b (.tail _ hb)
    exact ⟨hfirst, hsame.symm ▸ hnext⟩

namespace Course

/-- An attempt in one tree. -/
theorem attempt (hsteady : Steady w first off sources) (h : Course w first off sources done state)
    {a : Attempt} (ha : a.aim.Eligible w first off sources config.partitionMaxDepth done) :
    Course w first off sources (a.aim.after w first config.partitionMaxDepth done)
      (attempt config state a) := by
  cases a with
  | error s => exact ⟨h.amid, h.sourced⟩
  | ok target =>
    obtain ⟨name, origin⟩ := target
    cases hrun : (LiveTable.ofOrigin (state.1.freshName name) origin config).refresh state.1.workspace
        state.2 LiveTable.uninterrupted with | mk outcome after =>
    obtain ⟨table, v, tree'⟩ := after
    have ho : origin.Eligible w first off sources config.partitionMaxDepth done := ha
    obtain ⟨hamid, hkept, -, hshown⟩ :=
      LiveTable.refresh_amid (t := .ofOrigin _ origin config) hsteady rfl h.amid ho hrun
    have hsourced : ∀ x ∈ state.1.tables.entries, x.2.current.Sourced v
        (done ∪ { p | p ∈ origin.sources (w.detection config.partitionMaxDepth) first }) := fun x hx =>
      (h.sourced x hx).mono Set.subset_union_left hkept
    cases outcome with
    | error e =>
      rw [attempt_of_error hrun]
      exact ⟨hamid, hsourced⟩
    | ok swapped =>
      rw [attempt_of_ok hrun]
      refine ⟨hamid, fun x hx => ?_⟩
      obtain rfl | hx := Keyed.mem_insert hx
      · exact hshown swapped rfl
      · exact hsourced x hx

/-- The ledger is saved. -/
theorem trySave (hsteady : Steady w first off sources) (h : Course w first off sources done state) :
    Course w first off sources done ({ state.1 with workspace := (state.1.workspace.trySave state.2).1 },
      (state.1.workspace.trySave state.2).2) where
  amid := h.amid.trySave hsteady
  sourced x hx := (h.sourced x hx).mono (Set.Subset.refl _) fun q _ => Workspace.get?_trySave _ _ q

end Course

/-! ### Attempts in two trees -/

/-- Whether two tables with their names are the same but for times. -/
structure Alike (x y : String × LiveTable) : Prop where
  name : y.1 = x.1
  origin : y.2.origin = x.2.origin
  shown : y.2.current.untimed = x.2.current.untimed

/-- Two catalogs with their trees on the way: the tables are the same but for times, and so are the sources
that are listed, but for one. -/
structure Twins (w : Workspace) (first : Files) (off off' : Set Location) (sources sources' : List Path)
    (extra : Path) (done done' : Set Path) (state state' : Catalog × Files) : Prop where
  course : Course w first off sources done state
  course' : Course w first off' sources' done' state'
  subset : done ⊆ done'
  alike : List.Forall₂ Alike state.1.tables.entries state'.1.tables.entries
  skipped : state.1.skipped.map Skipped.path = (state'.1.skipped.map Skipped.path).filter (· ≠ extra)

/-- One more source that is listed twice. -/
theorem listed {skipped skipped' : List Skipped} {s s' : Skipped}
    (h : skipped.map Skipped.path = (skipped'.map Skipped.path).filter (· ≠ extra)) (hs : s'.path = s.path)
    (hne : s.path ≠ extra) :
    (skipped ++ [s]).map Skipped.path = ((skipped' ++ [s']).map Skipped.path).filter (· ≠ extra) := by
  rw [List.map_append, List.map_append, List.filter_append, h]
  simp [hs, hne]

namespace Twins

/-- The names are the same. -/
theorem keys_eq (h : Twins w first off off' sources sources' extra done done' state state') :
    state'.1.tables.keys = state.1.tables.keys := by
  have hkeys {xs ys : List (String × LiveTable)} (halike : List.Forall₂ Alike xs ys) :
      ys.map Prod.fst = xs.map Prod.fst := by
    induction halike with
    | nil => rfl
    | cons hfirst _ ih => exact congrArg₂ List.cons hfirst.name ih
  exact hkeys h.alike

variable (hsteady : Steady w first off sources) (hsteady' : Steady w first off' sources')
  (h : Twins w first off off' sources sources' extra done done' state state')
include hsteady' h

/-- An attempt for the entry that only the second directory has comes to no table. -/
theorem unbound {a : Attempt}
    (ha : a.aim.Eligible w first off' sources' config.partitionMaxDepth done')
    (hpath : a.aim.path = extra)
    (hnone : ∀ x ∈ (attempt config state' a).1.tables.entries, x.2.origin.path ≠ extra) :
    Twins w first off off' sources sources' extra done
      (a.aim.after w first config.partitionMaxDepth done') state (attempt config state' a) := by
  have hmore : done' ⊆ a.aim.after w first config.partitionMaxDepth done' := by
    cases a with
    | error s => exact Set.Subset.refl _
    | ok target => exact Set.subset_union_left
  obtain ⟨s, hs, htables, hskipped⟩ | ⟨name, table, horigin, hnew, htables, -⟩ := attempt_cases config state' a
  · refine ⟨h.course, h.course'.attempt hsteady' ha, h.subset.trans hmore, htables ▸ h.alike, ?_⟩
    rw [hskipped, h.skipped, List.map_append, List.filter_append]
    simp [hs, hpath]
  · have hmem : (name, table) ∈ (attempt config state' a).1.tables.entries :=
      htables ▸ (Keyed.perm_insert hnew table).mem_iff.mpr (.head _)
    exact absurd (horigin.trans hpath) (hnone _ hmem)

include hsteady

/-- An attempt in both trees. -/
theorem attempt {a a' : Attempt} (haim : a'.aim = a.aim)
    (ha : a.aim.Eligible w first off sources config.partitionMaxDepth done)
    (ha' : a.aim.Eligible w first off' sources' config.partitionMaxDepth done') (hpath : a.aim.path ≠ extra) :
    Twins w first off off' sources sources' extra (a.aim.after w first config.partitionMaxDepth done)
      (a.aim.after w first config.partitionMaxDepth done') (attempt config state a)
      (attempt config state' a') := by
  have hcourse := h.course.attempt hsteady ha
  have hcourse' := h.course'.attempt hsteady' (haim.symm ▸ ha')
  rw [haim] at hcourse'
  cases a with
  | error s =>
    cases a' with
    | ok target => cases haim
    | error s' =>
      have hs : s'.path = s.path := Except.error.inj haim
      refine ⟨hcourse, hcourse', h.subset, h.alike, ?_⟩
      exact listed h.skipped hs hpath
  | ok target =>
    cases a' with
    | error s' => cases haim
    | ok target' =>
      obtain rfl : target' = target := Except.ok.inj haim
      obtain ⟨name, origin⟩ := target'
      have hdone := Set.union_subset_union_left { p | p ∈ origin.sources (w.detection config.partitionMaxDepth)
        first } h.subset
      have hname := freshName_congr h.keys_eq name
      have ho : origin.Eligible w first off sources config.partitionMaxDepth done := ha
      have ho' : origin.Eligible w first off' sources' config.partitionMaxDepth done' := ha'
      cases hrun : (LiveTable.ofOrigin (state.1.freshName name) origin config).refresh state.1.workspace
          state.2 LiveTable.uninterrupted with | mk outcome after =>
      cases hrun' : (LiveTable.ofOrigin (state.1.freshName name) origin config).refresh state'.1.workspace
          state'.2 LiveTable.uninterrupted with | mk outcome' after' =>
      obtain ⟨table, v, tree⟩ := after
      obtain ⟨table', v', tree'⟩ := after'
      have hrunNew := hname.symm ▸ hrun'
      obtain ⟨swapped, swapped', rfl, rfl, hshown⟩ | ⟨e, e', rfl, rfl⟩ :=
        LiveTable.refresh_twins (t := .ofOrigin _ origin config) hsteady hsteady' rfl h.course.amid
          h.course'.amid ho ho' hrun hrun'
      · rw [attempt_of_ok hrun] at hcourse ⊢
        rw [attempt_of_ok hrunNew, hname] at hcourse' ⊢
        refine ⟨hcourse, hcourse', hdone, ?_, h.skipped⟩
        exact Keyed.forall₂_place (fun _ _ halike => halike.name) h.alike
          ⟨rfl, (origin_of_refresh hrun').trans (origin_of_refresh hrun).symm, hshown⟩
      · rw [attempt_of_error hrun] at hcourse ⊢
        rw [attempt_of_error hrunNew] at hcourse' ⊢
        refine ⟨hcourse, hcourse', hdone, h.alike, ?_⟩
        exact listed h.skipped rfl hpath

/-- All attempts, those of the entry that only the second directory has among them. -/
theorem foldl {as as' : List Attempt}
    (haims : as.map Attempt.aim = (as'.map Attempt.aim).filter (fun a => a.path ≠ extra))
    (hall : Eligible w first off sources config.partitionMaxDepth done (as.map Attempt.aim))
    (hall' : Eligible w first off' sources' config.partitionMaxDepth done' (as'.map Attempt.aim))
    (hnone : ∀ x ∈ (as'.foldl (Catalog.attempt config) state').1.tables.entries, x.2.origin.path ≠ extra) :
    ∃ last last', Twins w first off off' sources sources' extra last last'
      (as.foldl (Catalog.attempt config) state) (as'.foldl (Catalog.attempt config) state') := by
  induction as' generalizing as state state' done done' with
  | nil =>
    obtain rfl := List.map_eq_nil_iff.mp haims
    exact ⟨done, done', h⟩
  | cons a' rest' ih =>
    obtain ⟨hfirst', hrest'⟩ := hall'
    rw [List.map_cons] at haims
    by_cases hpath : Aim.path a'.aim = extra
    · rw [List.filter_cons_of_neg (by simpa using hpath)] at haims
      have hnext := h.unbound hsteady' hfirst' hpath fun x hx =>
        hnone x (entries_subset_foldl config _ rest' hx)
      exact ih hnext haims hall hrest' hnone
    · rw [List.filter_cons_of_pos (by simpa using hpath)] at haims
      obtain ⟨a, rest, rfl, hsame, hrest⟩ := List.map_eq_cons_iff.mp haims
      obtain ⟨hfirst, hall⟩ := hall
      rw [hsame] at hfirst hall
      have hnext := h.attempt hsteady hsteady' hsame.symm (hsame ▸ hfirst) (hsame ▸ hfirst')
        (hsame ▸ hpath)
      rw [hsame] at hnext
      exact ih hnext hrest hall hrest' hnone

end Twins

end Catalog

end SourceTables
