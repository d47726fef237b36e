import SourceTables.Proofs.Workspace.Apart
import SourceTables.Proofs.Workspace.Entries

/-!
# `SourceTables.Proofs.Workspace.Steady`: conversions beside changes elsewhere

Sources may be converted in a tree that is not the one they were looked at in first: other files were added,
the ledger was saved, and artifacts of other sources stand in the directory for them. As long as none of the
paths that matter leads elsewhere because of that, each source is converted as it is alone in the first tree,
and its artifacts hold the same.

What has become of the first tree is one of two things. Either nothing but what stands in the places that do
not matter is different, as long as no artifacts were to be put anywhere, or the directory of artifacts is
there and the artifacts of the sources that were converted stand in it.

The theorems:

* `Phase.ensure`: the conversion of one more source.
* `owns_of_alone`: the artifacts of a record are the source itself or stored for it.
* `Phase.content_eq`: an artifact holds the same in all trees.
-/

set_option autoImplicit false

namespace SourceTables

/-- A record without the times of its conversion and of its artifacts. -/
def Record.untimed (r : Record) : Record := r.timeless ArtifactRef.timeless

theorem Record.artifacts_untimed (r : Record) : r.untimed.artifacts = r.artifacts.map ArtifactRef.timeless := rfl

theorem Record.untimed_timeless_id : untimed ∘ timeless id = untimed := by
  funext r
  simp [untimed, timeless]

/-- The paths of artifacts are not touched. -/
theorem Record.paths_of_untimed {r r' : Record} (h : r'.untimed = r.untimed) :
    r'.artifacts.map ArtifactRef.path = r.artifacts.map ArtifactRef.path := by
  have hpaths (r : Record) : r.untimed.artifacts.map ArtifactRef.path = r.artifacts.map ArtifactRef.path := by
    rw [artifacts_untimed, List.map_map]
    rfl
  rw [← hpaths, h, hpaths]

/-- Outcomes that agree in some way have values that agree in every way that is coarser. -/
theorem Outcome.toOption_map_congr {ε α β γ : Type} {x y : Except ε α} {f : α → β} (g : β → γ)
    (h : y.map f = x.map f) : y.toOption.map (g ∘ f) = x.toOption.map (g ∘ f) := by
  have hmap (z : Except ε α) : z.toOption.map (g ∘ f) = (z.map f).toOption.map g := by cases z <;> rfl
  rw [hmap, hmap, h]

namespace Workspace

/-- The record that a source gets when it alone is converted, without times; none if it cannot be. -/
def alone (w : Workspace) (fs : Files) (p : Path) : Option Record :=
  (w.ensure fs p).1.toOption.map Record.untimed

/-- The outcome of a source without times: its record, or that there is none. -/
def outcome (result : Path × Except Error Record) : Path × Option Record :=
  (result.1, result.2.toOption.map Record.untimed)

/-- Whether a tree holds what another one does, which may have got a directory for artifacts with some in it
since then, whatever stands in some places. -/
def Resembles (w : Workspace) (first : Files) (off : Set Location) (sources : List Path) (tree : Files) :
    Prop :=
  first.AgreesOff off tree ∨
    (w.readied first).AgreesOff (off ∪ w.spots first { q | q ∈ sources }) tree

/-- Whether sources that were not converted yet are different, their digests do not collide, and no path that
their conversions look at leads to something else in a tree that resembles the first one. -/
structure Steady (w : Workspace) (first : Files) (off : Set Location) (sources : List Path) : Prop where
  distinct : (sources.map Path.components).Nodup
  digests : Conversion.NoCollision (sources.map (Conversion.mk w first))
  fresh : ∀ p ∈ sources, w.ledger.get? p = none
  /-- Artifacts are put elsewhere. -/
  apart : ∀ p ∈ sources, ∀ x ∈ (Conversion.mk w first p).entries, ∀ place,
    (w.readied first).LeadsTo w.artifactDir place → place ++ [x.name] ∉ off
  /-- The directory of artifacts is made in the same way, -/
  made : ∀ tree, first.AgreesOff off tree → (w.readied first).AgreesOff off (w.readied tree) ∧
    ∀ place, (w.readied tree).LeadsTo w.artifactDir place → (w.readied first).LeadsTo w.artifactDir place
  /-- and stays where it is. -/
  directory : ∀ place, (w.readied first).LeadsTo w.artifactDir place →
    (w.readied first).Holds (off ∪ w.spots first { q | q ∈ sources }) w.artifactDir place
  reads : ∀ tree, w.Resembles first off sources tree → ∀ p ∈ sources, tree.stat p = first.stat p
  /-- The ledger file is in one of the places that do not matter. -/
  ledger : ∀ tree, w.Resembles first off sources tree → tree.isDirectory w.ledger.dir = true ∧
    ∀ place, tree.LeadsTo w.ledger.dir place → place ++ [ledgerFileName] ∈ off

/-- What has become of the first tree when some sources were converted: it is the same but in the places that
do not matter, as long as none of them had artifacts to be put anywhere, or else the directory is there and
their artifacts stand in it. -/
inductive Phase (w : Workspace) (first : Files) (off : Set Location) (done : Set Path) : Files → Prop
  | bare {tree : Files} (hagrees : first.AgreesOff off tree)
    (hnone : ∀ q ∈ done, (Conversion.mk w first q).entries ≠ [] →
      ∀ place, ¬ (w.readied first).LeadsTo w.artifactDir place) : Phase w first off done tree
  | ready {place : Location} {tree : Files} (hplace : (w.readied first).LeadsTo w.artifactDir place)
    (hagrees : (w.readied first).AgreesOff (off ∪ w.spots first done) tree)
    (hstands : ∀ q ∈ done, ∀ x ∈ (Conversion.mk w first q).stored, x.Stands place tree) :
    Phase w first off done tree

variable {w v : Workspace} {first tree tree' : Files} {off off' : Set Location} {sources sources' : List Path}
  {done done' : Set Path} {p q : Path}

/-- A source with an artifact that was stored had a directory to store it in. -/
theorem leadsTo_of_stored {x : Artifact.Entry} (hx : x ∈ (Conversion.mk w first p).stored) :
    ∃ place, (w.readied first).LeadsTo w.artifactDir place := by
  by_contra hnowhere
  unfold Conversion.stored at hx
  split at hx
  · cases hx
  · next source f hdue =>
    generalize hnamed : (Conversion.mk w first p).named f = named at hx
    cases named with
    | nil => cases hx
    | cons n rest =>
      have hmem : n ∈ (Conversion.mk w first p).named f := by
        rw [hnamed]
        exact .head _
      have hname : ((Conversion.mk w first p).destination source f).Names n.1 :=
        Conversion.names_of_mem_named hmem
      obtain ⟨e, hone⟩ := Convert.writeOne_of_nowhere f p hname fun made place hprepare hmade => by
        rw [Destination.artifactPath_eq] at hprepare
        rw [← readied_of_prepare hname.isName hprepare] at hmade
        exact hnowhere ⟨place, hmade⟩
      have hnothing : Convert.stored f p ((Conversion.mk w first p).destination source f) first (n :: rest)
          = [] := by
        rw [Convert.stored, show Convert.writeOne f p _ first n.1 n.2 = _ from hone first.clock]
      rw [hnothing] at hx
      cases hx

/-! ### Trees on the way -/

namespace Phase

theorem start (w : Workspace) (h : first.AgreesOff off tree) : Phase w first off ∅ tree := .bare h nofun

theorem tick (h : Phase w first off done tree) : Phase w first off done tree.tick := by
  cases h with
  | bare hagrees hnone => exact .bare (hagrees.withClock _) hnone
  | ready hplace hagrees hstands => exact .ready hplace (hagrees.withClock _) hstands

theorem resembles (h : Phase w first off done tree) (hdone : done ⊆ { q | q ∈ sources }) :
    w.Resembles first off sources tree := by
  cases h with
  | bare hagrees _ => exact .inl hagrees
  | ready _ hagrees _ => exact .inr (hagrees.mono (Set.union_subset_union_right off (spots_mono hdone)))

/-- A source without artifacts changes nothing. -/
theorem skip (h : Phase w first off done tree) (hnone : (Conversion.mk w first p).entries = [] ∨
    ∀ place, ¬ (w.readied first).LeadsTo w.artifactDir place) : Phase w first off (insert p done) tree := by
  cases h with
  | bare hagrees hbare =>
    refine .bare hagrees fun q hq hentries place hplace => ?_
    obtain rfl | hq := Set.mem_insert_iff.mp hq
    · exact hnone.elim hentries fun hnowhere => hnowhere place hplace
    · exact hbare q hq hentries place hplace
  | ready hplace hagrees hstands =>
    have hentries := hnone.resolve_right fun hnowhere => hnowhere _ hplace
    have hsub : off ∪ w.spots first done ⊆ off ∪ w.spots first (insert p done) :=
      Set.union_subset_union_right off (spots_mono (Set.subset_insert p done))
    refine .ready hplace (hagrees.mono hsub) fun q hq x hx => ?_
    obtain rfl | hq := Set.mem_insert_iff.mp hq
    · have hmem := Conversion.stored_subset _ hx
      rw [hentries] at hmem
      cases hmem
    · exact hstands q hq x hx

section

variable (hsteady : Steady w first off sources) (hdone : done ⊆ { q | q ∈ sources })
include hsteady hdone

/-- The directory of artifacts stays where it is. -/
theorem holds {place : Location} (hplace : (w.readied first).LeadsTo w.artifactDir place)
    (hagrees : (w.readied first).AgreesOff (off ∪ w.spots first done) tree) :
    tree.LeadsTo w.artifactDir place :=
  hsteady.directory place hplace tree
    (hagrees.mono (Set.union_subset_union_right off (spots_mono hdone)))

/-- Artifacts that were stored stand where the path of the directory leads. -/
theorem stands (h : Phase w first off done tree) (hq : q ∈ done) {x : Artifact.Entry}
    (hx : x ∈ (Conversion.mk w first q).stored) :
    ∃ place, (w.readied first).LeadsTo w.artifactDir place ∧ tree.LeadsTo w.artifactDir place ∧
      x.Stands place tree := by
  cases h with
  | bare hagrees hnone =>
    obtain ⟨place, hplace⟩ := leadsTo_of_stored hx
    have hentries := List.ne_nil_of_mem (Conversion.stored_subset _ hx)
    exact absurd hplace (hnone q hq hentries place)
  | ready hplace hagrees hstands =>
    exact ⟨_, hplace, holds hsteady hdone hplace hagrees, hstands q hq x hx⟩

/-- Once the directory was made, if it can be made, the trees agree but for what was put there. -/
theorem readied {place : Location} (h : Phase w first off done tree)
    (hplace : (w.readied first).LeadsTo w.artifactDir place) :
    (w.readied first).AgreesOff (off ∪ w.spots first done) (w.readied tree) ∧
      ∀ q ∈ done, ∀ x ∈ (Conversion.mk w first q).stored, x.Stands place (w.readied tree) := by
  cases h with
  | bare hagrees hnone =>
    refine ⟨(hsteady.made tree hagrees).1.mono (Set.subset_union_left), fun q hq x hx => ?_⟩
    have hentries := List.ne_nil_of_mem (Conversion.stored_subset _ hx)
    exact absurd hplace (hnone q hq hentries place)
  | ready hplace' hagrees hstands =>
    obtain rfl := hplace.unique (.refl [] _) hplace'
    rw [readied_eq_self (holds hsteady hdone hplace hagrees)]
    exact ⟨hagrees, hstands⟩

/-- What is written in a place that does not matter makes no difference. -/
theorem writeAt (h : Phase w first off done tree) {location : Location} (hlocation : location ∈ off)
    (bytes : Bytes) : Phase w first off done (tree.writeAt location bytes) := by
  cases h with
  | bare hagrees hnone => exact .bare (hagrees.trans (.writeAt hlocation bytes)) hnone
  | ready hplace hagrees hstands =>
    refine .ready hplace (hagrees.trans (.writeAt (.inl hlocation) bytes)) fun q hq x hx => ?_
    obtain ⟨modified, hnode⟩ := hstands q hq x hx
    refine ⟨modified, (tree.node?_writeAt_of_ne ?_ bytes).trans hnode⟩
    rintro rfl
    exact hsteady.apart q (hdone hq) x (Conversion.stored_subset _ hx) _ hplace hlocation

end

end Phase

/-! ### A source among others -/

/-- No recorded conversion of a source stands if there is none. -/
theorem current?_of_fresh {source : Fingerprint} (h : w.ledger.get? source.path = none) (f : Format)
    (params : Params) : w.current? tree source f params = none := by
  unfold current? Ledger.lookup?
  rw [h]
  rfl

section

variable (hsteady : Steady w first off sources) (hp : p ∈ sources) (hdone : done ⊆ { q | q ∈ sources })
  (hnew : p ∉ done)
include hsteady hp hdone hnew

/-- What is different elsewhere, and what was put into the directory before, is not in the way. -/
theorem Steady.notMem {place : Location} (hplace : (w.readied first).LeadsTo w.artifactDir place)
    {x : Artifact.Entry} (hx : x ∈ (Conversion.mk w first p).entries) :
    place ++ [x.name] ∉ off ∪ w.spots first done := by
  rintro (hoff | ⟨q, hq, place', hplace', hspot⟩)
  · exact hsteady.apart p hp x hx place hplace hoff
  · obtain rfl := hplace.unique (.refl [] _) hplace'
    obtain ⟨y, hy, hname⟩ := Artifact.mem_spots.mp hspot
    exact name_ne hsteady.digests hp (hdone hq) (fun hsame => hnew (hsame ▸ hq)) hx
      (Conversion.stored_subset _ hy) hname

/-- Artifacts of a source that were put into the directory stand there beside those of the others. -/
theorem Phase.placed {place : Location} {made : Files} (hplace : (w.readied first).LeadsTo w.artifactDir place)
    (hagrees : (w.readied first).AgreesOff (off ∪ w.spots first done) made)
    (hstands : ∀ q ∈ done, ∀ x ∈ (Conversion.mk w first q).stored, x.Stands place made)
    (hplaced : Artifact.Placed place (Conversion.mk w first p).stored made tree) :
    Phase w first off (insert p done) tree := by
  have hframe : made.AgreesOff (w.spots first {p}) tree :=
    hplaced.agrees.mono fun _ hspot => ⟨p, rfl, place, hplace, hspot⟩
  have hinsert : off ∪ w.spots first done ∪ w.spots first {p} ⊆ off ∪ w.spots first (insert p done) :=
    Set.union_subset (Set.union_subset_union_right off (spots_mono (Set.subset_insert p done)))
      ((spots_mono (by simp)).trans Set.subset_union_right)
  refine .ready hplace (((hagrees.mono Set.subset_union_left).trans
    (hframe.mono Set.subset_union_right)).mono hinsert) fun q hq x hx => ?_
  obtain rfl | hq := Set.mem_insert_iff.mp hq
  · exact hplaced.stands x hx
  · obtain ⟨modified, hnode⟩ := hstands q hq x hx
    refine ⟨modified, (hplaced.agrees.node _ fun hmem => ?_).trans hnode⟩
    obtain ⟨y, hy, hsame⟩ := Artifact.mem_spots.mp hmem
    exact name_ne hsteady.digests (hdone hq) hp (fun hsame => hnew (hsame ▸ hq))
      (Conversion.stored_subset _ hx) (Conversion.stored_subset _ hy) hsame

/-- Where the directory is there once it was made, the tables of a source are put into it. -/
theorem Phase.writeAll_of_leadsTo {source : Fingerprint} {f : Format} {place : Location}
    (h : Phase w first off done tree) (hdue : (Conversion.mk w first p).due? = some (source, f))
    (hne : (Conversion.mk w first p).named f ≠ []) (hplace : (w.readied first).LeadsTo w.artifactDir place) :
    ∃ (result : Except Error (List Produced)) (first' tree' : Files),
      Convert.writeAll f p ((Conversion.mk w first p).destination source f) first
          ((Conversion.mk w first p).named f) = (result, first') ∧
      Convert.writeAll f p ((Conversion.mk w first p).destination source f) tree
          ((Conversion.mk w first p).named f) = (result, tree') ∧
      Artifact.Placed place (Conversion.mk w first p).stored (w.readied tree) tree' ∧
      ∀ produced, result = .ok produced → ∀ out ∈ produced,
        (reference tree' out).map ArtifactRef.timeless = (reference first' out).map ArtifactRef.timeless := by
  have hentries := Conversion.entries_of_due hdue
  have hstored := Conversion.stored_of_due hdue
  have hown : Artifact.spots place (Conversion.mk w first p).stored ⊆ w.spots first { q | q ∈ sources } :=
    fun _ hspot => ⟨p, hp, place, hplace, hspot⟩
  have hsub : off ∪ w.spots first done ⊆ off ∪ w.spots first { q | q ∈ sources } :=
    Set.union_subset_union_right off (spots_mono hdone)
  obtain ⟨result, first', tree', hresult, hresult', -, hplaced, hrefs⟩ :=
    writeAll_readied f p (d := (Conversion.mk w first p).destination source f) rfl hne
      (fun _ => Conversion.names_of_mem_named) Format.nodup_named (hsteady.directory place hplace)
      (h.readied hsteady hdone hplace).1 hsub (hstored ▸ hown.trans Set.subset_union_right)
      fun _ hn => hsteady.notMem hp hdone hnew hplace (hentries ▸ List.mem_map_of_mem hn)
  rw [← hstored] at hplaced
  exact ⟨result, first', tree', hresult, hresult', hplaced, hrefs⟩

omit hp hdone hnew in
/-- Where the directory cannot be made, nothing is written in either tree. -/
theorem Phase.writeAll_fails {source : Fingerprint} {f : Format} (h : Phase w first off done tree)
    (hne : (Conversion.mk w first p).named f ≠ [])
    (hnowhere : ∀ place, ¬ (w.readied first).LeadsTo w.artifactDir place) :
    ∃ e e', Convert.writeAll f p ((Conversion.mk w first p).destination source f) first
          ((Conversion.mk w first p).named f) = (.error e, first) ∧
      Convert.writeAll f p ((Conversion.mk w first p).destination source f) tree
          ((Conversion.mk w first p).named f) = (.error e', tree) := by
  cases h with
  | ready hplace => exact absurd hplace (hnowhere _)
  | bare hagrees =>
    obtain ⟨e, hfail⟩ := writeAll_of_nowhere source hne rfl hnowhere
    obtain ⟨e', hfail'⟩ := writeAll_of_nowhere source hne rfl fun place hmade =>
      hnowhere place ((hsteady.made tree hagrees).2 place hmade)
    exact ⟨e, e', hfail first.clock, hfail' tree.clock⟩

/-- The tables of a source are written in a later tree as they are in the first one. -/
theorem Phase.writeAll {source : Fingerprint} {f : Format} (h : Phase w first off done tree)
    (hdue : (Conversion.mk w first p).due? = some (source, f))
    (hne : (Conversion.mk w first p).named f ≠ []) :
    ∃ (result result' : Except Error (List Produced)) (first' tree' : Files),
      Convert.writeAll f p ((Conversion.mk w first p).destination source f) first
          ((Conversion.mk w first p).named f) = (result, first') ∧
      Convert.writeAll f p ((Conversion.mk w first p).destination source f) tree
          ((Conversion.mk w first p).named f) = (result', tree') ∧
      Phase w first off (insert p done) tree' ∧
      (∀ place, tree.LeadsTo w.artifactDir place → tree.AgreesOff (w.spots first {p}) tree') ∧
      result'.toOption = result.toOption ∧
      ∀ produced, result = .ok produced → ∀ out ∈ produced,
        (reference tree' out).map ArtifactRef.timeless = (reference first' out).map ArtifactRef.timeless := by
  by_cases hplace : ∃ place, (w.readied first).LeadsTo w.artifactDir place
  · obtain ⟨place, hplace⟩ := hplace
    obtain ⟨hagrees, hstands⟩ := h.readied hsteady hdone hplace
    obtain ⟨result, first', tree', hresult, hresult', hplaced, hrefs⟩ :=
      h.writeAll_of_leadsTo hsteady hp hdone hnew hdue hne hplace
    refine ⟨result, result, first', tree', hresult, hresult',
      .placed hsteady hp hdone hnew hplace hagrees hstands hplaced, fun place' hplace' => ?_, rfl, hrefs⟩
    have hframe : (w.readied tree).AgreesOff (w.spots first {p}) tree' :=
      hplaced.agrees.mono fun _ hspot => ⟨p, rfl, place, hplace, hspot⟩
    rwa [readied_eq_self hplace'] at hframe
  · rw [not_exists] at hplace
    obtain ⟨e, e', hfail, hfail'⟩ := h.writeAll_fails hsteady hne hplace
    exact ⟨.error e, .error e', first, tree, hfail, hfail', h.skip (.inr hplace), fun _ _ => .refl _ _, rfl,
      nofun⟩

/-- A source that has to be converted into artifacts is converted in a later tree as it is in the first. -/
theorem Phase.perform {source : Fingerprint} {f : Format} (h : Phase w first off done tree)
    (hdue : (Conversion.mk w first p).due? = some (source, f)) (hcontent : tree.content p = first.content p) :
    (w.perform tree source f (f.params p w.options)).1.toOption.map Record.untimed
        = (w.perform first source f (f.params p w.options)).1.toOption.map Record.untimed ∧
      Phase w first off (insert p done) (w.perform tree source f (f.params p w.options)).2.2 ∧
      ∀ place, tree.LeadsTo w.artifactDir place →
        tree.AgreesOff (w.spots first {p}) (w.perform tree source f (f.params p w.options)).2.2 := by
  obtain ⟨hversion, -, hnative, -⟩ := Conversion.due?_eq_some_iff.mp hdue
  obtain rfl : source.path = p := Fingerprint.path_of_compute (compute_of_version hversion)
  suffices hwrite : ∃ (result result' : Except Error (List Produced)) (first' tree' : Files),
      f.convert first source.path (.ofSource w.artifactDir source (f.params source.path w.options)
        w.options.engine) w.options = (result, first') ∧
      f.convert tree source.path (.ofSource w.artifactDir source (f.params source.path w.options)
        w.options.engine) w.options = (result', tree') ∧
      Phase w first off (insert source.path done) tree' ∧
      (∀ place, tree.LeadsTo w.artifactDir place →
        tree.AgreesOff (w.spots first {source.path}) tree') ∧
      result'.toOption = result.toOption ∧
      ∀ produced, result = .ok produced → ∀ out ∈ produced,
        (reference tree' out).map ArtifactRef.timeless = (reference first' out).map ArtifactRef.timeless by
    obtain ⟨result, result', first', tree', hconvert, hconvert', hphase, hframe, hsame, hrefs⟩ := hwrite
    obtain ⟨hresult, -⟩ := perform_eq (w := w) _ hconvert
    obtain ⟨hresult', htree, -⟩ := perform_eq (w := w) _ hconvert'
    refine ⟨?_, ?_, fun place hplace => ?_⟩
    · rw [hresult, hresult']
      cases result with
      | error e =>
        cases result' with
        | error e' => rfl
        | ok produced' => cases hsame
      | ok produced =>
        obtain rfl : result' = .ok produced := Outcome.eq_ok_of_toOption hsame
        exact Outcome.toOption_map_congr id (recordOf_timeless (hrefs produced rfl) source f _)
    · obtain htree | htree := htree <;> rw [htree]
      · exact hphase
      · exact hphase.tick
    · obtain htree | htree := htree <;> rw [htree]
      · exact hframe place hplace
      · exact (hframe place hplace).withClock _
  obtain ⟨hnone, e, hfail, hfail'⟩ | ⟨hne, hall, hall'⟩ := Format.convert_congr (o := w.options) hnative
    hcontent (.ofSource w.artifactDir source (f.params source.path w.options) w.options.engine)
  · refine ⟨.error e, .error e, first, tree, hfail, hfail', h.skip (.inl ?_), fun _ _ => .refl _ _, rfl,
      fun _ hok => by cases hok⟩
    rw [Conversion.entries_of_due hdue]
    exact List.map_eq_nil_iff.mpr hnone
  · rw [hall, hall']
    exact h.writeAll hsteady hp hdone hnew hdue hne

/-- A source is converted in a later tree as it is in the first. -/
theorem Phase.ensure (h : Phase w first off done tree) :
    (w.ensure tree p).1.toOption.map Record.untimed = w.alone first p ∧
      Phase w first off (insert p done) (w.ensure tree p).2.2 ∧
      ∀ place, tree.LeadsTo w.artifactDir place →
        tree.AgreesOff (w.spots first {p}) (w.ensure tree p).2.2 := by
  have hsource : tree.stat p = first.stat p := hsteady.reads tree (h.resembles hdone) p hp
  have hskip (hdue : (Conversion.mk w first p).due? = none) : Phase w first off (insert p done) tree :=
    h.skip (.inl (Conversion.entries_of_due? hdue))
  have hversion : w.version tree p = w.version first p := by
    unfold version Fingerprint.compute
    rw [hsource]
  unfold alone Workspace.ensure
  rw [hversion]
  cases hfound : w.version first p with
  | error e => exact ⟨rfl, hskip (by rw [Conversion.due?, hfound]; rfl), fun _ _ => .refl _ _⟩
  | ok source =>
    have hpath := Fingerprint.path_of_compute (compute_of_version hfound)
    dsimp only
    unfold ensureVersion
    cases hformat : w.registry.find? p with
    | none => exact ⟨rfl, hskip (by rw [Conversion.due?, hfound, hformat]; rfl), fun _ _ => .refl _ _⟩
    | some f =>
      have hcurrent (tree : Files) (params : Params) : w.current? tree source f params = none :=
        current?_of_fresh (hpath ▸ hsteady.fresh p hp) f params
      dsimp only
      rw [hcurrent, hcurrent]
      dsimp only
      cases hnative : f.isPassthrough with
      | true =>
        have hnone := Conversion.due?_of_isPassthrough (a := ⟨w, first, p⟩) hformat hnative
        obtain ⟨hresult, htree⟩ := perform_native (w := w) hnative hpath hsource (f.params p w.options)
        refine ⟨?_, ?_, fun _ _ => ?_⟩
        · rw [← Record.untimed_timeless_id]
          exact Outcome.toOption_map_congr Record.untimed hresult
        · obtain htree | htree := htree <;> rw [htree]
          · exact hskip hnone
          · exact (hskip hnone).tick
        · obtain htree | htree := htree <;> rw [htree]
          · exact .refl _ _
          · exact (Files.AgreesOff.refl _ _).withClock _
      | false =>
        have hdue : (Conversion.mk w first p).due? = some (source, f) :=
          Conversion.due?_eq_some_iff.mpr ⟨hfound, hformat, hnative, hcurrent first _⟩
        have hcontent : tree.content p = first.content p := by rw [Files.content, hsource, Files.content]
        exact h.perform hsteady hp hdone hnew hdue hcontent

end

/-! ### Artifacts of sources that were converted -/

/-- Whether a path is that of a source or of one of its artifacts. -/
def Owns (w : Workspace) (first : Files) (q path : Path) : Prop :=
  path = q ∨ ∃ x ∈ (Conversion.mk w first q).stored, path = w.artifactDir.join ⟨x.name⟩

/-- A new record of a source that is not converted into artifacts names nothing but the source. -/
theorem path_of_new {r : Record} (hfresh : w.ledger.get? q = none)
    (hdue : (Conversion.mk w first q).due? = none) (hrun : w.ensure first q = (.ok r, v, tree))
    {a : ArtifactRef} (ha : a ∈ r.artifacts) : a.path = q := by
  unfold Workspace.ensure at hrun
  split at hrun
  · cases hrun
  · next source hversion =>
    obtain rfl : source.path = q := Fingerprint.path_of_compute (compute_of_version hversion)
    cases ensureVersion_cases hrun with
    | current f _ hf hr => cases (current?_of_fresh hfresh f _).symm.trans hr
    | converted f produced _ tree' hf hr hconvert hrecord =>
      obtain ⟨-, -, -, -, hrefs⟩ := of_recordOf hrecord
      obtain ⟨out, hout, href⟩ := Outcome.exists_of_forall₂ hrefs.flip ha
      rw [(of_reference href).1]
      have hnative : f.isPassthrough = true := by
        by_contra hnative
        have hsome := (Conversion.due?_eq_some_iff (a := ⟨w, first, source.path⟩)).mpr
          ⟨hversion, hf, Bool.eq_false_iff.mpr hnative, hr⟩
        cases hdue.symm.trans hsome
      unfold Format.convert at hconvert
      rw [if_pos hnative] at hconvert
      split at hconvert <;> cases hconvert
      rw [List.mem_singleton.mp hout]

/-- The artifacts of a source's record are its own. -/
theorem owns_of_alone (hfresh : w.ledger.get? q = none) {r : Record}
    (h : w.alone first q = some r.untimed) {a : ArtifactRef} (ha : a ∈ r.artifacts) :
    w.Owns first q a.path := by
  obtain ⟨made, hmade, hsame⟩ := Option.map_eq_some_iff.mp h
  have hrun : w.ensure first q = (.ok made, (w.ensure first q).2) :=
    Prod.ext (Outcome.eq_ok_of_toOption hmade) rfl
  have hpath := Record.paths_of_untimed hsame ▸ List.mem_map_of_mem (f := ArtifactRef.path) ha
  cases hdue : (Conversion.mk w first q).due? with
  | some due =>
    obtain ⟨hstored, hartifacts⟩ := Conversion.paths_of_ensure hrun hdue
    rw [hartifacts, ← hstored] at hpath
    obtain ⟨x, hx, hx'⟩ := List.mem_map.mp hpath
    exact .inr ⟨x, hx, hx'.symm⟩
  | none =>
    obtain ⟨b, hb, hpath⟩ := List.mem_map.mp hpath
    exact .inl (hpath ▸ path_of_new hfresh hdue hrun hb)

section

variable (hsteady : Steady w first off sources) (hdone : done ⊆ { q | q ∈ sources })
include hsteady hdone

/-- The path of an artifact that was stored leads to it. -/
theorem Phase.stat_stored (h : Phase w first off done tree) (hq : q ∈ done) {x : Artifact.Entry}
    (hx : x ∈ (Conversion.mk w first q).stored) : ∃ place modified, tree.LeadsTo w.artifactDir place ∧
      (w.readied first).LeadsTo w.artifactDir place ∧
      tree.stat (w.artifactDir.join ⟨x.name⟩)
        = .ok (place ++ [x.name], .file (x.content.encode x.engine) modified) ∧
      tree.node? (place ++ [x.name]) = some (.file (x.content.encode x.engine) modified) := by
  obtain ⟨place, hplace, hdir, modified, hnode⟩ := h.stands hsteady hdone hq hx
  have hname := (Conversion.wellNamed_of_mem_entries (Conversion.stored_subset _ hx)).isName
  exact ⟨place, modified, hdir, hplace, Files.stat_join hname hdir hnode nofun, hnode⟩

/-- An artifact holds the same in all trees, whatever the sources and the places are that matter for each. -/
theorem Phase.content_eq (h : Phase w first off done tree) (hq : q ∈ done)
    (hsteady' : Steady w first off' sources') (hdone' : done' ⊆ { q | q ∈ sources' })
    (h' : Phase w first off' done' tree') (hq' : q ∈ done') {path : Path} (howns : w.Owns first q path) :
    Artifact.content tree' path = Artifact.content tree path := by
  obtain rfl | ⟨x, hx, rfl⟩ := howns
  · have hstat := hsteady.reads tree (h.resembles hdone) path (hdone hq)
    have hstat' := hsteady'.reads tree' (h'.resembles hdone') path (hdone' hq')
    unfold Artifact.content Files.content
    rw [hstat, hstat']
  · have hnamed := Conversion.wellNamed_of_mem_entries (Conversion.stored_subset _ hx)
    obtain ⟨_, _, -, -, hstat, -⟩ := h.stat_stored hsteady hdone hq hx
    obtain ⟨_, _, -, -, hstat', -⟩ := h'.stat_stored hsteady' hdone' hq' hx
    rw [Convert.content_of_stat hstat (hnamed.engine _), Convert.content_of_stat hstat' (hnamed.engine _)]

/-- The path of an artifact leads to the same as long as the artifact is left alone. -/
theorem Phase.stat_eq (h : Phase w first off done tree) (hq : q ∈ done)
    (hdone' : done' ⊆ { q | q ∈ sources }) (h' : Phase w first off done' tree') (hq' : q ∈ done')
    (hnodes : ∀ place, tree.LeadsTo w.artifactDir place →
      (w.readied first).LeadsTo w.artifactDir place → ∀ x ∈ (Conversion.mk w first q).stored,
      tree'.node? (place ++ [x.name]) = tree.node? (place ++ [x.name])) {path : Path}
    (howns : w.Owns first q path) : tree'.stat path = tree.stat path := by
  obtain rfl | ⟨x, hx, rfl⟩ := howns
  · rw [hsteady.reads tree (h.resembles hdone) path (hdone hq),
      hsteady.reads tree' (h'.resembles hdone') path (hdone hq)]
  · obtain ⟨place, modified, hdir, hplace, hstat, hnode⟩ := h.stat_stored hsteady hdone hq hx
    obtain ⟨place', modified', -, hplace', hstat', hnode'⟩ := h'.stat_stored hsteady hdone' hq' hx
    obtain rfl := hplace.unique (.refl [] _) hplace'
    rw [hnodes _ hdir hplace x hx, hnode] at hnode'
    cases hnode'
    rw [hstat, hstat']

end

end Workspace

end SourceTables
