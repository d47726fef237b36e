import SourceTables.Proofs.Artifact.Placed
import SourceTables.Proofs.Workspace.Timeless

/-!
# `SourceTables.Proofs.Workspace.Apart`: conversions that do not see each other

A conversion looks at its source and at the artifacts that were recorded for it, makes the directory of
artifacts and writes there under names of its own. It does not see that other sources were converted before
it, unless one of the paths that it follows leads elsewhere because of that: through the directory, which
was not there before, or through the name of an artifact of theirs. Sources are apart if this cannot happen.

What the conversions of some sources have done to the files so far is one of two things. Either nothing but
time has passed, as long as none of them had tables to write or the directory cannot be made, or the
directory is there and their artifacts stand in it. Each further conversion leads from one stage to the
next, and ends as it does alone.

The theorems:

* `reference_timeless`: references to artifacts with the same contents, but for times.
* `prepare_of_readied`: the same directory is made for every artifact.
* `writeAll_readied`: tables are written the same way from two trees that agree once the directory was made.
* `Stage.readied`: the files agree with those at first once the directory was made.
* `Apart.writeAll`, `Apart.perform`, `Apart.ensure`: a conversion among those of other sources.
-/

set_option autoImplicit false

namespace SourceTables

namespace Workspace

variable {w : Workspace} {fs tree : Files} {p : Path}

/-! ### References to artifacts -/

/-- The reference to an entry that stands in its directory. -/
theorem reference_of_stands {x : Artifact.Entry} {place : Location} {dir : Path} {out : Produced}
    (hstands : x.Stands place fs) (hdir : fs.LeadsTo dir place) (hname : Path.IsName x.name)
    (hout : out.artifact = dir.join ⟨x.name⟩) :
    ∃ modified, reference fs out
      = .ok ⟨out.table, out.artifact, ⟨out.artifact, (x.content.encode x.engine).length, modified, none⟩⟩ := by
  obtain ⟨modified, hnode⟩ := hstands
  have hstat := Files.stat_join hname hdir hnode nofun
  rw [← hout] at hstat
  refine ⟨Fingerprint.clampTime modified, ?_⟩
  unfold reference Fingerprint.compute
  rw [hstat]
  rfl

/-- The references to entries that stand in two trees are the same, but for the times of the artifacts. -/
theorem reference_timeless {xs : List Artifact.Entry} {place : Location} {dir : Path}
    {produced : List Produced} (hnames : ∀ x ∈ xs, Path.IsName x.name)
    (hproduced : produced.map Produced.artifact = xs.map fun x => dir.join ⟨x.name⟩)
    (hstands : ∀ x ∈ xs, x.Stands place fs ∧ x.Stands place tree) (hdir : fs.LeadsTo dir place)
    (hdir' : tree.LeadsTo dir place) {out : Produced} (hout : out ∈ produced) :
    (reference tree out).map ArtifactRef.timeless = (reference fs out).map ArtifactRef.timeless := by
  obtain ⟨x, hx, hpath⟩ := List.mem_map.mp (hproduced ▸ List.mem_map_of_mem (f := Produced.artifact) hout)
  obtain ⟨_, href⟩ := reference_of_stands (hstands x hx).1 hdir (hnames x hx) hpath.symm
  obtain ⟨_, href'⟩ := reference_of_stands (hstands x hx).2 hdir' (hnames x hx) hpath.symm
  rw [href, href']
  rfl

/-! ### The directory of artifacts -/

/-- The files once the directory of artifacts was made, or as they are if it cannot be made. -/
def readied (w : Workspace) (fs : Files) : Files :=
  (Artifact.prepare fs (w.artifactDir.child "artifact")).toOption.getD fs

section

variable {name : String} (hname : Path.IsName name)
include hname

theorem readied_of_prepare (h : Artifact.prepare fs (w.artifactDir.join ⟨name⟩) = .ok tree) :
    w.readied fs = tree := by
  have hartifact : Path.IsName "artifact" := by decide
  rw [Artifact.prepare_join hname, ← Artifact.prepare_join hartifact] at h
  unfold readied Path.child
  rw [h]
  rfl

/-- If the directory of artifacts can be there, it is made for every artifact. -/
theorem prepare_of_readied {place : Location} (h : (w.readied fs).LeadsTo w.artifactDir place) :
    Artifact.prepare fs (w.artifactDir.join ⟨name⟩) = .ok (w.readied fs) := by
  cases hprepare : Artifact.prepare fs (w.artifactDir.join ⟨name⟩) with
  | ok made => rw [readied_of_prepare hname hprepare]
  | error e =>
    -- What cannot be made is not there, or making it would change nothing.
    have hartifact : Path.IsName "artifact" := by decide
    have hsame : w.readied fs = fs := by
      rw [Artifact.prepare_join hname, ← Artifact.prepare_join hartifact] at hprepare
      unfold readied Path.child
      rw [hprepare]
      rfl
    rw [hsame] at h
    cases hprepare.symm.trans (Artifact.prepare_of_leadsTo hname h)

end

/-- Where the directory is, nothing has to be made. -/
theorem readied_eq_self {place : Location} (h : fs.LeadsTo w.artifactDir place) : w.readied fs = fs := by
  have hartifact : Path.IsName "artifact" := by decide
  exact readied_of_prepare hartifact (Artifact.prepare_of_leadsTo hartifact h)

/-- The directory is made the same way at any time. -/
theorem readied_withClock {place : Location} (h : (w.readied fs).LeadsTo w.artifactDir place)
    (clock : Nat) : w.readied (fs.withClock clock) = (w.readied fs).withClock clock := by
  have hartifact : Path.IsName "artifact" := by decide
  refine readied_of_prepare hartifact ?_
  rw [Artifact.prepare_withClock, prepare_of_readied hartifact h]
  rfl

/-- Tables are written the same way from two trees that agree, once the directory was made, wherever it
makes a difference. -/
theorem writeAll_readied (f : Format) (source : Path) {d : Destination} {place : Location}
    {spots spots' : Set Location} {named : List (Option String × Table)} (hdir : d.dir = w.artifactDir)
    (hne : named ≠ []) (hnames : ∀ n ∈ named, d.Names n.1) (hnodup : (named.map Prod.fst).Nodup)
    (hholds : (w.readied fs).Holds spots w.artifactDir place)
    (hagrees : (w.readied fs).AgreesOff spots' (w.readied tree)) (hsub : spots' ⊆ spots)
    (hstored : Artifact.spots place ((Convert.stored f source d fs named).map d.entry) ⊆ spots)
    (hfree : ∀ n ∈ named, place ++ [(d.entry n).name] ∉ spots') :
    ∃ (result : Except Error (List Produced)) (fs' tree' : Files),
      Convert.writeAll f source d fs named = (result, fs') ∧
      Convert.writeAll f source d tree named = (result, tree') ∧
      Artifact.Placed place ((Convert.stored f source d fs named).map d.entry) (w.readied fs) fs' ∧
      Artifact.Placed place ((Convert.stored f source d fs named).map d.entry) (w.readied tree) tree' ∧
      ∀ produced, result = .ok produced → ∀ out ∈ produced,
        (reference tree' out).map ArtifactRef.timeless = (reference fs' out).map ArtifactRef.timeless := by
  obtain ⟨n, rest, rfl⟩ := List.exists_cons_of_ne_nil hne
  have hname := hnames n (.head _)
  have hholds' := hholds.of_agreesOff (hagrees.mono hsub)
  -- Both go on from trees where the directory is there already.
  have hprepare {fs : Files} (h : (w.readied fs).LeadsTo w.artifactDir place) :
      Artifact.prepare fs (d.artifactPath n.1) = .ok (w.readied fs) := by
    rw [d.artifactPath_eq, hdir]
    exact prepare_of_readied hname.isName h
  obtain ⟨hwrite, hsame⟩ :=
    Convert.writeAll_of_prepare f source rest hname (hprepare hholds.leadsTo) (hdir ▸ hholds.leadsTo)
  obtain ⟨hwrite', -⟩ :=
    Convert.writeAll_of_prepare f source rest hname (hprepare hholds'.leadsTo) (hdir ▸ hholds'.leadsTo)
  rw [hsame] at hstored
  obtain ⟨result, fs', tree', hresult, hresult', hplaced, hplaced'⟩ :=
    Convert.writeAll_alike f source hnames hnodup (hdir ▸ hholds) (hdir ▸ hholds') hstored
      fun m hm => hagrees.node _ (hfree m hm)
  rw [← hsame] at hplaced hplaced' hstored
  refine ⟨result, fs', tree', hwrite.trans hresult, hwrite'.trans hresult', hplaced, hplaced', ?_⟩
  rintro produced rfl out hout
  obtain ⟨hall, hpaths⟩ := Convert.stored_of_ok hnames (hwrite.trans hresult)
  rw [hdir] at hpaths
  rw [hall] at hplaced hplaced' hstored
  refine reference_timeless (fun x hx => ?_) hpaths
    (fun x hx => ⟨hplaced.stands x hx, hplaced'.stands x hx⟩) (hholds _ (hplaced.agrees.mono hstored))
    (hholds' _ (hplaced'.agrees.mono hstored)) hout
  obtain ⟨m, hm, rfl⟩ := List.mem_map.mp hx
  exact (hnames m hm).isName

/-- Where the directory of artifacts cannot be made, no tables are written, at any time. -/
theorem writeAll_of_nowhere {a : Conversion} (source : Fingerprint) {f : Format} (hne : a.named f ≠ [])
    (hdir : a.workspace.artifactDir = w.artifactDir)
    (hnowhere : ∀ place, ¬ (w.readied fs).LeadsTo w.artifactDir place) :
    ∃ e, ∀ clock, Convert.writeAll f p (a.destination source f) (fs.withClock clock) (a.named f)
      = (.error e, fs.withClock clock) := by
  obtain ⟨n, rest, hnamed⟩ := List.exists_cons_of_ne_nil hne
  have hname : (a.destination source f).Names n.1 := Conversion.names_of_mem_named (hnamed ▸ .head _)
  have hdestination : (a.destination source f).dir = w.artifactDir := hdir
  rw [hnamed]
  refine Convert.writeAll_of_nowhere f p rest hname fun made place hprepare hmade => ?_
  rw [Destination.artifactPath_eq, hdestination] at hprepare
  rw [hdestination, ← readied_of_prepare hname.isName hprepare] at hmade
  exact hnowhere place hmade

/-! ### Sources that are apart -/

/-- Where the artifacts of some sources are put. -/
def spots (w : Workspace) (fs : Files) (sources : Set Path) : Set Location :=
  { location | ∃ q ∈ sources, ∃ place, (w.readied fs).LeadsTo w.artifactDir place ∧
    location ∈ Artifact.spots place (Conversion.mk w fs q).stored }

theorem spots_mono {sources sources' : Set Path} (h : sources ⊆ sources') :
    w.spots fs sources ⊆ w.spots fs sources' := fun _ ⟨q, hq, hplace⟩ => ⟨q, h hq, hplace⟩

/-- Different sources have artifacts with different names if digests do not collide. -/
theorem name_ne {ps : List Path} (hdigests : Conversion.NoCollision (ps.map (Conversion.mk w fs))) {q : Path}
    (hp : p ∈ ps) (hq : q ∈ ps) (hne : q ≠ p) {x y : Artifact.Entry}
    (hx : x ∈ (Conversion.mk w fs p).entries) (hy : y ∈ (Conversion.mk w fs q).entries) :
    y.name ≠ x.name := fun hname => by
  have hhash : ∀ a ∈ ps.map (Conversion.mk w fs), a.workspace.hashContents = w.hashContents := by
    intro a ha
    obtain ⟨_, -, rfl⟩ := List.mem_map.mp ha
    rfl
  exact hne (Conversion.path_unique hdigests hhash (List.mem_map_of_mem hp) (List.mem_map_of_mem hq) hx hy
    hname)

/-- Whether no source is an artifact of another: none of the paths that its conversion looks at leads to
something else once the directory of artifacts was made and artifacts of others stand in it. -/
structure Apart (w : Workspace) (fs : Files) (ps : List Path) : Prop where
  distinct : (ps.map Path.components).Nodup
  digests : Conversion.NoCollision (ps.map (Conversion.mk w fs))
  /-- The path of the directory does not lead through artifacts either. -/
  directory : ∀ place, (w.readied fs).LeadsTo w.artifactDir place →
    (w.readied fs).Holds (w.spots fs { q | q ∈ ps }) w.artifactDir place
  reads : ∀ p ∈ ps, (∃ q ∈ ps, q ≠ p ∧ (Conversion.mk w fs q).entries ≠ []) →
    ∀ tree, (w.readied fs).AgreesOff (w.spots fs { q | q ∈ ps ∧ q ≠ p }) tree →
      ∀ x ∈ w.reads p, tree.stat x = fs.stat x

/-- What has become of the files when some sources were converted: nothing, as long as none of them had
artifacts to be put anywhere, or else the directory was made and their artifacts stand in it. -/
inductive Stage (w : Workspace) (fs : Files) (done : Set Path) : Files → Prop
  | bare (clock : Nat) (hnone : ∀ q ∈ done, (Conversion.mk w fs q).entries ≠ [] →
      ∀ place, ¬ (w.readied fs).LeadsTo w.artifactDir place) : Stage w fs done (fs.withClock clock)
  | ready {place : Location} {tree : Files} (hplace : (w.readied fs).LeadsTo w.artifactDir place)
    (hsome : ∃ q ∈ done, (Conversion.mk w fs q).entries ≠ [])
    (hagrees : (w.readied fs).AgreesOff (w.spots fs done) tree)
    (hstands : ∀ q ∈ done, ∀ x ∈ (Conversion.mk w fs q).stored, x.Stands place tree) : Stage w fs done tree

namespace Stage

variable {done : Set Path}

theorem tick (h : Stage w fs done tree) : Stage w fs done tree.tick := by
  cases h with
  | bare clock hnone => exact .bare (clock + 1) hnone
  | ready hplace hsome hagrees hstands => exact .ready hplace hsome (hagrees.withClock _) hstands

/-- A source without artifacts changes nothing. -/
theorem skip (h : Stage w fs done tree) (hnone : (Conversion.mk w fs p).entries = [] ∨
    ∀ place, ¬ (w.readied fs).LeadsTo w.artifactDir place) : Stage w fs (insert p done) tree := by
  cases h with
  | bare clock hbare =>
    refine .bare clock fun q hq hentries place hplace => ?_
    obtain rfl | hq := Set.mem_insert_iff.mp hq
    · exact hnone.elim hentries fun hnowhere => hnowhere place hplace
    · exact hbare q hq hentries place hplace
  | ready hplace hsome hagrees hstands =>
    have hentries := hnone.resolve_right fun hnowhere => hnowhere _ hplace
    obtain ⟨q, hq, hsome⟩ := hsome
    refine .ready hplace ⟨q, .inr hq, hsome⟩ (hagrees.mono (spots_mono (Set.subset_insert p done)))
      fun q hq x hx => ?_
    obtain rfl | hq := Set.mem_insert_iff.mp hq
    · have hmem := Conversion.stored_subset _ hx
      rw [hentries] at hmem
      cases hmem
    · exact hstands q hq x hx

/-- A source that is apart from those that were converted still finds what it found at first. -/
theorem stat {ps : List Path} (h : Stage w fs done tree) (hapart : Apart w fs ps) (hp : p ∈ ps)
    (hdone : done ⊆ { q | q ∈ ps }) (hnew : p ∉ done) : ∀ x ∈ w.reads p, tree.stat x = fs.stat x := by
  have hother : done ⊆ { q | q ∈ ps ∧ q ≠ p } := fun q hq => ⟨hdone hq, fun hsame => hnew (hsame ▸ hq)⟩
  cases h with
  | bare clock => exact fun x _ => fs.stat_withClock clock x
  | ready _ hsome hagrees _ =>
    obtain ⟨q, hq, hentries⟩ := hsome
    exact hapart.reads p hp ⟨q, hdone hq, (hother hq).2, hentries⟩ tree (hagrees.mono (spots_mono hother))

/-- When the artifacts of one more source with other names are put into the directory, all stand there. -/
theorem add {place : Location} {tree' : Files} (hplace : (w.readied fs).LeadsTo w.artifactDir place)
    (hsome : (Conversion.mk w fs p).entries ≠ []) (hagrees : (w.readied fs).AgreesOff (w.spots fs done) tree)
    (hstands : ∀ q ∈ done, ∀ x ∈ (Conversion.mk w fs q).stored, x.Stands place tree)
    (hnames : ∀ q ∈ done, ∀ x ∈ (Conversion.mk w fs q).stored, ∀ y ∈ (Conversion.mk w fs p).stored,
      y.name ≠ x.name)
    (hplaced : Artifact.Placed place (Conversion.mk w fs p).stored tree tree') :
    Stage w fs (insert p done) tree' := by
  have hown : Artifact.spots place (Conversion.mk w fs p).stored ⊆ w.spots fs (insert p done) :=
    fun _ hlocation => ⟨p, .inl rfl, place, hplace, hlocation⟩
  refine .ready hplace ⟨p, .inl rfl, hsome⟩
    ((hagrees.mono (spots_mono (Set.subset_insert p done))).trans (hplaced.agrees.mono hown))
    fun q hq x hx => ?_
  obtain rfl | hq := Set.mem_insert_iff.mp hq
  · exact hplaced.stands x hx
  · obtain ⟨modified, hnode⟩ := hstands q hq x hx
    refine ⟨modified, (hplaced.agrees.node _ fun hmem => ?_).trans hnode⟩
    obtain ⟨y, hy, hsame⟩ := Artifact.mem_spots.mp hmem
    exact hnames q hq x hx y hy hsame

/-- Once the directory was made, if it can be made, the files agree but for what was put there. -/
theorem readied {place : Location} (h : Stage w fs done tree)
    (hplace : (w.readied fs).LeadsTo w.artifactDir place)
    (hholds : (w.readied fs).Holds (w.spots fs done) w.artifactDir place) :
    (w.readied fs).AgreesOff (w.spots fs done) (w.readied tree) ∧
      ∀ q ∈ done, ∀ x ∈ (Conversion.mk w fs q).stored, x.Stands place (w.readied tree) := by
  cases h with
  | bare clock hnone =>
    rw [readied_withClock hplace]
    refine ⟨(Files.AgreesOff.refl _ _).withClock clock, fun q hq x hx => ?_⟩
    -- Whoever was converted before had no artifacts.
    have hentries : (Conversion.mk w fs q).entries = [] := by
      by_contra hentries
      exact hnone q hq hentries place hplace
    have hmem := Conversion.stored_subset _ hx
    rw [hentries] at hmem
    cases hmem
  | ready hplace' _ hagrees hstands =>
    obtain rfl := hplace.unique (.refl [] _) hplace'
    rw [readied_eq_self (hholds tree hagrees)]
    exact ⟨hagrees, hstands⟩

end Stage

/-! ### A source among others -/

section

variable {ps : List Path} {done : Set Path} (hapart : Apart w fs ps)
include hapart

variable (hp : p ∈ ps) (hdone : done ⊆ { q | q ∈ ps }) (hnew : p ∉ done)
include hp hdone hnew

/-- Nothing that was converted before is in the way of an artifact. -/
theorem Apart.notMem_spots {place : Location} (hplace : (w.readied fs).LeadsTo w.artifactDir place)
    {x : Artifact.Entry} (hx : x ∈ (Conversion.mk w fs p).entries) :
    place ++ [x.name] ∉ w.spots fs done := by
  rintro ⟨q, hq, place', hplace', hspot⟩
  obtain rfl := hplace.unique (.refl [] _) hplace'
  obtain ⟨y, hy, hname⟩ := Artifact.mem_spots.mp hspot
  exact name_ne hapart.digests hp (hdone hq) (fun hsame => hnew (hsame ▸ hq)) hx
    (Conversion.stored_subset _ hy) hname

/-- The tables of a source are written among those of others as they are without them. -/
theorem Apart.writeAll {source : Fingerprint} {f : Format} (hstage : Stage w fs done tree)
    (hdue : (Conversion.mk w fs p).due? = some (source, f)) (hne : (Conversion.mk w fs p).named f ≠ []) :
    ∃ (result : Except Error (List Produced)) (fs' tree' : Files),
      Convert.writeAll f p ((Conversion.mk w fs p).destination source f) fs
          ((Conversion.mk w fs p).named f) = (result, fs') ∧
      Convert.writeAll f p ((Conversion.mk w fs p).destination source f) tree
          ((Conversion.mk w fs p).named f) = (result, tree') ∧
      Stage w fs (insert p done) tree' ∧
      ∀ produced, result = .ok produced → ∀ out ∈ produced,
        (reference tree' out).map ArtifactRef.timeless = (reference fs' out).map ArtifactRef.timeless := by
  by_cases hplace : ∃ place, (w.readied fs).LeadsTo w.artifactDir place
  · obtain ⟨place, hplace⟩ := hplace
    have hholds := hapart.directory place hplace
    obtain ⟨hagrees, hstands⟩ := hstage.readied hplace fun tree hagrees =>
      hholds tree (hagrees.mono (spots_mono hdone))
    have hentries := Conversion.entries_of_due hdue
    have hstored := Conversion.stored_of_due hdue
    have hown : Artifact.spots place (Conversion.mk w fs p).stored ⊆ w.spots fs { q | q ∈ ps } :=
      fun _ hlocation => ⟨p, hp, place, hplace, hlocation⟩
    obtain ⟨result, fs', tree', hresult, hresult', -, hplaced', hrefs⟩ :=
      writeAll_readied f p (d := (Conversion.mk w fs p).destination source f) rfl hne
        (fun _ => Conversion.names_of_mem_named) Format.nodup_named hholds hagrees (spots_mono hdone)
        (hstored ▸ hown) fun m hm => hapart.notMem_spots hp hdone hnew hplace
          (hentries ▸ List.mem_map_of_mem hm)
    rw [← hstored] at hplaced'
    refine ⟨result, fs', tree', hresult, hresult', ?_, hrefs⟩
    have hsome : (Conversion.mk w fs p).entries ≠ [] := by
      rw [hentries]
      exact fun hnone => hne (List.map_eq_nil_iff.mp hnone)
    exact .add hplace hsome hagrees hstands (fun q hq x hx y hy =>
      name_ne hapart.digests (hdone hq) hp (fun hsame => hnew (hsame ▸ hq)) (Conversion.stored_subset _ hx)
        (Conversion.stored_subset _ hy)) hplaced'
  · rw [not_exists] at hplace
    have hskip := hstage.skip (p := p) (.inr hplace)
    cases hstage with
    | ready hplace' => exact absurd hplace' (hplace _)
    | bare clock =>
      -- Nothing has changed yet, and nothing is written.
      obtain ⟨e, hfail⟩ := writeAll_of_nowhere source hne rfl hplace
      exact ⟨.error e, fs, _, hfail fs.clock, hfail clock, hskip, nofun⟩

/-- A source that has to be converted into artifacts is converted among others as it is without them. -/
theorem Apart.perform {source : Fingerprint} {f : Format} (hstage : Stage w fs done tree)
    (hdue : (Conversion.mk w fs p).due? = some (source, f)) (hcontent : tree.content p = fs.content p) :
    (w.perform tree source f (f.params p w.options)).1.map (Record.timeless ArtifactRef.timeless)
        = (w.perform fs source f (f.params p w.options)).1.map (Record.timeless ArtifactRef.timeless) ∧
      Stage w fs (insert p done) (w.perform tree source f (f.params p w.options)).2.2 := by
  obtain ⟨hversion, -, hnative, -⟩ := Conversion.due?_eq_some_iff.mp hdue
  obtain rfl : source.path = p := Fingerprint.path_of_compute (compute_of_version hversion)
  suffices h : ∃ (result : Except Error (List Produced)) (fs' tree' : Files),
      f.convert fs source.path (.ofSource w.artifactDir source (f.params source.path w.options)
        w.options.engine) w.options = (result, fs') ∧
      f.convert tree source.path (.ofSource w.artifactDir source (f.params source.path w.options)
        w.options.engine) w.options = (result, tree') ∧
      Stage w fs (insert source.path done) tree' ∧
      ∀ produced, result = .ok produced → ∀ out ∈ produced,
        (reference tree' out).map ArtifactRef.timeless = (reference fs' out).map ArtifactRef.timeless by
    obtain ⟨result, fs', tree', hconvert, hconvert', hstage', hrefs⟩ := h
    obtain ⟨hresult, -⟩ := perform_eq (w := w) _ hconvert
    obtain ⟨hresult', htree, -⟩ := perform_eq (w := w) _ hconvert'
    rw [hresult, hresult']
    constructor
    · cases result with
      | error e => rfl
      | ok produced => exact recordOf_timeless (hrefs produced rfl) source f _
    · obtain htree | htree := htree <;> rw [htree]
      · exact hstage'
      · exact hstage'.tick
  obtain ⟨hnone, e, hfail, hfail'⟩ | ⟨hne, hall, hall'⟩ := Format.convert_congr (o := w.options) hnative
    hcontent (.ofSource w.artifactDir source (f.params source.path w.options) w.options.engine)
  · refine ⟨.error e, fs, tree, hfail, hfail', hstage.skip (.inl ?_), nofun⟩
    rw [Conversion.entries_of_due hdue]
    exact List.map_eq_nil_iff.mpr hnone
  · rw [hall, hall']
    exact hapart.writeAll hp hdone hnew hstage hdue hne

/-- The conversion of a source among those of others ends as it does without them, but for times. -/
theorem Apart.ensure (hstage : Stage w fs done tree) :
    (w.ensure tree p).1.map (Conversion.mk w fs p).timeless
        = (w.ensure fs p).1.map (Conversion.mk w fs p).timeless ∧
      Stage w fs (insert p done) (w.ensure tree p).2.2 ∧
      (w.ensure tree p).2.1.ledger.generation = (w.ensure fs p).2.1.ledger.generation := by
  have hstat := hstage.stat hapart hp hdone hnew
  have hsource : tree.stat p = fs.stat p := hstat p (.head _)
  have hskip (h : (Conversion.mk w fs p).due? = none) : Stage w fs (insert p done) tree :=
    hstage.skip (.inl (Conversion.entries_of_due? h))
  have hversion : w.version tree p = w.version fs p := by
    unfold version Fingerprint.compute
    rw [hsource]
  unfold Workspace.ensure
  rw [hversion]
  cases hfound : w.version fs p with
  | error e => exact ⟨rfl, hskip (by rw [Conversion.due?, hfound]; rfl), rfl⟩
  | ok source =>
    have hpath := Fingerprint.path_of_compute (compute_of_version hfound)
    dsimp only
    unfold ensureVersion
    cases hformat : w.registry.find? p with
    | none => exact ⟨rfl, hskip (by rw [Conversion.due?, hfound, hformat]; rfl), rfl⟩
    | some f =>
      dsimp only
      rw [current?_congr hstat hpath]
      have hstands : (Conversion.mk w fs p).stands
          = (w.current? fs source f (f.params p w.options)).isSome :=
        Conversion.stands_eq (a := ⟨w, fs, p⟩) hfound hformat
      cases hcurrent : w.current? fs source f (f.params p w.options) with
      | some r =>
        rw [hcurrent] at hstands
        exact ⟨rfl, hskip (Conversion.due?_of_stands hstands), rfl⟩
      | none =>
        rw [hcurrent] at hstands
        dsimp only
        cases hnative : f.isPassthrough with
        | true =>
          have hnone := Conversion.due?_of_isPassthrough (a := ⟨w, fs, p⟩) hformat hnative
          obtain ⟨hresult, htree⟩ := perform_native (w := w) hnative hpath hsource (f.params p w.options)
          rw [Conversion.timeless_of_due?_eq_none hstands hnone]
          refine ⟨hresult, ?_, generation_perform hresult⟩
          obtain htree | htree := htree <;> rw [htree]
          · exact hskip hnone
          · exact (hskip hnone).tick
        | false =>
          have hdue : (Conversion.mk w fs p).due? = some (source, f) :=
            Conversion.due?_eq_some_iff.mpr ⟨hfound, hformat, hnative, hcurrent⟩
          have hcontent : tree.content p = fs.content p := by rw [Files.content, hsource, Files.content]
          obtain ⟨hresult, hstage'⟩ := hapart.perform hp hdone hnew hstage hdue hcontent
          rw [Conversion.timeless_of_due? hdue]
          exact ⟨hresult, hstage', generation_perform hresult⟩

end

end Workspace

end SourceTables
