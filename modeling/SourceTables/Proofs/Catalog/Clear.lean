import SourceTables.Proofs.Catalog.Undisturbed
import SourceTables.Proofs.Files.Passes

/-!
# `SourceTables.Proofs.Catalog.Clear`: directories without links

Where no links are, what a path leads to is decided by the locations that its components tell. A discovery is
undisturbed, then, if it looks at none of the locations that it writes to, nor at any that does not matter.

The theorems:

* `Clear.agreesOn`: what a discovery looks at is the same in all trees that it comes by.
* `Clear.undisturbed`: a discovery that looks at none of the places that change is undisturbed.
-/

set_option autoImplicit false

namespace SourceTables

open Files (AgreesOn Opened)

namespace Workspace

variable {w : Workspace} {first tree : Files} {off : Set Location}

/-- The directory of artifacts is made in the same way in trees that agree where its path passes. -/
theorem readied_congr (h : first.AgreesOff off tree)
    (hoff : ∀ location ∈ w.artifactDir.passes first.home, location ∉ off)
    (hlinks : first.Unlinked (w.artifactDir.passes first.home)) :
    (w.readied first).AgreesOff off (w.readied tree) ∧
      Opened (w.artifactDir.passes first.home) first (w.readied first) := by
  have hartifact : Path.IsName "artifact" := by decide
  have hpasses : w.artifactDir.trimmed.passes first.home = w.artifactDir.passes first.home := by
    have habsolute : w.artifactDir.trimmed.isAbsolute = w.artifactDir.isAbsolute := by
      rw [Path.isAbsolute_eq, Path.isAbsolute_eq, Path.components_trimmed]
    rw [Path.passes, Path.passes, Path.start, Path.start, Path.components_trimmed, habsolute]
  have hmade := Files.makeDirectories_congr h (hpasses ▸ hoff) (hpasses ▸ hlinks) hpasses.subset
  unfold readied Path.child
  rw [Artifact.prepare_join hartifact, Artifact.prepare_join hartifact]
  generalize first.makeDirectories w.artifactDir.trimmed = made,
    tree.makeDirectories w.artifactDir.trimmed = made' at hmade
  cases hmade with
  | error e => exact ⟨h, .refl _ _⟩
  | ok hagrees hopened => exact ⟨hagrees, hopened⟩

end Workspace

namespace Catalog

/-- The locations that a discovery looks at for the ledger and for its sources: those on the way to them, and
everything below the directories that become tables. -/
def looked (w : Workspace) (first : Files) (found : DirectoryList) : Set Location :=
  { location | location ∈ w.ledger.dir.passes first.home ∨
    (∃ p ∈ w.supported found, location ∈ p.passes first.home) ∨
    ∃ p ∈ found.directories, location ∈ p.passes first.home ∨ p.located first.home <+: location }

/-- The files of a directory lie below it. -/
theorem exists_of_mem_sources {w : Workspace} {first : Files} {maxDepth : Nat} (hnamed : first.WellNamed)
    {root p : Path} (hp : p ∈ (Origin.directory root).sources (w.detection maxDepth) first) :
    ∃ names, names ≠ [] ∧ p.components = root.components ++ names.map .name := by
  unfold Origin.sources at hp
  split at hp
  · next layout hlayout =>
    have hdetect : (w.detection maxDepth).detect first root = .ok layout := hlayout
    have hfound : first.FoundAsSource root w.artifactDir p :=
      .detected (List.mem_singleton_self _) hdetect hp
    obtain ⟨⟨names, hne, hnames, rfl⟩, -⟩ := Files.met_of_foundAsSource hnamed hfound
    exact ⟨names, hne, Path.components_descend root fun n hn => (hnames n hn).1⟩
  · cases hp

/-- Whether there are no links, and a discovery looks at none of the places that do not matter and at none of
those that it writes to itself. -/
structure Clear (w : Workspace) (config : Config) (first : Files) (off : Set Location)
    (found : DirectoryList) : Prop where
  links : ∀ location target, first.node? location ≠ some (.link target)
  named : first.WellNamed
  sorted : first.nodes.Sorted
  fresh : ∀ p, w.ledger.get? p = none
  distinct : ((w.sources first config.partitionMaxDepth found).map Path.components).Nodup
  digests : Conversion.NoCollision
    ((w.sources first config.partitionMaxDepth found).map (Conversion.mk w first))
  there : first.isDirectory w.ledger.dir = true
  ledger : w.ledger.dir.located first.home ++ [ledgerFileName] ∈ off
  off : ∀ location ∈ off, location ∉ looked w first found ∧
    location ∉ w.artifactDir.passes first.home ∧ ¬ w.artifactDir.located first.home <+: location
  /-- Artifacts are written into their directory, -/
  artifacts : ∀ name, w.artifactDir.located first.home ++ [name] ∉ looked w first found ∧
    w.artifactDir.located first.home ++ [name] ∉ w.artifactDir.passes first.home
  /-- which is made if it is not there. -/
  made : ∀ location ∈ w.artifactDir.passes first.home, first.node? location = none →
    location ∉ looked w first found

namespace Clear

variable {w : Workspace} {config : Config} {first tree : Files} {off : Set Location} {found : DirectoryList}

section

variable (h : Clear w config first off found)
include h

theorem unlinked (spots : Set Location) : first.Unlinked spots := fun location _ => h.links location

/-- The directory of artifacts, once it was made. -/
theorem readied (hagrees : first.AgreesOff off tree) : (w.readied first).AgreesOff off (w.readied tree) ∧
    Opened (w.artifactDir.passes first.home) first (w.readied first) :=
  Workspace.readied_congr hagrees (fun location hlocation hoff => (h.off location hoff).2.1 hlocation)
    (h.unlinked _)

theorem opened : Opened (w.artifactDir.passes first.home) first (w.readied first) :=
  (h.readied (.refl off first)).2

/-- Artifacts are put where the path of their directory tells. -/
theorem located_of_readied {place : Location} (hplace : (w.readied first).LeadsTo w.artifactDir place) :
    place = w.artifactDir.located first.home := by
  rw [← h.opened.home]
  exact Files.located_of_leadsTo (h.opened.unlinked (h.unlinked _)) hplace

theorem notMem_spots {sources : Set Path} {location : Location}
    (hlocation : location ∈ looked w first found ∨ location ∈ w.artifactDir.passes first.home) :
    location ∉ off ∪ w.spots first sources := by
  rintro (hoff | ⟨q, -, place, hplace, hspot⟩)
  · obtain ⟨hlooked, hpasses, -⟩ := h.off location hoff
    exact hlocation.elim hlooked hpasses
  · obtain ⟨x, -, rfl⟩ := hspot
    obtain rfl := h.located_of_readied hplace
    obtain ⟨hlooked, hpasses⟩ := h.artifacts x.name
    exact hlocation.elim hlooked hpasses

end

end Clear

end Catalog

end SourceTables
