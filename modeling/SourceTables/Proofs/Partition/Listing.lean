import SourceTables.Proofs.Files.Walk
import SourceTables.Proofs.Partition.Cover

/-!
# `SourceTables.Proofs.Partition.Listing`: the files of a directory

A listing tells the entries of a walk as seen from the root. Joined to the root again they are the paths
that the walk has found, so that the files of a layout are different.

The theorems:

* `nodup_found`: the files of a listing are different.
* `of_detect`: a layout that is found has the files of the listing, each once.
-/

set_option autoImplicit false

namespace SourceTables.Detection

/-- What is left of a list keeps its order. -/
theorem map_filterMap_sublist {α β γ : Type} {f : α → Option β} {g : α → γ} {h : β → γ} {xs : List α}
    (hxs : ∀ x ∈ xs, ∀ y, f x = some y → h y = g x) : ((xs.filterMap f).map h).Sublist (xs.map g) := by
  induction xs with
  | nil => exact .slnil
  | cons x rest ih =>
    have hrest := ih fun x hx => hxs x (.tail _ hx)
    cases hx : f x with
    | none =>
      rw [List.filterMap_cons_none hx]
      exact .cons _ hrest
    | some y =>
      rw [List.filterMap_cons_some hx, List.map_cons, List.map_cons, hxs x (.head _) y hx]
      exact hrest.cons_cons _

variable {d : Detection} {fs : Files} {root : Path} {entries : List Entry}

/-- An entry that is found, as seen from the root. -/
def entryOf (root : Path) (f : Found) : Option Entry :=
  (f.path.relativeTo? root).map (if f.isDirectory then .directory else .file)

/-- A listing tells what a walk finds. -/
theorem listing_eq_ok :
    d.listing fs root = .ok entries ↔
      ∃ found, fs.walk root d.keeps = .ok found ∧ found.filterMap (entryOf root) = entries := by
  unfold listing
  rw [Outcome.bind_eq_ok]
  constructor
  · rintro ⟨found, hwalk, h⟩
    cases h
    cases hfound : fs.walk root d.keeps with
    | error e =>
      rw [hfound] at hwalk
      cases hwalk
    | ok found' =>
      rw [hfound] at hwalk
      cases hwalk
      exact ⟨_, rfl, rfl⟩
  · rintro ⟨found, hwalk, rfl⟩
    exact ⟨found, by rw [hwalk]; rfl, rfl⟩

/-- A file of a listing, joined to the root, has the path that the walk has found. -/
theorem join_of_entryOf {found : List Found} (hbelow : Files.Below d.keeps root found) {f : Found} (hf : f ∈ found)
    {rel : Path} (h : entryOf root f = some (.file rel)) : root.join rel = f.path := by
  obtain ⟨names, hne, hnames, -, hpath⟩ := hbelow.named f hf
  unfold entryOf at h
  rw [hpath, Path.relativeTo?_descend root hne hnames, Option.map_some] at h
  split at h
  · cases h
  · cases h
    rw [Path.join_names root hne hnames, hpath]

/-- A file of a listing is one that the walk has found. -/
theorem exists_of_mem_found {found : List Found} (hbelow : Files.Below d.keeps root found) {rel : Path}
    (hrel : rel ∈ d.found root (found.filterMap (entryOf root))) : ∃ f ∈ found, root.join rel = f.path := by
  unfold Detection.found at hrel
  rw [List.filterMap_filterMap] at hrel
  obtain ⟨f, hf, hrel⟩ := List.mem_filterMap.mp hrel
  obtain ⟨entry, hentry, hrel⟩ := Option.bind_eq_some_iff.mp hrel
  cases entry with
  | directory _ => cases hrel
  | file rel' =>
    obtain ⟨-, hrel⟩ := Option.ite_none_right_eq_some.mp hrel
    cases hrel
    exact ⟨f, hf, join_of_entryOf hbelow hf hentry⟩

/-- The files of a listing are different. -/
theorem nodup_found (hnamed : fs.WellNamed) (h : d.listing fs root = .ok entries) :
    ((d.found root entries).map fun rel => (root.join rel).components).Nodup := by
  obtain ⟨found, hwalk, rfl⟩ := listing_eq_ok.mp h
  have hbelow := Files.below_of_walk hnamed hwalk
  unfold Detection.found
  rw [List.filterMap_filterMap]
  refine List.Nodup.sublist (map_filterMap_sublist fun f hf rel hrel => ?_) hbelow.nodup
  obtain ⟨entry, hentry, hrel⟩ := Option.bind_eq_some_iff.mp hrel
  cases entry with
  | directory _ => cases hrel
  | file rel' =>
    obtain ⟨-, hrel⟩ := Option.ite_none_right_eq_some.mp hrel
    cases hrel
    exact congrArg Path.components (join_of_entryOf hbelow hf hentry)

/-- A layout that is found has the files of the listing, each once. -/
theorem of_detect (hnamed : fs.WellNamed) {layout : Layout} (h : d.detect fs root = .ok layout) :
    ∃ entries, d.listing fs root = .ok entries ∧ d.Covers root entries layout ∧
      (layout.files.map Path.components).Nodup := by
  unfold detect at h
  split at h
  · next entries hlisting =>
    have hcovers := covers_of_layoutOf (detectListing_eq_ok.mp h)
    refine ⟨entries, hlisting, hcovers, ?_⟩
    have hfiles := hcovers.files.map Path.components
    rw [List.map_map] at hfiles
    exact hfiles.nodup_iff.mpr (nodup_found hnamed hlisting)
  · cases h

end SourceTables.Detection
