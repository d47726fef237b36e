import SourceTables.Proofs.Artifact.Entry
import SourceTables.Proofs.Files.Agree

/-!
# `SourceTables.Proofs.Artifact.Placed`: writing artifacts in different trees

When the path of a directory leads to the same place in two trees, whatever stands under the names of some
artifacts, then writing these artifacts goes the same way in both: a table is refused because of its columns
or because a directory has its name, and else put in its place. What the trees hold elsewhere, and what was
written elsewhere before, makes no difference.

The theorems:

* `Convert.writeOne_of_leadsTo`: what happens when a table is written.
* `Convert.writeAll_alike`: tables are written the same way in two trees.
* `Convert.writeOne_of_nowhere`, `Convert.writeAll_of_nowhere`: where a directory cannot be made, no table is
  written at any time.
-/

set_option autoImplicit false

namespace SourceTables

/-! ### Entries that were put into a directory -/

namespace Artifact

/-- Where entries stand in the directory at a location. -/
def spots (place : Location) (xs : List Entry) : Set Location :=
  { location | ∃ x ∈ xs, location = place ++ [x.name] }

theorem mem_spots {place : Location} {xs : List Entry} {name : String} :
    place ++ [name] ∈ spots place xs ↔ ∃ x ∈ xs, x.name = name := by
  constructor
  · rintro ⟨x, hx, hplace⟩
    exact ⟨x, hx, (List.singleton_inj.mp (List.append_cancel_left hplace)).symm⟩
  · rintro ⟨x, hx, rfl⟩
    exact ⟨x, hx, rfl⟩

theorem spots_subset_cons (place : Location) (x : Entry) (xs : List Entry) :
    spots place xs ⊆ spots place (x :: xs) := by
  rintro location ⟨y, hy, hplace⟩
  exact ⟨y, .tail _ hy, hplace⟩

/-- Whether a tree came from another by putting entries into the directory at a location. -/
structure Placed (place : Location) (xs : List Entry) (fs fs' : Files) : Prop where
  agrees : Files.AgreesOff (spots place xs) fs fs'
  stands : ∀ x ∈ xs, x.Stands place fs'

namespace Placed

variable {place : Location} {xs : List Entry} {fs fs' : Files}

theorem refl (place : Location) (fs : Files) : Placed place [] fs fs := ⟨.refl _ _, nofun⟩

/-- An entry was put there before others with other names. -/
theorem cons {x : Entry} (hnew : ∀ y ∈ xs, y.name ≠ x.name)
    (h : Placed place xs (fs.writeAt (place ++ [x.name]) (x.content.encode x.engine)) fs') :
    Placed place (x :: xs) fs fs' := by
  have hspot : place ++ [x.name] ∈ spots place (x :: xs) := ⟨x, .head _, rfl⟩
  refine ⟨(Files.AgreesOff.writeAt hspot _).trans (h.agrees.mono (spots_subset_cons ..)),
    fun y hy => ?_⟩
  obtain rfl | hy := List.mem_cons.mp hy
  · refine ⟨_, (h.agrees.node _ fun hmem => ?_).trans (Files.node?_writeAt _ _ _ _)⟩
    obtain ⟨z, hz, hname⟩ := mem_spots.mp hmem
    exact hnew z hz hname
  · exact h.stands y hy

end Placed

/-- The directory of an artifact is made the same way at any time. -/
theorem prepare_withClock (fs : Files) (clock : Nat) (p : Path) :
    prepare (fs.withClock clock) p = (prepare fs p).map (Files.withClock · clock) := by
  unfold prepare
  cases p.parent? with
  | none => rfl
  | some dir =>
    dsimp only
    rw [Files.makeDirectories_withClock]
    cases fs.makeDirectories dir <;> rfl

end Artifact

namespace Files

/-- A file that cannot be put in the place of a name cannot at any time. -/
theorem replace_withClock {fs : Files} {p : Path} {bytes : Bytes} {e : FileError}
    (h : fs.replace p bytes = .error e) (clock : Nat) :
    (fs.withClock clock).replace p bytes = .error e := by
  unfold replace at h ⊢
  rw [resolve_withClock]
  split at h
  · exact h
  · cases h
  · cases h
  · exact h

/-- A directory is not replaced. -/
theorem replace_directory {fs : Files} {dir : Path} {name : String} {location : Location} {bytes : Bytes}
    (hname : Path.IsName name) (hdir : fs.LeadsTo dir location)
    (hnode : fs.node? (location ++ [name]) = some .directory) :
    fs.replace (dir.join ⟨name⟩) bytes = .error .isDirectory := by
  have hresolve : fs.resolve (dir.join ⟨name⟩) false = .ok (fs.placeAt (location ++ [name])) :=
    resolve_join hname hdir nofun
  rw [replace, hresolve, placeAt, hnode]

end Files

namespace Convert

/-! ### One table -/

/-- Why a table is not written where something stands; none if it is. -/
def refusal? (d : Destination) (there : Option Node) (t : Table) : Option Error :=
  if (contentOf t).fits d.engine then
    if there = some .directory then some (.file .isDirectory) else none
  else some (.paged "a structure without members")

variable (f : Format) (source : Path) {d : Destination} {fs fs' : Files} {place : Location}
  {n : Option String × Table}

/-- What happens when a table is written into its directory. -/
theorem writeOne_of_leadsTo (hname : d.Names n.1) (hdir : fs.LeadsTo d.dir place) :
    writeOne f source d fs n.1 n.2
      = match refusal? d (fs.node? (place ++ [(d.entry n).name])) n.2 with
        | some e => (.error (failure source f e), fs)
        | none => (.ok ⟨tableName (tableStem source) n.1, d.artifactPath n.1⟩,
          fs.writeAt (place ++ [(d.entry n).name]) ((d.entry n).content.encode (d.entry n).engine)) := by
  have hcontent : (⟨n.2.schema, n.2.batches⟩ : Artifact.Content) = contentOf n.2 := rfl
  unfold writeOne refusal?
  dsimp only
  rw [d.artifactPath_eq, Artifact.prepare_of_leadsTo hname.isName hdir, hcontent]
  dsimp only
  unfold Artifact.write
  by_cases hfits : (contentOf n.2).fits d.engine = true
  · rw [if_pos hfits, if_pos hfits]
    by_cases hnode : fs.node? (place ++ [(d.entry n).name]) = some .directory
    · rw [Files.replace_directory hname.isName hdir hnode, if_pos hnode]
      rfl
    · rw [(Files.replace_join hname.isName).mpr ⟨place, hdir, hnode, rfl⟩, if_neg hnode]
      rfl
  · rw [if_neg hfits, if_neg hfits]

/-- It makes no difference whether the directory was made before. -/
theorem writeOne_of_prepare (hname : d.Names n.1)
    (hprepare : Artifact.prepare fs (d.artifactPath n.1) = .ok fs') (hdir : fs'.LeadsTo d.dir place) :
    writeOne f source d fs n.1 n.2 = writeOne f source d fs' n.1 n.2 := by
  have hagain : Artifact.prepare fs' (d.artifactPath n.1) = .ok fs' :=
    Artifact.prepare_of_leadsTo hname.isName hdir
  unfold writeOne
  dsimp only
  rw [hprepare, hagain]

/-- Where a directory cannot be made, a table is not written at any time. -/
theorem writeOne_of_nowhere (hname : d.Names n.1)
    (hnowhere : ∀ fs' place, Artifact.prepare fs (d.artifactPath n.1) = .ok fs' → ¬ fs'.LeadsTo d.dir place) :
    ∃ e, ∀ clock, writeOne f source d (fs.withClock clock) n.1 n.2 = (.error e, fs.withClock clock) := by
  obtain ⟨table, t⟩ := n
  unfold writeOne
  dsimp only at hnowhere ⊢
  cases hprepare : Artifact.prepare fs (d.artifactPath table) with
  | error e =>
    refine ⟨failure source f e, fun clock => ?_⟩
    rw [Artifact.prepare_withClock, hprepare]
    rfl
  | ok made =>
    obtain rfl : made = fs := (Artifact.leadsTo_of_prepare hname.isName hprepare).resolve_right
      fun hdir => hdir.elim fun place => hnowhere made place hprepare
    have hwrite : ∃ e, ∀ clock, Artifact.write (made.withClock clock) (d.artifactPath table) d.engine
        ⟨t.schema, t.batches⟩ = .error e := by
      unfold Artifact.write
      split
      · cases hreplace : made.replace (d.artifactPath table)
            (Artifact.Content.encode d.engine ⟨t.schema, t.batches⟩) with
        | ok written =>
          obtain ⟨place, hdir, -⟩ := (Files.replace_join hname.isName).mp hreplace
          exact absurd hdir (hnowhere made place hprepare)
        | error e =>
          refine ⟨.file e, fun clock => ?_⟩
          rw [Files.replace_withClock hreplace]
          rfl
      · exact ⟨_, fun _ => rfl⟩
    obtain ⟨e, hwrite⟩ := hwrite
    refine ⟨failure source f e, fun clock => ?_⟩
    rw [Artifact.prepare_withClock, hprepare]
    dsimp only [Except.map]
    rw [hwrite]

/-! ### All tables -/

/-- It makes no difference whether the directory was made before. -/
theorem writeAll_of_prepare (rest : List (Option String × Table)) (hname : d.Names n.1)
    (hprepare : Artifact.prepare fs (d.artifactPath n.1) = .ok fs') (hdir : fs'.LeadsTo d.dir place) :
    writeAll f source d fs (n :: rest) = writeAll f source d fs' (n :: rest) ∧
      stored f source d fs (n :: rest) = stored f source d fs' (n :: rest) := by
  obtain ⟨table, t⟩ := n
  have hone : writeOne f source d fs table t = writeOne f source d fs' table t :=
    writeOne_of_prepare f source (n := (table, t)) hname hprepare hdir
  exact ⟨by rw [writeAll, writeAll, hone], by rw [stored, stored, hone]⟩

/-- Where a directory cannot be made, no table is written at any time. -/
theorem writeAll_of_nowhere (rest : List (Option String × Table)) (hname : d.Names n.1)
    (hnowhere : ∀ fs' place, Artifact.prepare fs (d.artifactPath n.1) = .ok fs' → ¬ fs'.LeadsTo d.dir place) :
    ∃ e, ∀ clock, writeAll f source d (fs.withClock clock) (n :: rest) = (.error e, fs.withClock clock) := by
  obtain ⟨e, hone⟩ := writeOne_of_nowhere f source hname hnowhere
  refine ⟨e, fun clock => ?_⟩
  rw [writeAll, hone]

/-- Tables are written the same way in two trees where the path of the directory leads to the same place,
if the same stands there under their names. -/
theorem writeAll_alike {tree : Files} {W : Set Location} {named : List (Option String × Table)}
    (hnames : ∀ n ∈ named, d.Names n.1) (hnodup : (named.map Prod.fst).Nodup)
    (hfs : fs.Holds W d.dir place) (htree : tree.Holds W d.dir place)
    (hstored : Artifact.spots place ((stored f source d fs named).map d.entry) ⊆ W)
    (hsame : ∀ n ∈ named,
      tree.node? (place ++ [(d.entry n).name]) = fs.node? (place ++ [(d.entry n).name])) :
    ∃ (result : Except Error (List Produced)) (fs' tree' : Files),
      writeAll f source d fs named = (result, fs') ∧ writeAll f source d tree named = (result, tree') ∧
      Artifact.Placed place ((stored f source d fs named).map d.entry) fs fs' ∧
      Artifact.Placed place ((stored f source d fs named).map d.entry) tree tree' := by
  induction named generalizing fs tree with
  | nil => exact ⟨_, fs, tree, rfl, rfl, .refl _ _, .refl _ _⟩
  | cons n rest ih =>
    obtain ⟨hnew, hdistinct⟩ := List.nodup_cons.mp hnodup
    have hname := hnames n (.head _)
    have hone := writeOne_of_leadsTo f source hname hfs.leadsTo
    have hone' := writeOne_of_leadsTo f source hname htree.leadsTo
    rw [hsame n (.head _)] at hone'
    obtain ⟨table, t⟩ := n
    rw [stored] at hstored ⊢
    rw [writeAll, writeAll]
    dsimp only at hone hone'
    cases hrefusal : refusal? d (fs.node? (place ++ [(d.entry (table, t)).name])) t with
    | some e =>
      rw [hrefusal] at hone hone'
      rw [hone] at hstored ⊢
      rw [hone']
      exact ⟨_, fs, tree, rfl, rfl, .refl _ _, .refl _ _⟩
    | none =>
      rw [hrefusal] at hone hone'
      rw [hone] at hstored ⊢
      rw [hone']
      dsimp only at hstored ⊢
      rw [List.map_cons] at hstored ⊢
      -- Tables that come later have other names.
      have hother : ∀ m ∈ rest, (d.entry m).name ≠ (d.entry (table, t)).name := fun m hm hsame =>
        hnew (d.fileName_injective hsame ▸ List.mem_map_of_mem hm)
      have hspot : place ++ [(d.entry (table, t)).name] ∈ W := hstored ⟨_, .head _, rfl⟩
      have hnode (fs : Files) {m : Option String × Table} (hm : m ∈ rest) (bytes : Bytes) :
          (fs.writeAt (place ++ [(d.entry (table, t)).name]) bytes).node? (place ++ [(d.entry m).name])
            = fs.node? (place ++ [(d.entry m).name]) :=
        fs.node?_writeAt_of_ne (fun hsame => hother m hm
          (List.singleton_inj.mp (List.append_cancel_left hsame))) bytes
      obtain ⟨result, fs', tree', hrest, hrest', hplaced, hplaced'⟩ :=
        ih (fun m hm => hnames m (.tail _ hm)) hdistinct (hfs.of_agreesOff (.writeAt hspot _))
          (htree.of_agreesOff (.writeAt hspot _)) ((Artifact.spots_subset_cons ..).trans hstored)
          fun m hm => by rw [hnode _ hm, hnode _ hm, hsame m (.tail _ hm)]
      have hnewEntry : ∀ y ∈ (stored f source d (fs.writeAt (place ++ [(d.entry (table, t)).name])
          ((d.entry (table, t)).content.encode (d.entry (table, t)).engine)) rest).map d.entry,
          y.name ≠ (d.entry (table, t)).name := by
        intro y hy
        obtain ⟨m, hm, rfl⟩ := List.mem_map.mp hy
        exact hother m ((stored_isPrefix ..).subset hm)
      rw [hrest, hrest']
      exact ⟨_, fs', tree', rfl, rfl, hplaced.cons hnewEntry, hplaced'.cons hnewEntry⟩

end Convert

end SourceTables
