import SourceTables.Proofs.Files.Lookup
import SourceTables.Proofs.Outcome
import SourceTables.Proofs.Path

/-!
# `SourceTables.Proofs.Files.Write`: what writing a file leaves of a tree

A file that is put in the place of a name lies in the directory that the rest of its path leads to. If
the path still leads to something after later writes, it leads to that file, because writes under other
names do not move a directory: a path that goes through a link which a file has replaced leads nowhere.

The theorems:

* `of_resolve_join`: a path to a name leads to a directory first, and from there to what has the name.
* `Follows.of_written`: as long as a path leads to a directory, it leads to the same one.
* `written_writeAt`, `written_makeDirectories`: what these change.
* `stat_of_written`: a file is found again as long as its path leads anywhere.
-/

set_option autoImplicit false

namespace SourceTables

/-- A path goes to what has a name. -/
theorem Path.IsName.enters {name : String} (h : IsName name) : Enters name :=
  ⟨moves_of_not fun hstays => hstays.elim h.nonempty h.current, h.parent⟩

namespace Files

variable {fs fs' : Files} {through : Bool} {location : Location} {place : Place}

/-! ### A path to a name -/

/-- Whether a path that ends in the name at a location leads to what has the name; it may go on from a
link. -/
def EndsAt (fs : Files) (through : Bool) (location : Location) (place : Place) : Prop :=
  match fs.node? location with
  | none => place = .vacant location
  | some (.link target) => through = true ∨ place = .taken location (.link target)
  | some node => place = .taken location node

/-- A path that consists of a name leads to what has it. -/
theorem Follows.endsAt {links : Nat} {name : String} (henters : Path.Enters name)
    (h : fs.Follows through links location [name] place) : fs.EndsAt through (location ++ [name]) place := by
  unfold EndsAt
  cases h with
  | stay _ hstay => exact absurd henters.moves hstay
  | up => exact absurd henters Path.not_enters_parent
  | vacant _ _ hnone => rw [hnone]
  | @enter _ _ _ _ node _ _ _ hnode hlink h =>
    rw [hnode]
    cases h with
    | done hnode' =>
      obtain rfl := Option.some.inj (hnode.symm.trans hnode')
      cases node with
      | file | directory => rfl
      | link target => exact absurd rfl (hlink target)
  | link _ _ hnode _ =>
    rw [hnode]
    exact .inr rfl
  | onward _ _ hnode hthrough _ =>
    rw [hnode]
    exact .inl (hthrough rfl)

/-! ### Trees before and after -/

/-- Whether a tree came from another by writing files of some names and by making directories. -/
structure Written (names : List String) (fs fs' : Files) : Prop where
  home : fs'.home = fs.home
  node : ∀ location, fs'.node? location = fs.node? location ∨
    ((∃ bytes modified, fs'.node? location = some (.file bytes modified)) ∧
      ∃ name ∈ names, location.getLast? = some name) ∨
    (fs.node? location = none ∧ fs'.node? location = some .directory)

namespace Written

variable {names : List String} {fs'' : Files}

theorem refl (names : List String) (fs : Files) : Written names fs fs :=
  ⟨rfl, fun _ => .inl rfl⟩

theorem mono {names' : List String} (h : Written names fs fs') (hnames : names ⊆ names') :
    Written names' fs fs' :=
  ⟨h.home, fun location => (h.node location).imp_right (.imp_left fun ⟨hfile, name, hname, hlast⟩ =>
    ⟨hfile, name, hnames hname, hlast⟩)⟩

theorem trans (h : Written names fs fs') (h' : Written names fs' fs'') : Written names fs fs'' := by
  refine ⟨h'.home.trans h.home, fun location => ?_⟩
  obtain hsame | hfile | ⟨hnone, hdir⟩ := h'.node location
  · rw [hsame]
    exact h.node location
  · exact .inr (.inl hfile)
  · obtain hsame | ⟨⟨_, _, hfile⟩, -⟩ | ⟨-, hdir'⟩ := h.node location
    · exact .inr (.inr ⟨hsame ▸ hnone, hdir⟩)
    · rw [hfile] at hnone
      cases hnone
    · rw [hdir'] at hnone
      cases hnone

/-- A file of another name stays as it is. -/
theorem file (h : Written names fs fs') {bytes : Bytes} {modified : Int}
    (hfile : fs.node? location = some (.file bytes modified))
    (hother : ∀ name ∈ names, location.getLast? ≠ some name) :
    fs'.node? location = some (.file bytes modified) := by
  obtain hsame | ⟨-, name, hname, hlast⟩ | ⟨hnone, -⟩ := h.node location
  · rw [hsame, hfile]
  · exact absurd hlast (hother name hname)
  · rw [hfile] at hnone
    cases hnone

/-- If no files were written, what stands somewhere stood there before, or is a directory that was made. -/
theorem kept_or_made (h : Written [] fs fs') (location : Location) :
    fs'.node? location = fs.node? location ∨
      (fs.node? location = none ∧ fs'.node? location = some .directory) :=
  (h.node location).imp_right fun h => h.resolve_left fun ⟨_, _, hname, _⟩ => by cases hname

end Written

/-- What stands at a location after something was put there. -/
theorem node?_put (fs : Files) (location location' : Location) (node : Node) :
    (fs.put location node).node? location'
      = if location' = location ∧ location ≠ [] then some node else fs.node? location' := by
  unfold node? put
  rw [Keyed.get?_insert]
  by_cases hroot : location' = []
  · subst hroot
    by_cases hlocation : location = [] <;> simp [hlocation, eq_comm]
  · rw [if_neg hroot, if_neg hroot]
    by_cases hsame : location' = location
    · subst hsame
      rw [if_pos rfl, if_pos ⟨rfl, hroot⟩]
    · simp [hsame]

@[simp] theorem node?_tick (fs : Files) (location : Location) :
    fs.tick.node? location = fs.node? location := rfl

/-- The clock makes no difference to where pieces lead. -/
theorem followPieces_tick (fs : Files) (through : Bool)
    (onward : Location → List String → Except FileError Place) (location : Location)
    (pieces : List String) :
    fs.tick.followPieces through onward location pieces
      = fs.followPieces through onward location pieces := by
  induction pieces generalizing location with
  | nil => rfl
  | cons piece rest ih => simp only [followPieces, node?_tick, ih]

/-- The clock makes no difference to where a path leads. -/
theorem follow_tick (fs : Files) (through : Bool) (links : Nat) (location : Location)
    (pieces : List String) :
    fs.tick.follow through links location pieces = fs.follow through links location pieces := by
  induction links generalizing location pieces with
  | zero => exact followPieces_tick ..
  | succ links ih =>
    have honward : fs.tick.follow through links = fs.follow through links :=
      funext fun location => funext fun pieces => ih location pieces
    rw [follow, follow, honward, followPieces_tick]

/-- What a path leads to does not change with time. -/
@[simp] theorem stat_tick (fs : Files) (p : Path) : fs.tick.stat p = fs.stat p := by
  have hhome : fs.tick.home = fs.home := rfl
  unfold stat resolve
  rw [follow_tick, hhome]

@[simp] theorem content_tick (fs : Files) (p : Path) : fs.tick.content p = fs.content p := by
  rw [content, stat_tick, content]

/-- What stands where a file was written. -/
theorem node?_writeAt (fs : Files) (dir : Location) (name : String) (bytes : Bytes) :
    (fs.writeAt (dir ++ [name]) bytes).node? (dir ++ [name]) = some (.file bytes fs.clock) := by
  rw [writeAt, node?_tick, node?_put, if_pos ⟨rfl, by simp⟩]
  rfl

/-- A file that is written changes nothing elsewhere. -/
theorem node?_writeAt_of_ne (fs : Files) {location other : Location} (hother : other ≠ location)
    (bytes : Bytes) : (fs.writeAt location bytes).node? other = fs.node? other := by
  rw [writeAt, node?_tick, node?_put, if_neg fun h => hother h.1]

/-- A file that was written. -/
theorem written_writeAt (fs : Files) (dir : Location) (name : String) (bytes : Bytes) :
    Written [name] fs (fs.writeAt (dir ++ [name]) bytes) := by
  refine ⟨rfl, fun location => ?_⟩
  rw [writeAt, node?_tick, node?_put]
  split
  · next h => exact .inr (.inl ⟨⟨_, _, rfl⟩, name, .head _, by rw [h.1, List.getLast?_concat]⟩)
  · exact .inl rfl

/-- A directory that was made where nothing stood. -/
theorem written_put_directory (names : List String) (h : fs.node? location = none) :
    Written names fs (fs.put location .directory) := by
  refine ⟨rfl, fun location' => ?_⟩
  rw [node?_put]
  split
  · next hsame => exact .inr (.inr ⟨hsame.1 ▸ h, rfl⟩)
  · exact .inl rfl

/-! ### Paths before and after -/

/-- As long as a path leads to a directory, it leads to the same one. -/
theorem Follows.of_written {names : List String} (h : Written names fs fs') {links links' : Nat}
    {start place' : Location} {pieces : List String} {node : Node}
    (hbefore : fs.Follows true links start pieces (.taken location node))
    (hafter : fs'.Follows true links' start pieces (.taken place' .directory)) : place' = location := by
  -- The induction is on the way before: each of its steps is taken afterwards too, or no directory is found.
  generalize hplace : Place.taken location node = place at hbefore
  induction hbefore generalizing links' with
  | done =>
    cases hplace
    cases hafter
    rfl
  | stay _ hstay _ ih => exact ih (hafter.of_stay hstay) hplace
  | up _ _ ih => exact ih hafter.of_up hplace
  | vacant => cases hplace
  | @enter _ start piece _ _ _ _ henters hnode hlink _ ih =>
    obtain ⟨-, hvacant⟩ | ⟨_, -, -, hrest⟩ | ⟨target, _, hnode', -⟩ := hafter.of_enters henters
    · cases hvacant
    · exact ih hrest hplace
    · obtain hsame | ⟨⟨_, _, hfile⟩, -⟩ | ⟨-, hdir⟩ := h.node (start ++ [piece])
      · rw [hsame, hnode] at hnode'
        exact absurd (Option.some.inj hnode') (hlink target)
      · cases hfile.symm.trans hnode'
      · cases hdir.symm.trans hnode'
  | link _ _ _ hthrough => cases hthrough
  | @onward _ start piece rest _ _ _ henters hnode _ _ ih =>
    obtain hsame | ⟨⟨_, _, hfile⟩, -⟩ | ⟨hnone, -⟩ := h.node (start ++ [piece])
    · obtain ⟨hnone, -⟩ | ⟨_, hnode', hlink, -⟩ | ⟨target, _, hnode', -, hrest⟩ := hafter.of_enters henters
      · rw [hsame, hnode] at hnone
        cases hnone
      · rw [hsame, hnode] at hnode'
        exact absurd (Option.some.inj hnode').symm (hlink _)
      · cases (hsame.trans hnode).symm.trans hnode'
        exact ih hrest hplace
    · -- A path that goes on at a file leads nowhere, and one that ends there to no directory.
      obtain ⟨hnone, -⟩ | ⟨_, hnode', -, hrest⟩ | ⟨_, _, hnode', -⟩ := hafter.of_enters henters
      · cases hfile.symm.trans hnone
      · cases rest with
        | nil =>
          cases hrest with
          | done hdir => cases hfile.symm.trans hdir
        | cons piece' rest => cases hfile.symm.trans hrest.directory
      · cases hfile.symm.trans hnode'
    · cases hnone.symm.trans hnode

/-! ### Names in directories -/

/-- Whether the path of a directory leads to a location. -/
def LeadsTo (fs : Files) (dir : Path) (location : Location) : Prop :=
  fs.follow true linkLimit (if dir.isAbsolute then [] else fs.home) dir.above
    = .ok (.taken location .directory)

instance (fs : Files) (dir : Path) (location : Location) : Decidable (fs.LeadsTo dir location) :=
  match h : fs.follow true linkLimit (if dir.isAbsolute then [] else fs.home) dir.above with
  | .ok (.taken found .directory) =>
    if hsame : found = location then .isTrue (by rw [LeadsTo, h, hsame])
    else .isFalse (by rw [LeadsTo, h]; simpa using hsame)
  | .ok (.taken _ (.file ..)) | .ok (.taken _ (.link _)) | .ok (.vacant _) | .error _ =>
    .isFalse (by rw [LeadsTo, h]; simp)

/-- As long as the path of a directory leads to a directory, it leads to the same one. -/
theorem LeadsTo.unique {names : List String} (h : Written names fs fs') {dir : Path}
    {location' : Location} (hbefore : fs.LeadsTo dir location) (hafter : fs'.LeadsTo dir location') :
    location' = location := by
  unfold LeadsTo at hafter
  rw [h.home] at hafter
  exact Follows.of_written h (follow_eq_ok.mp hbefore) (follow_eq_ok.mp hafter)

theorem leadsTo_tick {dir : Path} : fs.tick.LeadsTo dir location ↔ fs.LeadsTo dir location := by
  have hhome : fs.tick.home = fs.home := rfl
  unfold LeadsTo
  rw [follow_tick, hhome]

/-- A directory stands where the path of a directory leads. -/
theorem LeadsTo.directory {dir : Path} (h : fs.LeadsTo dir location) : fs.node? location = some .directory :=
  (follow_eq_ok.mp h).stands

section

variable {dir : Path} {name : String}

/-- The path of a name in a directory leads to the directory first. -/
theorem of_resolve_join (hname : Path.IsName name)
    (h : fs.resolve (dir.join ⟨name⟩) through = .ok place) :
    ∃ location, fs.LeadsTo dir location ∧ fs.EndsAt through (location ++ [name]) place := by
  obtain ⟨-, hfollows⟩ := resolve_eq_ok.mp h
  rw [Path.rawPieces_join dir hname, Path.isAbsolute_join dir hname] at hfollows
  obtain ⟨location, _, hdir, hlast⟩ := hfollows.of_append hname.enters
  exact ⟨location, follow_eq_ok.mpr hdir, hlast.endsAt hname.enters⟩

/-- A name that is replaced stands in its directory. -/
theorem of_replace_join {bytes : Bytes} (hname : Path.IsName name)
    (h : fs.replace (dir.join ⟨name⟩) bytes = .ok fs') :
    ∃ location, fs.LeadsTo dir location ∧ fs' = fs.writeAt (location ++ [name]) bytes := by
  unfold replace at h
  split at h
  · cases h
  · next location hresolve =>
    cases h
    obtain ⟨dir, hdir, hends⟩ := of_resolve_join hname hresolve
    refine ⟨dir, hdir, ?_⟩
    unfold EndsAt at hends
    split at hends
    · cases hends
      rfl
    · obtain hends | hends := hends <;> cases hends
    · cases hends
  · next location node _ hresolve =>
    cases h
    obtain ⟨dir, hdir, hends⟩ := of_resolve_join hname hresolve
    refine ⟨dir, hdir, ?_⟩
    unfold EndsAt at hends
    split at hends
    · cases hends
    · obtain hends | hends := hends
      · cases hends
      · cases hends
        rfl
    · cases hends
      rfl
  · cases h

/-- A file that was written in a directory is what its path leads to, if that leads anywhere. -/
theorem stat_of_written {names : List String} (hname : Path.IsName name)
    (hdir : fs.LeadsTo dir location) (h : Written names fs fs') {bytes : Bytes} {modified : Int}
    (hfile : fs'.node? (location ++ [name]) = some (.file bytes modified))
    (hexists : fs'.exists? (dir.join ⟨name⟩) = true) :
    fs'.stat (dir.join ⟨name⟩) = .ok (location ++ [name], .file bytes modified) := by
  unfold exists? at hexists
  unfold stat at hexists ⊢
  cases hresolve : fs'.resolve (dir.join ⟨name⟩) true with
  | error e =>
    rw [hresolve] at hexists
    cases hexists
  | ok place =>
    -- The directory is the one from before, and what stands there is the file, which is no link.
    obtain ⟨dir', hdir', hends⟩ := of_resolve_join hname hresolve
    rw [hdir.unique h hdir', EndsAt, hfile] at hends
    rw [hends]

end

/-! ### What operations change -/

/-- Whether one tree came from another by making directories. -/
inductive Made (fs : Files) : Files → Prop
  | refl : Made fs fs
  | step {fs' fs'' : Files} {p : Path} :
    Made fs fs' → fs'.makeDirectory p = .ok fs'' → Made fs fs''

theorem Made.trans {fs'' : Files} (h : Made fs fs') (h' : Made fs' fs'') : Made fs fs'' := by
  induction h' with
  | refl => exact h
  | step _ hmake ih => exact ih.step hmake

section

variable {p : Path}

/-- A directory is made in a directory, where nothing stood. -/
theorem of_makeDirectory (h : fs.makeDirectory p = .ok fs') :
    ∃ above name, fs.node? above = some .directory ∧ fs.node? (above ++ [name]) = none ∧
      fs' = fs.put (above ++ [name]) .directory := by
  unfold makeDirectory at h
  split at h
  · next hresolve =>
    cases h
    obtain ⟨hnone, above, name, rfl, hdir⟩ := stands_of_resolve hresolve
    exact ⟨above, name, hdir, hnone, rfl⟩
  · cases h
  · cases h

/-- Directories are made where nothing stood. -/
theorem Made.written (h : Made fs fs') (names : List String) : Written names fs fs' := by
  induction h with
  | refl => exact .refl names fs
  | step _ hmake ih =>
    obtain ⟨above, name, -, hnone, rfl⟩ := of_makeDirectory hmake
    exact ih.trans (written_put_directory names hnone)

theorem made_ensureDirectory (h : fs.ensureDirectory p = .ok fs') : Made fs fs' := by
  unfold ensureDirectory at h
  split at h
  · next hmake =>
    cases h
    exact .step .refl hmake
  · split at h
    · cases h
      exact .refl
    · cases h

/-- A directory with those above it is made directory by directory. -/
theorem made_makeDirectories (h : fs.makeDirectories p = .ok fs') : Made fs fs' := by
  unfold makeDirectories at h
  generalize p.text.length + 1 = fuel at h
  induction fuel generalizing p fs' with
  | zero => cases h
  | succ fuel ih =>
    unfold makeDirectoriesUpTo at h
    split at h
    · cases h
      exact .refl
    · split at h
      · next hensure =>
        cases h
        exact made_ensureDirectory hensure
      · split at h
        · cases h
        · obtain ⟨above, habove, hensure⟩ := Outcome.bind_eq_ok.mp h
          exact (ih habove).trans (made_ensureDirectory hensure)
      · cases h

/-- Directories are made where nothing stood. -/
theorem written_makeDirectories (names : List String) (h : fs.makeDirectories p = .ok fs') :
    Written names fs fs' :=
  (made_makeDirectories h).written names

end

end Files

end SourceTables
