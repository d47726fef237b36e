import SourceTables.Proofs.Files.Write

/-!
# `SourceTables.Proofs.Files.Grow`: trees in which everything stays where it is

A tree grows when directories are made, and files are written where nothing or another file stood. All
directories and links stay, so a path that led to something still leads there.

The theorems:

* `Grows.stat`: a path that leads to something still leads there when the tree grows.
* `resolve_join`: what stands under a name in a directory is found, unless it is a link to be followed.
* `replace_join`: when a file is put in the place of a name, and what that changes.
* `exists_replace`: a file that is put in the place of a name is found, unless that was a link.
-/

set_option autoImplicit false

namespace SourceTables.Files

variable {fs fs' fs'' : Files} {location : Location} {node : Node}

/-! ### Trees that grow -/

/-- Whether what stands in one tree stands in another; a file may have another content. -/
structure Grows (fs fs' : Files) : Prop where
  home : fs'.home = fs.home
  file : ∀ location bytes modified, fs.node? location = some (.file bytes modified) →
    ∃ bytes' modified', fs'.node? location = some (.file bytes' modified')
  directory : ∀ location, fs.node? location = some .directory → fs'.node? location = some .directory
  link : ∀ location target, fs.node? location = some (.link target) →
    fs'.node? location = some (.link target)

/-- Where something stands, something still does. -/
theorem Grows.found (h : Grows fs fs') (hnode : fs.node? location = some node) :
    ∃ node', fs'.node? location = some node' := by
  cases node with
  | file bytes modified =>
    obtain ⟨_, _, hnode'⟩ := h.file _ _ _ hnode
    exact ⟨_, hnode'⟩
  | directory => exact ⟨_, h.directory _ hnode⟩
  | link target => exact ⟨_, h.link _ _ hnode⟩

/-- A tree in which directories were made has grown. -/
theorem Written.grows (h : Written [] fs fs') : Grows fs fs' := by
  have hkeeps {location : Location} {node : Node} (hnode : fs.node? location = some node) :
      fs'.node? location = some node := by
    obtain hsame | ⟨hnone, -⟩ := h.kept_or_made location
    · rw [hsame, hnode]
    · rw [hnone] at hnode
      cases hnode
  exact ⟨h.home, fun _ bytes modified hnode => ⟨bytes, modified, hkeeps hnode⟩, fun _ => hkeeps,
    fun _ _ => hkeeps⟩

/-- A tree grows when a file is written where no directory and no link stands. -/
theorem grows_writeAt (bytes : Bytes) (hdirectory : fs.node? location ≠ some .directory)
    (hlink : ∀ target, fs.node? location ≠ some (.link target)) : Grows fs (fs.writeAt location bytes) := by
  have hkeeps {other : Location} {node : Node} (hnode : fs.node? other = some node)
      (hother : other ≠ location) : (fs.writeAt location bytes).node? other = some node := by
    rw [fs.node?_writeAt_of_ne hother, hnode]
  refine ⟨rfl, fun other bytes' modified' hnode => ?_, fun other hnode => ?_, fun other target hnode => ?_⟩
  · by_cases hother : other = location
    · rw [writeAt, node?_tick, node?_put]
      split
      · exact ⟨_, _, rfl⟩
      · exact ⟨_, _, hnode⟩
    · exact ⟨_, _, hkeeps hnode hother⟩
  · exact hkeeps hnode fun hother => hdirectory (hother ▸ hnode)
  · exact hkeeps hnode fun hother => hlink target (hother ▸ hnode)

/-- A path that leads to something still leads there when the tree grows. -/
theorem Follows.grows {through : Bool} {links : Nat} {start : Location} {pieces : List String}
    (h : Grows fs fs') (hfollows : fs.Follows through links start pieces (.taken location node)) :
    ∃ node', fs'.node? location = some node' ∧
      fs'.Follows through links start pieces (.taken location node') := by
  generalize hplace : Place.taken location node = place at hfollows
  induction hfollows with
  | done hnode =>
    cases hplace
    obtain ⟨node', hnode'⟩ := h.found hnode
    exact ⟨node', hnode', .done hnode'⟩
  | stay hdir hstay _ ih =>
    obtain ⟨node', hnode', hrest⟩ := ih hplace
    exact ⟨node', hnode', .stay (h.directory _ hdir) hstay hrest⟩
  | up hdir _ ih =>
    obtain ⟨node', hnode', hrest⟩ := ih hplace
    exact ⟨node', hnode', .up (h.directory _ hdir) hrest⟩
  | vacant => cases hplace
  | @enter _ start piece _ next _ hdir henters hnext hlink _ ih =>
    obtain ⟨node', hnode', hrest⟩ := ih hplace
    obtain ⟨next', hnext', hlink'⟩ : ∃ next', fs'.node? (start ++ [piece]) = some next' ∧
        ∀ target, next' ≠ .link target := by
      cases next with
      | file bytes modified =>
        obtain ⟨_, _, hfile⟩ := h.file _ _ _ hnext
        exact ⟨_, hfile, by simp⟩
      | directory => exact ⟨_, h.directory _ hnext, by simp⟩
      | link target => exact absurd rfl (hlink target)
    exact ⟨node', hnode', .enter (h.directory _ hdir) henters hnext' hlink' hrest⟩
  | link hdir henters hlink hthrough =>
    cases hplace
    have hlink' := h.link _ _ hlink
    exact ⟨_, hlink', .link (h.directory _ hdir) henters hlink' hthrough⟩
  | onward hdir henters hlink hlast _ ih =>
    obtain ⟨node', hnode', hrest⟩ := ih hplace
    exact ⟨node', hnode', .onward (h.directory _ hdir) henters (h.link _ _ hlink) hlast hrest⟩

/-- A path that leads to something still leads there when the tree grows. -/
theorem Grows.resolve {through : Bool} (h : Grows fs fs') {p : Path}
    (hresolve : fs.resolve p through = .ok (.taken location node)) :
    ∃ node', fs'.node? location = some node' ∧ fs'.resolve p through = .ok (.taken location node') := by
  obtain ⟨htext, hfollows⟩ := resolve_eq_ok.mp hresolve
  obtain ⟨node', hnode', hfollows'⟩ := hfollows.grows h
  refine ⟨node', hnode', resolve_eq_ok.mpr ⟨htext, ?_⟩⟩
  rw [h.home]
  exact hfollows'

theorem Grows.stat (h : Grows fs fs') {p : Path} (hstat : fs.stat p = .ok (location, node)) :
    ∃ node', fs'.node? location = some node' ∧ fs'.stat p = .ok (location, node') := by
  obtain ⟨node', hnode', hresolve⟩ := h.resolve (stat_eq_ok.mp hstat)
  exact ⟨node', hnode', stat_eq_ok.mpr hresolve⟩

/-- The path of a directory still leads there. -/
theorem LeadsTo.grows {dir : Path} (h : fs.LeadsTo dir location) (hgrows : Grows fs fs') :
    fs'.LeadsTo dir location := by
  obtain ⟨node', hnode', hfollows'⟩ := (follow_eq_ok.mp h).grows hgrows
  obtain rfl : Node.directory = node' :=
    Option.some.inj ((hgrows.directory _ h.directory).symm.trans hnode')
  unfold LeadsTo
  rw [hgrows.home]
  exact follow_eq_ok.mpr hfollows'

/-! ### Names in directories -/

/-- What has a name in a directory. -/
def placeAt (fs : Files) (location : Location) : Place :=
  match fs.node? location with
  | none => .vacant location
  | some node => .taken location node

section

variable {dir : Path} {name : String} (hname : Path.IsName name)
include hname

/-- A name in a directory leads to what has it, unless that is a link to be followed. -/
theorem resolve_join {through : Bool} (hdir : fs.LeadsTo dir location)
    (hlink : through = true → ∀ target, fs.node? (location ++ [name]) ≠ some (.link target)) :
    fs.resolve (dir.join ⟨name⟩) through = .ok (fs.placeAt (location ++ [name])) := by
  have hdirectory := hdir.directory
  have hlast (links : Nat) :
      fs.Follows through links location [name] (fs.placeAt (location ++ [name])) := by
    unfold placeAt
    cases hnode : fs.node? (location ++ [name]) with
    | none => exact .vacant hdirectory hname.enters hnode rfl
    | some node =>
      cases node with
      | file | directory => exact .enter hdirectory hname.enters hnode (by simp) (.done hnode)
      | link target =>
        cases through with
        | true => exact absurd hnode (hlink rfl target)
        | false => exact .link hdirectory hname.enters hnode rfl
  have htext : (dir.join ⟨name⟩).text ≠ "" := by
    intro hempty
    have hpath : dir.join ⟨name⟩ = ⟨""⟩ := congrArg Path.mk hempty
    have hfile := Path.fileName?_join dir hname
    rw [hpath] at hfile
    cases hfile
  refine resolve_eq_ok.mpr ⟨htext, ?_⟩
  rw [Path.rawPieces_join dir hname, Path.isAbsolute_join dir hname]
  exact (follow_eq_ok.mp hdir).append hlast

/-- What has a name in a directory is found there, unless it is a link. -/
theorem stat_join {node : Node} (hdir : fs.LeadsTo dir location)
    (hnode : fs.node? (location ++ [name]) = some node) (hlink : ∀ target, node ≠ .link target) :
    fs.stat (dir.join ⟨name⟩) = .ok (location ++ [name], node) := by
  have hresolve : fs.resolve (dir.join ⟨name⟩) true = .ok (fs.placeAt (location ++ [name])) :=
    resolve_join hname hdir fun _ target hsame =>
      hlink target (Option.some.inj (hnode.symm.trans hsame))
  rw [stat, hresolve, placeAt, hnode]

/-- A file is put in the place of a name just when no directory has that name where the path leads. -/
theorem replace_join {bytes : Bytes} : fs.replace (dir.join ⟨name⟩) bytes = .ok fs' ↔
    ∃ location, fs.LeadsTo dir location ∧ fs.node? (location ++ [name]) ≠ some .directory ∧
      fs' = fs.writeAt (location ++ [name]) bytes := by
  have hresolve {location : Location} (hdir : fs.LeadsTo dir location) :
      fs.resolve (dir.join ⟨name⟩) false = .ok (fs.placeAt (location ++ [name])) :=
    resolve_join hname hdir nofun
  constructor
  · intro h
    obtain ⟨location, hdir, rfl⟩ := of_replace_join hname h
    refine ⟨location, hdir, fun hnode => ?_, rfl⟩
    rw [replace, hresolve hdir, placeAt, hnode] at h
    cases h
  · rintro ⟨location, hdir, hnode, rfl⟩
    rw [replace, hresolve hdir, placeAt]
    cases hfound : fs.node? (location ++ [name]) with
    | none => rfl
    | some node =>
      cases node with
      | file | link => rfl
      | directory => exact absurd hfound hnode

/-- A file that is put in the place of a name is found, unless that was a link. -/
theorem exists_replace {bytes : Bytes} (h : fs.replace (dir.join ⟨name⟩) bytes = .ok fs')
    (hlink : ∀ location target, fs.node? (location ++ [name]) ≠ some (.link target)) :
    fs'.exists? (dir.join ⟨name⟩) = true := by
  obtain ⟨location, hdir, hdirectory, rfl⟩ := (replace_join hname).mp h
  have hgrows := grows_writeAt bytes hdirectory (hlink location)
  rw [exists?, stat_join hname (hdir.grows hgrows) (node?_writeAt fs location name bytes) nofun]
  rfl

end

end SourceTables.Files
