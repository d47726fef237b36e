import SourceTables.Artifact.Store
import SourceTables.Proofs.Files.Grow
import SourceTables.Proofs.Path.Below
import SourceTables.Proofs.Path.Parts

/-!
# `SourceTables.Proofs.Files.Directory`: directories that are there already

Before an artifact is written its directory is made, and when that is there nothing happens. The directory
is made under another spelling of its path than the one that the artifact's path has: without empty pieces
and dots at the end. Both lead to the same directory, since such pieces stay where they stand, and all that
they ask for is a directory.

The theorems:

* `Follows.respell`: a path leads to a directory however it is spelled.
* `makeDirectories_of_isDirectory`, `isDirectory_of_makeDirectories`: making a directory that is there
  changes nothing, and after it was made it is there.
* `Artifact.prepare_of_leadsTo`, `Artifact.leadsTo_of_prepare`: the same for the directory of an artifact.
-/

set_option autoImplicit false

namespace SourceTables

/-! ### The path above a name -/

namespace Path

/-- What counts is not cut off. -/
theorem filter_trimEnd (pieces : List Piece) :
    (trimEnd pieces).filter Piece.counts = pieces.filter Piece.counts := by
  have hdrop (pieces : List Piece) : (pieces.dropWhile fun piece => !piece.counts).filter Piece.counts
      = pieces.filter Piece.counts := by
    induction pieces with
    | nil => rfl
    | cons piece rest ih =>
      by_cases hcounts : piece.counts = true
      · rw [List.dropWhile_cons_of_neg (by simp [hcounts])]
      · rw [List.dropWhile_cons_of_pos (by simp [hcounts]), ih, List.filter_cons_of_neg hcounts]
  rw [trimEnd, List.filter_reverse, hdrop, List.filter_reverse, List.reverse_reverse]

/-- The path of a directory without what does not count at its end. -/
def trimmed (dir : Path) : Path :=
  let text := textOf (trimEnd (piecesOf dir.isAbsolute dir.above))
  ⟨if dir.isAbsolute then "/" ++ text else text⟩

/-- The path above a name in a directory. -/
theorem parent?_join (dir : Path) {name : String} (hname : IsName name) :
    (dir.join ⟨name⟩).parent? = some dir.trimmed := by
  have hnames : ∀ n ∈ [name], IsName n := fun n hn => List.mem_singleton.mp hn ▸ hname
  obtain ⟨pieces, hpieces, htexts, hcounts⟩ := piecesOf_append hnames dir.isAbsolute dir.above
  obtain ⟨piece, rfl⟩ : ∃ piece, pieces = [piece] :=
    List.length_eq_one_iff.mp (by rw [← List.length_map, htexts]; rfl)
  have hall : trimEnd (dir.join ⟨name⟩).pieces = piecesOf dir.isAbsolute dir.above ++ [piece] := by
    rw [pieces_eq, rawPieces_join dir hname, isAbsolute_join dir hname, hpieces,
      trimEnd_append _ (List.cons_ne_nil _ _) hcounts]
  unfold parent?
  rw [hall, List.reverse_append, List.reverse_singleton, List.singleton_append]
  dsimp only
  rw [List.reverse_reverse, isAbsolute_join dir hname]
  rfl

/-- The pieces that lead to a directory come first among its own. -/
theorem above_isPrefix (dir : Path) : dir.above <+: dir.rawPieces := by
  unfold above
  split
  · exact List.nil_prefix
  · split
    · exact List.dropLast_prefix _
    · exact List.prefix_rfl

/-- It has the components of the directory. -/
theorem components_trimmed (dir : Path) : dir.trimmed.components = dir.components := by
  obtain ⟨n, hn⟩ : ∃ n, trimEnd (piecesOf dir.isAbsolute dir.above)
      = piecesOf dir.isAbsolute (dir.above.take n) :=
    ⟨_, (List.prefix_iff_eq_take.mp (trimEnd_isPrefix _)).trans (take_piecesOf _ _ _)⟩
  have hbelow : below dir.isAbsolute (dir.above.take n) = below dir.isAbsolute dir.rawPieces := by
    rw [← below_above, below, ← hn, filter_trimEnd, ← below]
  have hstarts : dir.above.take n <+: dir.rawPieces := (List.take_prefix n _).trans (above_isPrefix dir)
  have htext : dir.trimmed
      = ⟨if dir.isAbsolute then "/" ++ "/".intercalate (dir.above.take n)
        else "/".intercalate (dir.above.take n)⟩ := by
    unfold trimmed textOf
    rw [hn, map_text_piecesOf]
  rw [htext, dir.components_eq, ← hbelow]
  refine components_intercalate _ (fun s hs => slash_of_mem_rawPieces (hstarts.subset hs))
    fun habsolute => ?_
  cases hraw : dir.above.take n with
  | nil => rfl
  | cons s raw =>
    obtain ⟨more, hmore⟩ := hstarts
    rw [hraw, List.cons_append] at hmore
    refine isAbsolute_of_rawPieces hmore.symm habsolute fun hempty => ?_
    rw [above, if_pos (String.isEmpty_iff.mpr hempty), List.take_nil] at hraw
    cases hraw

end Path

namespace Files

variable {fs fs' : Files} {links : Nat} {start location : Location} {place : Place}
  {todo todo' : List String}

/-! ### Paths with other spellings -/

/-- Pieces that do not move stay in a directory. -/
theorem Follows.staying (hdir : fs.node? start = some .directory) (htodo : todo.filter Path.moves = []) :
    fs.Follows true links start todo (.taken start .directory) := by
  induction todo with
  | nil => exact .done hdir
  | cons piece rest ih =>
    have hstay : ¬ Path.moves piece = true := List.filter_eq_nil_iff.mp htodo _ List.mem_cons_self
    rw [List.filter_cons_of_neg hstay] at htodo
    exact .stay hdir hstay (ih htodo)

/-- Pieces that do not move may stand before one that does. -/
theorem Follows.skipping {piece : String} {pieces : List String} (hdir : fs.node? start = some .directory)
    (htodo : todo.filter Path.moves = piece :: pieces)
    (h : ∀ rest, rest.filter Path.moves = pieces → fs.Follows true links start (piece :: rest) place) :
    fs.Follows true links start todo place := by
  induction todo with
  | nil => cases htodo
  | cons first rest ih =>
    by_cases hfirst : Path.moves first = true
    · rw [List.filter_cons_of_pos hfirst] at htodo
      obtain ⟨rfl, hrest⟩ := List.cons.inj htodo
      exact h rest hrest
    · rw [List.filter_cons_of_neg hfirst] at htodo
      exact .stay hdir hfirst (ih htodo)

/-- A path leads to a directory however it is spelled. -/
theorem Follows.respell (h : fs.Follows true links start todo (.taken location .directory))
    (htodo : todo'.filter Path.moves = todo.filter Path.moves) :
    fs.Follows true links start todo' (.taken location .directory) := by
  generalize hplace : Place.taken location .directory = place at h
  induction h generalizing todo' with
  | done hnode =>
    cases hplace
    exact .staying hnode htodo
  | stay _ hstay _ ih =>
    rw [List.filter_cons_of_neg hstay] at htodo
    exact ih htodo hplace
  | up hdir _ ih =>
    rw [List.filter_cons_of_pos (by decide)] at htodo
    exact .skipping hdir htodo fun rest hrest => .up hdir (ih hrest hplace)
  | vacant => cases hplace
  | enter hdir henters hnode hlink _ ih =>
    rw [List.filter_cons_of_pos henters.moves] at htodo
    exact .skipping hdir htodo fun rest hrest => .enter hdir henters hnode hlink (ih hrest hplace)
  | link _ _ _ hthrough => cases hthrough
  | onward hdir henters hnode _ _ ih =>
    rw [List.filter_cons_of_pos henters.moves] at htodo
    refine .skipping hdir htodo fun rest hrest => .onward hdir henters hnode (fun _ => rfl) (ih ?_ hplace)
    rw [List.filter_append, List.filter_append, hrest]

/-! ### Directories that are made -/

theorem isDirectory_iff {p : Path} :
    fs.isDirectory p = true ↔ ∃ location, fs.stat p = .ok (location, .directory) := by
  unfold isDirectory
  constructor
  · intro h
    split at h
    · next location hstat => exact ⟨location, hstat⟩
    · cases h
  · rintro ⟨location, hstat⟩
    rw [hstat]

/-- Where nothing stands no link does. -/
theorem Follows.vacant_through (h : fs.Follows false links start todo (.vacant location)) :
    fs.Follows true links start todo (.vacant location) := by
  generalize hplace : Place.vacant location = place at h
  induction h with
  | done => cases hplace
  | stay hdir hstay _ ih => exact .stay hdir hstay (ih hplace)
  | up hdir _ ih => exact .up hdir (ih hplace)
  | vacant hdir henters hnone hrest => exact .vacant hdir henters hnone hrest
  | enter hdir henters hnode hlink _ ih => exact .enter hdir henters hnode hlink (ih hplace)
  | link => cases hplace
  | onward hdir henters hnode _ _ ih => exact .onward hdir henters hnode (fun _ => rfl) (ih hplace)

/-- A path that led to nothing leads to the directory that is put there. -/
theorem Follows.put_directory (h : fs.Follows true links start todo (.vacant location)) :
    (fs.put location .directory).Follows true links start todo (.taken location .directory) := by
  obtain ⟨hnone, above, name, hlocation, -⟩ := h.stands
  have hput {other : Location} {node : Node} (hnode : fs.node? other = some node) :
      (fs.put location .directory).node? other = some node := by
    rw [node?_put, if_neg, hnode]
    rintro ⟨rfl, -⟩
    cases hnone.symm.trans hnode
  have hmade : (fs.put location .directory).node? location = some .directory := by
    rw [node?_put, if_pos ⟨rfl, by simp [hlocation]⟩]
  generalize hplace : Place.vacant location = place at h
  induction h with
  | done => cases hplace
  | stay hdir hstay _ ih => exact .stay (hput hdir) hstay (ih hplace)
  | up hdir _ ih => exact .up (hput hdir) (ih hplace)
  | vacant hdir henters _ hrest =>
    cases hplace
    refine .enter (hput hdir) henters hmade (by simp) (.staying hmade ?_)
    refine List.filter_eq_nil_iff.mpr fun piece hpiece => ?_
    have hempty : piece = "" := by simpa using List.all_eq_true.mp hrest piece hpiece
    rw [hempty]
    decide
  | enter hdir henters hnode hlink _ ih => exact .enter (hput hdir) henters (hput hnode) hlink (ih hplace)
  | link => cases hplace
  | onward hdir henters hnode hlast _ ih =>
    exact .onward (hput hdir) henters (hput hnode) hlast (ih hplace)

/-- A directory that was made is there. -/
theorem isDirectory_of_ensureDirectory {p : Path} (h : fs.ensureDirectory p = .ok fs') :
    fs'.isDirectory p = true := by
  unfold ensureDirectory at h
  split at h
  · next fs₁ hmake =>
    cases h
    unfold makeDirectory at hmake
    split at hmake
    · next location hresolve =>
      cases hmake
      obtain ⟨htext, hfollows⟩ := resolve_eq_ok.mp hresolve
      exact isDirectory_iff.mpr ⟨location, stat_eq_ok.mpr (resolve_eq_ok.mpr
        ⟨htext, hfollows.vacant_through.put_directory⟩)⟩
    · cases hmake
    · cases hmake
  · split at h
    · next hdir =>
      cases h
      exact hdir
    · cases h

/-- A directory with those above it is there after it was made; an empty path asks for none. -/
theorem isDirectory_of_makeDirectories {p : Path} (h : fs.makeDirectories p = .ok fs') :
    p.text = "" ∧ fs' = fs ∨ fs'.isDirectory p = true := by
  unfold makeDirectories makeDirectoriesUpTo at h
  split at h
  · next hempty =>
    cases h
    exact .inl ⟨hempty, rfl⟩
  · refine .inr ?_
    split at h
    · next hensure =>
      cases h
      exact isDirectory_of_ensureDirectory hensure
    · split at h
      · cases h
      · obtain ⟨_, -, hensure⟩ := Outcome.bind_eq_ok.mp h
        exact isDirectory_of_ensureDirectory hensure
    · cases h

/-- Making a directory that is there changes nothing. -/
theorem makeDirectories_of_isDirectory {p : Path} (h : fs.isDirectory p = true) :
    fs.makeDirectories p = .ok fs := by
  obtain ⟨location, hstat⟩ := isDirectory_iff.mp h
  have hmake : ∃ e, fs.makeDirectory p = .error e := by
    unfold makeDirectory
    cases hresolve : fs.resolve p false with
    | error e => exact ⟨e, rfl⟩
    | ok place =>
      cases place with
      | taken => exact ⟨_, rfl⟩
      | vacant vacancy =>
        obtain ⟨htext, hfollows⟩ := resolve_eq_ok.mp hresolve
        have hvacant : fs.resolve p true = .ok (.vacant vacancy) :=
          resolve_eq_ok.mpr ⟨htext, hfollows.vacant_through⟩
        cases hvacant.symm.trans (stat_eq_ok.mp hstat)
  obtain ⟨e, hmake⟩ := hmake
  have hensure : fs.ensureDirectory p = .ok fs := by
    rw [ensureDirectory, hmake]
    exact if_pos h
  unfold makeDirectories makeDirectoriesUpTo
  rw [hensure, if_neg (resolve_eq_ok.mp (stat_eq_ok.mp hstat)).1]

/-! ### The directory of a name -/

/-- The pieces that lead to a directory move as those of every path with its components do. -/
theorem filter_above (dir : Path) : dir.above.filter Path.moves = dir.rawPieces.filter Path.moves := by
  have hname : Path.IsName "x" := by decide
  have h := Path.filter_rawPieces (dir.join ⟨"x"⟩)
  rw [Path.rawPieces_join dir hname, Path.components_join dir hname, List.filter_append,
    List.filterMap_append, ← Path.filter_rawPieces dir] at h
  exact List.append_cancel_right h

/-- The path of a directory leads to where the path above its names does. -/
theorem leadsTo_iff_trimmed {dir : Path} (htext : dir.trimmed.text ≠ "") :
    fs.LeadsTo dir location ↔ fs.stat dir.trimmed = .ok (location, .directory) := by
  have hcomponents := Path.components_trimmed dir
  have hmoves : dir.trimmed.rawPieces.filter Path.moves = dir.above.filter Path.moves := by
    rw [filter_above, Path.filter_rawPieces, Path.filter_rawPieces, hcomponents]
  have habsolute : dir.trimmed.isAbsolute = dir.isAbsolute := by
    rw [Path.isAbsolute_eq, Path.isAbsolute_eq, hcomponents]
  unfold LeadsTo
  rw [stat_eq_ok, resolve_eq_ok, follow_eq_ok, habsolute]
  exact ⟨fun h => ⟨htext, h.respell hmoves⟩, fun h => h.2.respell hmoves.symm⟩

end Files

/-! ### The directory of an artifact -/

namespace Artifact

variable {fs fs' : Files} {dir : Path} {name : String} (hname : Path.IsName name)
include hname

/-- The directory of an artifact is made whatever name the artifact has. -/
theorem prepare_join : prepare fs (dir.join ⟨name⟩) = (fs.makeDirectories dir.trimmed).mapError Error.file := by
  rw [prepare, Path.parent?_join dir hname]

/-- A directory that is there is left as it is. -/
theorem prepare_of_leadsTo {location : Location} (h : fs.LeadsTo dir location) :
    prepare fs (dir.join ⟨name⟩) = .ok fs := by
  rw [prepare_join hname]
  by_cases htext : dir.trimmed.text = ""
  · rw [Files.makeDirectories, Files.makeDirectoriesUpTo, if_pos htext]
    rfl
  · have hdir := Files.isDirectory_iff.mpr ⟨location, (Files.leadsTo_iff_trimmed htext).mp h⟩
    rw [Files.makeDirectories_of_isDirectory hdir]
    rfl

/-- A directory that was made is there, unless nothing was made. -/
theorem leadsTo_of_prepare (h : prepare fs (dir.join ⟨name⟩) = .ok fs') :
    fs' = fs ∨ ∃ location, fs'.LeadsTo dir location := by
  rw [prepare_join hname] at h
  cases hmake : fs.makeDirectories dir.trimmed with
  | error e =>
    rw [hmake] at h
    cases h
  | ok made =>
    rw [hmake] at h
    cases h
    obtain ⟨-, hsame⟩ | hdir := Files.isDirectory_of_makeDirectories hmake
    · exact .inl hsame
    · obtain ⟨location, hstat⟩ := Files.isDirectory_iff.mp hdir
      have htext := (Files.resolve_eq_ok.mp (Files.stat_eq_ok.mp hstat)).1
      exact .inr ⟨location, (Files.leadsTo_iff_trimmed htext).mpr hstat⟩

end Artifact

end SourceTables
