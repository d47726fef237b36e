import SourceTables.Proofs.Files.Grow

/-!
# `SourceTables.Proofs.Files.Rooted`: files that directories do not bring to light

In a tree everything stands in a directory, so that nothing stands where a directory is made, and nothing
below. A path that does not go up therefore finds no file that it did not find before: once it enters a
directory that was made, it stays among those that were made. A path with `..` may leave them again.

The theorems:

* `Rooted.of_made`, `Rooted.writeAt`, `Rooted.removeFile`: what is done to a tree leaves it one.
* `content_of_made`: making directories neither hides nor shows a file to a path that does not go up.
-/

set_option autoImplicit false

namespace SourceTables.Files

variable {fs fs' : Files} {location : Location} {node : Node}

/-! ### Trees -/

/-- Whether everything stands in a directory. -/
def Rooted (fs : Files) : Prop :=
  ∀ (above : Location) (name : String) (node : Node), fs.node? (above ++ [name]) = some node →
    fs.node? above = some .directory

/-- Nothing stands below a place where nothing or no directory stands. -/
theorem Rooted.vacant (h : fs.Rooted) (hnode : fs.node? location ≠ some .directory) (name : String) :
    fs.node? (location ++ [name]) = none := by
  cases hbelow : fs.node? (location ++ [name]) with
  | none => rfl
  | some node => exact absurd (h _ _ _ hbelow) hnode

/-- Something else may be put in the place of what is no directory. -/
theorem Rooted.put (h : fs.Rooted) {name : String} (hdir : fs.node? location = some .directory)
    (hnode : fs.node? (location ++ [name]) ≠ some .directory) (node : Node) :
    (fs.put (location ++ [name]) node).Rooted := by
  intro above name' node' hbelow
  rw [node?_put] at hbelow ⊢
  have hroot : location ++ [name] ≠ [] := by simp
  by_cases hsame : above ++ [name'] = location ++ [name]
  · obtain ⟨rfl, -⟩ := List.append_inj' hsame rfl
    rw [if_neg (by simp), hdir]
  · rw [if_neg fun hput => hsame hput.1] at hbelow
    have habove := h _ _ _ hbelow
    rw [if_neg, habove]
    rintro ⟨rfl, -⟩
    exact hnode habove

/-- Directories that are made stand in directories. -/
theorem Rooted.of_made (h : fs.Rooted) (hmade : Made fs fs') : fs'.Rooted := by
  induction hmade with
  | refl => exact h
  | step _ hmake ih =>
    obtain ⟨above, name, hdir, hnone, rfl⟩ := of_makeDirectory hmake
    exact ih.put hdir (by rw [hnone]; exact nofun) _

/-- A file that is written in a directory leaves a tree. -/
theorem Rooted.writeAt (h : fs.Rooted) {name : String} (hdir : fs.node? location = some .directory)
    (hnode : fs.node? (location ++ [name]) ≠ some .directory) (bytes : Bytes) :
    (fs.writeAt (location ++ [name]) bytes).Rooted := h.put hdir hnode _

/-- Nothing but a file or a link is removed. -/
theorem of_removeFile {p : Path} (h : fs.removeFile p = .ok fs') :
    fs'.home = fs.home ∧ ∃ location node, fs.resolve p false = .ok (.taken location node) ∧
      fs.node? location ≠ some .directory ∧
      ∀ other, fs'.node? other = if other = location then none else fs.node? other := by
  unfold removeFile at h
  split at h
  · cases h
  · next location node hnode hresolve =>
    cases h
    have hplace : fs.node? location = some node := stands_of_resolve hresolve
    refine ⟨rfl, location, node, hresolve, ?_, fun other => ?_⟩
    · rw [hplace]
      exact fun hdir => hnode (Option.some.inj hdir)
    · unfold node?
      rw [Keyed.get?_erase]
      by_cases hroot : other = []
      · have hne : other ≠ location := by
          rintro rfl
          rw [node?, if_pos hroot] at hplace
          exact hnode (Option.some.inj hplace).symm
        rw [if_pos hroot, if_neg hne, if_pos hroot]
      · rw [if_neg hroot, if_neg hroot]
  · cases h
  · cases h

/-- What is removed is no directory, so that a tree is left. -/
theorem Rooted.removeFile (h : fs.Rooted) {p : Path} (hremove : fs.removeFile p = .ok fs') :
    fs'.Rooted := by
  obtain ⟨-, location, -, -, hlocation, hnode⟩ := of_removeFile hremove
  intro above name node hbelow
  rw [hnode] at hbelow ⊢
  split at hbelow
  · cases hbelow
  · have habove := h _ _ _ hbelow
    rw [if_neg, habove]
    rintro rfl
    exact hlocation habove

/-! ### Directories that are made -/

/-- What was made where nothing stood is a directory. -/
theorem Written.made (h : Written [] fs fs') (hnone : fs.node? location = none)
    (hnode : fs'.node? location = some node) : node = .directory := by
  obtain hsame | ⟨-, hdir⟩ := h.kept_or_made location
  · rw [hsame, hnone] at hnode
    cases hnode
  · exact Option.some.inj (hnode.symm.trans hdir)

/-- A path that enters a directory that was made, and does not go up, leads to another one. -/
theorem Follows.directory_of_written {links : Nat} {start : Location} {pieces : List String}
    (hrooted : fs.Rooted) (hwritten : Written [] fs fs') (hstart : fs.node? start = none)
    (hup : ".." ∉ pieces) (h : fs'.Follows true links start pieces (.taken location node)) :
    node = .directory := by
  generalize hplace : Place.taken location node = place at h
  induction h with
  | done hnode =>
    cases hplace
    exact hwritten.made hstart hnode
  | stay _ _ _ ih => exact ih hstart (fun hmem => hup (.tail _ hmem)) hplace
  | up => exact absurd (.head _) hup
  | vacant => cases hplace
  | @enter _ _ piece _ _ _ _ _ _ _ _ ih =>
    have hnone := hrooted.vacant (by rw [hstart]; simp) piece
    exact ih hnone (fun hmem => hup (.tail _ hmem)) hplace
  | link _ _ _ hthrough => cases hthrough
  | @onward _ _ piece _ _ _ _ _ hlink _ _ _ =>
    cases hwritten.made (hrooted.vacant (by rw [hstart]; simp) piece) hlink

/-- Whether no link goes up. -/
def Descending (fs : Files) : Prop :=
  ∀ (location : Location) (target : Path), fs.node? location = some (.link target) →
    ".." ∉ target.rawPieces

/-- A path that does not go up finds no file that directories which were made bring to light. -/
theorem Follows.of_made {links : Nat} {start : Location} {pieces : List String} {bytes : Bytes}
    {modified : Int} (hrooted : fs.Rooted) (hlinks : fs.Descending) (hwritten : Written [] fs fs')
    (hup : ".." ∉ pieces) (h : fs'.Follows true links start pieces (.taken location (.file bytes modified))) :
    fs.Follows true links start pieces (.taken location (.file bytes modified)) := by
  -- What leads to a file goes from one place to another that stood before.
  have before {links : Nat} {start : Location} {pieces : List String} (hup : ".." ∉ pieces)
      (h : fs'.Follows true links start pieces (.taken location (.file bytes modified))) :
      fs'.node? start = fs.node? start := by
    obtain hsame | ⟨hnone, -⟩ := hwritten.kept_or_made start
    · exact hsame
    · cases h.directory_of_written hrooted hwritten hnone hup
  generalize hplace : Place.taken location (.file bytes modified) = place at h
  induction h with
  | done hnode =>
    cases hplace
    have hfile : fs'.Follows true links location [] _ := .done hnode
    exact .done ((before hup hfile).symm.trans hnode)
  | stay hdir hstay h ih =>
    subst hplace
    exact .stay ((before hup (.stay hdir hstay h)).symm.trans hdir) hstay
      (ih (fun hmem => hup (.tail _ hmem)) rfl)
  | up => exact absurd (.head _) hup
  | vacant => cases hplace
  | enter hdir henters hnode hlink h ih =>
    subst hplace
    have hrest := fun hmem => hup (.tail _ hmem)
    exact .enter ((before hup (.enter hdir henters hnode hlink h)).symm.trans hdir) henters
      ((before hrest h).symm.trans hnode) hlink (ih hrest rfl)
  | link _ _ _ hthrough => cases hthrough
  | @onward _ start piece _ target _ hdir henters hnode hlast h ih =>
    subst hplace
    have hlink : fs.node? (start ++ [piece]) = some (.link target) := by
      obtain hsame | ⟨-, hmade⟩ := hwritten.kept_or_made (start ++ [piece])
      · exact hsame.symm.trans hnode
      · cases hmade.symm.trans hnode
    have hrest : ".." ∉ target.rawPieces ++ _ := fun hmem =>
      (List.mem_append.mp hmem).elim (hlinks _ _ hlink) fun hmem => hup (.tail _ hmem)
    exact .onward ((before hup (.onward hdir henters hnode hlast h)).symm.trans hdir) henters hlink hlast
      (ih hrest rfl)

/-- A path leads to a file that can be read. -/
theorem content_eq_ok {p : Path} {bytes : Bytes} : fs.content p = .ok bytes ↔
    ∃ location modified, fs.stat p = .ok (location, .file bytes modified) := by
  unfold content
  constructor
  · intro h
    split at h
    · next location bytes modified hstat =>
      cases h
      exact ⟨location, modified, hstat⟩
    · cases h
    · cases h
  · rintro ⟨location, modified, hstat⟩
    rw [hstat]

/-- Making directories neither hides nor shows a file to a path that does not go up. -/
theorem content_of_made (hrooted : fs.Rooted) (hlinks : fs.Descending) (hmade : Made fs fs') {p : Path}
    (hup : ".." ∉ p.rawPieces) {bytes : Bytes} : fs'.content p = .ok bytes ↔ fs.content p = .ok bytes := by
  have hwritten := hmade.written []
  rw [content_eq_ok, content_eq_ok]
  constructor
  · rintro ⟨location, modified, hstat⟩
    obtain ⟨htext, hfollows⟩ := resolve_eq_ok.mp (stat_eq_ok.mp hstat)
    rw [hwritten.home] at hfollows
    have hbefore := hfollows.of_made hrooted hlinks hwritten hup
    exact ⟨location, modified, stat_eq_ok.mpr (resolve_eq_ok.mpr ⟨htext, hbefore⟩)⟩
  · rintro ⟨location, modified, hstat⟩
    obtain ⟨node', hnode', hstat'⟩ := hwritten.grows.stat hstat
    rw [hwritten.file (node?_of_stat hstat) nofun] at hnode'
    cases hnode'
    exact ⟨location, modified, hstat'⟩

end SourceTables.Files
