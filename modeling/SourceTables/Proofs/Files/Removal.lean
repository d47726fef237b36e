import SourceTables.Proofs.Files.Agree
import SourceTables.Proofs.Files.Rooted

/-!
# `SourceTables.Proofs.Files.Removal`: what is left once files were removed

A tree from which files and links are gone has the same directories, and whatever still stands in it stood
there before. So a path that leads somewhere led there before, but not the other way: a path that crosses a
link which is gone leads nowhere, though the file behind the link may still be there.

The theorems:

* `removeFile_eq_ok`: which paths can be removed.
* `Thinned.removeFile`: one more removal.
* `Thinned.not_removed`: a path that could not be removed cannot be removed later.
* `Follows.kept`: a path that crosses no link which is gone leads where it led.
-/

set_option autoImplicit false

namespace SourceTables.Files

variable {fs fs' left : Files} {places : Set Location} {location link start : Location} {node : Node}
  {through : Bool} {links : Nat} {pieces : List String} {p : Path}

/-- What can be removed is a file or a link at the end of a path. -/
theorem removeFile_eq_ok : fs.removeFile p = .ok left ↔
    ∃ location node, fs.resolve p false = .ok (.taken location node) ∧ node ≠ .directory ∧
      left = { fs with nodes := fs.nodes.erase location } := by
  unfold removeFile
  constructor
  · intro h
    split at h
    · cases h
    · next location node hnode hresolve =>
      cases h
      exact ⟨location, node, hresolve, fun hdir => hnode hdir, rfl⟩
    · cases h
    · cases h
  · rintro ⟨location, node, hresolve, hnode, rfl⟩
    rw [hresolve]
    cases node with
    | directory => exact absurd rfl hnode
    | file | link => rfl

/-! ### Trees that are left -/

/-- A tree from which files and links at some places may be gone. -/
structure Thinned (places : Set Location) (fs fs' : Files) : Prop where
  home : fs'.home = fs.home
  clock : fs'.clock = fs.clock
  node : ∀ location, fs'.node? location = fs.node? location ∨
    fs'.node? location = none ∧ location ∈ places ∧ fs.node? location ≠ some .directory

namespace Thinned

theorem refl (places : Set Location) (fs : Files) : Thinned places fs fs := ⟨rfl, rfl, fun _ => .inl rfl⟩

/-- Nothing has changed anywhere else. -/
theorem agreesOff (h : Thinned places fs fs') : fs.AgreesOff places fs' :=
  ⟨h.home, fun location hlocation => (h.node location).resolve_right fun hgone => hlocation hgone.2.1⟩

/-- What still stands stood there before. -/
theorem stood (h : Thinned places fs fs') (hnode : fs'.node? location = some node) :
    fs.node? location = some node := by
  obtain hsame | ⟨hnone, -⟩ := h.node location
  · rw [← hsame, hnode]
  · rw [hnone] at hnode
    cases hnode

theorem directory (h : Thinned places fs fs') (hdir : fs.node? location = some .directory) :
    fs'.node? location = some .directory := by
  obtain hsame | ⟨-, -, hother⟩ := h.node location
  · rw [hsame, hdir]
  · exact absurd hdir hother

/-- What still stands and more stood there before. -/
theorem grows (h : Thinned places fs fs') : Grows fs' fs :=
  ⟨h.home.symm, fun _ _ _ hfile => ⟨_, _, h.stood hfile⟩, fun _ hdir => h.stood hdir,
    fun _ _ hlink => h.stood hlink⟩

/-- A path that leads somewhere led there before. -/
theorem resolve (h : Thinned places fs fs') (hresolve : fs'.resolve p through = .ok (.taken location node)) :
    fs.resolve p through = .ok (.taken location node) := by
  obtain ⟨node', hnode', hbefore⟩ := h.grows.resolve hresolve
  have hnode : fs'.node? location = some node := stands_of_resolve hresolve
  rw [h.stood hnode] at hnode'
  cases hnode'
  exact hbefore

/-- One more removal, of what a path led to before. -/
theorem removeFile (h : Thinned places fs fs') (hremove : fs'.removeFile p = .ok left)
    (hplace : ∀ location node, fs.resolve p false = .ok (.taken location node) → location ∈ places) :
    Thinned places fs left := by
  obtain ⟨hhome, location, node, hresolve, hfile, hleft⟩ := of_removeFile hremove
  obtain ⟨_, _, -, -, rfl⟩ := removeFile_eq_ok.mp hremove
  refine ⟨hhome.trans h.home, h.clock, fun other => ?_⟩
  rw [hleft]
  split
  · next hother =>
    subst hother
    have hmem := hplace _ _ (h.resolve hresolve)
    exact .inr ⟨rfl, hmem, fun hdir => hfile (h.directory hdir)⟩
  · exact h.node other

/-- A path that could not be removed cannot be removed later. -/
theorem not_removed (h : Thinned places fs fs') (hnot : ∀ left, fs.removeFile p ≠ .ok left) :
    ∀ left, fs'.removeFile p ≠ .ok left := by
  intro left hremove
  obtain ⟨location, node, hresolve, hnode, -⟩ := removeFile_eq_ok.mp hremove
  exact hnot _ (removeFile_eq_ok.mpr ⟨location, node, h.resolve hresolve, hnode, rfl⟩)

end Thinned

/-- What was removed cannot be removed again. -/
theorem not_removeFile_again (h : fs.removeFile p = .ok fs') : ∀ left, fs'.removeFile p ≠ .ok left := by
  intro left hremove
  obtain ⟨hhome, location, node, hresolve, -, hleft⟩ := of_removeFile h
  have hthinned : Thinned {location} fs fs' := (Thinned.refl _ fs).removeFile h fun other _ hother => by
    rw [hresolve] at hother
    cases hother
    rfl
  obtain ⟨other, node', hresolve', -⟩ := removeFile_eq_ok.mp hremove
  have hstands : fs'.node? other = some node' := stands_of_resolve hresolve'
  have hbefore := hthinned.resolve hresolve'
  rw [hresolve] at hbefore
  cases hbefore
  rw [hleft, if_pos rfl] at hstands
  cases hstands

/-! ### Links that are crossed -/

/-- Whether pieces that are followed from a directory go on at a link, which is not the end of them unless
the link there is followed. -/
inductive Crosses (fs : Files) (through : Bool) (link : Location) : Location → List String → Prop
  | stay {start : Location} {piece : String} {rest : List String} : ¬ Path.moves piece = true →
    Crosses fs through link start rest → Crosses fs through link start (piece :: rest)
  | up {start : Location} {rest : List String} :
    Crosses fs through link start.dropLast rest → Crosses fs through link start (".." :: rest)
  | enter {start : Location} {piece : String} {rest : List String} : Path.Enters piece →
    (∀ target, fs.node? (start ++ [piece]) ≠ some (.link target)) →
    Crosses fs through link (start ++ [piece]) rest → Crosses fs through link start (piece :: rest)
  | here {start : Location} {piece : String} {rest : List String} {target : Path} : Path.Enters piece →
    fs.node? (start ++ [piece]) = some (.link target) → (rest = [] → through = true) →
    start ++ [piece] = link → Crosses fs through link start (piece :: rest)
  | onward {start : Location} {piece : String} {rest : List String} {target : Path} : Path.Enters piece →
    fs.node? (start ++ [piece]) = some (.link target) → (rest = [] → through = true) →
    Crosses fs through link (if target.isAbsolute then [] else start) (target.rawPieces ++ rest) →
    Crosses fs through link start (piece :: rest)

/-- Whether a path goes on at a link before its end. -/
def CrossedBy (fs : Files) (p : Path) (link : Location) : Prop :=
  fs.Crosses false link (if p.isAbsolute then [] else fs.home) p.rawPieces

/-- A path that crosses no link which is gone leads where it led, if that still stands. -/
theorem Follows.kept (hdirs : ∀ other, fs.node? other = some .directory → fs'.node? other = some .directory)
    (hfollows : fs.Follows through links start pieces (.taken location node))
    (hlinks : ∀ link, fs.Crosses through link start pieces → fs'.node? link = fs.node? link)
    (hplace : fs'.node? location = fs.node? location) :
    fs'.Follows through links start pieces (.taken location node) := by
  generalize hplaced : Place.taken location node = place at hfollows
  induction hfollows with
  | done hnode =>
    cases hplaced
    exact .done (hplace.trans hnode)
  | stay hdir hstay _ ih =>
    exact .stay (hdirs _ hdir) hstay (ih (fun link hlink => hlinks link (.stay hstay hlink)) hplaced)
  | up hdir _ ih => exact .up (hdirs _ hdir) (ih (fun link hlink => hlinks link (.up hlink)) hplaced)
  | vacant => cases hplaced
  | @enter _ start piece rest found _ hdir henters hnode hlink hrest ih =>
    have hother : ∀ target, fs.node? (start ++ [piece]) ≠ some (.link target) := fun target hsome =>
      hlink target (Option.some.inj (hnode.symm.trans hsome))
    -- Only a directory can be entered, so that a file is where the path ends.
    have hstill : fs'.node? (start ++ [piece]) = some found := by
      cases rest with
      | nil =>
        cases hrest with
        | done =>
          cases hplaced
          exact hplace.trans hnode
      | cons => exact (hdirs _ hrest.directory).trans (hrest.directory.symm.trans hnode)
    exact .enter (hdirs _ hdir) henters hstill hlink
      (ih (fun link hcrosses => hlinks link (.enter henters hother hcrosses)) hplaced)
  | link hdir henters hnode hthrough =>
    cases hplaced
    exact .link (hdirs _ hdir) henters (hplace.trans hnode) hthrough
  | onward hdir henters hnode hlast _ ih =>
    have hstill := (hlinks _ (.here henters hnode hlast rfl)).trans hnode
    exact .onward (hdirs _ hdir) henters hstill hlast
      (ih (fun link hcrosses => hlinks link (.onward henters hnode hlast hcrosses)) hplaced)

/-- A path that led to something else than a directory cannot be removed any more only if that is gone or the
path crosses a link which is gone. -/
theorem Thinned.gone_or_crossed (h : Thinned places fs fs')
    (hresolve : fs.resolve p false = .ok (.taken location node)) (hnode : node ≠ .directory)
    (hnot : ∀ left, fs'.removeFile p ≠ .ok left) :
    fs'.node? location = none ∨
      ∃ link ∈ places, fs.CrossedBy p link ∧ fs'.node? link = none := by
  by_contra hstill
  rw [not_or] at hstill
  obtain ⟨hthere, hcrossed⟩ := hstill
  obtain ⟨htext, hfollows⟩ := resolve_eq_ok.mp hresolve
  have hplace : fs'.node? location = fs.node? location :=
    (h.node location).resolve_right fun hgone => hthere hgone.1
  have hlinks : ∀ link, fs.CrossedBy p link → fs'.node? link = fs.node? link := fun link hlink =>
    (h.node link).resolve_right fun hgone => hcrossed ⟨link, hgone.2.1, hlink, hgone.1⟩
  have hkept := hfollows.kept (fun _ => h.directory) hlinks hplace
  rw [← h.home] at hkept
  exact hnot _ (removeFile_eq_ok.mpr ⟨location, node, resolve_eq_ok.mpr ⟨htext, hkept⟩, hnode, rfl⟩)

end SourceTables.Files
