import SourceTables.Proofs.Artifact.Entry
import SourceTables.Proofs.Workspace.Batch

/-!
# `SourceTables.Proofs.Workspace.Edited`: trees in which something was put

A conversion puts directories and files into a tree, each at its location, and lets time pass. Nothing is ever
removed, the order of the locations is kept, and the clock never goes back.

Main statements: `edited_ensure`, `clock_ensureAll`.
-/

set_option autoImplicit false

namespace SourceTables

namespace Files

/-- Whether one tree came from another by what was put into it. -/
inductive Edited (fs : Files) : Files → Prop
  | refl : Edited fs fs
  | put {fs' : Files} (h : Edited fs fs') (location : Location) (node : Node) :
    Edited fs (fs'.put location node)
  | tick {fs' : Files} (h : Edited fs fs') : Edited fs fs'.tick

variable {fs fs' fs'' : Files}

namespace Edited

theorem trans (h : Edited fs fs') (h' : Edited fs' fs'') : Edited fs fs'' := by
  induction h' with
  | refl => exact h
  | put _ location node ih => exact ih.put location node
  | tick _ ih => exact ih.tick

theorem writeAt (h : Edited fs fs') (location : Location) (bytes : Bytes) :
    Edited fs (fs'.writeAt location bytes) := (h.put location _).tick

/-- The clock never goes back. -/
theorem clock (h : Edited fs fs') : fs.clock ≤ fs'.clock := by
  induction h with
  | refl => exact Nat.le_refl _
  | put _ _ _ ih => exact ih
  | tick _ ih => exact Nat.le_succ_of_le ih

/-- The locations stay in order. -/
theorem sorted (h : Edited fs fs') (hsorted : fs.nodes.Sorted) : fs'.nodes.Sorted := by
  induction h with
  | refl => exact hsorted
  | put _ location node ih => exact Keyed.sorted_insert ih location node
  | tick _ ih => exact ih

end Edited

theorem Made.edited (h : Made fs fs') : Edited fs fs' := by
  induction h with
  | refl => exact .refl
  | step _ hmake ih =>
    obtain ⟨above, name, -, -, rfl⟩ := of_makeDirectory hmake
    exact ih.put _ _

theorem edited_replace {p : Path} {bytes : Bytes} (h : fs.replace p bytes = .ok fs') : Edited fs fs' := by
  unfold replace at h
  split at h
  · cases h
  · cases h
    exact Edited.refl.writeAt _ _
  · cases h
    exact Edited.refl.writeAt _ _
  · cases h

end Files

open Files (Edited)

namespace Convert

variable {f : Format} {source : Path} {d : Destination} {fs fs' : Files}

theorem edited_prepare {p : Path} (h : Artifact.prepare fs p = .ok fs') : Edited fs fs' := by
  unfold Artifact.prepare at h
  split at h
  · cases h
  · next dir _ =>
    cases hmake : fs.makeDirectories dir with
    | error e =>
      rw [hmake] at h
      cases h
    | ok fs₁ =>
      rw [hmake] at h
      cases h
      exact (Files.made_makeDirectories hmake).edited

theorem edited_write {p : Path} {engine : Engine} {c : Artifact.Content}
    (h : Artifact.write fs p engine c = .ok fs') : Edited fs fs' := by
  unfold Artifact.write at h
  split at h
  · cases hreplace : fs.replace p (c.encode engine) with
    | error e =>
      rw [hreplace] at h
      cases h
    | ok fs₁ =>
      rw [hreplace] at h
      cases h
      exact Files.edited_replace hreplace
  · cases h

theorem edited_writeOne {table : Option String} {t : Table} {result : Except Error Produced}
    (h : writeOne f source d fs table t = (result, fs')) : Edited fs fs' := by
  unfold writeOne at h
  dsimp only at h
  split at h
  · cases h
    exact .refl
  · next fs₁ hprepare =>
    split at h
    · cases h
      exact edited_prepare hprepare
    · next fs₂ hwrite =>
      cases h
      exact (edited_prepare hprepare).trans (edited_write hwrite)

theorem edited_writeAll {named : List (Option String × Table)} {result : Except Error (List Produced)}
    (h : writeAll f source d fs named = (result, fs')) : Edited fs fs' := by
  induction named generalizing fs result with
  | nil =>
    rw [writeAll] at h
    cases h
    exact .refl
  | cons n rest ih =>
    rw [writeAll] at h
    split at h
    · next hone =>
      cases h
      exact edited_writeOne hone
    · next fs₁ hone =>
      rcases hrest : writeAll f source d fs₁ rest with ⟨later, fs₂⟩
      rw [hrest] at h
      cases h
      exact (edited_writeOne hone).trans (ih hrest)

end Convert

theorem Format.edited_convert {f : Format} {fs fs' : Files} {p : Path} {d : Destination} {o : ConvertOptions}
    {result : Except Error (List Produced)} (h : f.convert fs p d o = (result, fs')) : Edited fs fs' := by
  cases hf : f.isPassthrough with
  | true =>
    obtain rfl := files_of_isPassthrough hf h
    exact .refl
  | false =>
    obtain ⟨-, e, hfail⟩ | ⟨-, hall⟩ := @convert_cases f fs p o hf d
    · rw [hfail] at h
      cases h
      exact .refl
    · rw [hall] at h
      exact Convert.edited_writeAll h

namespace Workspace

/-- A conversion only puts something into the tree. -/
theorem edited_ensure (w : Workspace) (fs : Files) (p : Path) : Edited fs (w.ensure fs p).2.2 := by
  cases hrun : w.ensure fs p with | mk result after =>
  obtain ⟨w', fs'⟩ := after
  show Edited fs fs'
  unfold ensure at hrun
  split at hrun
  · cases hrun
    exact .refl
  · cases ensureVersion_cases hrun with
    | unsupported | current => exact .refl
    | failed _ _ _ _ _ hconvert | unrecorded _ _ _ _ _ _ hconvert => exact Format.edited_convert hconvert
    | converted _ _ _ _ _ _ hconvert => exact (Format.edited_convert hconvert).tick

theorem edited_ensureFrom (w : Workspace) (fs : Files) (runs : List SharedRun) (position : Nat)
    (ps : List Path) : Edited fs (w.ensureFrom fs runs position ps).2.2 := by
  induction ps generalizing w fs runs position with
  | nil => exact .refl
  | cons p rest ih =>
    unfold ensureFrom
    split
    · exact ih _ _ _ _
    · exact (w.edited_ensure fs p).trans (ih _ _ _ _)

/-- The clock never goes back. -/
theorem clock_ensureAll (w : Workspace) (fs : Files) (ps : List Path) :
    fs.clock ≤ (w.ensureAll fs ps).2.2.clock := (w.edited_ensureFrom fs [] 0 ps).clock

end Workspace

end SourceTables
