import Mathlib.Data.Set.Basic
import SourceTables.Proofs.Files.Directory

/-!
# `SourceTables.Proofs.Files.Agree`: trees that agree in most places

What a path leads to is found by looking at some places on the way. Two trees that agree there lead it to
the same, whatever they hold elsewhere and whatever time it is. Trees that differ only in the times of their
files have the same contents.

The theorems:

* `makeDirectories_withClock`: directories are made the same way at any time.
* `AgreesOff.trans`, `Holds.of_agreesOff`: trees that agree off some places, and a directory that stays where
  it is whatever stands there.
* `Alike.content`: contents do not depend on the times of files.
-/

set_option autoImplicit false

namespace SourceTables

namespace Files

variable {fs fs' fs'' : Files} {p : Path}

/-! ### Time -/

/-- The tree at another time. -/
def withClock (fs : Files) (clock : Nat) : Files := { fs with clock }

section

variable (fs) (clock : Nat)

@[simp] theorem node?_withClock (location : Location) :
    (fs.withClock clock).node? location = fs.node? location := rfl

/-- The clock makes no difference to where pieces lead. -/
theorem followPieces_withClock (through : Bool)
    (onward : Location → List String → Except FileError Place) (location : Location)
    (pieces : List String) : (fs.withClock clock).followPieces through onward location pieces
      = fs.followPieces through onward location pieces := by
  induction pieces generalizing location with
  | nil => rfl
  | cons piece rest ih =>
    rw [followPieces, followPieces]
    simp only [node?_withClock, ih]

theorem follow_withClock (through : Bool) (links : Nat) :
    (fs.withClock clock).follow through links = fs.follow through links := by
  induction links with
  | zero =>
    funext location pieces
    exact fs.followPieces_withClock clock through _ location pieces
  | succ links ih =>
    funext location pieces
    rw [follow, follow, ih, followPieces_withClock]

@[simp] theorem resolve_withClock (p : Path) (through : Bool) :
    (fs.withClock clock).resolve p through = fs.resolve p through := by
  have hhome : (fs.withClock clock).home = fs.home := rfl
  rw [resolve, follow_withClock, hhome, resolve]

@[simp] theorem stat_withClock (p : Path) : (fs.withClock clock).stat p = fs.stat p := by
  rw [stat, resolve_withClock, stat]

theorem makeDirectory_withClock (p : Path) :
    (fs.withClock clock).makeDirectory p = (fs.makeDirectory p).map (withClock · clock) := by
  unfold makeDirectory
  rw [resolve_withClock]
  cases fs.resolve p false with
  | error e => rfl
  | ok place => cases place <;> rfl

theorem ensureDirectory_withClock (p : Path) :
    (fs.withClock clock).ensureDirectory p = (fs.ensureDirectory p).map (withClock · clock) := by
  have hdir : (fs.withClock clock).isDirectory p = fs.isDirectory p := by
    rw [isDirectory, stat_withClock, isDirectory]
  unfold ensureDirectory
  rw [makeDirectory_withClock, hdir]
  cases fs.makeDirectory p with
  | ok made => rfl
  | error e => cases fs.isDirectory p <;> rfl

theorem makeDirectoriesUpTo_withClock (p : Path) (fuel : Nat) :
    (fs.withClock clock).makeDirectoriesUpTo p fuel
      = (fs.makeDirectoriesUpTo p fuel).map (withClock · clock) := by
  induction fuel generalizing p with
  | zero => rfl
  | succ fuel ih =>
    rw [makeDirectoriesUpTo, makeDirectoriesUpTo, ensureDirectory_withClock]
    by_cases htext : p.text = ""
    · rw [if_pos htext, if_pos htext]
      rfl
    · rw [if_neg htext, if_neg htext]
      cases fs.ensureDirectory p with
      | ok made => rfl
      | error e =>
        cases e with
        | notFound =>
          cases p.parent? with
          | none => rfl
          | some above =>
            dsimp only [Except.map]
            rw [ih]
            cases fs.makeDirectoriesUpTo above fuel with
            | error e => rfl
            | ok made => exact made.ensureDirectory_withClock clock p
        | _ => rfl

/-- Directories are made the same way at any time. -/
theorem makeDirectories_withClock (p : Path) :
    (fs.withClock clock).makeDirectories p = (fs.makeDirectories p).map (withClock · clock) :=
  fs.makeDirectoriesUpTo_withClock clock p _

end

/-! ### Places that may differ -/

/-- Whether two trees agree everywhere but in some places. -/
structure AgreesOff (spots : Set Location) (fs fs' : Files) : Prop where
  home : fs'.home = fs.home
  node : ∀ location, location ∉ spots → fs'.node? location = fs.node? location

namespace AgreesOff

variable {spots spots' : Set Location}

theorem refl (spots : Set Location) (fs : Files) : AgreesOff spots fs fs := ⟨rfl, fun _ _ => rfl⟩

theorem mono (h : AgreesOff spots fs fs') (hsub : spots ⊆ spots') : AgreesOff spots' fs fs' :=
  ⟨h.home, fun location hlocation => h.node location fun hmem => hlocation (hsub hmem)⟩

theorem trans (h : AgreesOff spots fs fs') (h' : AgreesOff spots fs' fs'') : AgreesOff spots fs fs'' :=
  ⟨h'.home.trans h.home, fun location hlocation =>
    (h'.node location hlocation).trans (h.node location hlocation)⟩

theorem withClock (h : AgreesOff spots fs fs') (clock : Nat) : AgreesOff spots fs (fs'.withClock clock) :=
  ⟨h.home, h.node⟩

/-- A tree in which a file was written agrees elsewhere. -/
theorem writeAt {location : Location} (hspot : location ∈ spots) (bytes : Bytes) :
    AgreesOff spots fs (fs.writeAt location bytes) := by
  refine ⟨rfl, fun other hother => fs.node?_writeAt_of_ne ?_ bytes⟩
  rintro rfl
  exact hother hspot

end AgreesOff

/-- Whether the path of a directory leads to a location, whatever stands in some places. -/
def Holds (fs : Files) (spots : Set Location) (dir : Path) (location : Location) : Prop :=
  ∀ fs', AgreesOff spots fs fs' → fs'.LeadsTo dir location

namespace Holds

variable {spots : Set Location} {dir : Path} {location : Location}

theorem leadsTo (h : fs.Holds spots dir location) : fs.LeadsTo dir location := h fs (.refl spots fs)

theorem of_agreesOff (h : fs.Holds spots dir location) (hagrees : AgreesOff spots fs fs') :
    fs'.Holds spots dir location := fun _ hagrees' => h _ (hagrees.trans hagrees')

end Holds

/-! ### Times of files -/

end Files

/-- What stands at a location, without the time of a file. -/
def Node.timeless : Node → Node
  | .file bytes _ => .file bytes 0
  | node => node

/-- What a path leads to, without the time of a file. -/
def Place.timeless : Place → Place
  | .taken location node => .taken location node.timeless
  | place => place

namespace Files

variable {fs fs' : Files}

/-- Whether two trees hold the same, but for the times of files. -/
structure Alike (fs fs' : Files) : Prop where
  home : fs'.home = fs.home
  node : ∀ location, (fs'.node? location).map Node.timeless = (fs.node? location).map Node.timeless

/-- What can stand at a location in two such trees. -/
inductive AlikeAt : Option Node → Option Node → Prop
  | none : AlikeAt none none
  | file (bytes : Bytes) (modified modified' : Int) :
    AlikeAt (some (.file bytes modified)) (some (.file bytes modified'))
  | directory : AlikeAt (some .directory) (some .directory)
  | link (target : Path) : AlikeAt (some (.link target)) (some (.link target))

theorem Alike.at (h : Alike fs fs') (location : Location) :
    AlikeAt (fs.node? location) (fs'.node? location) := by
  have h := h.node location
  revert h
  rcases fs.node? location with _ | (⟨_, _⟩ | _ | _) <;>
    rcases fs'.node? location with _ | (⟨_, _⟩ | _ | _) <;> intro h <;> cases h <;> constructor

/-- Pieces lead to the same in trees that are alike. -/
theorem Alike.followPieces (h : Alike fs fs') {through : Bool}
    {onward onward' : Location → List String → Except FileError Place}
    (honward : ∀ location pieces,
      (onward' location pieces).map Place.timeless = (onward location pieces).map Place.timeless)
    (location : Location) (pieces : List String) :
    (fs'.followPieces through onward' location pieces).map Place.timeless
      = (fs.followPieces through onward location pieces).map Place.timeless := by
  induction pieces generalizing location with
  | nil =>
    have hstart := h.at location
    rw [Files.followPieces, Files.followPieces]
    generalize fs.node? location = found, fs'.node? location = found' at hstart
    cases hstart <;> rfl
  | cons piece rest ih =>
    have hstart := h.at location
    generalize hfound : fs.node? location = found, hfound' : fs'.node? location = found' at hstart
    cases hstart with
    | none => rw [Files.followPieces, Files.followPieces, hfound, hfound']
    | file | link =>
      rw [Files.followPieces, Files.followPieces, hfound, hfound']
      rfl
    | directory =>
      obtain hstay | rfl | henters := Path.piece_cases piece
      · rw [followPieces_stay hfound hstay, followPieces_stay hfound' hstay, ih]
      · rw [followPieces_up hfound, followPieces_up hfound', ih]
      · have hnext := h.at (location ++ [piece])
        rw [followPieces_enter hfound henters, followPieces_enter hfound' henters]
        generalize fs.node? (location ++ [piece]) = next, fs'.node? (location ++ [piece]) = next' at hnext
        cases hnext with
        | none => rfl
        | file | directory => exact ih (location ++ [piece])
        | link target =>
          dsimp only
          split
          · rfl
          · exact honward _ _

/-- Paths lead to the same in trees that are alike. -/
theorem Alike.resolve (h : Alike fs fs') (p : Path) (through : Bool) :
    (fs'.resolve p through).map Place.timeless = (fs.resolve p through).map Place.timeless := by
  have hfollow (links : Nat) (location : Location) (pieces : List String) :
      (fs'.follow through links location pieces).map Place.timeless
        = (fs.follow through links location pieces).map Place.timeless := by
    induction links generalizing location pieces with
    | zero => exact h.followPieces (fun _ _ => rfl) location pieces
    | succ links ih => exact h.followPieces ih location pieces
  unfold Files.resolve
  split
  · rfl
  · rw [h.home]
    exact hfollow _ _ _

/-- Contents do not depend on the times of files. -/
theorem Alike.content (h : Alike fs fs') (p : Path) : fs'.content p = fs.content p := by
  have hresolve := h.resolve p true
  unfold Files.content stat
  rcases hfs : fs.resolve p true with e | (⟨location, (_ | _ | _)⟩ | _) <;>
    rcases hfs' : fs'.resolve p true with e' | (⟨location', (_ | _ | _)⟩ | _) <;>
    rw [hfs, hfs'] at hresolve <;> cases hresolve <;> rfl

end Files

end SourceTables
