import Mathlib.Data.List.Nodup
import SourceTables.Files.Walk
import SourceTables.Proofs.Outcome
import SourceTables.Proofs.Path.Below

/-!
# `SourceTables.Proofs.Files.Walk`: a walk finds each entry once

The entries below one name in a directory have that name next in their paths, so that what is found
below different names is different. The directory that a name leads to is found before what it holds,
whose paths are longer.

Main statement: `below_of_walk` (a walk finds entries below its root, no two of them at the same path).
-/

set_option autoImplicit false

namespace SourceTables.Files

/-- Whether a tree has names for its entries, and each entry once. -/
structure WellNamed (fs : Files) : Prop where
  names : ∀ location ∈ fs.nodes.keys, ∀ name ∈ location, Path.IsName name
  nodup : fs.nodes.keys.Nodup

instance (fs : Files) : Decidable fs.WellNamed :=
  decidable_of_iff ((∀ location ∈ fs.nodes.keys, ∀ name ∈ location, Path.IsName name) ∧ fs.nodes.keys.Nodup)
    ⟨fun ⟨h, h₁⟩ => ⟨h, h₁⟩, fun ⟨h, h₁⟩ => ⟨h, h₁⟩⟩

section

variable {fs : Files} {location : Location} {name : String}

/-- The names in a directory are those after its location. -/
theorem mem_namesAt : name ∈ fs.namesAt location ↔ location ++ [name] ∈ fs.nodes.keys := by
  unfold namesAt
  rw [List.mem_filterMap]
  constructor
  · rintro ⟨key, hkey, h⟩
    obtain ⟨⟨-, hlocation⟩, hlast⟩ := Option.ite_none_right_eq_some.mp h
    rw [← hlocation, List.dropLast_append_getLast? name hlast]
    exact hkey
  · intro h
    exact ⟨_, h, by simp⟩

/-- The names in a directory are different. -/
theorem WellNamed.nodup_namesAt (h : fs.WellNamed) (location : Location) :
    (fs.namesAt location).Nodup := by
  refine h.nodup.filterMap fun key key' name hname hname' => ?_
  obtain ⟨⟨-, hlocation⟩, hlast⟩ := Option.ite_none_right_eq_some.mp hname
  obtain ⟨⟨-, hlocation'⟩, hlast'⟩ := Option.ite_none_right_eq_some.mp hname'
  rw [← List.dropLast_append_getLast? name hlast, ← List.dropLast_append_getLast? name hlast', hlocation,
    hlocation']

theorem WellNamed.isName_of_mem (h : fs.WellNamed) (hname : name ∈ fs.namesAt location) :
    Path.IsName name :=
  h.names _ (mem_namesAt.mp hname) name (List.mem_append_right _ (.head _))

end

/-! ### What is found -/

/-- Whether a walk goes on at each of the names that lead to an entry. -/
def Kept (keep : Path → String → Bool) : Path → List String → Prop
  | _, [] => True
  | dir, name :: rest => keep (dir.child name) name = true ∧ Kept keep (dir.child name) rest

/-- Whether entries lie below a directory, each at a path of its own where a walk goes on. -/
structure Below (keep : Path → String → Bool) (dir : Path) (found : List Found) : Prop where
  named : ∀ f ∈ found, ∃ names, names ≠ [] ∧ (∀ n ∈ names, Path.IsName n) ∧ Kept keep dir names ∧
    f.path = dir.descend names
  nodup : (found.map fun f => f.path.components).Nodup

/-- Whether entries have a name in a directory or lie below it, each at a path of its own. -/
structure Under (keep : Path → String → Bool) (dir : Path) (name : String) (found : List Found) : Prop where
  named : ∀ f ∈ found, ∃ names, (∀ n ∈ name :: names, Path.IsName n) ∧ Kept keep dir (name :: names) ∧
    f.path = dir.descend (name :: names)
  nodup : (found.map fun f => f.path.components).Nodup

section

variable {keep : Path → String → Bool} {dir : Path} {name : String} {found : List Found}

theorem under_nil (dir : Path) (name : String) : Under keep dir name [] := ⟨nofun, List.nodup_nil⟩

/-- What has the name alone. -/
theorem under_singleton (hname : Path.IsName name) (hkeep : keep (dir.child name) name = true)
    (isDirectory : Bool) : Under keep dir name [⟨dir.child name, isDirectory⟩] := by
  refine ⟨fun f hf => ⟨[], fun n hn => ?_, ⟨hkeep, trivial⟩, ?_⟩, List.nodup_singleton _⟩
  · rw [List.mem_singleton.mp hn]
    exact hname
  · rw [List.mem_singleton.mp hf]
    rfl

/-- A directory with what lies below it. -/
theorem Below.under (hname : Path.IsName name) (hkeep : keep (dir.child name) name = true)
    (h : Below keep (dir.child name) found) (isDirectory : Bool) :
    Under keep dir name (⟨dir.child name, isDirectory⟩ :: found) := by
  have hfirst : Under keep dir name [⟨dir.child name, isDirectory⟩] :=
    under_singleton hname hkeep isDirectory
  refine ⟨fun f hf => ?_, List.nodup_cons.mpr ⟨fun hmem => ?_, h.nodup⟩⟩
  · obtain rfl | hf := List.mem_cons.mp hf
    · exact hfirst.named _ (.head _)
    · obtain ⟨names, -, hnames, hkept, hpath⟩ := h.named f hf
      exact ⟨names, fun n hn => (List.mem_cons.mp hn).elim (fun heq => heq ▸ hname) (hnames n),
        ⟨hkeep, hkept⟩, hpath⟩
  · -- The paths below the directory have more components.
    obtain ⟨f, hf, heq⟩ := List.mem_map.mp hmem
    obtain ⟨names, hne, hnames, -, hpath⟩ := h.named f hf
    rw [hpath, Path.components_descend _ hnames] at heq
    exact hne (List.map_eq_nil_iff.mp (List.append_right_eq_self.mp heq))

/-- What lies in some part has the name of that part next in its path. -/
theorem exists_of_mem_flatten {names : List String} {parts : List (List Found)}
    (h : List.Forall₂ (Under keep dir) names parts) {f : Found} (hf : f ∈ parts.flatten) :
    ∃ name ∈ names, ∃ rest, (∀ n ∈ name :: rest, Path.IsName n) ∧ Kept keep dir (name :: rest) ∧
      f.path = dir.descend (name :: rest) := by
  induction h with
  | nil => cases hf
  | cons hfirst _ ih =>
    obtain hf | hf := List.mem_append.mp hf
    · obtain ⟨rest, hrest⟩ := hfirst.named f hf
      exact ⟨_, .head _, rest, hrest⟩
    · obtain ⟨name, hname, hrest⟩ := ih hf
      exact ⟨name, .tail _ hname, hrest⟩

/-- The parts below different names make up what lies below the directory. -/
theorem below_flatten {names : List String} {parts : List (List Found)} (hnodup : names.Nodup)
    (h : List.Forall₂ (Under keep dir) names parts) : Below keep dir parts.flatten := by
  refine ⟨fun f hf => ?_, ?_⟩
  · obtain ⟨name, -, rest, hrest⟩ := exists_of_mem_flatten h hf
    exact ⟨_, List.cons_ne_nil _ _, hrest⟩
  · induction h with
    | nil => exact List.nodup_nil
    | cons hfirst hrest ih =>
      obtain ⟨hnew, hnodup⟩ := List.nodup_cons.mp hnodup
      rw [List.flatten_cons, List.map_append]
      refine hfirst.nodup.append (ih hnodup) fun cs hcs hcs' => ?_
      obtain ⟨f, hf, rfl⟩ := List.mem_map.mp hcs
      obtain ⟨f', hf', heq⟩ := List.mem_map.mp hcs'
      obtain ⟨names, hnames, -, hpath⟩ := hfirst.named f hf
      obtain ⟨name', hname', names', hnames', -, hpath'⟩ := exists_of_mem_flatten hrest hf'
      rw [hpath, hpath', Path.components_descend _ hnames, Path.components_descend _ hnames'] at heq
      -- The name after the directory tells the parts apart.
      obtain ⟨hcomponent, -⟩ := List.cons.inj (List.append_cancel_left heq)
      exact hnew (Component.name.inj hcomponent ▸ hname')

end

/-! ### Walks -/

variable {fs : Files} {keep : Path → String → Bool} {found : List Found}

/-- The entries below a directory that a walk is in. -/
theorem below_of_walkBelow (hnamed : fs.WellNamed) {here : Level} {above : List Level} {fuel : Nat}
    (h : fs.walkBelow keep here above fuel = .ok found) : Below keep here.path found := by
  induction fuel generalizing here above found with
  | zero => cases h
  | succ fuel ih =>
    unfold walkBelow at h
    obtain ⟨parts, hparts, h⟩ := Outcome.bind_eq_ok.mp h
    cases h
    refine below_flatten (hnamed.nodup_namesAt here.location) ?_
    refine (List.forall₂_and_left _ _ |>.mpr ⟨fun name => hnamed.isName_of_mem,
      Outcome.mapM_eq_ok.mp hparts⟩).imp fun name part ⟨hname, hvisit⟩ => ?_
    dsimp only at hvisit
    split at hvisit
    · cases hvisit
    · cases hvisit
    · next target _ =>
      split at hvisit
      · cases hvisit
      · split at hvisit
        · next hkeep =>
          obtain ⟨rest, hrest, hvisit⟩ := Outcome.bind_eq_ok.mp hvisit
          cases hvisit
          exact (ih hrest).under hname hkeep true
        · cases hvisit
          exact under_nil _ _
    · split at hvisit
      · next hkeep =>
        cases hvisit
        exact under_singleton hname hkeep false
      · cases hvisit
        exact under_nil _ _
    · cases hvisit
      exact under_nil _ _

/-- A walk finds entries below its root where it goes on, no two of them at the same path. -/
theorem below_of_walk (hnamed : fs.WellNamed) {root : Path} (h : fs.walk root keep = .ok found) :
    Below keep root found := by
  unfold walk at h
  split at h
  · cases h
  · exact below_of_walkBelow hnamed h
  · cases h
    exact ⟨nofun, List.nodup_nil⟩

end SourceTables.Files
