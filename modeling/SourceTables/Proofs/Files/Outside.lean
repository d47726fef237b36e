import Mathlib.Data.List.Induction
import SourceTables.Catalog
import SourceTables.Command
import SourceTables.Proofs.Files.Directory
import SourceTables.Proofs.Partition.Listing

/-!
# `SourceTables.Proofs.Files.Outside`: what is found outside the directory of artifacts

Artifacts are files that could be sources, so whoever looks for sources leaves out the directory that holds
them. The paths that are met are compared with that of the directory component by component: they are made of
the root of the search and of names, and so the directory is known when its path is made in this way, too. A
hidden name below the root keeps it out however it is spelled.

The theorems:

* `Met.outside`: no path that is found tells a place in the directory.
* `Met.apart`: nor does it lead to one, if the directory is spelled from the root and no link stands below it.
* `not_artifact_of_foundAsSource`: both for everyone who looks for sources.
* `foundAsSource_of_respelled`: a directory that is spelled in another way than the root.
-/

set_option autoImplicit false

namespace SourceTables

/-! ### The places that paths tell -/

/-- Where a component leads to from a location where it meets no link. -/
def Component.step (location : Location) : Component → Location
  | .root => []
  | .current => location
  | .parent => location.dropLast
  | .name text => location ++ [text]

/-- The location that a path tells, which starts at `home` if it is relative. -/
def Path.located (p : Path) (home : Location) : Location := p.components.foldl Component.step home

/-- Whether a path is that of a directory with names after it. -/
def Path.SpelledFrom (p dir : Path) : Prop := ∃ names : List String,
  p.components = dir.components ++ names.map .name

namespace Path

variable {p dir : Path} {names : List String}

/-- Names lead down. -/
theorem foldl_step_names (names : List String) (location : Location) :
    List.foldl Component.step location (names.map .name) = location ++ names := by
  induction names generalizing location with
  | nil => rw [List.map_nil, List.foldl_nil, List.append_nil]
  | cons name rest ih =>
    rw [List.map_cons, List.foldl_cons, ih, Component.step, List.append_assoc, List.singleton_append]

theorem located_of_components (h : p.components = dir.components ++ names.map .name) (home : Location) :
    p.located home = dir.located home ++ names := by
  rw [located, h, List.foldl_append, foldl_step_names, ← located]

/-- Below a directory, the paths in another one are those that start with its names. -/
theorem startsWith_descend {skip : Path} {skipped : List String}
    (hskip : skip.components = dir.components ++ skipped.map .name) (hnames : ∀ n ∈ names, IsName n) :
    (dir.descend names).startsWith skip = true ↔ skipped <+: names := by
  rw [startsWith, List.isPrefixOf_iff_prefix, hskip, components_descend dir hnames,
    List.prefix_append_right_inj, List.prefix_map_iff_of_injective]
  exact fun _ _ => Component.name.inj

end Path

namespace Files

variable {fs : Files} {keep : Path → String → Bool} {root skip dir p : Path} {base location : Location}
  {node : Node} {name : String} {names : List String}

/-! ### What a search meets -/

/-- Whether a search below a root meets a path and does not leave it out. -/
structure Met (root skip p : Path) : Prop where
  below : ∃ names, names ≠ [] ∧ (∀ n ∈ names, Path.IsName n ∧ n.startsWith "." = false) ∧
    p = root.descend names
  kept : p.startsWith skip = false

/-- Whether a path lies below a root in such a way that a search cannot miss it: it is spelled from the root,
or a name below the root is hidden. -/
def Evident (home : Location) (root skip : Path) : Prop :=
  skip.SpelledFrom root ∨
    ∃ names, skip.located home = root.located home ++ names ∧ ∃ n ∈ names, n.startsWith "." = true

/-- The directory of artifacts that is not configured is evident from the directory of the ledger. -/
theorem evident_artifactDirFor {c : Config} (h : c.artifactDir = none) (home : Location) (dir : Path) :
    Evident home dir (c.artifactDirFor dir) := by
  refine .inl ⟨[".filetable", "artifacts"], ?_⟩
  rw [Config.artifactDirFor, h, Option.getD_none, Path.components_join_path dir (by decide) (by decide)]
  rfl

/-- No path that is met tells a place in a directory that is evident. -/
theorem Met.outside {home : Location} (h : Met root skip p) (hevident : Evident home root skip) :
    ¬ skip.located home <+: p.located home := by
  obtain ⟨names, -, hnames, rfl⟩ := h.below
  have hnamed : ∀ n ∈ names, Path.IsName n := fun n hn => (hnames n hn).1
  rw [Path.located_of_components (Path.components_descend root hnamed)]
  obtain ⟨skipped, hskip⟩ | ⟨skipped, hskip, n, hn, hhidden⟩ := hevident
  · rw [Path.located_of_components hskip, List.prefix_append_right_inj]
    intro hbegins
    have hstarts := (Path.startsWith_descend hskip hnamed).mpr hbegins
    rw [h.kept] at hstarts
    cases hstarts
  · rw [hskip, List.prefix_append_right_inj]
    intro hbegins
    have hvisible := (hnames n (hbegins.subset hn)).2
    rw [hhidden] at hvisible
    cases hvisible

/-! ### Places without links -/

/-- A directory stands where each path with its components leads. -/
theorem leadsTo_of_stat (hsame : p.components = dir.components) (h : fs.stat p = .ok (location, .directory)) :
    fs.LeadsTo dir location := by
  have hmoves : dir.above.filter Path.moves = p.rawPieces.filter Path.moves := by
    rw [filter_above, Path.filter_rawPieces, Path.filter_rawPieces, hsame]
  have habsolute : dir.isAbsolute = p.isAbsolute := by
    rw [Path.isAbsolute_eq, Path.isAbsolute_eq, hsame]
  obtain ⟨-, hfollows⟩ := resolve_eq_ok.mp (stat_eq_ok.mp h)
  rw [LeadsTo, habsolute, follow_eq_ok]
  exact hfollows.respell hmoves

/-- A name that is no link leads to its place in the directory. -/
theorem location_of_child (hname : Path.IsName name) (hdir : ∀ found, fs.LeadsTo dir found → found = base)
    (hlink : ∀ target, fs.node? (base ++ [name]) ≠ some (.link target))
    (h : fs.Follows true linkLimit (if dir.isAbsolute then [] else fs.home) (dir.above ++ [name])
      (.taken location node)) : location = base ++ [name] := by
  obtain ⟨found, _, hfound, hlast⟩ := h.of_append hname.enters
  obtain rfl := hdir found (follow_eq_ok.mpr hfound)
  obtain ⟨-, hvacant⟩ | ⟨_, -, -, hdone⟩ | ⟨target, _, htarget, -⟩ :=
    hlast.of_enters hname.enters
  · cases hvacant
  · cases hdone
    rfl
  · exact absurd htarget (hlink target)

/-- The path of names with one more. -/
theorem descend_concat (dir : Path) (names : List String) (name : String) :
    dir.descend (names ++ [name]) = (dir.descend names).join ⟨name⟩ := by
  rw [Path.descend, List.foldl_concat]
  rfl

/-- Where no links are, names lead to their place. -/
theorem location_of_leadsTo (hbase : ∀ found, fs.LeadsTo root found → found = base)
    (hlinks : ∀ below target, fs.node? (base ++ below) ≠ some (.link target))
    (hnames : ∀ n ∈ names, Path.IsName n) (h : fs.LeadsTo (root.descend names) location) :
    location = base ++ names := by
  induction names using List.reverseRecOn generalizing location with
  | nil => rw [List.append_nil, hbase location h]
  | append_singleton names name ih =>
    have hname := hnames name (by simp)
    rw [descend_concat, LeadsTo, Path.above_join _ hname, Path.isAbsolute_join _ hname, follow_eq_ok] at h
    have hlink : ∀ target, fs.node? ((base ++ names) ++ [name]) ≠ some (.link target) := fun target => by
      rw [List.append_assoc]
      exact hlinks _ target
    rw [location_of_child hname (fun _ => ih fun n hn => hnames n (List.mem_append_left _ hn)) hlink h,
      List.append_assoc]

/-- Where no links are, what stands where names lead stands at their place. -/
theorem location_of_stat (hbase : ∀ found, fs.LeadsTo root found → found = base)
    (hlinks : ∀ below target, fs.node? (base ++ below) ≠ some (.link target)) (hne : names ≠ [])
    (hnames : ∀ n ∈ names, Path.IsName n) (h : fs.stat (root.descend names) = .ok (location, node)) :
    location = base ++ names := by
  obtain ⟨names, name, rfl⟩ := (List.eq_nil_or_concat' names).resolve_left hne
  have hname := hnames name (by simp)
  obtain ⟨-, hfollows⟩ := resolve_eq_ok.mp (stat_eq_ok.mp h)
  rw [descend_concat, Path.rawPieces_join _ hname, Path.isAbsolute_join _ hname] at hfollows
  have hlink : ∀ target, fs.node? ((base ++ names) ++ [name]) ≠ some (.link target) := fun target => by
    rw [List.append_assoc]
    exact hlinks _ target
  have hdir : ∀ found, fs.LeadsTo (root.descend names) found → found = base ++ names := fun _ =>
    location_of_leadsTo hbase hlinks fun n hn => hnames n (List.mem_append_left _ hn)
  rw [location_of_child hname hdir hlink hfollows, List.append_assoc]

/-- No path that is met leads into a directory that is spelled from the root, if no links are below the
root. -/
theorem Met.apart {inside : Location} (h : Met root skip p) (hskip : skip.SpelledFrom root)
    (hbase : fs.stat root = .ok (base, .directory))
    (hlinks : ∀ below target, fs.node? (base ++ below) ≠ some (.link target))
    (hinside : fs.stat skip = .ok (inside, .directory)) (hp : fs.stat p = .ok (location, node)) :
    ¬ inside <+: location := by
  obtain ⟨names, hne, hnames, rfl⟩ := h.below
  obtain ⟨skipped, hskip⟩ := hskip
  have hnamed : ∀ n ∈ names, Path.IsName n := fun n hn => (hnames n hn).1
  have hskipped : ∀ n ∈ skipped, Path.IsName n := fun n hn =>
    Path.isName_of_mem (hskip ▸ List.mem_append_right _ (List.mem_map_of_mem hn))
  have hroot : ∀ found, fs.LeadsTo root found → found = base := fun _ =>
    LeadsTo.unique (.refl [] fs) (leadsTo_of_stat rfl hbase)
  have hdir : fs.LeadsTo (root.descend skipped) inside :=
    leadsTo_of_stat (hskip.trans (Path.components_descend root hskipped).symm) hinside
  rw [location_of_leadsTo hroot hlinks hskipped hdir, location_of_stat hroot hlinks hne hnamed hp,
    List.prefix_append_right_inj]
  intro hbegins
  have hstarts := (Path.startsWith_descend hskip hnamed).mpr hbegins
  rw [h.kept] at hstarts
  cases hstarts

/-! ### Those who look for sources -/

/-- The paths that are found when sources are looked for below a root and a directory is to be left out. -/
inductive FoundAsSource (fs : Files) (root skip : Path) : Path → Prop
  /-- The files of a table whose root it is. -/
  | detected {d : Detection} {layout : Layout} {p : Path} : skip ∈ d.skipped →
    d.detect fs root = .ok layout → p ∈ layout.files → FoundAsSource fs root skip p
  /-- The files and tables of a catalog. -/
  | listed {list : DirectoryList} {p : Path} : fs.list root skip = .ok list →
    p ∈ list.files ∨ p ∈ list.directories → FoundAsSource fs root skip p
  /-- The files that a command converts. -/
  | walked {found : List Path} {p : Path} : Command.sources fs root skip = .ok found → p ∈ found →
    FoundAsSource fs root skip p

/-- A walk meets what it finds, if it leaves out hidden names and the directory. -/
theorem met_of_below {found : List Found} (hfound : Below keep root found)
    (hvisible : ∀ p n, keep p n = true → n.startsWith "." = false)
    (hkept : ∀ p n, keep p n = true → p.startsWith skip = false) {f : Found} (hf : f ∈ found) :
    Met root skip f.path := by
  obtain ⟨names, hne, hnames, hkeep, hpath⟩ := hfound.named f hf
  have hall {dir : Path} {names : List String} (h : Kept keep dir names) :
      ∀ n ∈ names, n.startsWith "." = false := by
    induction names generalizing dir with
    | nil => nofun
    | cons name rest ih => exact List.forall_mem_cons.mpr ⟨hvisible _ _ h.1, ih h.2⟩
  have hlast {dir : Path} {names : List String} (hne : names ≠ []) (h : Kept keep dir names) :
      (dir.descend names).startsWith skip = false := by
    induction names generalizing dir with
    | nil => exact absurd rfl hne
    | cons name rest ih =>
      cases rest with
      | nil => exact hkept _ _ h.1
      | cons next rest => exact ih (List.cons_ne_nil _ _) h.2
  exact ⟨⟨names, hne, fun n hn => ⟨hnames n hn, hall hkeep n hn⟩, hpath⟩, hpath ▸ hlast hne hkeep⟩

/-- A name that is not hidden does not start with a dot. -/
theorem startsWith_dot_of_visible (h : isHiddenName name = false) : name.startsWith "." = false := by
  rw [Bool.eq_false_iff]
  intro hdot
  obtain ⟨rest, hrest⟩ := String.startsWith_string_iff.mp hdot
  have hlist : name.toList = '.' :: rest := hrest.symm
  rw [isHiddenName, hlist] at h
  cases h

/-- Whoever looks for sources meets what is found. -/
theorem met_of_foundAsSource (hnamed : fs.WellNamed) (h : FoundAsSource fs root skip p) :
    Met root skip p := by
  cases h with
  | @detected d layout _ hskip hdetect hp =>
    obtain ⟨entries, hlisting, hcovers, -⟩ := Detection.of_detect hnamed hdetect
    obtain ⟨found, hwalk, rfl⟩ := Detection.listing_eq_ok.mp hlisting
    have hbelow := below_of_walk hnamed hwalk
    obtain ⟨rel, hrel, rfl⟩ := List.mem_map.mp (hcovers.files.subset hp)
    obtain ⟨f, hf, hpath⟩ := Detection.exists_of_mem_found hbelow hrel
    rw [hpath]
    refine met_of_below hbelow (fun p n hkeep => ?_) (fun p n hkeep => ?_) hf
    · exact startsWith_dot_of_visible ((Bool.not_eq_true' _).mp (Bool.and_eq_true_iff.mp hkeep).1)
    · have hnone := (Bool.not_eq_true' _).mp (Bool.and_eq_true_iff.mp hkeep).2
      exact Bool.eq_false_iff.mpr (List.any_eq_false.mp hnone skip hskip)
  | @listed list _ hlist hp =>
    obtain ⟨present, hpresent, hlist⟩ := Outcome.bind_eq_ok.mp hlist
    cases hlist
    have hp : p ∈ Path.sort ((((present.filter fun name => !isHiddenName name)).map root.child).filter
        fun p => !p.startsWith skip) := hp.elim List.mem_of_mem_filter List.mem_of_mem_filter
    obtain ⟨hp, hkept⟩ := List.mem_filter.mp ((Path.sort_perm _).subset hp)
    obtain ⟨name, hname, rfl⟩ := List.mem_map.mp hp
    obtain ⟨hname, hvisible⟩ := List.mem_filter.mp hname
    have hvisible := startsWith_dot_of_visible ((Bool.not_eq_true' _).mp hvisible)
    have hisName : Path.IsName name := by
      unfold names at hpresent
      split at hpresent
      · cases hpresent
        exact hnamed.isName_of_mem hname
      · cases hpresent
      · cases hpresent
    refine ⟨⟨[name], List.cons_ne_nil _ _, fun n hn => ?_, rfl⟩, (Bool.not_eq_true' _).mp hkept⟩
    rw [List.mem_singleton.mp hn]
    exact ⟨hisName, hvisible⟩
  | @walked found _ hsources hp =>
    obtain ⟨present, hwalk, hfound⟩ := Outcome.bind_eq_ok.mp hsources
    cases hfound
    obtain ⟨f, hf, rfl⟩ := List.mem_map.mp hp
    refine met_of_below (below_of_walk hnamed hwalk) (fun p n hkeep => ?_) (fun p n hkeep => ?_)
      (List.mem_of_mem_filter hf)
    · exact (Bool.not_eq_true' _).mp (Bool.and_eq_true_iff.mp hkeep).1
    · exact (Bool.not_eq_true' _).mp (Bool.and_eq_true_iff.mp hkeep).2

/-- Whoever looks for sources finds no artifact, if the directory of artifacts is evident from the root: no
path that is found tells a place in the directory, nor does it lead to one if the directory is spelled from
the root and no link stands below the root. -/
theorem not_artifact_of_foundAsSource (hnamed : fs.WellNamed) (h : FoundAsSource fs root skip p)
    (hevident : Evident fs.home root skip) :
    ¬ skip.located fs.home <+: p.located fs.home ∧
      (skip.SpelledFrom root → ∀ base, fs.stat root = .ok (base, .directory) →
        (∀ below target, fs.node? (base ++ below) ≠ some (.link target)) →
          ∀ inside location node, fs.stat skip = .ok (inside, .directory) →
            fs.stat p = .ok (location, node) → ¬ inside <+: location) :=
  have hmet := met_of_foundAsSource hnamed h
  ⟨hmet.outside hevident, fun hskip _ hbase hlinks _ _ _ hinside hp =>
    hmet.apart hskip hbase hlinks hinside hp⟩

/-! ### Directories that are evident, and others -/

/-- An artifact in `d/out`, with something else in `d`. -/
def artifactWith (name : String) (node : Node) : Files where
  nodes := ⟨[(["d"], .directory), (["d", name], node), (["d", "out"], .directory),
    (["d", "out", "x.parquet"], .file [] 1)]⟩
  home := []
  clock := 2

/-- A source beside the artifact is found alone when the directory is spelled as it is met. -/
theorem not_artifact_source :
    FoundAsSource (artifactWith "a.json" (.file [] 1)) ⟨"d"⟩ ⟨"d/out"⟩ ⟨"d/a.json"⟩ ∧
      ¬ (⟨"d/out"⟩ : Path).located [] <+: (⟨"d/a.json"⟩ : Path).located [] ∧
      ¬ ["d", "out"] <+: ["d", "a.json"] := by
  have hnamed : (artifactWith "a.json" (.file [] 1)).WellNamed := by decide +kernel
  have hsources : Command.sources (artifactWith "a.json" (.file [] 1)) ⟨"d"⟩ ⟨"d/out"⟩
      = .ok [⟨"d/a.json"⟩] := by decide +kernel
  have hspelled : (⟨"d/out"⟩ : Path).SpelledFrom ⟨"d"⟩ := ⟨["out"], by decide⟩
  have hlinks : ∀ below target,
      (artifactWith "a.json" (.file [] 1)).node? (["d"] ++ below) ≠ some (.link target) := by
    intro below target h
    rw [node?, if_neg (by simp)] at h
    have hmem := Keyed.mem_of_get? h
    simp [artifactWith] at hmem
  have hfound : FoundAsSource (artifactWith "a.json" (.file [] 1)) ⟨"d"⟩ ⟨"d/out"⟩ ⟨"d/a.json"⟩ :=
    .walked hsources (.head _)
  obtain ⟨htext, hplace⟩ := not_artifact_of_foundAsSource hnamed hfound (.inl hspelled)
  exact ⟨hfound, htext, hplace hspelled ["d"] rfl hlinks ["d", "out"] ["d", "a.json"] _ rfl rfl⟩

/-- Whoever looks for sources finds the artifact, or the directory that holds it, when the directory is
spelled with a dot in front. -/
theorem foundAsSource_of_respelled :
    (⟨"./d/out"⟩ : Path).located [] = (⟨"d/out"⟩ : Path).located [] ∧
      (Detection.detect ⟨8, [⟨"./d/out"⟩], fun p => p.extension? == some "parquet"⟩
        (artifactWith "a.json" (.file [] 1)) ⟨"d"⟩).toOption.map Layout.files
          = some [⟨"d/out/x.parquet"⟩] ∧
      ((artifactWith ".a" .directory).list ⟨"d"⟩ ⟨"./d/out"⟩).toOption.map
        DirectoryList.directories = some [⟨"d/out"⟩] ∧
      Command.sources (artifactWith "a.json" (.file [] 1)) ⟨"d"⟩ ⟨"./d/out"⟩
        = .ok [⟨"d/a.json"⟩, ⟨"d/out/x.parquet"⟩] := by
  refine ⟨by decide, ?_, ?_, ?_⟩ <;> decide +kernel

/-- They find it through a link as well, however the directory is spelled. -/
theorem foundAsSource_of_link :
    Command.sources (artifactWith "l" (.link ⟨"out"⟩)) ⟨"d"⟩ ⟨"d/out"⟩ = .ok [⟨"d/l/x.parquet"⟩] ∧
      (artifactWith "l" (.link ⟨"out"⟩)).stat ⟨"d/l/x.parquet"⟩
        = .ok (["d", "out", "x.parquet"], .file [] 1) := by
  refine ⟨?_, ?_⟩ <;> decide +kernel

end Files

end SourceTables
