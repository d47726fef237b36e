import Mathlib.Data.List.Infix
import SourceTables.Proofs.Partition.Cover

/-!
# `SourceTables.Proofs.Partition.Relisted`: listings that tell the same files

A walk may tell the entries of a tree in any order, and may tell a directory beside the files below it
or leave it out. What a listing tells of the layout is which files count and which directories without
files there are. A directory above a file that counts tells nothing: its chain is the beginning of the
file's. If it is shorter, the directory lies above partitions; if it is as long and the directory is
nothing but its chain, it is the place of the file, where there is a partition already; and otherwise
the directory has no chain of its own.

The theorems:

* `IsChain.components_eq_place`: a directory above a file, with a chain as long as the file's, is the
  place of the file.
* `Relisted.consistent_iff`: the listings have a layout together.
* `Relisted.contains_iff`: groups are found at the same places.
* `Relisted.agrees`: the layouts agree.
* `detectListing_of_perm`: so detection depends neither on the order of a listing nor on the directories
  that it tells above files.
-/

set_option autoImplicit false

namespace SourceTables

/-- Whether two layouts have the same root and keys, and partitions that agree, in the same order. -/
structure Layout.Agrees (l l' : Layout) : Prop where
  root : l'.root = l.root
  keys : l'.keys = l.keys
  partitions : List.Forall₂ Partition.Agrees l.partitions l'.partitions

/-- The run that a list of components starts with begins with that of its first ones. -/
theorem leadingRun_isPrefix {cs ds : List Component} (h : cs <+: ds) :
    leadingRun cs <+: leadingRun ds := by
  obtain ⟨rest, rfl⟩ := h
  induction cs with
  | nil => exact List.nil_prefix
  | cons c cs ih =>
    rw [List.cons_append]
    unfold leadingRun
    split
    · exact (List.prefix_cons_inj _).mpr ih
    · exact List.nil_prefix

namespace Detection

variable {d : Detection} {root : Path} {entries entries' extra : List Entry}

/-! ### Directories above files -/

/-- Whether an entry is a directory above a file that counts, at any height. -/
def LiesAbove (d : Detection) (root : Path) (entries : List Entry) : Entry → Prop
  | .file _ => False
  | .directory dir => ∃ rel ∈ d.found root entries, (above rel).startsWith dir = true

instance : DecidablePred (d.LiesAbove root entries)
  | .file _ => instDecidableFalse
  | .directory dir =>
    inferInstanceAs (Decidable (∃ rel ∈ d.found root entries, (above rel).startsWith dir = true))

/-- The keys of a directory above a file begin the file's. -/
theorem keys_isPrefix {rel dir : Path} (h : (above rel).startsWith dir = true) :
    (d.chain dir).keys <+: (d.chain (above rel)).keys := by
  have hrun := leadingRun_isPrefix (List.isPrefixOf_iff_prefix.mp h)
  exact List.IsPrefix.map KeyValue.key (List.IsPrefix.take hrun d.maxDepth)

/-- A directory above a file, with a chain as long as the file's, is the place of the file. -/
theorem IsChain.components_eq_place {rel dir : Path} (hdir : d.IsChain dir)
    (habove : (above rel).startsWith dir = true)
    (hlength : (d.chain dir).length = (d.chain (above rel)).length) : dir.components = d.place rel := by
  have hchain : (d.chain dir).length = dir.components.length := hdir
  rw [place, ← hlength, hchain]
  exact List.prefix_iff_eq_take.mp (List.isPrefixOf_iff_prefix.mp habove)

/-! ### Listings that tell the same -/

/-- Whether a second listing tells the same files, and no more directories than those of the first one
and some above files. -/
structure Relisted (d : Detection) (root : Path) (entries entries' : List Entry) : Prop where
  found : (d.found root entries').Perm (d.found root entries)
  kept : ∀ dir, .directory dir ∈ entries → .directory dir ∈ entries'
  new : ∀ dir, .directory dir ∈ entries' →
    .directory dir ∈ entries ∨ d.LiesAbove root entries (.directory dir)

/-- A listing in another order, with some directories above files. -/
theorem relisted_of_perm (hextra : ∀ entry ∈ extra, d.LiesAbove root entries entry)
    (hperm : entries'.Perm (entries ++ extra)) : d.Relisted root entries entries' := by
  refine ⟨?_, fun dir hdir => hperm.mem_iff.mpr (List.mem_append_left _ hdir), fun dir hdir => ?_⟩
  · have hnone : d.found root extra = [] := by
      refine List.filterMap_eq_nil_iff.mpr fun entry hentry => ?_
      cases entry with
      | file rel => exact (hextra _ hentry).elim
      | directory dir => rfl
    have happend : d.found root (entries ++ extra) = d.found root entries := by
      rw [← List.append_nil (d.found root entries), ← hnone]
      exact List.filterMap_append
    rw [← happend]
    exact hperm.filterMap _
  · obtain hdir | hdir := List.mem_append.mp (hperm.mem_iff.mp hdir)
    · exact .inl hdir
    · exact .inr (hextra _ hdir)

namespace Relisted

variable (h : d.Relisted root entries entries')
include h

/-- The same files count. -/
theorem mem_found_iff {rel : Path} : rel ∈ d.found root entries' ↔ rel ∈ d.found root entries :=
  h.found.mem_iff

/-- The listings have a layout together. -/
theorem consistent_iff : d.Consistent root entries ↔ d.Consistent root entries' := by
  constructor
  · rintro ⟨hdistinct, hagree, hnested⟩
    refine ⟨fun entry hentry hcounts => ?_, fun rel hrel rel' hrel' => ?_,
      fun rel hrel hne dir hdir hcounts hchain => ?_⟩
    · cases entry with
      | file rel =>
        have hrel := h.mem_found_iff.mp (mem_found.mpr ⟨hentry, hcounts⟩)
        exact hdistinct _ (mem_found.mp hrel).1 hcounts
      | directory dir =>
        obtain hold | ⟨rel, hrel, habove⟩ := h.new dir hentry
        · exact hdistinct _ hold hcounts
        · obtain ⟨hfile, hfileCounts⟩ := mem_found.mp hrel
          have hnodup : (d.chain (above rel)).keys.Nodup := hdistinct (.file rel) hfile hfileCounts
          exact (keys_isPrefix habove).sublist.nodup hnodup
    · exact hagree rel (h.mem_found_iff.mp hrel) rel' (h.mem_found_iff.mp hrel')
    · have hrel := h.mem_found_iff.mp hrel
      obtain hold | ⟨rel', hrel', habove⟩ := h.new dir hdir
      · exact hnested rel hrel hne dir hold hcounts hchain
      · rw [hagree rel hrel rel' hrel']
        exact keys_isPrefix habove
  · rintro ⟨hdistinct, hagree, hnested⟩
    refine ⟨fun entry hentry hcounts => ?_, fun rel hrel rel' hrel' => ?_,
      fun rel hrel hne dir hdir hcounts hchain => ?_⟩
    · cases entry with
      | file rel =>
        have hrel := h.mem_found_iff.mpr (mem_found.mpr ⟨hentry, hcounts⟩)
        exact hdistinct _ (mem_found.mp hrel).1 hcounts
      | directory dir => exact hdistinct _ (h.kept dir hentry) hcounts
    · exact hagree rel (h.mem_found_iff.mpr hrel) rel' (h.mem_found_iff.mpr hrel')
    · exact hnested rel (h.mem_found_iff.mpr hrel) hne dir (h.kept dir hdir) hcounts hchain

/-- The files of a place are the same, in some order. -/
theorem filesAt_perm (cs : List Component) :
    (d.filesAt root entries' cs).Perm (d.filesAt root entries cs) :=
  (h.found.filter _).map _

/-- The expected keys are the same. -/
theorem expectedKeys_eq {g g' : Gathered} (hg : Gathers d root entries g)
    (hg' : Gathers d root entries' g')
    (hkeys : ∀ group ∈ g.groups.values, group.chain.keys = expectedKeys g.groups)
    (hkeys' : ∀ group ∈ g'.groups.values, group.chain.keys = expectedKeys g'.groups) :
    expectedKeys g'.groups = expectedKeys g.groups := by
  have hfile {rel : Path} (hrel : rel ∈ d.found root entries) :
      expectedKeys g'.groups = expectedKeys g.groups := by
    rw [← hg.keys_iff.2 hkeys rel hrel]
    exact (hg'.keys_iff.2 hkeys' rel (h.mem_found_iff.mpr hrel)).symm
  obtain ⟨-, hnone⟩ | ⟨first, hfirst, -⟩ := expectedKeys_cases g.groups
  · obtain ⟨-, hnone'⟩ | ⟨first', hfirst', -⟩ := expectedKeys_cases g'.groups
    · rw [hnone, hnone']
    · obtain ⟨rel, hrel, -⟩ := hg'.mem_values.mp hfirst'
      exact hfile (h.mem_found_iff.mp hrel)
  · obtain ⟨rel, hrel, -⟩ := hg.mem_values.mp hfirst
    exact hfile hrel

section

variable {expected : List String} {groups groups' : Keyed (List Component) ChainGroup}
  (hkeys : ∀ rel ∈ d.found root entries, (d.chain (above rel)).keys = expected)
  (hgroups : Groups d root entries expected (d.chained root entries) groups)
  (hgroups' : Groups d root entries' expected (d.chained root entries') groups')
include hkeys hgroups hgroups'

/-- Groups are found at the same places. -/
theorem contains_iff (cs : List Component) :
    groups.contains cs = true ↔ groups'.contains cs = true := by
  rw [hgroups.contains, hgroups'.contains]
  have hfiles : d.filesAt root entries' cs ≠ [] ↔ d.filesAt root entries cs ≠ [] := by
    simp only [filesAt_ne_nil, h.mem_found_iff]
  rw [hfiles]
  refine or_congr_right' fun hnone => ⟨?_, ?_⟩
  · rintro ⟨dir, hdir, hcs, hchain⟩
    obtain ⟨hentry, hcounts⟩ := mem_chained.mp hdir
    exact ⟨dir, mem_chained.mpr ⟨h.kept dir hentry, hcounts⟩, hcs, hchain⟩
  · rintro ⟨dir, hdir, rfl, hchain⟩
    obtain ⟨hentry, hcounts, hall, hne⟩ := mem_chained.mp hdir
    obtain hold | ⟨rel, hrel, habove⟩ := h.new dir hentry
    · exact ⟨dir, mem_chained.mpr ⟨hold, hcounts, hall, hne⟩, rfl, hchain⟩
    · -- A directory above a file that has all keys is where the file has its place.
      have hlength := congrArg List.length (hchain.trans (hkeys rel hrel).symm)
      rw [Chain.keys, Chain.keys, List.length_map, List.length_map] at hlength
      have hplace := hall.components_eq_place habove hlength
      exact absurd (filesAt_ne_nil.mpr ⟨rel, hrel, hplace.symm⟩) hnone

/-- The groups stand beside each other, with the same chains and files. -/
theorem forall₂_values :
    List.Forall₂ (fun group group' => group'.chain = group.chain ∧
        group'.directory.components = group.directory.components ∧ group'.files.Perm group.files)
      groups.values groups'.values := by
  have hentries : List.Forall₂ (fun e e' => e.1 = e'.1) groups.entries groups'.entries := by
    have hsame := Keyed.keys_eq_of_contains hgroups.sorted hgroups'.sorted
      (h.contains_iff hkeys hgroups hgroups')
    refine List.forall₂_map_left_iff.mp (List.forall₂_map_right_iff.mp ?_)
    rw [List.forall₂_eq_eq_eq]
    exact hsame
  refine List.forall₂_map_left_iff.mpr (List.forall₂_map_right_iff.mpr ?_)
  refine Outcome.forall₂_imp_of_mem hentries fun e he e' he' hcs => ?_
  have hget := (Keyed.get?_eq_some_iff hgroups.sorted).mpr he
  have hget' := (Keyed.get?_eq_some_iff hgroups'.sorted).mpr he'
  rw [← hcs] at hget'
  refine ⟨?_, ?_, ?_⟩
  · rw [(hgroups.chain _ _ hget).1, (hgroups'.chain _ _ hget').1]
  · rw [hgroups.directory _ _ hget, hgroups'.directory _ _ hget']
  · rw [hgroups.files _ _ hget, hgroups'.files _ _ hget']
    exact h.filesAt_perm _

/-- With keys the partitions agree. -/
theorem agrees_keyed :
    (keyedLayout root expected groups).Agrees (keyedLayout root expected groups') := by
  have hvalues := h.forall₂_values hkeys hgroups hgroups'
  -- The types of keys are read off the chains, which are the same.
  have hchains : groups'.values.map ChainGroup.chain = groups.values.map ChainGroup.chain := by
    rw [← List.forall₂_eq_eq_eq, List.forall₂_map_left_iff, List.forall₂_map_right_iff]
    exact List.Forall₂.flip (hvalues.imp fun _ _ hgroup => hgroup.1)
  unfold keyedLayout
  rw [hchains]
  refine ⟨rfl, rfl, List.forall₂_map_left_iff.mpr (List.forall₂_map_right_iff.mpr ?_)⟩
  refine hvalues.imp fun group group' hgroup => ?_
  obtain ⟨hchain, hdirectory, hfiles⟩ := hgroup
  refine ⟨?_, hdirectory, Path.map_components_sort hfiles⟩
  simp only [partitionOf, hchain]

end

/-- The layouts agree. -/
theorem agrees {layout layout' : Layout} (hlayout : d.layoutOf root entries = .ok layout)
    (hlayout' : d.layoutOf root entries' = .ok layout') : layout.Agrees layout' := by
  obtain ⟨g, hg, hkeys, hrest⟩ := layoutOf_eq_ok.mp hlayout
  obtain ⟨g', hg', hkeys', hrest'⟩ := layoutOf_eq_ok.mp hlayout'
  have hgathers := (d.gather_spec root entries).2 g hg
  have hgathers' := (d.gather_spec root entries').2 g' hg'
  have hexpected := h.expectedKeys_eq hgathers hgathers' hkeys hkeys'
  have hgroups := hgathers.groups hkeys
  have hgroups' := hgathers'.groups hkeys'
  rw [hexpected] at hrest' hgroups'
  obtain ⟨hnone, rfl⟩ | ⟨hsome, groups, hadd, rfl⟩ := hrest
  · obtain ⟨-, rfl⟩ | ⟨hsome, -⟩ := hrest'
    · have hfiles := hgroups.files_perm.trans
        ((h.found.symm.map root.join).trans hgroups'.files_perm.symm)
      exact ⟨rfl, rfl, .cons ⟨rfl, rfl, (Path.map_components_sort hfiles).symm⟩ .nil⟩
    · exact absurd hnone hsome
  · obtain ⟨hnone, -⟩ | ⟨-, groups', hadd', rfl⟩ := hrest'
    · exact absurd hnone hsome
    · have hchained (listed : List Entry) : ∀ dir ∈ d.chained root listed, d.IsChain dir :=
        fun dir hdir => (mem_chained.mp hdir).2.2.1
      rw [hgathers.directories] at hadd
      rw [hgathers'.directories] at hadd'
      exact h.agrees_keyed (hgathers.keys_iff.2 hkeys)
        ((addEmpty_spec hgroups (hchained entries)).2 groups hadd)
        ((addEmpty_spec hgroups' (hchained entries')).2 groups' hadd')

end Relisted

/-- A layout is found for a listing just when one is found for the listing in any other order, with any
directories told that lie above files that count; and the layouts agree: they have the same root, keys
and types, and in the same order partitions with the same values, directories and files. -/
theorem detectListing_of_perm (d : Detection) (root : Path) {entries entries' extra : List Entry}
    (hextra : ∀ entry ∈ extra, d.LiesAbove root entries entry)
    (hperm : entries'.Perm (entries ++ extra)) :
    ((∃ layout, d.detectListing root entries = .ok layout) ↔
      ∃ layout', d.detectListing root entries' = .ok layout') ∧
    ∀ layout layout', d.detectListing root entries = .ok layout →
      d.detectListing root entries' = .ok layout' → layout.Agrees layout' := by
  have h := relisted_of_perm hextra hperm
  simp only [detectListing_eq_ok]
  refine ⟨?_, fun layout layout' hlayout hlayout' => h.agrees hlayout hlayout'⟩
  rw [exists_layoutOf, exists_layoutOf]
  exact h.consistent_iff

/-- The files of two months, and a month without files. -/
def monthsListed : List Entry :=
  [.file ⟨"year=2023/month=1/a.csv"⟩, .directory ⟨"year=2023/month=3"⟩,
    .file ⟨"year=2023/month=2/raw/b.csv"⟩]

/-- Directories above the files of the two months. -/
def monthsAbove : List Entry :=
  [.directory ⟨"year=2023"⟩, .directory ⟨"year=2023/month=2/raw"⟩, .directory ⟨"year=2023/month=1/"⟩]

/-- Three months have one layout, also when they are told backwards with directories above them. -/
theorem agrees_months :
    let d : Detection := ⟨8, [], fun _ => true⟩
    ∃ layout layout', d.detectListing ⟨"data"⟩ monthsListed = .ok layout ∧
      d.detectListing ⟨"data"⟩ (monthsListed ++ monthsAbove).reverse = .ok layout' ∧
      layout.Agrees layout' ∧ layout.partitions.length = 3 := by
  intro d
  have hextra : ∀ entry ∈ monthsAbove, d.LiesAbove ⟨"data"⟩ monthsListed entry := by decide +kernel
  obtain ⟨hexists, hagrees⟩ := detectListing_of_perm d ⟨"data"⟩ hextra (List.reverse_perm _)
  have hlayout : (d.layoutOf ⟨"data"⟩ monthsListed).toOption.map (·.partitions.length) = some 3 := by
    decide +kernel
  obtain ⟨layout, hsome, hlength⟩ := Option.map_eq_some_iff.mp hlayout
  have hfound := detectListing_eq_ok.mpr (Outcome.eq_ok_of_toOption hsome)
  obtain ⟨layout', hfound'⟩ := hexists.mp ⟨layout, hfound⟩
  exact ⟨layout, layout', hfound, hfound', hagrees layout layout' hfound hfound', hlength⟩

end Detection

end SourceTables
