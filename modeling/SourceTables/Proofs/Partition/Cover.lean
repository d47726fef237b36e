import Mathlib.Data.List.Perm.Basic
import SourceTables.Proofs.Partition.Consistent

/-!
# `SourceTables.Proofs.Partition.Cover`: the files of a layout

A layout has each file of its listing once. Its partitions are told apart by their directories, whose
names are the keys and values, and the partitions without files are the directories without files.

The theorems:

* `perm_flatMap_filter`: what is sorted into places by a function is all there.
* `Groups.files_perm`: the groups have each file that counts once.
* `Groups.spells`: the values of a partition are what the names of its directory spell.
* `covers_of_layoutOf`, `covers_of_detectListing`: a layout that is found covers its listing.
* `nodup_keys_of_layoutOf`: its keys are different.
-/

set_option autoImplicit false

namespace SourceTables

/-- Sorting a list into places keeps each element once. -/
theorem perm_flatMap_filter {α β : Type} [DecidableEq β] {f : α → β} {places : List β} {xs : List α}
    (hplaces : places.Nodup) (hxs : ∀ x ∈ xs, f x ∈ places) :
    (places.flatMap fun place => xs.filter fun x => f x = place).Perm xs := by
  induction places generalizing xs with
  | nil =>
    have hnone : xs = [] := List.eq_nil_iff_forall_not_mem.mpr fun x hx => by cases hxs x hx
    rw [hnone]
    exact .nil
  | cons place rest ih =>
    obtain ⟨hnew, hrest⟩ := List.nodup_cons.mp hplaces
    have hothers : ∀ x ∈ xs.filter (fun x => !decide (f x = place)), f x ∈ rest := by
      intro x hx
      obtain ⟨hx, hne⟩ := List.mem_filter.mp hx
      exact (List.mem_cons.mp (hxs x hx)).resolve_left (by simpa using hne)
    -- Taking out those of the first place takes none from the other places.
    have hkept : ∀ place' ∈ rest, (xs.filter fun x => f x = place')
        = (xs.filter fun x => !decide (f x = place)).filter fun x => f x = place' := by
      intro place' hplace'
      rw [List.filter_filter]
      refine List.filter_congr fun x _ => ?_
      by_cases hx : f x = place'
      · have hne : place' ≠ place := fun h => hnew (h ▸ hplace')
        simp [hx, hne]
      · simp [hx]
    rw [List.flatMap_cons, List.flatMap_congr hkept]
    exact ((ih hrest hothers).append_left _).trans (List.filter_append_perm _ xs)

namespace Path

/-- A visible path has no dot among its components. -/
theorem current_not_mem_of_isVisible {p : Path} (h : p.isVisible = true) : .current ∉ p.components := by
  intro hdot
  have hhidden := List.all_eq_true.mp h .current hdot
  revert hhidden
  decide

end Path

/-- Whether the names of a partition's directory spell a chain that its values are read from. -/
structure Partition.Spells (keys : List PartitionKey) (p : Partition) (chain : Chain) : Prop where
  /-- The names of the directory are the keys and the texts of the values. -/
  segments : List.Forall₂ (fun c kv => Segment.parse? c.text = some kv) p.directory.components chain
  /-- The keys are those of the layout, in order. -/
  names : chain.keys = keys.map PartitionKey.name
  /-- Each value is its text read under the type of the key. -/
  values : p.values = chain.zipWith (fun kv key => (key.name, Literal.parse kv.value key.type)) keys

namespace Partition

/-- Whether two partitions have the same values, and directory and files with the same components. -/
structure Agrees (p q : Partition) : Prop where
  values : q.values = p.values
  directory : q.directory.components = p.directory.components
  files : q.files.map Path.components = p.files.map Path.components

/-- A directory spells one list of values. -/
theorem Spells.values_eq {keys : List PartitionKey} {p q : Partition} {chain chain' : Chain}
    (hp : p.Spells keys chain) (hq : q.Spells keys chain')
    (hdirectory : q.directory.components = p.directory.components) : q.values = p.values := by
  have hchain : chain' = chain := by
    have hsegments := hq.segments
    rw [hdirectory] at hsegments
    refine Relator.RightUnique.forall₂ (fun c kv kv' h h' => ?_) hsegments hp.segments
    rw [h] at h'
    exact Option.some.inj h'
  rw [hp.values, hq.values, hchain]

/-- What a partition spells, those that agree with it do. -/
theorem Agrees.spells {keys : List PartitionKey} {p q : Partition} {chain : Chain} (h : p.Agrees q)
    (hp : p.Spells keys chain) : q.Spells keys chain := by
  refine ⟨?_, hp.names, h.values.trans hp.values⟩
  rw [h.directory]
  exact hp.segments

end Partition

namespace Detection

/-- Whether a layout has the files of a listing, each once and at its place. -/
structure Covers (d : Detection) (root : Path) (entries : List Entry) (layout : Layout) : Prop where
  /-- The files are those that count. -/
  files : layout.files.Perm ((d.found root entries).map root.join)
  /-- The partitions are in the order of their directories, no two of which are the same. -/
  ordered : layout.partitions.Pairwise fun p q => p.directory.order q.directory = .lt
  /-- The files of a partition are in order. -/
  sorted : ∀ p ∈ layout.partitions, p.files.Pairwise fun a b => (a.order b).isLE = true
  /-- The files of a partition lie in its directory, as those of a listing do that are told as seen
  from the root. -/
  below : ∀ p ∈ layout.partitions, ∀ file ∈ p.files, ∃ rel ∈ d.found root entries,
    file = root.join rel ∧ rel.startsWith p.directory = true ∧
      (rel.isAbsolute = false → file.startsWith (root.join p.directory) = true)
  /-- The values of a partition are what its directory spells, read under the types that all
  partitions together give the keys. -/
  values : ∃ chains, List.Forall₂ (fun p chain => p.Spells layout.keys chain) layout.partitions chains ∧
    ∀ i (h : i < layout.keys.length), layout.keys[i].type
      = Literal.inferType (chains.filterMap fun chain => chain[i]?.map KeyValue.value)
  /-- The partitions without files are the directories with all keys that no file has its place in. -/
  empty : layout.isPartitioned = true → ∀ cs,
    (∃ p ∈ layout.partitions, p.directory.components = cs ∧ p.files = []) ↔
      ∃ dir, .directory dir ∈ entries ∧ d.counts root (.directory dir) = true ∧ d.IsChain dir ∧
        (d.chain dir).keys = layout.keys.map PartitionKey.name ∧ dir.components = cs ∧
        ∀ rel ∈ d.found root entries, d.place rel ≠ cs

variable {d : Detection} {root : Path} {entries : List Entry} {expected : List String}
  {dirs : List Path} {groups : Keyed (List Component) ChainGroup}

/-- The directory of each partition spells its values. -/
theorem Covers.spelled {layout : Layout} (h : d.Covers root entries layout) :
    ∀ p ∈ layout.partitions, ∃ chain, p.Spells layout.keys chain := by
  intro p hp
  obtain ⟨chains, hspells, -⟩ := h.values
  obtain ⟨chain, -, hchain⟩ := Outcome.exists_of_forall₂ hspells hp
  exact ⟨chain, hchain⟩

/-- Each group is found at some place. -/
theorem Groups.mem_values (h : Groups d root entries expected dirs groups) {group : ChainGroup} :
    group ∈ groups.values ↔ ∃ cs, groups.get? cs = some group := by
  unfold Keyed.values
  rw [List.mem_map]
  constructor
  · rintro ⟨⟨cs, _⟩, hmem, rfl⟩
    exact ⟨cs, (Keyed.get?_eq_some_iff h.sorted).mpr hmem⟩
  · rintro ⟨cs, hget⟩
    exact ⟨(cs, group), Keyed.mem_of_get? hget, rfl⟩

/-! ### Files -/

/-- The groups have each file that counts once. -/
theorem Groups.files_perm (h : Groups d root entries expected dirs groups) :
    (groups.values.flatMap ChainGroup.files).Perm ((d.found root entries).map root.join) := by
  have hvalues : groups.values.flatMap ChainGroup.files
      = groups.keys.flatMap (d.filesAt root entries) := by
    unfold Keyed.values Keyed.keys
    rw [List.flatMap_map, List.flatMap_map]
    refine List.flatMap_congr fun e he => ?_
    exact h.files e.1 e.2 ((Keyed.get?_eq_some_iff h.sorted).mpr he)
  have hplaces : ∀ rel ∈ d.found root entries, d.place rel ∈ groups.keys := by
    intro rel hrel
    obtain ⟨group, hgroup⟩ :=
      Keyed.contains_iff.mp ((h.contains _).mpr (.inl (filesAt_ne_nil.mpr ⟨rel, hrel, rfl⟩)))
    exact List.mem_map_of_mem (Keyed.mem_of_get? hgroup)
  have hmap : groups.keys.flatMap (d.filesAt root entries)
      = (groups.keys.flatMap fun cs => (d.found root entries).filter fun rel => d.place rel = cs).map
          root.join := (List.map_flatMap ..).symm
  rw [hvalues, hmap]
  exact (perm_flatMap_filter (Keyed.nodup_keys h.sorted) hplaces).map root.join

/-- A file's place comes first among its components. -/
theorem place_isPrefix (d : Detection) (rel : Path) : d.place rel <+: rel.components := by
  refine (List.take_prefix _ _).trans ?_
  unfold above
  cases hparent : rel.parent? with
  | none => exact List.nil_prefix
  | some parent => exact Path.parent?_isPrefix hparent

/-- What lies below a directory when seen from the root lies below the directory. -/
theorem startsWith_join {rel dir : Path} (hvisible : rel.isVisible = true)
    (hrel : rel.isAbsolute = false) (hdir : dir.components <+: rel.components)
    (hrelative : dir.isAbsolute = false) : (root.join rel).startsWith (root.join dir) = true := by
  have hdot := Path.current_not_mem_of_isVisible hvisible
  unfold Path.startsWith
  rw [List.isPrefixOf_iff_prefix, Path.components_join_path root hrel hdot,
    Path.components_join_path root hrelative fun h => hdot (hdir.subset h)]
  exact (List.prefix_append_right_inj _).mpr hdir

/-- The files of a group lie in its directory. -/
theorem Groups.below (h : Groups d root entries expected dirs groups) {group : ChainGroup}
    (hgroup : group ∈ groups.values) {file : Path} (hfile : file ∈ group.files) :
    ∃ rel ∈ d.found root entries, file = root.join rel ∧ rel.startsWith group.directory = true ∧
      (rel.isAbsolute = false → file.startsWith (root.join group.directory) = true) := by
  obtain ⟨cs, hget⟩ := h.mem_values.mp hgroup
  rw [h.files cs _ hget] at hfile
  obtain ⟨rel, hrel, rfl, rfl⟩ := mem_filesAt.mp hfile
  obtain ⟨hvisible, -⟩ := Bool.and_eq_true_iff.mp (mem_found.mp hrel).2
  have hdirectory := h.directory _ _ hget
  have hstarts : _ <+: rel.components := hdirectory ▸ d.place_isPrefix rel
  refine ⟨rel, hrel, rfl, List.isPrefixOf_iff_prefix.mpr hstarts, fun habsolute => ?_⟩
  refine startsWith_join hvisible habsolute hstarts (Path.isAbsolute_eq_false ?_)
  -- A component with a key is a name.
  rw [hdirectory]
  intro hroot
  obtain ⟨kv, -, hkv⟩ := Outcome.exists_of_forall₂ (forall₂_leadingRun (h.chain _ _ hget).2) hroot
  cases hkv

/-! ### Values -/

/-- The names of keys with types are the keys. -/
theorem names_typedKeys (expected : List String) (chains : List Chain) :
    (typedKeys expected chains).map PartitionKey.name = expected := by
  refine List.ext_getElem (by simp [typedKeys]) fun i _ _ => ?_
  simp [typedKeys]

/-- The type of a key is that of its values. -/
theorem type_typedKeys {expected : List String} {chains : List Chain} {i : Nat}
    (h : i < (typedKeys expected chains).length) :
    (typedKeys expected chains)[i].type
      = Literal.inferType (chains.filterMap fun chain => chain[i]?.map KeyValue.value) := by
  simp [typedKeys]

/-- A pairing depends on the keys by their names. -/
theorem zipWith_names {chain : Chain} {keys : List PartitionKey}
    (h : chain.keys = keys.map PartitionKey.name) :
    chain.zipWith (fun kv key => (kv.key, Literal.parse kv.value key.type)) keys
      = chain.zipWith (fun kv key => (key.name, Literal.parse kv.value key.type)) keys := by
  induction chain generalizing keys with
  | nil => rfl
  | cons kv rest ih =>
    cases keys with
    | nil => rfl
    | cons key keys =>
      obtain ⟨hname, hrest⟩ := List.cons.inj h
      rw [List.zipWith_cons_cons, List.zipWith_cons_cons, ih hrest, hname]

/-- The values of a partition are what its directory spells. -/
theorem Groups.spells (h : Groups d root entries expected dirs groups) {group : ChainGroup}
    (hgroup : group ∈ groups.values) (chains : List Chain) :
    (partitionOf (typedKeys expected chains) group).Spells (typedKeys expected chains) group.chain := by
  obtain ⟨cs, hget⟩ := h.mem_values.mp hgroup
  obtain ⟨hchain, hlength⟩ := h.chain cs _ hget
  have hnames := (h.keys cs _ hget).trans (names_typedKeys expected chains).symm
  refine ⟨?_, hnames, zipWith_names hnames⟩
  show List.Forall₂ _ group.directory.components group.chain
  rw [h.directory cs _ hget, hchain]
  exact forall₂_leadingRun hlength

/-! ### Layouts -/

/-- Without keys the only partition has all files. -/
theorem Groups.covers_plain (h : Groups d root entries expected dirs groups) :
    d.Covers root entries (plainLayout root (groups.values.flatMap ChainGroup.files)) := by
  have hroot : ∀ rel ∈ d.found root entries, rel.startsWith ⟨""⟩ = true ∧
      (rel.isAbsolute = false → (root.join rel).startsWith (root.join ⟨""⟩) = true) := by
    intro rel hrel
    obtain ⟨hvisible, -⟩ := Bool.and_eq_true_iff.mp (mem_found.mp hrel).2
    exact ⟨List.isPrefixOf_iff_prefix.mpr List.nil_prefix,
      fun hrelative => startsWith_join hvisible hrelative List.nil_prefix rfl⟩
  refine ⟨?_, List.pairwise_singleton _ _, fun p hp => ?_, fun p hp file hfile => ?_,
    ⟨[[]], .cons ⟨.nil, rfl, rfl⟩ .nil, fun i hi => absurd hi (Nat.not_lt_zero i)⟩, nofun⟩
  · show (Path.sort _ ++ []).Perm _
    rw [List.append_nil]
    exact (Path.sort_perm _).trans h.files_perm
  · rw [List.mem_singleton.mp hp]
    exact Path.pairwise_sort _
  · rw [List.mem_singleton.mp hp] at hfile ⊢
    obtain ⟨rel, hrel, rfl⟩ :=
      List.mem_map.mp (h.files_perm.mem_iff.mp ((Path.sort_perm _).mem_iff.mp hfile))
    exact ⟨rel, hrel, rfl, hroot rel hrel⟩

/-- The files of sorted groups are those of the groups. -/
theorem perm_flatMap_sort (groups : List ChainGroup) (keys : List PartitionKey) :
    ((groups.map (partitionOf keys)).flatMap Partition.files).Perm (groups.flatMap ChainGroup.files) := by
  rw [List.flatMap_map]
  exact List.Perm.flatMap_left _ fun group _ => Path.sort_perm group.files

/-- No file has its place where there are no files. -/
theorem filesAt_eq_nil {cs : List Component} :
    d.filesAt root entries cs = [] ↔ ∀ rel ∈ d.found root entries, d.place rel ≠ cs := by
  rw [← not_iff_not]
  push Not
  exact filesAt_ne_nil

/-- The groups without files are the directories with all keys that no file has its place in. -/
theorem Groups.empty_iff (h : Groups d root entries expected (d.chained root entries) groups)
    (hexpected : expected ≠ []) (cs : List Component) :
    (∃ group ∈ groups.values, group.directory.components = cs ∧ group.files = []) ↔
      ∃ dir, .directory dir ∈ entries ∧ d.counts root (.directory dir) = true ∧ d.IsChain dir ∧
        (d.chain dir).keys = expected ∧ dir.components = cs ∧
        ∀ rel ∈ d.found root entries, d.place rel ≠ cs := by
  constructor
  · rintro ⟨group, hgroup, rfl, hfiles⟩
    obtain ⟨cs, hget⟩ := h.mem_values.mp hgroup
    rw [h.files cs _ hget] at hfiles
    rw [h.directory cs _ hget]
    obtain hsome | ⟨dir, hdir, hcs, hkeys⟩ := (h.contains cs).mp (Keyed.contains_iff.mpr ⟨group, hget⟩)
    · exact absurd hfiles hsome
    · obtain ⟨hentry, hcounts, hchain, -⟩ := mem_chained.mp hdir
      exact ⟨dir, hentry, hcounts, hchain, hkeys, hcs, filesAt_eq_nil.mp hfiles⟩
  · rintro ⟨dir, hentry, hcounts, hchain, hkeys, rfl, hplaces⟩
    have hne : d.chain dir ≠ [] := by
      intro hnone
      rw [hnone] at hkeys
      exact hexpected hkeys.symm
    have hdir := mem_chained.mpr ⟨hentry, hcounts, hchain, hne⟩
    obtain ⟨group, hget⟩ := Keyed.contains_iff.mp ((h.contains _).mpr (.inr ⟨dir, hdir, rfl, hkeys⟩))
    refine ⟨group, h.mem_values.mpr ⟨_, hget⟩, h.directory _ _ hget, ?_⟩
    rw [h.files _ _ hget, filesAt_eq_nil.mpr hplaces]

/-- With keys each group is a partition. -/
theorem Groups.covers_keyed (h : Groups d root entries expected (d.chained root entries) groups)
    (hexpected : expected ≠ []) : d.Covers root entries (keyedLayout root expected groups) := by
  have hpartition {p : Partition} : p ∈ (keyedLayout root expected groups).partitions ↔
      ∃ group ∈ groups.values,
        partitionOf (typedKeys expected (groups.values.map ChainGroup.chain)) group = p :=
    List.mem_map
  refine ⟨(perm_flatMap_sort _ _).trans h.files_perm, ?_, fun p hp => ?_, fun p hp file hfile => ?_,
    ⟨groups.values.map ChainGroup.chain, ?_, fun i hi => type_typedKeys hi⟩, fun _ cs => ?_⟩
  · -- Groups are in the order of their places, which are the components of their directories.
    refine List.pairwise_map.mpr (List.pairwise_map.mpr (List.Pairwise.imp_of_mem ?_ h.sorted))
    intro a b ha hb hlt
    show compare a.2.directory.components b.2.directory.components = .lt
    rw [h.directory a.1 a.2 ((Keyed.get?_eq_some_iff h.sorted).mpr ha),
      h.directory b.1 b.2 ((Keyed.get?_eq_some_iff h.sorted).mpr hb)]
    exact hlt
  · obtain ⟨group, -, rfl⟩ := hpartition.mp hp
    exact Path.pairwise_sort group.files
  · obtain ⟨group, hgroup, rfl⟩ := hpartition.mp hp
    exact h.below hgroup ((Path.sort_perm _).mem_iff.mp hfile)
  · refine List.forall₂_map_left_iff.mpr (List.forall₂_map_right_iff.mpr (List.forall₂_same.mpr ?_))
    exact fun group hgroup => h.spells hgroup _
  · have hnames : (keyedLayout root expected groups).keys.map PartitionKey.name = expected :=
      names_typedKeys expected _
    have hfiles {group : ChainGroup} : Path.sort group.files = [] ↔ group.files = [] :=
      ⟨fun hnone => List.perm_nil.mp (hnone ▸ (Path.sort_perm group.files).symm),
        fun hnone => List.perm_nil.mp (hnone ▸ Path.sort_perm group.files)⟩
    rw [hnames, ← h.empty_iff hexpected]
    constructor
    · rintro ⟨p, hp, hcs, hnone⟩
      obtain ⟨group, hgroup, rfl⟩ := hpartition.mp hp
      exact ⟨group, hgroup, hcs, hfiles.mp hnone⟩
    · rintro ⟨group, hgroup, hcs, hnone⟩
      exact ⟨_, hpartition.mpr ⟨group, hgroup, rfl⟩, hcs, hfiles.mpr hnone⟩

/-- A layout covers the entries that it is made of. -/
theorem covers_of_layoutOf {layout : Layout} (h : d.layoutOf root entries = .ok layout) :
    d.Covers root entries layout := by
  obtain ⟨g, hg, hkeys, hlayout⟩ := layoutOf_eq_ok.mp h
  have hgathers := (d.gather_spec root entries).2 g hg
  have hgroups := hgathers.groups hkeys
  obtain ⟨-, rfl⟩ | ⟨hexpected, groups, hadd, rfl⟩ := hlayout
  · exact hgroups.covers_plain
  · have hchained : ∀ dir ∈ d.chained root entries, d.IsChain dir :=
      fun dir hdir => (mem_chained.mp hdir).2.2.1
    rw [hgathers.directories] at hadd
    exact ((addEmpty_spec hgroups hchained).2 groups hadd).covers_keyed hexpected

/-- No key of a layout is repeated. -/
theorem nodup_keys_of_layoutOf {layout : Layout} (h : d.layoutOf root entries = .ok layout) :
    (layout.keys.map PartitionKey.name).Nodup := by
  obtain ⟨g, hg, -, ⟨-, rfl⟩ | ⟨hexpected, groups, -, rfl⟩⟩ := layoutOf_eq_ok.mp h
  · exact List.nodup_nil
  · obtain ⟨hdistinct, hgathers⟩ := d.gather_spec root entries
    have hnames : (keyedLayout root (expectedKeys g.groups) groups).keys.map PartitionKey.name
        = expectedKeys g.groups := names_typedKeys _ _
    rw [hnames]
    -- The expected keys are those of a file that counts, in whose chain none repeats.
    obtain ⟨-, hnone⟩ | ⟨group, hgroup, hkeys⟩ := expectedKeys_cases g.groups
    · exact absurd hnone hexpected
    · obtain ⟨rel, hrel, rfl⟩ := (hgathers g hg).mem_values.mp hgroup
      obtain ⟨hentry, hcounts⟩ := mem_found.mp hrel
      have hnodup : (d.chain (above rel)).keys.Nodup :=
        hdistinct.mp ⟨g, hg⟩ (.file rel) hentry hcounts
      rw [hkeys]
      exact hnodup

/-- A layout that is found covers its listing. -/
theorem covers_of_detectListing {layout : Layout} (h : d.detectListing root entries = .ok layout) :
    d.Covers root entries layout :=
  covers_of_layoutOf (detectListing_eq_ok.mp h)

/-- Two days, of which the second has no files. -/
theorem covers_twoDays :
    let d : Detection := ⟨8, [], fun _ => true⟩
    let entries : List Entry := [.directory ⟨"day=1"⟩, .file ⟨"day=1/a.csv"⟩, .directory ⟨"day=2"⟩]
    let layout : Layout := ⟨⟨"data"⟩, [⟨"day", .integer⟩],
      [⟨[("day", .integer 1)], ⟨"day=1"⟩, [⟨"data/day=1/a.csv"⟩]⟩,
        ⟨[("day", .integer 2)], ⟨"day=2"⟩, []⟩]⟩
    d.detectListing ⟨"data"⟩ entries = .ok layout ∧ d.Covers ⟨"data"⟩ entries layout := by
  intro d entries layout
  have h : d.detectListing ⟨"data"⟩ entries = .ok layout :=
    Outcome.eq_ok_of_toOption (by decide +kernel)
  exact ⟨h, covers_of_detectListing h⟩

end Detection

end SourceTables
