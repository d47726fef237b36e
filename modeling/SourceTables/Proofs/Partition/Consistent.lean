import SourceTables.Proofs.Partition.Gather

/-!
# `SourceTables.Proofs.Partition.Consistent`: which listings have a layout

A listing is consistent when no key repeats in a chain, the chains of all files have the same keys in
the same order, and a directory that is nothing but keys has these keys or the first ones of them.

The theorems:

* `Groups.next`: what adding the empty partition of one directory does to the groups.
* `addEmpty_spec`: empty partitions are added just when all directories agree with the expected keys.
* `detectListing_iff_consistent`: a layout is found for the consistent listings and no others; whatever
  else is wrong is told as an ambiguous layout of the root.
-/

set_option autoImplicit false

namespace SourceTables.Detection

/-- Whether the entries of a listing agree on the keys. -/
structure Consistent (d : Detection) (root : Path) (entries : List Entry) : Prop where
  /-- No key repeats in a chain. -/
  distinct : ∀ entry ∈ entries, d.counts root entry = true → (d.chain entry.home).keys.Nodup
  /-- All files have the same keys in the same order. -/
  agree : ∀ rel ∈ d.found root entries, ∀ rel' ∈ d.found root entries,
    (d.chain (above rel)).keys = (d.chain (above rel')).keys
  /-- A directory that is nothing but keys has those of the files, or the first ones of them. -/
  nested : ∀ rel ∈ d.found root entries, (d.chain (above rel)).keys ≠ [] →
    ∀ dir, .directory dir ∈ entries → d.counts root (.directory dir) = true → d.IsChain dir →
      (d.chain dir).keys <+: (d.chain (above rel)).keys

variable {d : Detection} {root : Path} {entries : List Entry} {expected : List String}

/-- A directory that is nothing but its chain leads to no other keys. -/
theorem IsChain.eq_leadingRun {dir : Path} (h : d.IsChain dir) :
    d.chain dir = leadingRun dir.components ∧
      (leadingRun dir.components).length = dir.components.length := by
  have hlength : (d.chain dir).length = dir.components.length := h
  have hle := length_leadingRun_le dir.components
  rw [chain, List.length_take] at hlength
  have hlong : (leadingRun dir.components).length ≤ d.maxDepth := by omega
  exact ⟨List.take_of_length_le hlong, by omega⟩

/-! ### Checks of keys -/

theorem checkKeys_self (dir : Path) (keys : List String) : checkKeys dir keys keys = .ok () :=
  if_pos rfl

/-- The expected keys are those of some group, unless there is none. -/
theorem expectedKeys_cases (groups : Keyed (List Component) ChainGroup) :
    (groups.values = [] ∧ expectedKeys groups = []) ∨
      ∃ group ∈ groups.values, expectedKeys groups = group.chain.keys := by
  unfold expectedKeys
  cases groups.values with
  | nil => exact .inl ⟨rfl, rfl⟩
  | cons first rest => exact .inr ⟨first, .head _, rfl⟩

/-- All groups have the expected keys just when the files agree; these are then the keys of the
files. -/
theorem Gathers.keys_iff {g : Gathered} (h : Gathers d root entries g) :
    ((∀ group ∈ g.groups.values, group.chain.keys = expectedKeys g.groups) ↔
      ∀ rel ∈ d.found root entries, ∀ rel' ∈ d.found root entries,
        (d.chain (above rel)).keys = (d.chain (above rel')).keys) ∧
    ((∀ group ∈ g.groups.values, group.chain.keys = expectedKeys g.groups) →
      ∀ rel ∈ d.found root entries, (d.chain (above rel)).keys = expectedKeys g.groups) := by
  have hfiles (hkeys : ∀ group ∈ g.groups.values, group.chain.keys = expectedKeys g.groups) :
      ∀ rel ∈ d.found root entries, (d.chain (above rel)).keys = expectedKeys g.groups :=
    fun rel hrel => hkeys _ (h.mem_values.mpr ⟨rel, hrel, rfl⟩)
  refine ⟨⟨fun hkeys rel hrel rel' hrel' => ?_, fun hagree group hgroup => ?_⟩, hfiles⟩
  · rw [hfiles hkeys rel hrel, hfiles hkeys rel' hrel']
  · obtain ⟨hnone, -⟩ | ⟨first, hfirst, hexpected⟩ := expectedKeys_cases g.groups
    · rw [hnone] at hgroup
      cases hgroup
    · obtain ⟨rel, hrel, rfl⟩ := h.mem_values.mp hgroup
      obtain ⟨rel', hrel', rfl⟩ := h.mem_values.mp hfirst
      rw [hexpected]
      exact hagree rel hrel rel' hrel'

/-! ### Empty partitions -/

/-- What is known of the groups once some directories were looked at: each is at its place with the
files found there, and those without files come from directories. -/
structure Groups (d : Detection) (root : Path) (entries : List Entry) (expected : List String)
    (dirs : List Path) (groups : Keyed (List Component) ChainGroup) : Prop where
  sorted : groups.Sorted
  directory : ∀ cs group, groups.get? cs = some group → group.directory.components = cs
  chain : ∀ cs group, groups.get? cs = some group →
    group.chain = leadingRun cs ∧ (leadingRun cs).length = cs.length
  keys : ∀ cs group, groups.get? cs = some group → group.chain.keys = expected
  files : ∀ cs group, groups.get? cs = some group → group.files = d.filesAt root entries cs
  contains : ∀ cs, groups.contains cs = true ↔ d.filesAt root entries cs ≠ [] ∨
    ∃ dir ∈ dirs, dir.components = cs ∧ (d.chain dir).keys = expected

/-- The groups of what was gathered, before any directory is looked at. -/
theorem Gathers.groups {g : Gathered} (h : Gathers d root entries g)
    (hkeys : ∀ group ∈ g.groups.values, group.chain.keys = expected) :
    Groups d root entries expected [] g.groups := by
  have hget (cs : List Component) (group : ChainGroup) (hgroup : g.groups.get? cs = some group) :
      d.filesAt root entries cs ≠ [] ∧
        group = ⟨Path.ofComponents cs, leadingRun cs, d.filesAt root entries cs⟩ := by
    rw [h.get?] at hgroup
    split at hgroup
    · cases hgroup
    · next hfiles => exact ⟨hfiles, (Option.some.inj hgroup).symm⟩
  have hplace (cs : List Component) (group : ChainGroup) (hgroup : g.groups.get? cs = some group) :
      ∃ rel, d.place rel = cs := by
    obtain ⟨rel, -, hrel⟩ := filesAt_ne_nil.mp (hget cs group hgroup).1
    exact ⟨rel, hrel⟩
  refine ⟨h.sorted, fun cs group hgroup => ?_, fun cs group hgroup => ?_, fun cs group hgroup => ?_,
    fun cs group hgroup => ?_, fun cs => ?_⟩
  · obtain ⟨rel, rfl⟩ := hplace cs group hgroup
    rw [(hget _ group hgroup).2]
    exact d.components_place rel
  · obtain ⟨rel, rfl⟩ := hplace cs group hgroup
    rw [(hget _ group hgroup).2]
    exact ⟨rfl, (d.chain_above rel).2⟩
  · exact hkeys group (List.mem_map_of_mem (Keyed.mem_of_get? hgroup))
  · rw [(hget cs group hgroup).2]
  · rw [Keyed.contains_iff, h.get?]
    by_cases hfiles : d.filesAt root entries cs = [] <;> simp [hfiles]

/-- The groups once one more directory was looked at. -/
theorem Groups.next {dirs : List Path} {groups groups' : Keyed (List Component) ChainGroup}
    {dir : Path} (h : Groups d root entries expected dirs groups) (hchain : d.IsChain dir)
    (hadd : addEmpty expected groups (d.withChain dir) = .ok groups') :
    (d.chain dir).keys <+: expected ∧
      Groups d root entries expected (dirs ++ [dir]) groups' := by
  obtain ⟨hrun, hlength⟩ := hchain.eq_leadingRun
  -- What the directories so far and the new one say about a place.
  have hdirs (cs : List Component) :
      (∃ e ∈ dirs ++ [dir], e.components = cs ∧ (d.chain e).keys = expected) ↔
        (∃ e ∈ dirs, e.components = cs ∧ (d.chain e).keys = expected) ∨
          dir.components = cs ∧ (d.chain dir).keys = expected := by
    simp only [List.mem_append, List.mem_singleton, or_and_right, exists_or, exists_eq_left]
  obtain ⟨rfl, hkept⟩ | ⟨rfl, hnew, hkeys⟩ := addEmpty_cases hadd
  · have hcontains : (d.chain dir).keys = expected → groups'.contains dir.components = true := by
      intro hkeys
      refine hkept.resolve_right ?_
      rintro ⟨hlt, -⟩
      rw [hkeys] at hlt
      exact Nat.lt_irrefl _ hlt
    refine ⟨?_, h.sorted, h.directory, h.chain, h.keys, h.files, fun cs => ?_⟩
    · rcases hkept with hkept | ⟨-, hstarts⟩
      · obtain ⟨group, hgroup⟩ := Keyed.contains_iff.mp hkept
        have hkeys : (leadingRun dir.components).keys = expected := by
          rw [← (h.chain _ group hgroup).1, h.keys _ group hgroup]
        exact hrun.symm ▸ hkeys ▸ List.prefix_refl _
      · exact List.isPrefixOf_iff_prefix.mp hstarts
    · rw [hdirs, ← or_assoc, ← h.contains]
      refine ⟨.inl, fun hcs => hcs.elim id ?_⟩
      rintro ⟨rfl, hkeys⟩
      exact hcontains hkeys
  · have hnone : d.filesAt root entries dir.components = [] := by
      by_contra hfiles
      exact hnew ((h.contains _).mpr (.inl hfiles))
    have hget (cs : List Component) (group : ChainGroup)
        (hgroup : (groups.insert dir.components ⟨dir, d.chain dir, []⟩).get? cs = some group) :
        (cs = dir.components ∧ group = ⟨dir, d.chain dir, []⟩) ∨ groups.get? cs = some group := by
      rw [Keyed.get?_insert] at hgroup
      split at hgroup
      · next hcs => exact .inl ⟨hcs, (Option.some.inj hgroup).symm⟩
      · exact .inr hgroup
    refine ⟨hkeys ▸ List.prefix_refl _, Keyed.sorted_insert h.sorted _ _, fun cs group hgroup => ?_,
      fun cs group hgroup => ?_, fun cs group hgroup => ?_, fun cs group hgroup => ?_, fun cs => ?_⟩
    · obtain ⟨rfl, rfl⟩ | hgroup := hget cs group hgroup
      · rfl
      · exact h.directory cs group hgroup
    · obtain ⟨rfl, rfl⟩ | hgroup := hget cs group hgroup
      · exact ⟨hrun, hlength⟩
      · exact h.chain cs group hgroup
    · obtain ⟨rfl, rfl⟩ | hgroup := hget cs group hgroup
      · exact hkeys
      · exact h.keys cs group hgroup
    · obtain ⟨rfl, rfl⟩ | hgroup := hget cs group hgroup
      · exact hnone.symm
      · exact h.files cs group hgroup
    · rw [hdirs, ← or_assoc, ← h.contains, Keyed.contains_iff, Keyed.contains_iff, Keyed.get?_insert]
      by_cases hcs : cs = dir.components
      · simp [hcs, hkeys]
      · simp [hcs, Ne.symm hcs]

/-- The empty partition of a directory can be added if the directory agrees with the keys. -/
theorem exists_addEmpty {groups : Keyed (List Component) ChainGroup} {dir : Path} {chain : Chain}
    (h : chain.keys <+: expected) : ∃ groups', addEmpty expected groups (dir, chain) = .ok groups' := by
  unfold addEmpty
  dsimp only
  split
  · exact ⟨_, rfl⟩
  · split
    · exact ⟨_, rfl⟩
    · next hlong =>
      have hlength : ¬ chain.keys.length < expected.length := fun hlt =>
        hlong (by simp [hlt, h])
      have hkeys : chain.keys = expected := h.eq_of_length (by have := h.length_le; omega)
      rw [hkeys]
      exact ⟨_, Outcome.bind_eq_ok.mpr ⟨(), checkKeys_self dir expected, rfl⟩⟩

/-- Empty partitions are added just when all directories agree with the expected keys. -/
theorem addEmpty_spec {groups : Keyed (List Component) ChainGroup} {dirs : List Path}
    (h : Groups d root entries expected [] groups) (hdirs : ∀ dir ∈ dirs, d.IsChain dir) :
    ((∃ groups', (dirs.map d.withChain).foldlM (addEmpty expected) groups = .ok groups') ↔
      ∀ dir ∈ dirs, (d.chain dir).keys <+: expected) ∧
    ∀ groups', (dirs.map d.withChain).foldlM (addEmpty expected) groups = .ok groups' →
      Groups d root entries expected dirs groups' := by
  have fold (before rest : List Path) (groups : Keyed (List Component) ChainGroup)
      (h : Groups d root entries expected before groups) (hrest : ∀ dir ∈ rest, d.IsChain dir) :
      ((∃ groups', (rest.map d.withChain).foldlM (addEmpty expected) groups = .ok groups') ↔
        ∀ dir ∈ rest, (d.chain dir).keys <+: expected) ∧
      ∀ groups', (rest.map d.withChain).foldlM (addEmpty expected) groups = .ok groups' →
        Groups d root entries expected (before ++ rest) groups' := by
    induction rest generalizing before groups with
    | nil =>
      refine ⟨⟨fun _ => nofun, fun _ => ⟨groups, rfl⟩⟩, fun groups' hgroups' => ?_⟩
      cases hgroups'
      rw [List.append_nil]
      exact h
    | cons dir rest ih =>
      obtain ⟨hdir, hrest⟩ := List.forall_mem_cons.mp hrest
      simp only [List.map_cons, List.foldlM_cons, Outcome.bind_eq_ok]
      rw [List.append_cons]
      constructor
      · rw [List.forall_mem_cons]
        constructor
        · rintro ⟨groups', next, hnext, hgroups'⟩
          obtain ⟨hstarts, hgroups⟩ := h.next hdir hnext
          exact ⟨hstarts, (ih _ next hgroups hrest).1.mp ⟨groups', hgroups'⟩⟩
        · rintro ⟨hstarts, hothers⟩
          obtain ⟨next, hnext⟩ := exists_addEmpty hstarts
          obtain ⟨groups', hgroups'⟩ := (ih _ next (h.next hdir hnext).2 hrest).1.mpr hothers
          exact ⟨groups', next, hnext, hgroups'⟩
      · rintro groups' ⟨next, hnext, hgroups'⟩
        exact (ih _ next (h.next hdir hnext).2 hrest).2 groups' hgroups'
  exact fold [] dirs groups h hdirs

/-! ### Layouts -/

/-- The layout of files without keys. -/
def plainLayout (root : Path) (files : List Path) : Layout :=
  ⟨root, [], [⟨[], ⟨""⟩, Path.sort files⟩]⟩

/-- The layout of groups with keys. -/
def keyedLayout (root : Path) (expected : List String) (groups : Keyed (List Component) ChainGroup) :
    Layout :=
  let keys := typedKeys expected (groups.values.map ChainGroup.chain)
  ⟨root, keys, groups.values.map (partitionOf keys)⟩

/-- A layout is found when the entries are gathered, all groups have the expected keys and, if there
are keys, empty partitions can be added. -/
theorem layoutOf_eq_ok {layout : Layout} :
    d.layoutOf root entries = .ok layout ↔ ∃ g, d.gather root entries = .ok g ∧
      (∀ group ∈ g.groups.values, group.chain.keys = expectedKeys g.groups) ∧
      ((expectedKeys g.groups = [] ∧ layout = plainLayout root (g.groups.values.flatMap ChainGroup.files)) ∨
        expectedKeys g.groups ≠ [] ∧ ∃ groups,
          g.directories.foldlM (addEmpty (expectedKeys g.groups)) g.groups = .ok groups ∧
          layout = keyedLayout root (expectedKeys g.groups) groups) := by
  unfold layoutOf
  rw [Outcome.bind_eq_ok]
  refine exists_congr fun g => and_congr_right fun _ => ?_
  rw [Outcome.bind_eq_ok]
  constructor
  · rintro ⟨_, hchecks, h⟩
    refine ⟨fun group hgroup => eq_of_checkKeys (Outcome.ok_of_forIn hchecks group hgroup), ?_⟩
    split at h
    · next hnone =>
      cases h
      exact .inl ⟨List.isEmpty_iff.mp hnone, rfl⟩
    · next hsome =>
      obtain ⟨groups, hgroups, h⟩ := Outcome.bind_eq_ok.mp h
      cases h
      exact .inr ⟨fun hnone => hsome (List.isEmpty_iff.mpr hnone), groups, hgroups, rfl⟩
  · rintro ⟨hkeys, h⟩
    refine ⟨_, Outcome.forIn_of_ok fun group hgroup => ?_, ?_⟩
    · rw [hkeys group hgroup]
      exact checkKeys_self _ _
    · obtain ⟨hnone, rfl⟩ | ⟨hsome, groups, hgroups, rfl⟩ := h
      · rw [if_pos (List.isEmpty_iff.mpr hnone)]
        rfl
      · rw [if_neg (mt List.isEmpty_iff.mp hsome)]
        exact Outcome.bind_eq_ok.mpr ⟨groups, hgroups, rfl⟩

/-- A layout is found for the consistent listings and no others. -/
theorem exists_layoutOf :
    (∃ layout, d.layoutOf root entries = .ok layout) ↔ d.Consistent root entries := by
  have hchained : ∀ dir ∈ d.chained root entries, d.IsChain dir :=
    fun dir hdir => (mem_chained.mp hdir).2.2.1
  constructor
  · rintro ⟨layout, h⟩
    obtain ⟨g, hg, hkeys, hrest⟩ := layoutOf_eq_ok.mp h
    have hgathers := (d.gather_spec root entries).2 g hg
    have hexpected := hgathers.keys_iff.2 hkeys
    refine ⟨(d.gather_spec root entries).1.mp ⟨g, hg⟩, hgathers.keys_iff.1.mp hkeys,
      fun rel hrel hne dir hdir hcounts hchain => ?_⟩
    rw [hexpected rel hrel] at hne ⊢
    obtain ⟨hnone, -⟩ | ⟨-, groups, hgroups, -⟩ := hrest
    · exact absurd hnone hne
    · by_cases hempty : d.chain dir = []
      · rw [hempty]
        exact List.nil_prefix
      · rw [hgathers.directories] at hgroups
        exact (addEmpty_spec (hgathers.groups hkeys) hchained).1.mp ⟨groups, hgroups⟩ dir
          (mem_chained.mpr ⟨hdir, hcounts, hchain, hempty⟩)
  · rintro ⟨hdistinct, hagree, hnested⟩
    obtain ⟨g, hg⟩ := (d.gather_spec root entries).1.mpr hdistinct
    have hgathers := (d.gather_spec root entries).2 g hg
    have hkeys := hgathers.keys_iff.1.mpr hagree
    by_cases hexpected : expectedKeys g.groups = []
    · exact ⟨_, layoutOf_eq_ok.mpr ⟨g, hg, hkeys, .inl ⟨hexpected, rfl⟩⟩⟩
    · -- Keys are expected only where there are files, which the directories agree with.
      obtain ⟨-, hnone⟩ | ⟨first, hfirst, hfirstKeys⟩ := expectedKeys_cases g.groups
      · exact absurd hnone hexpected
      · obtain ⟨rel, hrel, rfl⟩ := hgathers.mem_values.mp hfirst
        have hstarts : ∀ dir ∈ d.chained root entries, (d.chain dir).keys <+: expectedKeys g.groups := by
          intro dir hdir
          obtain ⟨hdir, hcounts, hchain, -⟩ := mem_chained.mp hdir
          rw [hfirstKeys] at hexpected ⊢
          exact hnested rel hrel hexpected dir hdir hcounts hchain
        obtain ⟨groups, hgroups⟩ := (addEmpty_spec (hgathers.groups hkeys) hchained).1.mpr hstarts
        rw [← hgathers.directories] at hgroups
        exact ⟨_, layoutOf_eq_ok.mpr ⟨g, hg, hkeys, .inr ⟨hexpected, groups, hgroups, rfl⟩⟩⟩

/-- Where no file has a key, all files are in one partition. -/
theorem unpartitioned_of_layoutOf {layout : Layout} (h : d.layoutOf root entries = .ok layout)
    (hnone : ∀ rel ∈ d.found root entries, d.chain (above rel) = []) :
    layout.isPartitioned = false ∧ layout.partitions.length = 1 := by
  obtain ⟨g, hg, hkeys, ⟨-, rfl⟩ | ⟨hsome, -⟩⟩ := layoutOf_eq_ok.mp h
  · exact ⟨rfl, rfl⟩
  · have hgathers := (d.gather_spec root entries).2 g hg
    obtain ⟨-, hexpected⟩ | ⟨first, hfirst, hexpected⟩ := expectedKeys_cases g.groups
    · exact absurd hexpected hsome
    · obtain ⟨rel, hrel, rfl⟩ := hgathers.mem_values.mp hfirst
      rw [hexpected, hnone rel hrel] at hsome
      exact absurd rfl hsome

/-- A layout is found for the consistent listings and no others. Otherwise the layout of the root is
told to be ambiguous. Where no file has a key, all files are in one partition without keys. -/
theorem detectListing_iff_consistent (d : Detection) (root : Path) (entries : List Entry) :
    ((∃ layout, d.detectListing root entries = .ok layout) ↔ d.Consistent root entries) ∧
    (∀ e, d.detectListing root entries = .error e → ∃ reason, e = .ambiguousLayout root reason) ∧
    (∀ layout, d.detectListing root entries = .ok layout →
      (∀ rel ∈ d.found root entries, d.chain (above rel) = []) →
        layout.isPartitioned = false ∧ layout.partitions.length = 1) := by
  refine ⟨?_, fun e he => ?_, fun layout h => ?_⟩
  · simp only [detectListing_eq_ok]
    exact exists_layoutOf
  · unfold detectListing at he
    split at he
    · cases he
    · cases he
      exact ⟨_, rfl⟩
  · exact unpartitioned_of_layoutOf (detectListing_eq_ok.mp h)

end SourceTables.Detection
