import SourceTables.Proofs.Partition.Chain
import SourceTables.Proofs.Partition.Typing

/-!
# `SourceTables.Proofs.Partition.Gather`: the entries of a tree by their chains

An entry of a listing counts when it is visible and, if it is a file, accepted. Each file that counts
is kept with the others of its place, and each directory that counts is kept if it is nothing but keys.

The theorems:

* `Gathers.next`: what is known of the entries so far holds after one more entry.
* `gather_spec`: the entries of a listing are gathered just when no key repeats in any of their chains,
  and then every file that counts is kept at its place.
* `Gathers.mem_values`: the groups are those of the places of files.
-/

set_option autoImplicit false

namespace SourceTables

/-- The directory whose chain an entry has. -/
def Entry.home : Entry → Path
  | .file rel => Detection.above rel
  | .directory rel => rel

namespace Detection

/-- Whether an entry counts: it is visible, and accepted if it is a file. -/
def counts (d : Detection) (root : Path) : Entry → Bool
  | .file rel => rel.isVisible && d.accepts (root.join rel)
  | .directory rel => rel.isVisible

/-- The files that count, as seen from the root. -/
def found (d : Detection) (root : Path) (entries : List Entry) : List Path :=
  entries.filterMap fun entry => match entry with
    | .file rel => if d.counts root (.file rel) then some rel else none
    | .directory _ => none

/-- The directories that count and are nothing but keys, of which they have some. -/
def chained (d : Detection) (root : Path) (entries : List Entry) : List Path :=
  entries.filterMap fun entry => match entry with
    | .file _ => none
    | .directory dir =>
      if d.counts root (.directory dir) ∧ d.IsChain dir ∧ d.chain dir ≠ [] then some dir else none

/-- A directory with its chain. -/
def withChain (d : Detection) (dir : Path) : Path × Chain := (dir, d.chain dir)

theorem mem_found {d : Detection} {root rel : Path} {entries : List Entry} :
    rel ∈ d.found root entries ↔ .file rel ∈ entries ∧ d.counts root (.file rel) = true := by
  unfold found
  rw [List.mem_filterMap]
  constructor
  · rintro ⟨entry, hentry, h⟩
    cases entry with
    | directory _ => cases h
    | file rel' =>
      obtain ⟨hcounts, h⟩ := Option.ite_none_right_eq_some.mp h
      cases h
      exact ⟨hentry, hcounts⟩
  · rintro ⟨hentry, hcounts⟩
    exact ⟨_, hentry, if_pos hcounts⟩

theorem mem_chained {d : Detection} {root dir : Path} {entries : List Entry} :
    dir ∈ d.chained root entries ↔ .directory dir ∈ entries ∧
      d.counts root (.directory dir) = true ∧ d.IsChain dir ∧ d.chain dir ≠ [] := by
  unfold chained
  rw [List.mem_filterMap]
  constructor
  · rintro ⟨entry, hentry, h⟩
    cases entry with
    | file _ => cases h
    | directory dir' =>
      obtain ⟨hkept, h⟩ := Option.ite_none_right_eq_some.mp h
      cases h
      exact ⟨hentry, hkept⟩
  · rintro ⟨hentry, hkept⟩
    exact ⟨_, hentry, if_pos hkept⟩

/-- The files that belong to a place. -/
def filesAt (d : Detection) (root : Path) (entries : List Entry) (cs : List Component) : List Path :=
  ((d.found root entries).filter fun rel => d.place rel = cs).map root.join

/-- Whether entries were gathered: the files of each place are together, in order. -/
structure Gathers (d : Detection) (root : Path) (entries : List Entry) (g : Gathered) : Prop where
  sorted : g.groups.Sorted
  get? : ∀ cs, g.groups.get? cs = if d.filesAt root entries cs = [] then none
    else some ⟨Path.ofComponents cs, leadingRun cs, d.filesAt root entries cs⟩
  directories : g.directories = (d.chained root entries).map d.withChain

section

variable {d : Detection} {root : Path} {entries : List Entry} {entry : Entry} {g g' : Gathered}

theorem gathers_nil (d : Detection) (root : Path) : Gathers d root [] ⟨Keyed.empty, []⟩ :=
  ⟨Keyed.sorted_empty, fun _ => rfl, rfl⟩

theorem filesAt_concat (d : Detection) (root : Path) (entries : List Entry) (entry : Entry)
    (cs : List Component) :
    d.filesAt root (entries ++ [entry]) cs
      = d.filesAt root entries cs ++ d.filesAt root [entry] cs := by
  simp only [filesAt, found, List.filterMap_append, List.filter_append, List.map_append]

theorem chained_concat (d : Detection) (root : Path) (entries : List Entry) (entry : Entry) :
    d.chained root (entries ++ [entry]) = d.chained root entries ++ d.chained root [entry] := by
  simp only [chained, List.filterMap_append]

/-- What an entry that does not count leaves. -/
theorem Gathers.skip (h : Gathers d root entries g) (hcounts : d.counts root entry = false) :
    Gathers d root (entries ++ [entry]) g := by
  have hfound : d.found root [entry] = [] := by
    cases entry <;> simp [found, hcounts]
  have hchained : d.chained root [entry] = [] := by
    cases entry <;> simp [chained, hcounts]
  refine ⟨h.sorted, fun cs => ?_, ?_⟩
  · rw [filesAt_concat, show d.filesAt root [entry] cs = [] by simp [filesAt, hfound], List.append_nil]
    exact h.get? cs
  · rw [chained_concat, hchained, List.append_nil]
    exact h.directories

/-- The chain of an entry is found just when no key repeats in it. -/
theorem exists_chainOf {dir : Path} :
    (∃ chain complete, d.chainOf dir = .ok (chain, complete)) ↔ (d.chain dir).keys.Nodup := by
  constructor
  · rintro ⟨chain, complete, h⟩
    exact (chainOf_eq_ok.mp h).1
  · intro h
    exact ⟨_, _, chainOf_eq_ok.mpr ⟨h, rfl, rfl⟩⟩

/-- One more file joins those of its place. -/
theorem Gathers.file (h : Gathers d root entries g) {rel : Path}
    (hcounts : d.counts root (.file rel) = true)
    (hg : d.gatherEntry root g (.file rel) = .ok g') :
    (d.chain (above rel)).keys.Nodup ∧ Gathers d root (entries ++ [.file rel]) g' := by
  obtain ⟨hvisible, haccepts⟩ := Bool.and_eq_true_iff.mp hcounts
  unfold gatherEntry at hg
  simp only [hvisible, haccepts, Bool.not_true, Bool.or_self, Bool.false_eq_true, if_false] at hg
  obtain ⟨⟨chain, complete⟩, hchain, hg⟩ := Outcome.bind_eq_ok.mp hg
  obtain ⟨hnodup, rfl, -⟩ := chainOf_eq_ok.mp hchain
  cases hg
  refine ⟨hnodup, ?_⟩
  have habove : rel.parent?.getD ⟨""⟩ = above rel := rfl
  have hplace : chainDirectory (above rel) (d.chain (above rel)).length
      = Path.ofComponents (d.place rel) := rfl
  obtain ⟨hrun, -⟩ := d.chain_above rel
  have hfound : d.found root [.file rel] = [rel] := by simp [found, hcounts]
  have hnew (cs : List Component) :
      d.filesAt root [.file rel] cs = if d.place rel = cs then [root.join rel] else [] := by
    by_cases hcs : d.place rel = cs <;> simp [filesAt, hfound, hcs]
  refine ⟨?_, fun cs => ?_, ?_⟩
  · exact Keyed.sorted_insert h.sorted _ _
  · show (g.groups.insert (chainDirectory (above rel) (d.chain (above rel)).length).components _).get? cs
      = _
    rw [Keyed.get?_insert, hplace, d.components_place, filesAt_concat, hnew]
    by_cases hcs : cs = d.place rel
    · subst hcs
      rw [if_pos rfl, if_pos rfl, if_neg (by simp)]
      simp only [habove, hplace, d.components_place]
      rw [hrun, h.get?]
      split
      · next hnone => rw [hnone]; rfl
      · rfl
    · rw [if_neg hcs, if_neg (Ne.symm hcs), List.append_nil]
      exact h.get? cs
  · rw [chained_concat]
    simpa [chained] using h.directories

/-- One more directory is kept if it is nothing but keys. -/
theorem Gathers.directory (h : Gathers d root entries g) {rel : Path}
    (hcounts : d.counts root (.directory rel) = true)
    (hg : d.gatherEntry root g (.directory rel) = .ok g') :
    (d.chain rel).keys.Nodup ∧ Gathers d root (entries ++ [.directory rel]) g' := by
  have hvisible : rel.isVisible = true := hcounts
  unfold gatherEntry at hg
  simp only [hvisible, Bool.not_true, Bool.false_eq_true, if_false] at hg
  obtain ⟨⟨chain, complete⟩, hchain, hg⟩ := Outcome.bind_eq_ok.mp hg
  obtain ⟨hnodup, rfl, rfl⟩ := chainOf_eq_ok.mp hchain
  refine ⟨hnodup, ?_⟩
  have hfiles (cs : List Component) :
      d.filesAt root (entries ++ [.directory rel]) cs = d.filesAt root entries cs := by
    rw [filesAt_concat]
    exact List.append_nil _
  have hnew : d.chained root [.directory rel]
      = if d.IsChain rel ∧ d.chain rel ≠ [] then [rel] else [] := by
    by_cases hkeeps : d.IsChain rel ∧ d.chain rel ≠ [] <;> simp [chained, hcounts, hkeeps]
  have hcondition : (decide (d.IsChain rel) && !(d.chain rel).isEmpty) = true
      ↔ d.IsChain rel ∧ d.chain rel ≠ [] := by
    simp
  by_cases hkeeps : d.IsChain rel ∧ d.chain rel ≠ []
  · rw [if_pos (hcondition.mpr hkeeps)] at hg
    cases hg
    refine ⟨h.sorted, fun cs => by rw [hfiles]; exact h.get? cs, ?_⟩
    rw [chained_concat, hnew, if_pos hkeeps, List.map_append, ← h.directories]
    rfl
  · rw [if_neg (mt hcondition.mp hkeeps)] at hg
    cases hg
    refine ⟨h.sorted, fun cs => by rw [hfiles]; exact h.get? cs, ?_⟩
    rw [chained_concat, hnew, if_neg hkeeps, List.append_nil]
    exact h.directories

/-- An entry that does not count changes nothing. -/
theorem gatherEntry_of_not (hcounts : d.counts root entry = false) :
    d.gatherEntry root g entry = .ok g := by
  cases entry with
  | file rel =>
    have hskip : (!rel.isVisible || !d.accepts (root.join rel)) = true := by
      rw [← Bool.not_and]
      exact congrArg (!·) hcounts
    unfold gatherEntry
    exact if_pos hskip
  | directory rel =>
    have hvisible : rel.isVisible = false := hcounts
    unfold gatherEntry
    exact if_pos (by rw [hvisible]; rfl)

/-- What is gathered of one more entry. -/
theorem Gathers.next (h : Gathers d root entries g) (hg : d.gatherEntry root g entry = .ok g') :
    (d.counts root entry = true → (d.chain entry.home).keys.Nodup) ∧
      Gathers d root (entries ++ [entry]) g' := by
  cases hcounts : d.counts root entry with
  | false =>
    rw [gatherEntry_of_not hcounts] at hg
    cases hg
    exact ⟨nofun, h.skip hcounts⟩
  | true =>
    cases entry with
    | file rel =>
      obtain ⟨hnodup, hnext⟩ := h.file hcounts hg
      exact ⟨fun _ => hnodup, hnext⟩
    | directory rel =>
      obtain ⟨hnodup, hnext⟩ := h.directory hcounts hg
      exact ⟨fun _ => hnodup, hnext⟩

/-- An entry is gathered if no key repeats in its chain. -/
theorem exists_gatherEntry (g : Gathered)
    (h : d.counts root entry = true → (d.chain entry.home).keys.Nodup) :
    ∃ g', d.gatherEntry root g entry = .ok g' := by
  cases hcounts : d.counts root entry with
  | false => exact ⟨g, gatherEntry_of_not hcounts⟩
  | true =>
    obtain ⟨chain, complete, hchain⟩ := exists_chainOf.mpr (h hcounts)
    cases entry with
    | file rel =>
      obtain ⟨hvisible, haccepts⟩ := Bool.and_eq_true_iff.mp hcounts
      unfold gatherEntry
      simp only [hvisible, haccepts, Bool.not_true, Bool.or_self, Bool.false_eq_true, if_false]
      exact ⟨_, Outcome.bind_eq_ok.mpr ⟨_, hchain, rfl⟩⟩
    | directory rel =>
      have hvisible : rel.isVisible = true := hcounts
      unfold gatherEntry
      simp only [hvisible, Bool.not_true, Bool.false_eq_true, if_false]
      cases hkeeps : complete && !chain.isEmpty with
      | true => exact ⟨_, Outcome.bind_eq_ok.mpr ⟨_, hchain, if_pos hkeeps⟩⟩
      | false => exact ⟨_, Outcome.bind_eq_ok.mpr ⟨_, hchain, if_neg (by simp [hkeeps])⟩⟩

/-- Entries are gathered just when no key repeats in any of their chains. -/
theorem gather_spec (d : Detection) (root : Path) (entries : List Entry) :
    ((∃ g, d.gather root entries = .ok g) ↔
      ∀ entry ∈ entries, d.counts root entry = true → (d.chain entry.home).keys.Nodup) ∧
    ∀ g, d.gather root entries = .ok g → Gathers d root entries g := by
  have fold (before rest : List Entry) (g : Gathered) (h : Gathers d root before g) :
      ((∃ g', rest.foldlM (d.gatherEntry root) g = .ok g') ↔
        ∀ entry ∈ rest, d.counts root entry = true → (d.chain entry.home).keys.Nodup) ∧
      ∀ g', rest.foldlM (d.gatherEntry root) g = .ok g' → Gathers d root (before ++ rest) g' := by
    induction rest generalizing before g with
    | nil =>
      refine ⟨⟨fun _ => nofun, fun _ => ⟨g, rfl⟩⟩, fun g' hg' => ?_⟩
      cases hg'
      rw [List.append_nil]
      exact h
    | cons entry rest ih =>
      simp only [List.foldlM_cons, Outcome.bind_eq_ok]
      rw [List.append_cons]
      constructor
      · rw [List.forall_mem_cons]
        constructor
        · rintro ⟨g', next, hnext, hg'⟩
          obtain ⟨hnodup, hgathers⟩ := h.next hnext
          exact ⟨hnodup, (ih _ next hgathers).1.mp ⟨g', hg'⟩⟩
        · rintro ⟨hfirst, hrest⟩
          obtain ⟨next, hnext⟩ := exists_gatherEntry g hfirst
          obtain ⟨g', hg'⟩ := (ih _ next (h.next hnext).2).1.mpr hrest
          exact ⟨g', next, hnext, hg'⟩
      · rintro g' ⟨next, hnext, hg'⟩
        exact (ih _ next (h.next hnext).2).2 g' hg'
  exact fold [] entries _ (gathers_nil d root)

/-! ### The groups of places -/

/-- The files of a place are those found whose chains end there. -/
theorem mem_filesAt {file : Path} {cs : List Component} :
    file ∈ d.filesAt root entries cs ↔
      ∃ rel ∈ d.found root entries, d.place rel = cs ∧ root.join rel = file := by
  simp only [filesAt, List.mem_map, List.mem_filter, decide_eq_true_eq, and_assoc]

/-- A place has files if a file's chain ends there. -/
theorem filesAt_ne_nil {cs : List Component} :
    d.filesAt root entries cs ≠ [] ↔ ∃ rel ∈ d.found root entries, d.place rel = cs := by
  constructor
  · intro hfiles
    obtain ⟨file, hfile⟩ := List.exists_mem_of_ne_nil _ hfiles
    obtain ⟨rel, hrel, hplace, -⟩ := mem_filesAt.mp hfile
    exact ⟨rel, hrel, hplace⟩
  · rintro ⟨rel, hrel, hplace⟩
    exact List.ne_nil_of_mem (mem_filesAt.mpr ⟨rel, hrel, hplace, rfl⟩)

/-- There is a group for the place of each file, and no other. -/
theorem Gathers.mem_values (h : Gathers d root entries g) {group : ChainGroup} :
    group ∈ g.groups.values ↔ ∃ rel ∈ d.found root entries,
      group = ⟨Path.ofComponents (d.place rel), d.chain (above rel),
        d.filesAt root entries (d.place rel)⟩ := by
  have hget (cs : List Component) : g.groups.get? cs = some group ↔ (cs, group) ∈ g.groups.entries :=
    Keyed.get?_eq_some_iff h.sorted
  constructor
  · intro hgroup
    obtain ⟨⟨cs, _⟩, hmem, rfl⟩ := List.mem_map.mp hgroup
    have hsome := (hget cs).mpr hmem
    rw [h.get?] at hsome
    split at hsome
    · cases hsome
    · next hfiles =>
      obtain ⟨rel, hrel, rfl⟩ := filesAt_ne_nil.mp hfiles
      exact ⟨rel, hrel, by rw [(d.chain_above rel).1]; exact (Option.some.inj hsome).symm⟩
  · rintro ⟨rel, hrel, rfl⟩
    have hfiles := filesAt_ne_nil.mpr ⟨rel, hrel, rfl⟩
    refine List.mem_map.mpr ⟨(d.place rel, _), (hget _).mp ?_, rfl⟩
    rw [h.get?, if_neg hfiles, (d.chain_above rel).1]

end

end Detection

end SourceTables
