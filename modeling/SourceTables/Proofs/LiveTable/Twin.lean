import SourceTables.Proofs.LiveTable.Alike
import SourceTables.Proofs.Workspace.Amid

/-!
# `SourceTables.Proofs.LiveTable.Twin`: the first refresh of a table in two trees

A table that was never refreshed is refreshed in two trees that resemble one another, by workspaces that have
converted different sources before. Either both refreshes fail, or both succeed, and the tables show the same.

The theorems:

* `candidate_amid`: the candidate of a table, and what is left in the ledger.
* `refresh_amid`: the artifacts that a refreshed table shows are those of records in the ledger.
* `refresh_twin`, `refresh_twins`: a refresh that succeeds in one tree succeeds in the other.
-/

set_option autoImplicit false

namespace SourceTables

/-- The files whose conversions a table needs. -/
def Origin.sources (o : Origin) (d : Detection) (fs : Files) : List Path :=
  match o.layout d fs with
  | .ok layout => layout.files
  | .error _ => []

/-- Whether all artifacts of a snapshot are those of records in a ledger. -/
def Snapshot.Sourced (s : Snapshot) (v : Workspace) (done : Set Path) : Prop :=
  ∀ a ∈ s.artifacts, ∃ q ∈ done, ∃ r, v.ledger.get? q = some r ∧ a ∈ r.artifacts

/-- Records that are kept stay so. -/
theorem Snapshot.Sourced.mono {s : Snapshot} {v v' : Workspace} {done done' : Set Path} (h : s.Sourced v done)
    (hsub : done ⊆ done') (hkept : ∀ q ∈ done, v'.ledger.get? q = v.ledger.get? q) : s.Sourced v' done' :=
  fun a ha => by
    obtain ⟨q, hq, r, hr, har⟩ := h a ha
    exact ⟨q, hsub hq, r, (hkept q hq).trans hr, har⟩

/-- Whether the files of a table are the same in all trees that resemble the first one, and each of them is
new or can be converted. -/
structure Origin.Eligible (w : Workspace) (first : Files) (off : Set Location) (sources : List Path)
    (maxDepth : Nat) (done : Set Path) (o : Origin) : Prop where
  layout : ∀ tree, tree.nodes.Sorted → w.Resembles first off sources tree →
    o.layout (w.detection maxDepth) tree = o.layout (w.detection maxDepth) first
  subset : ∀ p ∈ o.sources (w.detection maxDepth) first, p ∈ sources
  nodup : (o.sources (w.detection maxDepth) first).Nodup
  ready : ∀ p ∈ o.sources (w.detection maxDepth) first, p ∈ done → (w.alone first p).isSome = true

namespace Workspace

theorem detection_of_setup {w v : Workspace} (h : v.setup = w.setup) : v.detection = w.detection := by
  have hregistry : v.registry = w.registry := congrArg (fun s => s.1) h
  have hdir : v.artifactDir = w.artifactDir := congrArg (fun s => s.2.2.2.1) h
  funext maxDepth
  rw [detection, hregistry, hdir, detection]

/-- Saving the ledger does not touch its records. -/
theorem get?_trySave (w : Workspace) (fs : Files) (p : Path) :
    (w.trySave fs).1.ledger.get? p = w.ledger.get? p := by
  rw [Ledger.get?, records_trySave, Ledger.get?]

end Workspace

/-- A snapshot that shows the same as none is none, but for times. -/
theorem Snapshot.untimed_of_sameContent {keys : List PartitionKey} {partitions : List PartitionEntry}
    {m : LedgerMap} {columns : Schema} {now : Nat}
    (h : empty.sameContent (build keys partitions m columns now) = true) :
    (build keys partitions m columns now).untimed = empty := by
  simp only [sameContent, sameEntries, empty, build, Bool.and_eq_true, beq_iff_eq] at h
  obtain ⟨⟨⟨hkeys, hpartitions, -⟩, -⟩, hschema⟩ := h
  obtain rfl := hkeys
  obtain rfl := List.eq_nil_of_length_eq_zero hpartitions.symm
  have hdata : dataColumns [] columns = [] := (List.append_eq_nil_iff.mp hschema.symm).1
  unfold untimed build
  rw [hdata]
  rfl

namespace LiveTable

open Workspace (Amid Steady)

variable {w v v' : Workspace} {first tree tree' : Files} {off off' : Set Location} {sources sources' : List Path}
  {done done' : Set Path} {t : LiveTable}

/-! ### Candidates -/

/-- What a candidate is made of: the files of the table get the records that they get alone, and these are in
the ledger then. -/
structure Prepared (w : Workspace) (first : Files) (off : Set Location) (sources : List Path)
    (done : Set Path) (t : LiveTable) (v : Workspace) (tree : Files)
    (results : List (Path × Except Error Record)) : Prop where
  outcomes : results.map Workspace.outcome
    = (t.origin.sources (w.detection t.maxDepth) first).map fun p => (p, w.alone first p)
  amid : Amid w first off sources (done ∪ { p | p ∈ t.origin.sources (w.detection t.maxDepth) first }) v tree
  recorded : ∀ p r, (p, .ok r) ∈ results →
    p ∈ t.origin.sources (w.detection t.maxDepth) first ∧ v.ledger.get? p = some r

/-- The candidate of a table, and what is left in the ledger. -/
theorem candidate_amid (hsteady : Steady w first off sources) (h : Amid w first off sources done v tree)
    (ho : t.origin.Eligible w first off sources t.maxDepth done) :
    ∃ mid results, Prepared w first off sources done t (t.candidate v tree uninterrupted).2.1 mid results ∧
      Amid w first off sources (done ∪ { p | p ∈ t.origin.sources (w.detection t.maxDepth) first })
        (t.candidate v tree uninterrupted).2.1 (t.candidate v tree uninterrupted).2.2 ∧
      (∀ q ∈ done, (t.candidate v tree uninterrupted).2.1.ledger.get? q = v.ledger.get? q) ∧
      (t.candidate v tree uninterrupted).1 = (t.origin.layout (w.detection t.maxDepth) first >>= fun layout =>
        t.assemble mid uninterrupted layout results) := by
  have hlayout := ho.layout tree h.sorted (h.phase.resembles h.subset)
  have hsubset := ho.subset
  have hnodup := ho.nodup
  have hready := ho.ready
  unfold candidate
  rw [Workspace.detection_of_setup h.setup, hlayout]
  cases hfound : t.origin.layout (w.detection t.maxDepth) first with
  | error e =>
    have hnone : t.origin.sources (w.detection t.maxDepth) first = [] := by rw [Origin.sources, hfound]
    have hsame : done ∪ { p | p ∈ t.origin.sources (w.detection t.maxDepth) first } = done := by simp [hnone]
    refine ⟨tree, [], ⟨by rw [hnone]; rfl, ?_, nofun⟩, ?_, fun _ _ => rfl, rfl⟩
    · rw [hsame]
      exact h
    · rw [hsame]
      exact h
  | ok layout =>
    have hfiles : t.origin.sources (w.detection t.maxDepth) first = layout.files := by
      rw [Origin.sources, hfound]
    rw [hfiles] at hsubset hnodup hready
    obtain ⟨houtcomes, hamid, hkept, hrecorded⟩ := h.ensureAll hsteady hsubset hnodup hready
    refine ⟨(v.ensureAll tree layout.files).2.2, (v.ensureAll tree layout.files).1, ⟨?_, ?_, ?_⟩, ?_, hkept,
      rfl⟩ <;> rw [hfiles]
    · exact houtcomes
    · exact hamid
    · exact hrecorded
    · exact hamid.tick hsteady

/-- The artifacts that a candidate shows are those of records in the ledger. -/
theorem Prepared.sourced {results : List (Path × Except Error Record)}
    (h : Prepared w first off sources done t v tree results) {mid : Files} {layout : Layout} {s : Snapshot}
    (hs : t.assemble mid uninterrupted layout results = .ok s) :
    s.Sourced v (done ∪ { p | p ∈ t.origin.sources (w.detection t.maxDepth) first }) := fun a ha => by
  obtain ⟨q, r, hresult, har⟩ := of_mem_assemble hs ha
  obtain ⟨hq, hr⟩ := h.recorded q r hresult
  exact ⟨q, .inr hq, r, hr, har⟩

/-- A candidate in one tree is one in another, too, but for times. -/
theorem Prepared.assemble (hsteady : Steady w first off sources) (hsteady' : Steady w first off' sources')
    (hcurrent : t.current = .empty)
    {results results' : List (Path × Except Error Record)}
    (h : Prepared w first off sources done t v tree results)
    (h' : Prepared w first off' sources' done' t v' tree' results') {layout : Layout} {s : Snapshot}
    (hs : t.assemble tree uninterrupted layout results = .ok s) :
    ∃ s', t.assemble tree' uninterrupted layout results' = .ok s' ∧ s'.untimed = s.untimed := by
  refine assemble_of_untimed hcurrent (h'.outcomes.trans h.outcomes.symm) (fun q r hresult a ha => ?_) hs
  obtain ⟨hq, hr⟩ := h.recorded q r hresult
  unfold Artifact.schema
  rw [h.amid.content_eq hsteady hsteady' h'.amid (.inr hq) (.inr hq) hr ha]

/-! ### Refreshes -/

/-- The first pass that succeeds leaves what its candidate shows. -/
theorem untimed_of_finishPass (hcurrent : t.current = .empty) {mid : Files} {layout : Layout}
    {results : List (Path × Except Error Record)} {s : Snapshot}
    (hs : t.assemble mid uninterrupted layout results = .ok s) {t' : LiveTable}
    (h : t'.current = s ∨ t'.current = t.current ∧ t.current.sameContent s = true) :
    t'.current.untimed = s.untimed ∧ t'.current.artifacts ⊆ s.artifacts := by
  obtain hnew | ⟨hold, hsame⟩ := h
  · rw [hnew]
    exact ⟨rfl, List.Subset.refl _⟩
  · obtain ⟨-, partitions, columns, -, -, rfl⟩ := assemble_eq_ok.mp hs
    rw [hold, hcurrent, Snapshot.untimed_of_sameContent (hcurrent ▸ hsame)]
    exact ⟨rfl, List.nil_subset _⟩

/-- A refresh is a pass from its beginning to its end. -/
theorem refresh_eq (t : LiveTable) (v : Workspace) (tree : Files) : t.refresh v tree uninterrupted
    = t.beginPass.2.finishPass (t.beginPass.2.candidate v tree uninterrupted).2.1
        (t.beginPass.2.candidate v tree uninterrupted).2.2 t.beginPass.1
        (t.beginPass.2.candidate v tree uninterrupted).1 := rfl

/-- The first refresh of a table: the ledger goes on, and what the table shows comes from its records. -/
theorem refresh_amid (hsteady : Steady w first off sources) (hcurrent : t.current = .empty)
    (h : Amid w first off sources done v tree)
    (ho : t.origin.Eligible w first off sources t.maxDepth done) {outcome : Except Error Bool}
    {t' : LiveTable} {v₁ : Workspace} {tree₁ : Files}
    (hrun : t.refresh v tree uninterrupted = (outcome, t', v₁, tree₁)) :
    Amid w first off sources (done ∪ { p | p ∈ t.origin.sources (w.detection t.maxDepth) first }) v₁ tree₁ ∧
      (∀ q ∈ done, v₁.ledger.get? q = v.ledger.get? q) ∧ t'.origin = t.origin ∧
      (∀ swapped, outcome = .ok swapped →
        t'.current.Sourced v₁ (done ∪ { p | p ∈ t.origin.sources (w.detection t.maxDepth) first })) := by
  obtain ⟨mid, results, hprepared, hamid, hkept, hbuilt⟩ :=
    candidate_amid (t := t.beginPass.2) hsteady h ho
  obtain ⟨horigin, ⟨e, -, rfl, -, hstate⟩ | ⟨s, swapped, hs, rfl, hshown, hstate⟩⟩ :=
    finishPass_cases (refresh_eq t v tree ▸ hrun)
  · obtain ⟨rfl, rfl⟩ := Prod.mk.inj hstate
    exact ⟨hamid, hkept, horigin, nofun⟩
  · obtain rfl : v₁ = _ := congrArg Prod.fst hstate
    obtain rfl : tree₁ = _ := congrArg Prod.snd hstate
    rw [hbuilt] at hs
    obtain ⟨layout, -, hs⟩ := Outcome.bind_eq_ok.mp hs
    obtain ⟨-, hsub⟩ := untimed_of_finishPass hcurrent hs hshown
    refine ⟨hamid.trySave hsteady, fun q hq => ?_, horigin, fun _ _ a ha => ?_⟩
    · rw [Workspace.get?_trySave, hkept q hq]
    · obtain ⟨q, hq, r, hr, har⟩ := hprepared.sourced hs a (hsub ha)
      exact ⟨q, hq, r, (Workspace.get?_trySave ..).trans hr, har⟩

/-- A first refresh that succeeds in one tree succeeds in another, and the table shows the same. -/
theorem refresh_twin (hsteady : Steady w first off sources) (hsteady' : Steady w first off' sources')
    (hcurrent : t.current = .empty) (h : Amid w first off sources done v tree)
    (h' : Amid w first off' sources' done' v' tree')
    (ho : t.origin.Eligible w first off sources t.maxDepth done)
    (ho' : t.origin.Eligible w first off' sources' t.maxDepth done') {swapped : Bool}
    {t₁ : LiveTable} {after : Workspace × Files}
    (hrun : t.refresh v tree uninterrupted = (.ok swapped, t₁, after)) :
    ∃ swapped' t₁' after', t.refresh v' tree' uninterrupted = (.ok swapped', t₁', after') ∧
      t₁'.current.untimed = t₁.current.untimed := by
  obtain ⟨mid, results, hprepared, -, -, hbuilt⟩ := candidate_amid (t := t.beginPass.2) hsteady h ho
  obtain ⟨mid', results', hprepared', -, -, hbuilt'⟩ := candidate_amid (t := t.beginPass.2) hsteady' h' ho'
  obtain ⟨-, ⟨_, -, houtcome, -⟩ | ⟨s, _, hs, -, hshown, -⟩⟩ :=
    finishPass_cases (refresh_eq t v tree ▸ hrun)
  · cases houtcome
  rw [hbuilt] at hs
  obtain ⟨layout, hlayout, hs⟩ := Outcome.bind_eq_ok.mp hs
  have hempty : t.beginPass.2.current = .empty := hcurrent
  obtain ⟨s', hs', hsame⟩ := hprepared.assemble hsteady hsteady' hempty hprepared' hs
  rw [hlayout] at hbuilt'
  cases hrun' : t.refresh v' tree' uninterrupted with | mk outcome' after' =>
  obtain ⟨t₁', v₁', tree₁'⟩ := after'
  obtain ⟨-, ⟨e, he, -⟩ | ⟨s₂, swapped', hs₂, rfl, hshown', -⟩⟩ :=
    finishPass_cases (refresh_eq t v' tree' ▸ hrun')
  · cases (hbuilt'.trans hs').symm.trans he
  · obtain rfl := Except.ok.inj ((hbuilt'.trans hs').symm.trans hs₂)
    refine ⟨swapped', t₁', _, rfl, ?_⟩
    rw [(untimed_of_finishPass hcurrent hs' hshown').1, hsame, (untimed_of_finishPass hcurrent hs hshown).1]

/-- So both refreshes succeed, and the tables show the same, or both fail. -/
theorem refresh_twins (hsteady : Steady w first off sources) (hsteady' : Steady w first off' sources')
    (hcurrent : t.current = .empty) (h : Amid w first off sources done v tree)
    (h' : Amid w first off' sources' done' v' tree')
    (ho : t.origin.Eligible w first off sources t.maxDepth done)
    (ho' : t.origin.Eligible w first off' sources' t.maxDepth done') {outcome outcome' : Except Error Bool}
    {t₁ t₁' : LiveTable} {after after' : Workspace × Files}
    (hrun : t.refresh v tree uninterrupted = (outcome, t₁, after))
    (hrun' : t.refresh v' tree' uninterrupted = (outcome', t₁', after')) :
    (∃ swapped swapped', outcome = .ok swapped ∧ outcome' = .ok swapped' ∧
        t₁'.current.untimed = t₁.current.untimed) ∨
      ∃ e e', outcome = .error e ∧ outcome' = .error e' := by
  cases outcome with
  | ok swapped =>
    obtain ⟨swapped', _, _, hsucceeds, hshown⟩ := refresh_twin hsteady hsteady' hcurrent h h' ho ho' hrun
    cases hrun'.symm.trans hsucceeds
    exact .inl ⟨swapped, swapped', rfl, rfl, hshown⟩
  | error e =>
    cases outcome' with
    | ok swapped' =>
      obtain ⟨_, _, _, hsucceeds, -⟩ := refresh_twin hsteady' hsteady hcurrent h' h ho' ho hrun'
      cases hrun.symm.trans hsucceeds
    | error e' => exact .inr ⟨e, e', rfl, rfl⟩

end LiveTable

end SourceTables
