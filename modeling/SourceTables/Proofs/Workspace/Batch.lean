import SourceTables.Proofs.Workspace.Transparent

/-!
# `SourceTables.Proofs.Workspace.Batch`: many sources, one after another

Different sources are converted one after another: each is found in the files that the conversions before
it have left.

The theorems:

* `ensureAll_eq`: different sources share no runs.
* `made_of_ensureEach`: each source gets a record of the version that was found, and the first artifact
  of that record holds the first table that the converter makes of it.
-/

set_option autoImplicit false

namespace SourceTables.Workspace

/-! ### One after another -/

/-- The conversions of sources, each after those before it. -/
def ensureEach (w : Workspace) (fs : Files) :
    List Path → List (Path × Except Error Record) × Workspace × Files
  | [] => ([], w, fs)
  | p :: rest =>
    let (outcome, w, fs) := w.ensure fs p
    let (results, w, fs) := ensureEach w fs rest
    ((p, outcome) :: results, w, fs)

/-- The files as each of some sources finds them, and as the last one leaves them. -/
def passed (w : Workspace) (fs : Files) : List Path → List Files
  | [] => [fs]
  | p :: rest => fs :: passed (w.ensure fs p).2.1 (w.ensure fs p).2.2 rest

/-- Different sources share no runs. -/
theorem ensureAll_eq (w : Workspace) (fs : Files) {ps : List Path}
    (hnodup : (ps.map Path.components).Nodup) : w.ensureAll fs ps = w.ensureEach fs ps := by
  have from_ (w : Workspace) (fs : Files) (runs : List SharedRun) (position : Nat)
      (hruns : ∀ run ∈ runs, run.path.components ∉ ps.map Path.components) :
      w.ensureFrom fs runs position ps = w.ensureEach fs ps := by
    induction ps generalizing w fs runs position with
    | nil => rfl
    | cons p rest ih =>
      obtain ⟨hnew, hrest⟩ := List.nodup_cons.mp hnodup
      have hshared : w.shared? runs position p = none := by
        unfold shared?
        refine List.find?_eq_none.mpr fun run hrun => ?_
        have hother : run.path.same p ≠ true := fun hsame =>
          hruns run hrun (Path.same_iff.mp hsame ▸ .head _)
        simp [hother]
      have hruns' (outcome : Except Error Record) :
          ∀ run ∈ (⟨position, p, outcome⟩ :: runs : List SharedRun),
            run.path.components ∉ rest.map Path.components := by
        intro run hrun
        obtain rfl | hrun := List.mem_cons.mp hrun
        · exact hnew
        · exact fun hmem => hruns run hrun (.tail _ hmem)
      rw [ensureFrom, ensureEach, hshared]
      dsimp only
      rw [ih hrest _ _ _ _ (hruns' _)]
  exact from_ w fs [] 0 nofun

/-- The answers stand in the order of the paths. -/
theorem map_fst_ensureEach (w : Workspace) (fs : Files) {ps : List Path}
    (hnodup : (ps.map Path.components).Nodup) : (w.ensureEach fs ps).1.map Prod.fst = ps := by
  rw [← ensureAll_eq w fs hnodup]
  exact map_fst_ensureFrom w fs [] 0 ps

/-- Different sources get different answers. -/
theorem nodup_ensureEach (w : Workspace) (fs : Files) {ps : List Path}
    (hnodup : (ps.map Path.components).Nodup) :
    ((w.ensureEach fs ps).1.map fun result => result.1.components).Nodup := by
  have hmap := congrArg (List.map Path.components) (map_fst_ensureEach w fs hnodup)
  rw [List.map_map] at hmap
  exact hmap ▸ hnodup

/-- The files that are left are the last of those passed. -/
theorem mem_passed (w : Workspace) (fs : Files) (ps : List Path) :
    fs ∈ w.passed fs ps ∧ (w.ensureEach fs ps).2.2 ∈ w.passed fs ps := by
  induction ps generalizing w fs with
  | nil => exact ⟨.head _, .head _⟩
  | cons p rest ih => exact ⟨.head _, .tail _ (ih _ _).2⟩

/-- The trees that the rest of a pass goes through are among those of the pass. -/
theorem passed_append_subset (w : Workspace) (fs before : Files) (rest : List Path) (trees : List Files) :
    w.passed fs rest ++ fs :: trees ⊆ before :: w.passed fs rest ++ trees := by
  intro tree htree
  obtain htree | htree := List.mem_append.mp htree
  · exact List.mem_append_left _ (.tail _ htree)
  · obtain rfl | htree := List.mem_cons.mp htree
    · exact List.mem_append_left _ (.tail _ (w.mem_passed tree rest).1)
    · exact List.mem_append_right _ htree

/-- Conversions one after another keep everything accounted for if they leave the ledger file as it is. -/
theorem Accounted.ensureEach {dir : Path} {trees : List Files} {w : Workspace} {fs : Files} {ps : List Path}
    (hfaithful : Faithful (w.passed fs ps ++ trees)) (h : Accounted dir trees w fs)
    (hfile : ∀ tree ∈ w.passed fs ps,
      tree.content (Ledger.initial dir).file = fs.content (Ledger.initial dir).file) :
    Accounted dir (w.passed fs ps ++ trees) (w.ensureEach fs ps).2.1 (w.ensureEach fs ps).2.2 := by
  induction ps generalizing w fs trees with
  | nil => exact h.mono (List.subset_cons_self _ _)
  | cons p rest ih =>
    cases hrun : w.ensure fs p with | mk outcome after =>
    obtain ⟨w', fs'⟩ := after
    simp only [Workspace.ensureEach, passed, hrun] at hfile hfaithful ⊢
    have hsub := passed_append_subset w' fs' fs rest trees
    have hfirst := hfile fs' (.tail _ (mem_passed w' fs' rest).1)
    have hnext : Accounted dir (fs' :: trees) w' fs' :=
      h.ensure (hfaithful.mono (List.Subset.trans (List.subset_append_right _ _) hsub)) hrun hfirst
    refine (ih (hfaithful.mono hsub) hnext fun tree htree => ?_).mono hsub
    exact (hfile tree (.tail _ htree)).trans hfirst.symm

/-! ### The first table of a source -/

/-- The first table that the converter makes of a source, with the encoding of its artifact. -/
def primary (w : Workspace) (fs : Files) (p : Path) : Except Error (Engine × Artifact.Content) :=
  match w.registry.find? p with
  | none => .error (.unsupportedFormat p)
  | some f => do
    match ← f.contents fs p w.options with
    | [] => .error (.conversion p f.id "no tables found")
    | c :: _ => return c

/-- The first table of a source depends on its content alone. -/
theorem primary_congr {w : Workspace} {fs fs' : Files} {p : Path} {c : Engine × Artifact.Content}
    (hcontent : fs'.content p = fs.content p) (h : w.primary fs' p = .ok c) : w.primary fs p = .ok c := by
  unfold primary at h ⊢
  cases hf : w.registry.find? p with
  | none =>
    rw [hf] at h
    cases h
  | some f =>
    rw [hf] at h
    replace h := Outcome.bind_eq_ok.mp h
    obtain ⟨contents, hcontents, h⟩ := h
    refine Outcome.bind_eq_ok.mpr ⟨contents, Outcome.eq_ok_of_toOption ?_, h⟩
    rw [← f.toOption_contents hcontent rfl rfl, hcontents]
    rfl

theorem primary_of_setup {w w' : Workspace} (h : w'.setup = w.setup) : w'.primary = w.primary := by
  have hregistry : w'.registry = w.registry := congrArg (fun s => s.1) h
  have hoptions : w'.options = w.options := congrArg (fun s => s.2.1) h
  funext fs p
  unfold primary
  rw [hregistry, hoptions]

theorem isOf_of_setup {w w' : Workspace} (h : w'.setup = w.setup) : w'.isOf = w.isOf := by
  funext fs p r
  unfold isOf
  rw [version_of_setup h]

/-- Whether a record is about a source as it is, and its first artifact was as recorded at some time and
held the first table of the source. -/
structure Made (w : Workspace) (trees : List Files) (fs : Files) (p : Path) (r : Record) : Prop where
  version : w.isOf fs p r = true
  table : ∃ c, w.primary fs p = .ok c ∧ ∃ after ∈ trees, isIntact after r.primary = true ∧
    Artifact.content after r.primary.path = .ok c

theorem Made.mono {w : Workspace} {trees trees' : List Files} {fs : Files} {p : Path} {r : Record}
    (h : Made w trees fs p r) (hsub : trees ⊆ trees') : Made w trees' fs p r := by
  obtain ⟨hversion, c, hc, after, hafter, h⟩ := h
  exact ⟨hversion, c, hc, after, hsub hafter, h⟩

theorem Made.of_setup {w w' : Workspace} {trees : List Files} {fs : Files} {p : Path} {r : Record}
    (h : Made w' trees fs p r) (hsetup : w'.setup = w.setup) : Made w trees fs p r := by
  obtain ⟨hversion, htable⟩ := h
  rw [isOf_of_setup hsetup] at hversion
  rw [primary_of_setup hsetup] at htable
  exact ⟨hversion, htable⟩

section

variable {trees : List Files} {w w' : Workspace} {fs fs' : Files}

theorem setup_ensure {p : Path} {result : Except Error Record} (hrun : w.ensure fs p = (result, w', fs')) :
    w'.setup = w.setup := by
  unfold ensure at hrun
  split at hrun
  · cases hrun
    rfl
  · exact setup_ensureVersion hrun

/-- A conversion that is returned is made. -/
theorem made_of_ensure {p : Path} {r : Record} (hfaithful : Faithful (fs' :: trees)) (hfs : fs ∈ trees)
    (hsound : Sound trees w.ledger.records) (hrun : w.ensure fs p = (.ok r, w', fs')) :
    Made w (fs' :: trees) fs p r := by
  obtain ⟨-, -, hversion, -⟩ := get?_of_ensure hrun
  obtain ⟨f, hf, contents, hcontents, hartifacts⟩ := artifacts_of_ensure hfaithful hfs hsound hrun
  refine ⟨hversion, ?_⟩
  cases hartifacts with
  | cons hfirst _ =>
    refine ⟨_, ?_, fs', .head _, hfirst⟩
    unfold primary
    rw [hf]
    dsimp only
    rw [hcontents]
    rfl

/-- Different sources that are converted one after another are made of what each of them finds. -/
theorem made_of_ensureEach {ps : List Path} (hfaithful : Faithful (w.passed fs ps ++ trees))
    (hfs : fs ∈ trees) (hsound : Sound trees w.ledger.records)
    (hall : ∀ result ∈ (w.ensureEach fs ps).1, ∃ r, result.2 = .ok r) :
    List.Forall₂ (fun (found : Path × Files) (result : Path × Except Error Record) =>
        result.1 = found.1 ∧ ∃ r, result.2 = .ok r ∧
          Made w (w.passed fs ps ++ trees) found.2 found.1 r)
      (ps.zip (w.passed fs ps)) (w.ensureEach fs ps).1 := by
  induction ps generalizing w fs trees with
  | nil => exact .nil
  | cons p rest ih =>
    cases hrun : w.ensure fs p with | mk outcome after =>
    obtain ⟨w', fs'⟩ := after
    have hsetup := setup_ensure hrun
    simp only [ensureEach, passed, hrun] at hall hfaithful ⊢
    -- The trees that are still to come begin with the one that this source leaves.
    have hsub' := passed_append_subset w' fs' fs rest trees
    have hsub : fs' :: trees ⊆ fs :: w'.passed fs' rest ++ trees :=
      List.Subset.trans (List.subset_append_right _ _) hsub'
    obtain ⟨r, hr⟩ := hall _ (.head _)
    cases hr
    refine .cons ⟨rfl, r, rfl, (made_of_ensure (hfaithful.mono hsub) hfs hsound hrun).mono hsub⟩ ?_
    have hrest := ih (hfaithful.mono hsub') (.head _) (hsound.ensure (hfaithful.mono hsub) hfs hrun)
      fun result hresult => hall result (.tail _ hresult)
    refine hrest.imp fun found result ⟨hpath, r, hr, hmade⟩ => ⟨hpath, r, hr, ?_⟩
    exact (hmade.mono hsub').of_setup hsetup

end

end SourceTables.Workspace
