import SourceTables.Proofs.Workspace.Edited
import SourceTables.Proofs.Workspace.Steady

/-!
# `SourceTables.Proofs.Workspace.Amid`: a ledger beside changes elsewhere

A workspace that starts without records keeps those of the sources that were converted. Each of them is the
record that its source gets alone in the first tree, but for times, and it stands: a source that is asked
for again is not converted again. That the ledger is saved in between makes no difference.

The theorems:

* `Amid.ensure`, `Amid.ensureAll`: sources that are converted, or were before.
* `Amid.trySave`: the ledger is saved.
-/

set_option autoImplicit false

namespace SourceTables

namespace Workspace

variable {w v : Workspace} {first tree tree' : Files} {off off' : Set Location} {sources sources' : List Path}
  {done done' : Set Path} {p q : Path}

/-- A workspace and a tree in which some sources were converted: the ledger holds the records of these, and
each of them stands. -/
structure Amid (w : Workspace) (first : Files) (off : Set Location) (sources : List Path) (done : Set Path)
    (v : Workspace) (tree : Files) : Prop where
  sorted : tree.nodes.Sorted
  setup : v.setup = w.setup
  dir : v.ledger.dir = w.ledger.dir
  subset : done ⊆ { q | q ∈ sources }
  phase : Phase w first off done tree
  fresh : ∀ q ∈ sources, q ∉ done → v.ledger.get? q = none
  recorded : ∀ q ∈ done, (v.ledger.get? q).map Record.untimed = w.alone first q
  current : ∀ q ∈ done, ∀ r, v.ledger.get? q = some r → v.ensure tree q = (.ok r, v, tree)

/-- A conversion that stands still does if its source and its artifacts are left alone. -/
theorem ensure_again {v' : Workspace} {r : Record} (h : v.ensure tree q = (.ok r, v, tree))
    (hsetup : v'.setup = v.setup) (hget : v'.ledger.get? q = v.ledger.get? q)
    (hsource : tree'.stat q = tree.stat q) (hartifacts : ∀ a ∈ r.artifacts, tree'.stat a.path = tree.stat a.path) :
    v'.ensure tree' q = (.ok r, v', tree') := by
  obtain ⟨hrecord, -, hof, -⟩ := get?_of_ensure h
  refine (again_iff h hsetup (hget.trans hrecord)).mpr ⟨?_, fun a ha => ?_⟩
  · unfold isOf version Fingerprint.compute at hof ⊢
    rw [hsource]
    exact hof
  · have hintact := intact_of_ensure h ha
    unfold isIntact Fingerprint.probe Fingerprint.compute at hintact ⊢
    rw [hartifacts a ha]
    exact hintact

/-- A conversion leaves the ledger in its directory. -/
theorem dir_ensure (w : Workspace) (fs : Files) (p : Path) :
    (w.ensure fs p).2.1.ledger.dir = w.ledger.dir := by
  have hrun : w.ensure fs p = ((w.ensure fs p).1, (w.ensure fs p).2) := rfl
  obtain ⟨hledger, -⟩ | ⟨r, -, -, hledger⟩ := records_ensure hrun <;> rw [hledger]
  rfl

namespace Amid

/-- Before any conversion. -/
theorem start (hsteady : Steady w first off sources) (hsorted : tree.nodes.Sorted)
    (h : first.AgreesOff off tree) : Amid w first off sources ∅ w tree where
  sorted := hsorted
  setup := rfl
  dir := rfl
  subset := Set.empty_subset _
  phase := .start w h
  fresh q hq _ := hsteady.fresh q hq
  recorded := nofun
  current := nofun

section

variable (hsteady : Steady w first off sources) (h : Amid w first off sources done v tree)
include hsteady h

/-- Records that are there stand in a later tree that leaves their artifacts alone. -/
theorem stays {v' : Workspace} (hsetup : v'.setup = v.setup) (hdone' : done' ⊆ { q | q ∈ sources })
    (hphase : Phase w first off done' tree') (hq : q ∈ done) (hq' : q ∈ done')
    (hget : v'.ledger.get? q = v.ledger.get? q)
    (hnodes : ∀ place, tree.LeadsTo w.artifactDir place →
      (w.readied first).LeadsTo w.artifactDir place → ∀ x ∈ (Conversion.mk w first q).stored,
      tree'.node? (place ++ [x.name]) = tree.node? (place ++ [x.name])) {r : Record}
    (hr : v'.ledger.get? q = some r) : v'.ensure tree' q = (.ok r, v', tree') := by
  rw [hget] at hr
  have hstat {path : Path} (howns : w.Owns first q path) : tree'.stat path = tree.stat path :=
    h.phase.stat_eq hsteady h.subset hq hdone' hphase hq' hnodes howns
  refine ensure_again (h.current q hq r hr) hsetup hget (hstat (.inl rfl)) fun a ha => hstat ?_
  refine owns_of_alone (hsteady.fresh q (h.subset hq)) ?_ ha
  rw [← h.recorded q hq, hr]
  rfl

omit hsteady in
/-- A record that is there is returned. -/
theorem ensure_of_mem (hold : p ∈ done) (hready : (w.alone first p).isSome = true) :
    ∃ r, v.ensure tree p = (.ok r, v, tree) ∧ some r.untimed = w.alone first p := by
  have hrecorded := h.recorded p hold
  rw [← hrecorded, Option.isSome_map] at hready
  obtain ⟨r, hr⟩ := Option.isSome_iff_exists.mp hready
  refine ⟨r, h.current p hold r hr, ?_⟩
  rw [← hrecorded, hr]
  rfl

/-- A source without a record is converted as it is alone. -/
theorem ensure_of_notMem (hp : p ∈ sources) (hnew : p ∉ done) :
    (v.ensure tree p).1.toOption.map Record.untimed = w.alone first p ∧
      Phase w first off (insert p done) (v.ensure tree p).2.2 ∧
      ∀ place, tree.LeadsTo w.artifactDir place →
        tree.AgreesOff (w.spots first {p}) (v.ensure tree p).2.2 := by
  have hget := h.fresh p hp hnew
  obtain ⟨hresult, htree, -⟩ := ensure_congr h.setup (hget.trans (hsteady.fresh p hp).symm) tree
  rw [hresult, htree]
  exact h.phase.ensure hsteady hp h.subset hnew

omit h in
/-- Its conversion files no record for another source. -/
theorem get?_ensure_of_ne (hp : p ∈ sources) (hq : q ∈ sources) (hne : q ≠ p) :
    (v.ensure tree p).2.1.ledger.get? q = v.ledger.get? q := by
  have hrun : v.ensure tree p = ((v.ensure tree p).1, (v.ensure tree p).2) := rfl
  have hcomponents : q.components ≠ p.components := fun hsame =>
    hne (List.inj_on_of_nodup_map hsteady.distinct hq hp hsame)
  rw [Ledger.get?, get?_ensure hrun, if_neg hcomponents, Ledger.get?]

omit hsteady in
/-- What is filed for it is what the conversion gives. -/
theorem get?_ensure_self (hp : p ∈ sources) (hnew : p ∉ done) :
    (v.ensure tree p).2.1.ledger.get? p = (v.ensure tree p).1.toOption := by
  have hrun : v.ensure tree p = ((v.ensure tree p).1, (v.ensure tree p).2) := rfl
  have hget := h.fresh p hp hnew
  rw [Ledger.get?] at hget ⊢
  rw [get?_ensure hrun, if_pos rfl]
  cases (v.ensure tree p).1 with
  | ok r => rfl
  | error e => exact hget

/-- The record that was made for a source stands. -/
theorem ensure_twice (hp : p ∈ sources) (hnew : p ∉ done) {r : Record}
    (hr : (v.ensure tree p).2.1.ledger.get? p = some r) :
    (v.ensure tree p).2.1.ensure (v.ensure tree p).2.2 p = (.ok r, (v.ensure tree p).2) := by
  rw [h.get?_ensure_self hp hnew] at hr
  have hrun : v.ensure tree p = (.ok r, (v.ensure tree p).2) :=
    Prod.ext (Outcome.eq_ok_of_toOption hr) rfl
  obtain ⟨hrecord, -, hof, -⟩ := get?_of_ensure hrun
  refine (again_iff hrun (setup_ensure hrun) hrecord).mpr ⟨?_, fun a ha => intact_of_ensure hrun ha⟩
  have hphase := (h.ensure_of_notMem hsteady hp hnew).2.1
  have hsubset : insert p done ⊆ { q | q ∈ sources } := Set.insert_subset hp h.subset
  unfold isOf version Fingerprint.compute at hof ⊢
  rw [hsteady.reads _ (hphase.resembles hsubset) p hp]
  rw [hsteady.reads _ (h.phase.resembles h.subset) p hp] at hof
  exact hof

/-- The conversion of one more source, or of one that has got a record, gives the record that it gets alone.
Records that are there stay. -/
theorem ensure (hp : p ∈ sources) (hready : p ∈ done → (w.alone first p).isSome = true) :
    (v.ensure tree p).1.toOption.map Record.untimed = w.alone first p ∧
      Amid w first off sources (insert p done) (v.ensure tree p).2.1 (v.ensure tree p).2.2 ∧
      ∀ q ∈ done, (v.ensure tree p).2.1.ledger.get? q = v.ledger.get? q := by
  by_cases hnew : p ∈ done
  · obtain ⟨r, hrun, halone⟩ := h.ensure_of_mem hnew (hready hnew)
    rw [hrun, Set.insert_eq_of_mem hnew]
    exact ⟨halone, h, fun _ _ => rfl⟩
  obtain ⟨halone, hphase, hframe⟩ := h.ensure_of_notMem hsteady hp hnew
  have hsubset : insert p done ⊆ { q | q ∈ sources } := Set.insert_subset hp h.subset
  have hsetup : (v.ensure tree p).2.1.setup = v.setup :=
    setup_ensure (show v.ensure tree p = ((v.ensure tree p).1, (v.ensure tree p).2) from rfl)
  have hother {q : Path} (hq : q ∈ sources) (hne : q ≠ p) :
      (v.ensure tree p).2.1.ledger.get? q = v.ledger.get? q := get?_ensure_of_ne hsteady hp hq hne
  refine ⟨halone, ⟨(edited_ensure v tree p).sorted h.sorted, hsetup.trans h.setup,
    (dir_ensure v tree p).trans h.dir, hsubset, hphase,
    fun q hq hleft => ?_, fun q hq => ?_, fun q hq r hr => ?_⟩,
    fun q hq => hother (h.subset hq) fun hsame => hnew (hsame ▸ hq)⟩
  · rw [Set.mem_insert_iff, not_or] at hleft
    rw [hother hq hleft.1, h.fresh q hq hleft.2]
  · by_cases hqp : q = p
    · rw [hqp, h.get?_ensure_self hp hnew, halone]
    · have hmem := (Set.mem_insert_iff.mp hq).resolve_left hqp
      rw [hother (h.subset hmem) hqp, h.recorded q hmem]
  · by_cases hqp : q = p
    · subst hqp
      exact h.ensure_twice hsteady hp hnew hr
    · have hmem := (Set.mem_insert_iff.mp hq).resolve_left hqp
      refine h.stays hsteady hsetup hsubset hphase hmem hq (hother (h.subset hmem) hqp)
        (fun place hdir hplace x hx => ?_) hr
      refine (hframe place hdir).node _ ?_
      rintro ⟨_, rfl, place', hplace', hspot⟩
      obtain rfl := hplace.unique (.refl [] _) hplace'
      obtain ⟨y, hy, hname⟩ := Artifact.mem_spots.mp hspot
      exact name_ne hsteady.digests (h.subset hmem) hp (fun hsame => hqp hsame.symm)
        (Conversion.stored_subset _ hx) (Conversion.stored_subset _ hy) hname

omit hsteady in
/-- The artifacts of a record that is there are as recorded. -/
theorem intact (hq : q ∈ done) {r : Record} (hr : v.ledger.get? q = some r) {a : ArtifactRef}
    (ha : a ∈ r.artifacts) : isIntact tree a = true :=
  intact_of_ensure (h.current q hq r hr) ha

/-- They hold the same whatever else was converted. -/
theorem content_eq (hsteady' : Steady w first off' sources') {v' : Workspace}
    (h' : Amid w first off' sources' done' v' tree') (hq : q ∈ done) (hq' : q ∈ done') {r : Record}
    (hr : v.ledger.get? q = some r) {a : ArtifactRef} (ha : a ∈ r.artifacts) :
    Artifact.content tree' a.path = Artifact.content tree a.path := by
  refine h.phase.content_eq hsteady h.subset hq hsteady' h'.subset h'.phase hq' ?_
  refine owns_of_alone (hsteady.fresh q (h.subset hq)) ?_ ha
  rw [← h.recorded q hq, hr]
  rfl

/-- Nothing is lost when the tree changes elsewhere and the ledger keeps its records. -/
theorem changed {v' : Workspace} (hsetup : v'.setup = v.setup) (hdir : v'.ledger.dir = v.ledger.dir)
    (hrecords : v'.ledger.records = v.ledger.records) (hsorted : tree'.nodes.Sorted) (hphase : Phase w first off done tree')
    (hnodes : ∀ q ∈ done, ∀ place, (w.readied first).LeadsTo w.artifactDir place →
      ∀ x ∈ (Conversion.mk w first q).stored,
      tree'.node? (place ++ [x.name]) = tree.node? (place ++ [x.name])) :
    Amid w first off sources done v' tree' := by
  have hget (q : Path) : v'.ledger.get? q = v.ledger.get? q := by
    rw [Ledger.get?, hrecords, Ledger.get?]
  exact ⟨hsorted, hsetup.trans h.setup, hdir.trans h.dir, h.subset, hphase,
    fun q hq hleft => (hget q).trans (h.fresh q hq hleft), fun q hq => hget q ▸ h.recorded q hq,
    fun q hq _ hr => h.stays hsteady hsetup h.subset hphase hq hq (hget q)
      (fun place _ hplace => hnodes q hq place hplace) hr⟩

theorem tick : Amid w first off sources done v tree.tick :=
  h.changed hsteady rfl rfl rfl h.sorted h.phase.tick fun _ _ _ _ _ _ => rfl

/-- The ledger is saved in a place that does not matter. -/
theorem trySave : Amid w first off sources done (v.trySave tree).1 (v.trySave tree).2 := by
  unfold Workspace.trySave save
  split
  · cases hsave : v.ledger.save tree with
    | error e => exact h
    | ok after =>
      unfold Ledger.save at hsave
      dsimp only at hsave
      cases hwrite : v.ledger.writeRecords tree v.ledger.beginSave.records with
      | error e =>
        rw [hwrite] at hsave
        cases hsave
      | ok tree' =>
        rw [hwrite] at hsave
        cases hsave
        -- The directory of the ledger is there, so nothing but the file is written.
        obtain ⟨hthere, hfile⟩ := hsteady.ledger tree (h.phase.resembles h.subset)
        rw [← h.dir] at hthere hfile
        rw [Ledger.writeRecords, Files.makeDirectories_of_isDirectory hthere] at hwrite
        obtain ⟨location, hleads, rfl⟩ := Files.of_replace_join Ledger.isName_ledgerFileName hwrite
        have hoff := hfile location hleads
        have hsorted (bytes : Bytes) : (tree.writeAt (location ++ [ledgerFileName]) bytes).nodes.Sorted :=
          (Files.Edited.refl.writeAt _ _).sorted h.sorted
        refine h.changed hsteady rfl rfl rfl (hsorted _) (h.phase.writeAt hsteady h.subset hoff _)
          fun q hq place hplace x hx => tree.node?_writeAt_of_ne (fun hsame => ?_) _
        exact hsteady.apart q (h.subset hq) x (Conversion.stored_subset _ hx) place hplace (hsame ▸ hoff)
  · exact h

/-- Different sources that are converted one after another, each of which is new or has got a record, get the
records that they get alone. Records that are there stay. -/
theorem ensureEach {ps : List Path} (hps : ∀ p ∈ ps, p ∈ sources) (hnodup : ps.Nodup)
    (hready : ∀ p ∈ ps, p ∈ done → (w.alone first p).isSome = true) :
    (v.ensureEach tree ps).1.map outcome = ps.map (fun p => (p, w.alone first p)) ∧
      Amid w first off sources (done ∪ { p | p ∈ ps }) (v.ensureEach tree ps).2.1
        (v.ensureEach tree ps).2.2 ∧
      ∀ q ∈ done, (v.ensureEach tree ps).2.1.ledger.get? q = v.ledger.get? q := by
  induction ps generalizing v tree done with
  | nil =>
    have hsame : done ∪ { p | p ∈ ([] : List Path) } = done := by simp
    rw [hsame]
    exact ⟨rfl, h, fun _ _ => rfl⟩
  | cons p rest ih =>
    obtain ⟨hnew, hrest⟩ := List.nodup_cons.mp hnodup
    obtain ⟨hresult, hnext, hkept⟩ := h.ensure hsteady (hps p (.head _)) (hready p (.head _))
    obtain ⟨hresults, hfinal, hkeptRest⟩ := ih hnext (fun q hq => hps q (.tail _ hq)) hrest fun q hq hmem => by
      obtain rfl | hmem := Set.mem_insert_iff.mp hmem
      · exact absurd hq hnew
      · exact hready q (.tail _ hq) hmem
    have hall : insert p done ∪ { q | q ∈ rest } = done ∪ { q | q ∈ p :: rest } := by
      ext q
      simp only [Set.mem_union, Set.mem_insert_iff, Set.mem_ofPred_eq, List.mem_cons]
      tauto
    exact ⟨congrArg₂ List.cons (Prod.ext rfl hresult) hresults, hall ▸ hfinal,
      fun q hq => (hkeptRest q (.inr hq)).trans (hkept q hq)⟩

/-- So do sources that are asked for together; each record that is returned is in the ledger then. -/
theorem ensureAll {ps : List Path} (hps : ∀ p ∈ ps, p ∈ sources) (hnodup : ps.Nodup)
    (hready : ∀ p ∈ ps, p ∈ done → (w.alone first p).isSome = true) :
    (v.ensureAll tree ps).1.map outcome = ps.map (fun p => (p, w.alone first p)) ∧
      Amid w first off sources (done ∪ { p | p ∈ ps }) (v.ensureAll tree ps).2.1
        (v.ensureAll tree ps).2.2 ∧
      (∀ q ∈ done, (v.ensureAll tree ps).2.1.ledger.get? q = v.ledger.get? q) ∧
      ∀ p r, (p, .ok r) ∈ (v.ensureAll tree ps).1 →
        p ∈ ps ∧ (v.ensureAll tree ps).2.1.ledger.get? p = some r := by
  have hdistinct : (ps.map Path.components).Nodup := hnodup.map_on fun p hp q hq hsame =>
    List.inj_on_of_nodup_map hsteady.distinct (hps p hp) (hps q hq) hsame
  rw [ensureAll_eq v tree hdistinct]
  obtain ⟨hresults, hamid, hkept⟩ := h.ensureEach hsteady hps hnodup hready
  refine ⟨hresults, hamid, hkept, fun p r hmem => ⟨?_, ?_⟩⟩
  · rw [← map_fst_ensureEach v tree hdistinct]
    exact List.mem_map_of_mem (f := Prod.fst) hmem
  · rw [Ledger.get?, get?_of_mem_ensureEach hdistinct hmem]
    rfl

end

end Amid

end Workspace

end SourceTables
