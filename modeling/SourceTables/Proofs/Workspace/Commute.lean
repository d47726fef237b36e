import SourceTables.Proofs.Workspace.Apart

/-!
# `SourceTables.Proofs.Workspace.Commute`: the order of conversions

Sources that are apart may be converted in any order. Each of them then gets the outcome that it has alone,
and the ledger and the contents of artifacts are the same in the end; what is left of the order are the times
of new records and new artifacts.

That sources are different and that none is an artifact of another is not enough for this: a path may lead
through the directory of artifacts before that is there, or through a link whose name an artifact takes.

The theorems:

* `Stage.alike`: the files depend on which sources were converted.
* `Apart.ensureEach`: sources that are apart, one after another.
* `ensureAll_of_perm`: conversions of sources that are apart commute.
* `order_matters`: sources that are different but not apart.
-/

set_option autoImplicit false

namespace SourceTables

/-- An entry of the ledger about the source of a conversion, without the times that depend on when it is
made. -/
def LedgerEntry.timeless (a : Conversion) (e : LedgerEntry) : LedgerEntry :=
  { e with record := a.timeless e.record }

/-- Entries of a source are the same, but for times, after outcomes that are. -/
theorem LedgerMap.entryAfter_timeless {a : Conversion} {p : Path} {result result' : Except Error Record}
    (m : LedgerMap) (h : result'.map a.timeless = result.map a.timeless) :
    (m.entryAfter p result').map (LedgerEntry.timeless a)
      = (m.entryAfter p result).map (LedgerEntry.timeless a) := by
  cases result with
  | error e =>
    cases result' with
    | error e' => rfl
    | ok r' => cases h
  | ok r =>
    cases result' with
    | error e' => cases h
    | ok r' =>
      have hrecord : a.timeless r' = a.timeless r := Except.ok.inj h
      show some (LedgerEntry.mk _ _) = some (LedgerEntry.mk _ _)
      rw [hrecord]

/-- Where a ledger is kept, and how many changes there have been and are saved. -/
def Ledger.counts (l : Ledger) : Path × Nat × Nat := (l.dir, l.generation, l.saved)

namespace Workspace

variable {w w' : Workspace} {fs tree tree' : Files} {ps qs : List Path} {done : Set Path}

/-! ### Changes -/

/-- How many changes of the ledger a conversion is. -/
def changes (w : Workspace) (fs : Files) (p : Path) : Nat :=
  (w.ensure fs p).2.1.ledger.generation - w.ledger.generation

/-- A conversion changes nothing of the ledger but its records and their count, which does not go back. -/
theorem counts_ensure (w : Workspace) (fs : Files) (p : Path) :
    (w.ensure fs p).2.1.ledger.counts
      = (w.ledger.dir, w.ledger.generation + w.changes fs p, w.ledger.saved) := by
  have hrun : w.ensure fs p = ((w.ensure fs p).1, (w.ensure fs p).2) := rfl
  unfold changes
  obtain ⟨hledger, -⟩ | ⟨r, -, -, hledger⟩ := records_ensure hrun
  · rw [hledger, Nat.sub_self]
    rfl
  · rw [hledger]
    show (_, w.ledger.generation + 1, _) = (_, w.ledger.generation + (w.ledger.generation + 1 - _), _)
    rw [Nat.add_sub_cancel_left]
    rfl

/-! ### Sources one after another -/

/-- Before any conversion. -/
theorem Stage.start (w : Workspace) (fs : Files) : Stage w fs ∅ fs := .bare fs.clock nofun

/-- What has become of the files depends on which sources were converted, but for times. -/
theorem Stage.alike (h : Stage w fs done tree) (h' : Stage w fs done tree') : tree.Alike tree' := by
  cases h with
  | bare clock hnone =>
    cases h' with
    | bare => exact ⟨rfl, fun _ => rfl⟩
    | ready hplace hsome =>
      obtain ⟨q, hq, hentries⟩ := hsome
      exact absurd hplace (hnone q hq hentries _)
  | ready hplace hsome hagrees hstands =>
    cases h' with
    | bare _ hnone =>
      obtain ⟨q, hq, hentries⟩ := hsome
      exact absurd hplace (hnone q hq hentries _)
    | ready hplace' _ hagrees' hstands' =>
      refine ⟨hagrees'.home.trans hagrees.home.symm, fun location => ?_⟩
      by_cases hspot : location ∈ w.spots fs done
      · obtain ⟨q, hq, place, hleads, x, hx, rfl⟩ := hspot
        obtain rfl := hleads.unique (.refl [] _) hplace
        obtain rfl := hleads.unique (.refl [] _) hplace'
        obtain ⟨_, hnode⟩ := hstands q hq x hx
        obtain ⟨_, hnode'⟩ := hstands' q hq x hx
        rw [hnode, hnode']
        rfl
      · rw [hagrees.node _ hspot, hagrees'.node _ hspot]

/-- Sources that are apart are converted one after another as each of them is alone, but for times. -/
theorem Apart.ensureEach (hapart : Apart w fs ps) (hqs : { q | q ∈ qs } ⊆ { q | q ∈ ps })
    (hdistinct : (qs.map Path.components).Nodup) (hdone : done ⊆ { q | q ∈ ps }) (hnew : ∀ q ∈ qs, q ∉ done)
    (hsetup : w'.setup = w.setup) (hledger : ∀ q ∈ qs, w'.ledger.get? q = w.ledger.get? q)
    (hstage : Stage w fs done tree) :
    (w'.ensureEach tree qs).1.map
          (fun result => (result.1, result.2.map (Conversion.mk w fs result.1).timeless))
        = qs.map (fun q => (q, (w.ensure fs q).1.map (Conversion.mk w fs q).timeless)) ∧
      Stage w fs ({ q | q ∈ qs } ∪ done) (w'.ensureEach tree qs).2.2 ∧
      (w'.ensureEach tree qs).2.1.ledger.counts
        = (w'.ledger.dir, w'.ledger.generation + (qs.map (w.changes fs)).sum, w'.ledger.saved) := by
  induction qs generalizing w' tree done with
  | nil =>
    have hsame : { q | q ∈ ([] : List Path) } ∪ done = done := by simp
    rw [hsame]
    exact ⟨rfl, hstage, rfl⟩
  | cons q rest ih =>
    obtain ⟨hother, hrestDistinct⟩ := List.nodup_cons.mp hdistinct
    have hq : q ∈ ps := hqs (.head _)
    obtain ⟨hresult, htree, hcount⟩ := ensure_congr hsetup (hledger q (.head _)) tree
    obtain ⟨halike, hnext, hgeneration⟩ := hapart.ensure hq hdone (hnew q (.head _)) hstage
    rw [← htree] at hnext
    rw [← hresult] at halike
    have hcomponents : ∀ p ∈ rest, p.components ≠ q.components := fun p hp hsame =>
      hother (hsame ▸ List.mem_map_of_mem hp)
    have hkept : ∀ p ∈ rest, (w'.ensure tree q).2.1.ledger.get? p = w.ledger.get? p := fun p hp => by
      have hrun : w'.ensure tree q = ((w'.ensure tree q).1, (w'.ensure tree q).2) := rfl
      rw [← hledger p (.tail _ hp), Ledger.get?, get?_ensure hrun, if_neg (hcomponents p hp), Ledger.get?]
    have hleft : ∀ p ∈ rest, p ∉ insert q done := by
      rintro p hp (rfl | hmem)
      · exact hcomponents p hp rfl
      · exact hnew p (.tail _ hp) hmem
    obtain ⟨hresults, hfinal, hcounts⟩ := ih (fun p hp => hqs (.tail _ hp)) hrestDistinct
      (Set.insert_subset hq hdone) hleft ((setup_ensure rfl).trans hsetup) hkept hnext
    refine ⟨congrArg₂ List.cons (Prod.ext rfl halike) hresults, ?_, ?_⟩
    · have hall : { p | p ∈ rest } ∪ insert q done = { p | p ∈ q :: rest } ∪ done := by
        ext p
        simp [or_assoc]
      exact hall ▸ hfinal
    · have hchanges : w'.changes tree q = w.changes fs q := by
        unfold changes
        omega
      have hfirst := w'.counts_ensure tree q
      rw [hchanges] at hfirst
      simp only [Ledger.counts, Prod.mk.injEq] at hfirst hcounts ⊢
      obtain ⟨hdir, hmade, hsaved⟩ := hfirst
      rw [List.map_cons, List.sum_cons, ← Nat.add_assoc, ← hdir, ← hmade, ← hsaved]
      exact hcounts

/-- In any order the sources of a list that are apart are converted as each of them is alone. -/
theorem Apart.of_perm (hapart : Apart w fs ps) (hperm : qs.Perm ps) :
    (w.ensureEach fs qs).1.map
          (fun result => (result.1, result.2.map (Conversion.mk w fs result.1).timeless))
        = qs.map (fun q => (q, (w.ensure fs q).1.map (Conversion.mk w fs q).timeless)) ∧
      Stage w fs { q | q ∈ ps } (w.ensureEach fs qs).2.2 ∧
      (w.ensureEach fs qs).2.1.ledger.counts
        = (w.ledger.dir, w.ledger.generation + (ps.map (w.changes fs)).sum, w.ledger.saved) := by
  have hsame : { q | q ∈ qs } = { q | q ∈ ps } := Set.ext fun _ => hperm.mem_iff
  have h := hapart.ensureEach hsame.subset ((hperm.map _).nodup_iff.mpr hapart.distinct)
    (Set.empty_subset _) (fun _ _ => Set.notMem_empty _) rfl (fun _ _ => rfl) (.start w fs)
  rwa [Set.union_empty, hsame, (hperm.map (w.changes fs)).sum_eq] at h

/-- The entry of each source in the ledger is then the one that its conversion alone leaves. -/
theorem Apart.entry_of_perm (hapart : Apart w fs ps) (hperm : qs.Perm ps) {p : Path} (hp : p ∈ ps) :
    ((w.ensureEach fs qs).2.1.ledger.records.get? p.components).map (LedgerEntry.timeless ⟨w, fs, p⟩)
      = (w.ledger.records.entryAfter p (w.ensure fs p).1).map (LedgerEntry.timeless ⟨w, fs, p⟩) := by
  have hdistinct := (hperm.map Path.components).nodup_iff.mpr hapart.distinct
  have hmem : p ∈ (w.ensureEach fs qs).1.map Prod.fst := by
    rw [map_fst_ensureEach w fs hdistinct]
    exact hperm.mem_iff.mpr hp
  obtain ⟨⟨_, result⟩, hresult, rfl⟩ := List.mem_map.mp hmem
  rw [get?_of_mem_ensureEach hdistinct hresult]
  refine LedgerMap.entryAfter_timeless _ ?_
  have houtcome := List.mem_map_of_mem
    (f := fun result => (result.1, result.2.map (Conversion.mk w fs result.1).timeless)) hresult
  rw [(hapart.of_perm hperm).1] at houtcome
  obtain ⟨q, -, hq⟩ := List.mem_map.mp houtcome
  obtain ⟨rfl, hq⟩ := Prod.mk.inj hq
  exact hq.symm

/-- Conversions of sources that are apart commute. -/
theorem ensureAll_of_perm (hapart : Apart w fs ps) (hperm : qs.Perm ps) :
    (w.ensureAll fs qs).1.map
          (fun result => (result.1, result.2.map (Conversion.mk w fs result.1).timeless))
        = qs.map (fun p => (p, (w.ensure fs p).1.map (Conversion.mk w fs p).timeless)) ∧
      (∀ p ∈ ps,
        ((w.ensureAll fs qs).2.1.ledger.records.get? p.components).map
            (LedgerEntry.timeless ⟨w, fs, p⟩)
          = ((w.ensureAll fs ps).2.1.ledger.records.get? p.components).map
            (LedgerEntry.timeless ⟨w, fs, p⟩)) ∧
      (w.ensureAll fs qs).2.1.ledger.counts = (w.ensureAll fs ps).2.1.ledger.counts ∧
      (∀ p e, (p, .error e) ∈ (w.ensureAll fs qs).1 →
        (w.ensureAll fs qs).2.1.ledger.records.get? p.components = w.ledger.records.get? p.components) ∧
      (∀ key ∉ ps.map Path.components,
        (w.ensureAll fs qs).2.1.ledger.records.get? key = w.ledger.records.get? key) ∧
      ∀ artifact, Artifact.content (w.ensureAll fs qs).2.2 artifact
        = Artifact.content (w.ensureAll fs ps).2.2 artifact := by
  have hdistinct := (hperm.map Path.components).nodup_iff.mpr hapart.distinct
  rw [ensureAll_eq w fs hdistinct, ensureAll_eq w fs hapart.distinct]
  obtain ⟨hresults, hstage, hcounts⟩ := hapart.of_perm hperm
  obtain ⟨-, hstage', hcounts'⟩ := hapart.of_perm (.refl ps)
  refine ⟨hresults, fun p hp => ?_, hcounts.trans hcounts'.symm,
    fun p e he => get?_of_mem_ensureEach hdistinct he, fun key hkey => ?_, fun artifact => ?_⟩
  · rw [hapart.entry_of_perm hperm hp, hapart.entry_of_perm (.refl ps) hp]
  · exact get?_ensureEach_of_notMem fun hmem => hkey ((hperm.map _).mem_iff.mp hmem)
  · unfold Artifact.content
    rw [(hstage'.alike hstage).content]

/-! ### Two sources that are apart -/

/-- Files `x.json` and `y.json` in `d`. -/
def pairFiles : Files where
  nodes := ⟨[(["d"], .directory), (["d", "x.json"], .file (Text.encodeUtf8 "[1]") 1),
    (["d", "y.json"], .file (Text.encodeUtf8 "[2]") 1)]⟩
  home := []
  clock := 2

/-- The sources. -/
def pair : List Path := [⟨"d/x.json"⟩, ⟨"d/y.json"⟩]

/-- Whether the directory `a` was made for artifacts, and the files of the pair stay where they are. -/
structure PairReady (tree : Files) : Prop where
  home : tree.home = []
  artifacts : tree.node? ["a"] = some .directory
  sources : tree.node? ["d"] = pairFiles.node? ["d"]
  first : tree.node? ["d", "x.json"] = pairFiles.node? ["d", "x.json"]
  second : tree.node? ["d", "y.json"] = pairFiles.node? ["d", "y.json"]

instance (tree : Files) : Decidable (PairReady tree) :=
  decidable_of_iff (tree.home = [] ∧ tree.node? ["a"] = some .directory ∧
      tree.node? ["d"] = pairFiles.node? ["d"] ∧
      tree.node? ["d", "x.json"] = pairFiles.node? ["d", "x.json"] ∧
      tree.node? ["d", "y.json"] = pairFiles.node? ["d", "y.json"])
    ⟨fun ⟨h₁, h₂, h₃, h₄, h₅⟩ => ⟨h₁, h₂, h₃, h₄, h₅⟩, fun ⟨h₁, h₂, h₃, h₄, h₅⟩ => ⟨h₁, h₂, h₃, h₄, h₅⟩⟩

/-- The path of a directory at the root leads there. -/
theorem leadsTo_of_above {dir : Path} {name : String} (hname : Path.IsName name)
    (habove : dir.above = [name]) (hrelative : dir.isAbsolute = false) (hhome : fs.home = [])
    (hnode : fs.node? [name] = some .directory) : fs.LeadsTo dir [name] := by
  rw [Files.LeadsTo, habove, hrelative, hhome]
  exact Files.follow_eq_ok.mpr (.enter rfl hname.enters hnode (by simp) (.done hnode))

/-- What stands under a name in `d` is what its path leads to. -/
theorem PairReady.stat {tree : Files} (h : PairReady tree) :
    ∀ p ∈ pair, tree.stat p = pairFiles.stat p := by
  have hfound {tree : Files} (hhome : tree.home = []) (hdir : tree.node? ["d"] = some .directory)
      {name : String} (hname : Path.IsName name) {bytes : Bytes}
      (hnode : tree.node? ["d", name] = some (.file bytes 1)) :
      tree.stat ((⟨"d"⟩ : Path).join ⟨name⟩) = .ok (["d", name], .file bytes 1) := by
    have hleads : tree.LeadsTo ⟨"d"⟩ ["d"] := leadsTo_of_above (by decide) rfl rfl hhome hdir
    exact Files.stat_join hname hleads hnode nofun
  intro p hp
  obtain rfl | hp := List.mem_cons.mp hp
  · exact (hfound h.home h.sources (by decide) h.first).trans (hfound rfl rfl (by decide) rfl).symm
  · obtain rfl := List.mem_singleton.mp hp
    exact (hfound h.home h.sources (by decide) h.second).trans (hfound rfl rfl (by decide) rfl).symm

/-- The pair may be converted in any order. -/
theorem pair_in_any_order : ∃ w, opened pairFiles = .ok w ∧ Apart w pairFiles pair ∧
    (∀ p ∈ pair, (Conversion.mk w pairFiles p).entries.length = 1) ∧
    (w.ensureAll pairFiles pair.reverse).1.map
        (fun result => (result.1, result.2.map (Conversion.mk w pairFiles result.1).timeless))
      = pair.reverse.map
        (fun p => (p, (w.ensure pairFiles p).1.map (Conversion.mk w pairFiles p).timeless)) := by
  have hpair : ((opened pairFiles).toOption.map fun w => decide (w.artifactDir = ⟨"a"⟩ ∧
      w.ledger.records.isEmpty = true ∧ PairReady (w.readied pairFiles) ∧
      Conversion.NoCollision (pair.map (Conversion.mk w pairFiles)) ∧
      ∀ p ∈ pair, (Conversion.mk w pairFiles p).entries.length = 1)) = some true := by decide +kernel
  obtain ⟨w, hopen, hfacts⟩ := Option.map_eq_some_iff.mp hpair
  obtain ⟨hdir, hledger, hready, hdigests, hentries⟩ := of_decide_eq_true hfacts
  have hleads : (w.readied pairFiles).LeadsTo w.artifactDir ["a"] := by
    rw [hdir]
    exact leadsTo_of_above (by decide) rfl rfl hready.home hready.artifacts
  -- Artifacts are put into `a` and nowhere else.
  have hspots (sources : Set Path) {location : Location}
      (hlocation : location ∈ w.spots pairFiles sources) : ∃ name, location = ["a", name] := by
    obtain ⟨_, -, place, hplace, x, -, rfl⟩ := hlocation
    obtain rfl := hleads.unique (.refl [] _) hplace
    exact ⟨x.name, rfl⟩
  have hkept (sources : Set Path) {tree : Files}
      (hagrees : (w.readied pairFiles).AgreesOff (w.spots pairFiles sources) tree) : PairReady tree := by
    have hnode {location : Location} (hlocation : ∀ name, location ≠ ["a", name]) :
        tree.node? location = (w.readied pairFiles).node? location :=
      hagrees.node location fun hmem => by
        obtain ⟨name, hname⟩ := hspots sources hmem
        exact hlocation name hname
    exact ⟨hagrees.home.trans hready.home, (hnode (by simp)).trans hready.artifacts,
      (hnode (by simp)).trans hready.sources, (hnode (by simp)).trans hready.first,
      (hnode (by simp)).trans hready.second⟩
  have hapart : Apart w pairFiles pair := by
    refine ⟨by decide, hdigests, fun place hplace tree hagrees => ?_, fun p hp _ tree hagrees x hx => ?_⟩
    · obtain rfl := hleads.unique (.refl [] _) hplace
      have htree := hkept _ hagrees
      rw [hdir]
      exact leadsTo_of_above (by decide) rfl rfl htree.home htree.artifacts
    · have hnone : w.ledger.get? p = none := by
        have hempty : w.ledger.records = Keyed.empty := congrArg Keyed.mk (List.isEmpty_iff.mp hledger)
        rw [Ledger.get?, hempty]
        rfl
      rw [reads, hnone] at hx
      obtain rfl := List.mem_singleton.mp hx
      exact (hkept _ hagrees).stat x hp
  have hopen : opened pairFiles = .ok w := Outcome.eq_ok_of_toOption hopen
  exact ⟨w, hopen, hapart, hentries, (ensureAll_of_perm hapart (List.reverse_perm pair)).1⟩

/-! ### Sources that are not apart -/

/-- The artifacts of a source: those of its record, and those that its conversion would write. -/
def artifacts (w : Workspace) (fs : Files) (p : Path) : List Path :=
  (w.reads p).tail ++ (Conversion.mk w fs p).entries.map fun x => w.artifactDir.join ⟨x.name⟩

/-- Whether sources are different, none of them is an artifact of any, and digests do not collide. -/
structure Separate (w : Workspace) (fs : Files) (ps : List Path) : Prop where
  distinct : (ps.map Path.components).Nodup
  digests : Conversion.NoCollision (ps.map (Conversion.mk w fs))
  artifacts : ∀ p ∈ ps, ∀ x ∈ w.artifacts fs p, x.components ∉ ps.map Path.components

/-- What would be written is no source if no source is as deep as what is in the directory of artifacts. -/
theorem Separate.of_depth (hdistinct : (ps.map Path.components).Nodup)
    (hdigests : (((ps.map (Conversion.mk w fs)).flatMap Conversion.hashed).map
      Fingerprint.shortDigest).Nodup)
    (hrecorded : ∀ p ∈ ps, ∀ x ∈ (w.reads p).tail, x.components ∉ ps.map Path.components)
    (hdepth : ∀ p ∈ ps, p.components.length ≠ w.artifactDir.components.length + 1) :
    Separate w fs ps := by
  refine ⟨hdistinct, .of_nodup hdigests, fun p hp path hpath => ?_⟩
  obtain hpath | hpath := List.mem_append.mp hpath
  · exact hrecorded p hp path hpath
  · obtain ⟨x, hx, rfl⟩ := List.mem_map.mp hpath
    rw [Path.components_join _ (Conversion.wellNamed_of_mem_entries hx).isName]
    intro hmem
    obtain ⟨q, hq, hsame⟩ := List.mem_map.mp hmem
    refine hdepth q hq ?_
    rw [hsame, List.length_append, List.length_singleton]

/-- Directories `c` and `d`. The first artifact of `d/x.json` takes the place of a link in `c`. -/
def detourFiles : Files where
  nodes := ⟨[(["c"], .directory), (["c", "old.parquet"], .file [] 1),
    (["c", "x-5c669cc5c36b0405.parquet"], .link ⟨"."⟩), (["d"], .directory),
    (["d", "t.parquet"], .file (Artifact.Content.encode .parquet ⟨[], []⟩) 1),
    (["d", "x.json"], .file (Text.encodeUtf8 "[1]") 1),
    (["d", "y.json"], .file (Text.encodeUtf8 "[2]") 1),
    (["d", "z.json"], .file (Text.encodeUtf8 "?") 1)]⟩
  home := []
  clock := 2

/-- A record of `d/z.json`, which holds no tables, with an artifact that is found through the link. -/
def oldRecord (o : ConvertOptions) : Record where
  source := ⟨⟨"d/z.json"⟩, 1, 1, none⟩
  converter := Format.json.id
  primary :=
    let artifact : Path := ⟨"c/x-5c669cc5c36b0405.parquet/old.parquet"⟩
    ⟨"z", artifact, ⟨artifact, 0, 1, none⟩⟩
  convertedAt := 1
  params := Format.json.params ⟨"d/z.json"⟩ o
  additional := []

/-- The workspace of `d` with this record; artifacts are put into `c`, found through the link and a
directory that is not there yet. -/
def detoured? : Option Workspace :=
  (ofDirectory detourFiles ⟨"d"⟩
    { artifactDir := some ⟨"c/x-5c669cc5c36b0405.parquet/e/.."⟩ }).toOption.map fun w =>
    { w with ledger := (w.ledger.record (oldRecord w.options)).2 }

/-- A source that is found through the directory that is not there yet, one whose artifacts have to be
written, and the one with the record. -/
def detours : List Path := [⟨"c/e/../../d/t.parquet"⟩, ⟨"d/y.json"⟩, ⟨"d/z.json"⟩]

/-- It is not enough that sources are different and none is an artifact of another: each of these is
converted only before, or only after, `d/x.json`. -/
theorem order_matters : ∃ w, detoured? = some w ∧
    Separate w detourFiles (⟨"d/x.json"⟩ :: detours) ∧
    ∀ q ∈ detours, ∃ result result',
      (q, result) ∈ (w.ensureAll detourFiles [⟨"d/x.json"⟩, q]).1 ∧
      (q, result') ∈ (w.ensureAll detourFiles [q, ⟨"d/x.json"⟩]).1 ∧
      result.toOption.isSome ≠ result'.toOption.isSome := by
  have hcomputed : (detoured?.map fun w =>
      let all := ⟨"d/x.json"⟩ :: detours
      decide ((all.map Path.components).Nodup ∧
        (((all.map (Conversion.mk w detourFiles)).flatMap Conversion.hashed).map
          Fingerprint.shortDigest).Nodup ∧
        (∀ p ∈ all, ∀ x ∈ (w.reads p).tail, x.components ∉ all.map Path.components) ∧
        (∀ p ∈ all, p.components.length ≠ w.artifactDir.components.length + 1) ∧
        let after := (w.ensure detourFiles ⟨"d/x.json"⟩).2
        ∀ q ∈ detours, (after.1.ensure after.2 q).1.toOption.isSome
          ≠ (w.ensure detourFiles q).1.toOption.isSome)) = some true := by decide +kernel
  obtain ⟨w, hw, hfacts⟩ := Option.map_eq_some_iff.mp hcomputed
  obtain ⟨hdistinct, hdigests, hrecorded, hdepth, houtcomes⟩ := of_decide_eq_true hfacts
  refine ⟨w, hw, .of_depth hdistinct hdigests hrecorded hdepth, fun q hq => ?_⟩
  have hother : (⟨"d/x.json"⟩ : Path).components ≠ q.components := fun hsame =>
    (List.nodup_cons.mp hdistinct).1 (hsame ▸ List.mem_map_of_mem hq)
  rw [ensureAll_eq w _ (by simpa using hother), ensureAll_eq w _ (by simpa using hother.symm)]
  exact ⟨_, _, .tail _ (.head _), .head _, houtcomes q hq⟩

end Workspace

end SourceTables
