import SourceTables.Proofs.Fingerprint
import SourceTables.Proofs.Plain
import SourceTables.Proofs.Scan.Plain

/-!
# `SourceTables.Proofs.Scan`: what scans hand out

A cache is sound for a relation between fingerprints and payloads when all that it keeps is in the
relation. Whatever is done to a cache, nothing comes in but what is put there.

A scan over a sound cache hands out the rows of its artifacts in turn, up to the first failure or to its
limit, whether they come from the cache or not.

The theorems:

* `Reading.of_load`: what is loaded is in the relation, and the cache stays sound.
* `Scan.reads_drain`: the rows of a scan, how it ends and which artifacts it opens.
* `Scan.rows_drain`: the rows of a scan that meets no failure and no limit.
-/

set_option autoImplicit false

namespace SourceTables

open Artifact (Content)

namespace BatchCache

variable {α : Type} {R : Fingerprint → α → Prop} {c : BatchCache α} {f : Fingerprint}

/-- Whether all payloads that are kept go with their fingerprints. -/
def Holds (R : Fingerprint → α → Prop) (c : BatchCache α) : Prop :=
  ∀ e ∈ c.entries, R e.fingerprint e.payload

theorem Holds.mono {c' : BatchCache α} (h : c.Holds R) (hsub : c'.entries ⊆ c.entries) : c'.Holds R :=
  fun e he => h e (hsub he)

theorem without_subset (c : BatchCache α) (f : Fingerprint) : c.without f ⊆ c.entries :=
  fun _ he => List.mem_of_mem_filter he

/-- An entry that is found is kept, and goes with the fingerprint that was asked for. -/
theorem of_found {e : CacheEntry α} (h : c.held? f = some e) :
    e ∈ c.entries ∧ e.fingerprint.same f = true := by
  unfold held? at h
  exact ⟨List.mem_of_find?_eq_some h, by simpa using List.find?_some h⟩

/-- A look-up keeps nothing new. -/
theorem entries_get_subset (c : BatchCache α) (f : Fingerprint) : (c.get f).2.entries ⊆ c.entries := by
  unfold get
  split
  · next e he =>
    exact List.cons_subset.mpr ⟨(of_found he).1, c.without_subset f⟩
  · exact List.Subset.refl _

theorem fitting_subset (budget : Nat) (entries : List (CacheEntry α)) :
    fitting budget entries ⊆ entries := by
  induction entries generalizing budget with
  | nil => exact List.Subset.refl _
  | cons e rest ih =>
    unfold fitting
    split
    · exact List.cons_subset_cons e (ih _)
    · exact List.nil_subset _

/-- A payload that is put there is the one thing that may be new. -/
theorem Holds.put (h : c.Holds R) {payload : α} (hR : R f payload) (size : Nat) :
    (c.put f payload size).Holds R := by
  have hwithout : ∀ e ∈ c.without f, R e.fingerprint e.payload := fun e he =>
    h e (c.without_subset f he)
  unfold BatchCache.put
  split
  · exact hwithout
  · intro e he
    obtain rfl | he := List.mem_cons.mp (fitting_subset _ _ he)
    · exact hR
    · exact hwithout e he

/-- Dropping a payload keeps nothing new. -/
theorem entries_invalidate_subset (c : BatchCache α) (f : Fingerprint) :
    (c.invalidate f).2.entries ⊆ c.entries := by
  unfold invalidate
  split
  · exact c.without_subset f
  · exact List.Subset.refl _

end BatchCache

/-- Whether a relation between fingerprints and payloads looks at no more than what agreement does. -/
def Fingerprint.Respects {α : Type} (R : Fingerprint → α → Prop) : Prop :=
  ∀ (f g : Fingerprint) (payload : α), f.same g = true → R f payload → R g payload

variable {R : Fingerprint → Content → Prop} {read : Path → Except Error Content}

/-- What is loaded goes with the fingerprint of the artifact, and so does all that is kept then. -/
theorem Reading.of_load {r r' : Reading} {a : ArtifactRef} {outcome : Except Error Content}
    (hR : Fingerprint.Respects R) (hcache : r.cache.Holds R)
    (hread : (r.cache.get a.fingerprint).1 = none → ∀ c, read a.path = .ok c → R a.fingerprint c)
    (h : r.load read a = (outcome, r')) :
    r'.cache.Holds R ∧ (∀ c, outcome = .ok c → R a.fingerprint c) ∧
      ∀ e, outcome = .error e → read a.path = .error e := by
  have hget := r.cache.entries_get_subset a.fingerprint
  unfold Reading.load at h
  split at h
  -- What was found went with a fingerprint that agrees with the one that was asked for.
  · next content cache hhit =>
    cases h
    rw [hhit] at hget
    refine ⟨hcache.mono hget, fun c hc => ?_, nofun⟩
    cases hc
    unfold BatchCache.get at hhit
    split at hhit
    · next e he =>
      cases hhit
      obtain ⟨hmem, hsame⟩ := BatchCache.of_found he
      exact hR _ _ _ hsame (hcache e hmem)
    · cases hhit
  · next cache hmiss =>
    rw [hmiss] at hget hread
    have hcache := hcache.mono hget
    dsimp only at h
    split at h
    · next content hcontent =>
      cases h
      refine ⟨hcache.put (hread rfl _ hcontent) _, fun c hc => ?_, nofun⟩
      cases hc
      exact hread rfl _ hcontent
    · next e herror =>
      cases h
      refine ⟨hcache, nofun, fun e' he' => ?_⟩
      cases he'
      exact herror

/-- Loading an artifact opens it or nothing. -/
theorem Reading.opened_load {r r' : Reading} {a : ArtifactRef} {outcome : Except Error Content}
    (h : r.load read a = (outcome, r')) : r'.opened = r.opened ∨ r'.opened = r.opened ++ [a.path] := by
  unfold Reading.load at h
  split at h
  · cases h
    exact .inl rfl
  · dsimp only at h
    split at h
    · cases h
      exact .inr rfl
    · cases h
      exact .inr rfl

namespace Scan

variable {s : Scan} {r : Reading}

/-! ### Steps -/

/-- A scan goes on after a batch and after an artifact was loaded. -/
theorem drain_eq (read : Path → Except Error Content) (s : Scan) (r : Reading) :
    s.drain read r = match s.step read r with
      | (.done, r) => (⟨[], none⟩, r)
      | (.failed e, r) => (⟨[], some e⟩, r)
      | (.batch batch rest, r) =>
        (⟨batch :: (rest.drain read r).1.batches, (rest.drain read r).1.failure⟩, (rest.drain read r).2)
      | (.loaded rest, r) => rest.drain read r := by
  rw [drain]
  split
  all_goals
    rename_i h
    rw [h]

/-- A scan that may hand out no more rows is at its end. -/
theorem step_full (h : s.remaining = some 0) : s.step read r = (.done, r) := by
  unfold step
  exact if_pos h

/-- So is one with nothing left. -/
theorem step_nil (hpending : s.pending = []) (hartifacts : s.artifacts = []) :
    s.step read r = (.done, r) := by
  unfold step
  rw [hpending, hartifacts]
  split <;> rfl

/-- The next artifact is loaded when nothing is pending. -/
theorem step_load (h : s.remaining ≠ some 0) (hpending : s.pending = []) {p : Partition} {a : ArtifactRef}
    {rest : List (Partition × ArtifactRef)} (hartifacts : s.artifacts = (p, a) :: rest) :
    s.step read r = match r.load read a with
      | (.error e, r) => (.failed e, r)
      | (.ok c, r) => (.loaded { s with artifacts := rest, pending := batchesOf p c }, r) := by
  unfold step
  rw [hpending, hartifacts]
  exact if_neg h

variable (read r) in
/-- What is pending goes out first: as many of its rows as may be handed out. -/
theorem step_pending (h : s.remaining ≠ some 0) {p : Partition} {stored : Batch}
    {rest : List (Partition × Batch)} (hpending : s.pending = (p, stored) :: rest) :
    match batchRows s.snapshot s.projection p stored with
    | .ok rows => ∃ b : Batch, b.rows = takeUpTo s.remaining rows ∧ s.step read r
        = (.batch b { s with pending := rest, remaining := s.remaining.map (· - b.rows.length) }, r)
    | .error e => s.step read r = (.failed e, r) := by
  unfold step
  rw [if_neg h, hpending]
  dsimp only
  unfold shape batchRows
  cases s.snapshot.batch p stored with
  | error e => rfl
  | ok aligned =>
    dsimp only [bind, Except.bind, pure, Except.pure]
    cases aligned.project s.projection with
    | error e => rfl
    | ok projected =>
      dsimp only
      cases hremaining : s.remaining with
      | none => exact ⟨projected, rfl, rfl⟩
      | some count => exact ⟨projected.take count, rfl, rfl⟩

/-! ### Whole scans -/

/-- What a scan has handed out and left behind at its end, by the rows of what was pending and of its
artifacts. -/
structure Reads (R : Fingerprint → Content → Prop) (s : Scan) (r : Reading)
    (pending outcomes : List (Except Error (List Row))) (result : Drained × Reading) : Prop where
  rows : (result.1.rows, result.1.failure) = limited s.remaining (upToFailure (pending ++ outcomes))
  cache : result.2.cache.Holds R
  /-- Artifacts are opened in turn, and none when the rows before it are enough. -/
  opened : ∃ (opened : List (Partition × ArtifactRef)) (count : Nat),
    result.2.opened = r.opened ++ opened.map (fun a => a.2.path) ∧
    opened.Sublist (s.artifacts.take count) ∧
    ∀ j < count, Unfilled s.remaining (pending ++ outcomes.take j)

/-- Whether an artifact comes to some outcome, be it read or taken from a cache. -/
structure Yields (R : Fingerprint → Content → Prop) (read : Path → Except Error Content) (s : Snapshot)
    (projection : Option (List Nat)) (a : Partition × ArtifactRef) (outcome : Except Error (List Row)) :
    Prop where
  held : ∀ c, R a.2.fingerprint c → contentRows s projection a.1 c = outcome
  stored : ∀ c, read a.2.path = .ok c → R a.2.fingerprint c
  unreadable : ∀ e, read a.2.path = .error e → outcome = .error e

/-- A scan that ends at once has read nothing. -/
theorem Reads.of_done {result : Drained × Reading} {pending outcomes : List (Except Error (List Row))}
    (hcache : r.cache.Holds R) (hr : result.2 = r)
    (hrows : (result.1.rows, result.1.failure) = limited s.remaining (upToFailure (pending ++ outcomes))) :
    Reads R s r pending outcomes result where
  rows := hrows
  cache := by rwa [hr]
  opened := ⟨[], 0, by rw [hr, List.map_nil, List.append_nil], List.nil_sublist _, nofun⟩

/-- What is pending goes out before anything else is read. -/
theorem reads_pending {outcomes : List (Except Error (List Row))} {snapshot : Snapshot}
    {projection : Option (List Nat)} {artifacts : List (Partition × ArtifactRef)}
    (hrest : ∀ remaining (r : Reading), r.cache.Holds R →
      Reads R ⟨snapshot, projection, remaining, artifacts, []⟩ r [] outcomes
        (drain read ⟨snapshot, projection, remaining, artifacts, []⟩ r))
    (pending : List (Partition × Batch)) (remaining : Option Nat) (hcache : r.cache.Holds R) :
    Reads R ⟨snapshot, projection, remaining, artifacts, pending⟩ r
      (pending.map fun b => batchRows snapshot projection b.1 b.2) outcomes
      (drain read ⟨snapshot, projection, remaining, artifacts, pending⟩ r) := by
  -- The limit shrinks by each batch that goes out, so the induction is for every limit.
  induction pending generalizing remaining with
  | nil => exact hrest remaining r hcache
  | cons b pending ih =>
    by_cases hfull : remaining = some 0
    · refine .of_done hcache ?_ ?_
      · rw [drain_eq, step_full hfull]
      · rw [drain_eq, step_full hfull]
        subst hfull
        exact (limited_zero _).symm
    have hstep := step_pending read r
      (s := ⟨snapshot, projection, remaining, artifacts, b :: pending⟩) hfull rfl
    rw [drain_eq, List.map_cons]
    cases houtcome : batchRows snapshot projection b.1 b.2 with
    | error e =>
      rw [houtcome] at hstep
      rw [hstep]
      exact .of_done hcache rfl (limited_nil hfull e).symm
    | ok rows =>
      rw [houtcome] at hstep
      obtain ⟨out, hout, hstep⟩ := hstep
      rw [hstep]
      dsimp only
      obtain ⟨hrows, hcache', opened, count, hopened, hsub, hunfilled⟩ :=
        ih (remaining.map (· - out.rows.length))
      refine ⟨?_, hcache', opened, count, hopened, hsub, fun j hj => ?_⟩
      · show (out.rows ++ _, _) = limited remaining (rows ++ _, _)
        rw [limited_append, ← hout]
        obtain ⟨hrows, hfailure⟩ := Prod.ext_iff.mp hrows
        exact Prod.ext (congrArg (out.rows ++ ·) hrows) hfailure
      · have hj := hunfilled j hj
        rw [hout] at hj
        exact hj.cons

/-- A scan hands out the rows of its artifacts in turn. -/
theorem reads_drain (hR : Fingerprint.Respects R) (hcache : r.cache.Holds R)
    {outcomes : List (Except Error (List Row))}
    (h : List.Forall₂ (Yields R read s.snapshot s.projection) s.artifacts outcomes)
    (hpending : s.pending = []) : Reads R s r [] outcomes (s.drain read r) := by
  obtain ⟨snapshot, projection, remaining, artifacts, pending⟩ := s
  cases hpending
  change List.Forall₂ (Yields R read snapshot projection) artifacts outcomes at h
  induction h generalizing r remaining with
  | nil =>
    rw [drain_eq, step_nil rfl rfl]
    exact .of_done hcache rfl (limited_none _).symm
  | @cons a outcome artifacts outcomes hfirst _ ih =>
    by_cases hfull : remaining = some 0
    · subst hfull
      rw [drain_eq, step_full rfl]
      exact .of_done hcache rfl (limited_zero _).symm
    rw [drain_eq, step_load hfull rfl rfl]
    cases hload : r.load read a.2 with | mk loaded r' =>
    obtain ⟨hcache', hheld, hfailed⟩ := Reading.of_load hR hcache (fun _ => hfirst.stored) hload
    -- The artifact itself is opened at most, and nothing came before it.
    obtain ⟨first, hfirstOpened, hfirstSub⟩ : ∃ first : List (Partition × ArtifactRef),
        r'.opened = r.opened ++ first.map (fun a => a.2.path) ∧ first.Sublist [a] := by
      obtain hsame | hmore := Reading.opened_load hload
      · exact ⟨[], by rw [hsame, List.map_nil, List.append_nil], List.nil_sublist _⟩
      · exact ⟨[a], hmore, List.Sublist.refl _⟩
    cases loaded with
    | error e =>
      have houtcome := hfirst.unreadable e (hfailed e rfl)
      subst houtcome
      refine ⟨(limited_nil hfull e).symm, hcache', first, 1, hfirstOpened, hfirstSub, fun j hj => ?_⟩
      obtain rfl : j = 0 := by omega
      exact unfilled_nil hfull
    | ok c =>
      -- Its batches are pending now, and the artifacts after it come when they have gone out.
      have houtcome := hfirst.held c (hheld c rfl)
      obtain ⟨hrows, hcache'', opened, count, hopened, hsub, hunfilled⟩ :=
        reads_pending (fun remaining r hcache => ih hcache remaining) (batchesOf a.1 c) remaining hcache'
      have hbatches (rest : List (Except Error (List Row))) :
          upToFailure (((batchesOf a.1 c).map fun b => batchRows snapshot projection b.1 b.2) ++ rest)
            = upToFailure (outcome :: rest) := by
        rw [← houtcome, ← upToFailure_batches, batchesOf, List.map_map]
        rfl
      refine ⟨?_, hcache'', first ++ opened, count + 1, ?_, ?_, fun j hj => ?_⟩
      · show _ = limited remaining (upToFailure (outcome :: outcomes))
        rw [← hbatches]
        exact hrows
      · rw [List.map_append, ← List.append_assoc, ← hfirstOpened]
        exact hopened
      · exact hfirstSub.append hsub
      · cases j with
        | zero => exact unfilled_nil hfull
        | succ j =>
          have hj := hunfilled j (Nat.lt_of_succ_lt_succ hj)
          unfold Unfilled at hj ⊢
          rw [hbatches] at hj
          exact hj

/-! ### Scans of all rows -/

/-- Whether a scan hands out all columns of all rows. -/
structure Whole (s : Scan) : Prop where
  columns : s.projection = none
  rows : s.remaining = none

/-- The rows that some rows of a file show as. -/
def shown (s : Snapshot) (p : Partition) (columns : Schema) (rows : List Row) : List Row :=
  rows.map (Plain.row s.dataSchema s.keys p columns)

/-- Whether an artifact can be read, and shows some rows whatever goes with its fingerprint. -/
structure Shows (R : Fingerprint → Content → Prop) (read : Path → Except Error Content) (s : Snapshot)
    (a : Partition × ArtifactRef) (rows : List Row) : Prop where
  readable : ∃ c, read a.2.path = .ok c ∧ R a.2.fingerprint c
  casts : ∀ c, R a.2.fingerprint c → Plain.Casts c.schema s.dataSchema
  rows : ∀ c, R a.2.fingerprint c → shown s a.1 c.schema c.rows = rows

/-- What an artifact shows is what it comes to. -/
theorem Shows.yields {snapshot : Snapshot} {a : Partition × ArtifactRef} {rows : List Row}
    (h : Shows R read snapshot a rows) : Yields R read snapshot none a (.ok rows) where
  held c hc := by
    rw [← h.rows c hc]
    unfold contentRows
    split
    · next hnone => simp [shown, Content.rows, hnone]
    · have hbatch : snapshot.batch a.1 ⟨c.schema, c.rows⟩ = .ok ⟨snapshot.schema,
          c.rows.map (Plain.row snapshot.dataSchema snapshot.keys a.1 c.schema)⟩ :=
        Snapshot.batch_eq a.1 (h.casts c hc)
      unfold batchRows
      rw [hbatch]
      rfl
  stored c hc := by
    obtain ⟨c', hread, hR⟩ := h.readable
    rw [hread] at hc
    cases hc
    exact hR
  unreadable e he := by
    obtain ⟨c, hread, -⟩ := h.readable
    rw [hread] at he
    cases he

/-- A scan hands out the rows of every artifact in turn. -/
theorem rows_drain (hR : Fingerprint.Respects R) (hs : s.Whole) (hcache : r.cache.Holds R)
    (hpending : s.pending = []) {expected : List (List Row)}
    (h : List.Forall₂ (Shows R read s.snapshot) s.artifacts expected) :
    (s.drain read r).1.failure = none ∧ (s.drain read r).1.rows = expected.flatten := by
  have hyields : List.Forall₂ (Yields R read s.snapshot s.projection) s.artifacts (expected.map .ok) := by
    rw [List.forall₂_map_right_iff, hs.columns]
    exact h.imp fun a rows => Shows.yields
  have hall : upToFailure (expected.map .ok) = (expected.flatten, none) := by
    clear h hyields
    induction expected with
    | nil => rfl
    | cons rows rest ih => rw [List.map_cons, upToFailure, ih, List.flatten_cons]
  have hrows := (reads_drain hR hcache hyields hpending).rows
  rw [List.nil_append, hall, hs.rows] at hrows
  obtain ⟨hrows, hfailure⟩ := Prod.ext_iff.mp hrows
  exact ⟨hfailure, hrows⟩

end Scan

end SourceTables
