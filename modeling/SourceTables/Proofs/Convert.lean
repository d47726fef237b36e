import SourceTables.Convert
import SourceTables.Proofs.Artifact.Content
import SourceTables.Proofs.Artifact.Name
import SourceTables.Proofs.Files.Write
import SourceTables.Proofs.Format.Decode

/-!
# `SourceTables.Proofs.Convert`: what a conversion leaves in its artifacts

A conversion that succeeds has written each table under a name of its own, so that no table has taken
the place of another. An artifact that is found afterwards holds its table.

The theorems:

* `Convert.nodup_suffixes`: the tables of one source have different names.
* `Convert.of_writeAll`: every table that was written and is found reads back.
* `Format.of_convert`: what the artifacts of a conversion hold.
* `Format.convert_cases`: a conversion that makes artifacts writes all tables of its source.
* `Format.toOption_contents`, `Format.named_congr`: what artifacts are to hold and their names are the same
  where the content of the source, the components of its path and the parameters are.
-/

set_option autoImplicit false

namespace SourceTables

namespace Convert

/-! ### Names of tables -/

/-- The names that tables get are new and made of table characters. -/
theorem of_suffixesFrom (taken : List String) (position : Nat) (names : List (Option String)) :
    (suffixesFrom taken position names).Nodup ∧
      (∀ s ∈ suffixesFrom taken position names, s ∉ taken ∧ ∀ c ∈ s.toList, Text.IsTableChar c) ∧
      (suffixesFrom taken position names).length = names.length := by
  induction names generalizing taken position with
  | nil => exact ⟨List.nodup_nil, nofun, rfl⟩
  | cons name rest ih =>
    rw [suffixesFrom]
    generalize hbase : Text.tableName (name.getD ("table" ++ toString (position + 1))) = base
    obtain ⟨k, hk, hnew⟩ := Text.fresh_spec taken base
    rw [hk]
    obtain ⟨hnodup, hrest, hlength⟩ := ih (Text.numbered base k :: taken) (position + 1)
    refine ⟨List.nodup_cons.mpr ⟨fun hmem => (hrest _ hmem).1 (.head _), hnodup⟩, ?_, ?_⟩
    · intro s hs
      obtain rfl | hs := List.mem_cons.mp hs
      · refine ⟨hnew, fun c hc => ?_⟩
        obtain hc | hc := Text.of_mem_numbered hc
        · exact Text.of_mem_tableName (hbase ▸ hc)
        · exact hc
      · exact ⟨fun hmem => (hrest s hs).1 (.tail _ hmem), (hrest s hs).2⟩
    · rw [List.length_cons, hlength, List.length_cons]

/-- The tables of one source have different names. -/
theorem nodup_suffixes (names : List (Option String)) : (suffixes names).Nodup := by
  unfold suffixes
  split
  · exact List.nodup_singleton _
  · exact (of_suffixesFrom _ _ _).1.map fun _ _ => Option.some.inj

/-- They are made of table characters. -/
theorem of_mem_suffixes {names : List (Option String)} {s : String} (h : some s ∈ suffixes names) :
    ∀ c ∈ s.toList, Text.IsTableChar c := by
  unfold suffixes at h
  split at h
  · exact absurd (List.mem_singleton.mp h) nofun
  · obtain ⟨s', hs', heq⟩ := List.mem_map.mp h
    cases heq
    exact ((of_suffixesFrom _ _ _).2.1 s hs').2

/-- Every table has a name. -/
theorem length_suffixes (names : List (Option String)) : (suffixes names).length = names.length := by
  unfold suffixes
  split
  · rfl
  · rw [List.length_map, (of_suffixesFrom _ _ _).2.2]

/-! ### Writing tables -/

/-- What a table is as the content of an artifact. -/
def contentOf (t : Table) : Artifact.Content := ⟨t.schema, t.batches⟩

/-- An artifact that stands where its path leads reads back. -/
theorem content_of_stat {fs : Files} {p : Path} {location : Location} {engine : Engine}
    {c : Artifact.Content} {modified : Int}
    (hstat : fs.stat p = .ok (location, .file (c.encode engine) modified))
    (hengine : Engine.ofPath? p = some engine) : Artifact.content fs p = .ok (engine, c) := by
  have hcontent : fs.content p = .ok (c.encode engine) := by
    rw [Files.content, hstat]
  unfold Artifact.content
  rw [hcontent, hengine]
  dsimp only
  rw [Artifact.Content.decode?_encode]

/-- A table is written in its directory. -/
theorem of_write {fs fs' : Files} {dir : Path} {name : String} {engine : Engine} {c : Artifact.Content}
    (hname : Path.IsName name) (h : Artifact.write fs (dir.join ⟨name⟩) engine c = .ok fs') :
    ∃ location, fs.LeadsTo dir location ∧
      fs' = fs.writeAt (location ++ [name]) (c.encode engine) := by
  unfold Artifact.write at h
  split at h
  · cases hreplace : fs.replace (dir.join ⟨name⟩) (c.encode engine) with
    | error e =>
      rw [hreplace] at h
      cases h
    | ok fs₁ =>
      rw [hreplace] at h
      cases h
      exact Files.of_replace_join hname hreplace
  · cases h

/-- Making an artifact's directory makes directories alone. -/
theorem written_prepare {fs fs' : Files} {p : Path} (names : List String)
    (h : Artifact.prepare fs p = .ok fs') : Files.Written names fs fs' := by
  unfold Artifact.prepare at h
  split at h
  · cases h
  · next dir _ =>
    cases hmake : fs.makeDirectories dir with
    | error e =>
      rw [hmake] at h
      cases h
    | ok fs₁ =>
      rw [hmake] at h
      cases h
      exact Files.written_makeDirectories names hmake

section

variable {f : Format} {source : Path} {d : Destination} {fs fs' : Files}

/-- A table that was written stands in its directory. -/
theorem of_writeOne {table : Option String} {t : Table} {p : Produced} (hname : d.Names table)
    (h : writeOne f source d fs table t = (.ok p, fs')) :
    p.artifact = d.artifactPath table ∧ ∃ fs₁ location,
      Files.Written [] fs fs₁ ∧ fs₁.LeadsTo d.dir location ∧
      fs' = fs₁.writeAt (location ++ [d.fileName table]) ((contentOf t).encode d.engine) := by
  unfold writeOne at h
  dsimp only at h
  split at h
  · cases h
  · next fs₁ hprepare =>
    split at h
    · cases h
    · next fs₂ hwrite =>
      cases h
      obtain ⟨location, hdir, hfs⟩ := of_write hname.isName hwrite
      exact ⟨rfl, fs₁, location, written_prepare _ hprepare, hdir, hfs⟩

/-- A table that could not be written leaves directories alone. -/
theorem written_of_error {table : Option String} {t : Table} {e : Error} (names : List String)
    (h : writeOne f source d fs table t = (.error e, fs')) : Files.Written names fs fs' := by
  unfold writeOne at h
  dsimp only at h
  split at h
  · cases h
    exact .refl _ _
  · next fs₁ hprepare =>
    split at h
    · cases h
      exact written_prepare names hprepare
    · cases h

/-- Writing a table changes its own artifact alone. -/
theorem written_writeOne {table : Option String} {t : Table} {result : Except Error Produced}
    (hname : d.Names table) (h : writeOne f source d fs table t = (result, fs')) :
    Files.Written [d.fileName table] fs fs' := by
  cases result with
  | error e => exact written_of_error _ h
  | ok p =>
    obtain ⟨-, fs₁, location, hprepare, -, rfl⟩ := of_writeOne hname h
    exact (hprepare.mono (List.nil_subset _)).trans (Files.written_writeAt _ _ _ _)

/-- Writing tables changes their artifacts alone. -/
theorem written_writeAll {named : List (Option String × Table)} {result : Except Error (List Produced)}
    (hnames : ∀ n ∈ named, d.Names n.1) (h : writeAll f source d fs named = (result, fs')) :
    Files.Written (named.map fun n => d.fileName n.1) fs fs' := by
  induction named generalizing fs result with
  | nil =>
    rw [writeAll] at h
    cases h
    exact .refl _ _
  | cons n rest ih =>
    obtain ⟨table, t⟩ := n
    have hname := hnames _ (.head _)
    have hfirst {fs₁ : Files} {first : Except Error Produced}
        (hone : writeOne f source d fs table t = (first, fs₁)) :
        Files.Written (d.fileName table :: rest.map fun n => d.fileName n.1) fs fs₁ :=
      (written_writeOne hname hone).mono (List.cons_subset.mpr ⟨.head _, List.nil_subset _⟩)
    rw [List.map_cons]
    rw [writeAll] at h
    split at h
    · next hone =>
      cases h
      exact hfirst hone
    · next hone =>
      rcases hrest : writeAll f source d _ rest with ⟨later, fs₂⟩
      rw [hrest] at h
      cases h
      exact (hfirst hone).trans
        ((ih (fun n hn => hnames n (.tail _ hn)) hrest).mono (List.subset_cons_self _ _))

/-- A table that was written and is found reads back. -/
theorem content_of_writeOne {table : Option String} {t : Table} {p : Produced} {names : List String}
    {fs'' : Files} (hname : d.Names table) (h : writeOne f source d fs table t = (.ok p, fs'))
    (hlater : Files.Written names fs' fs'') (hnew : d.fileName table ∉ names)
    (hexists : fs''.exists? p.artifact = true) :
    Artifact.content fs'' p.artifact = .ok (d.engine, contentOf t) := by
  obtain ⟨hartifact, fs₁, location, -, hdir, rfl⟩ := of_writeOne hname h
  have hwritten := Files.written_writeAt fs₁ location (d.fileName table) ((contentOf t).encode d.engine)
  have hfile := hlater.file (Files.node?_writeAt _ _ _ _) fun name hmem hlast => by
    rw [List.getLast?_concat] at hlast
    exact hnew (Option.some.inj hlast ▸ hmem)
  rw [hartifact, Destination.artifactPath_eq] at hexists ⊢
  have hall := (hwritten.mono (List.subset_append_left _ names)).trans
    (hlater.mono (List.subset_append_right [d.fileName table] _))
  exact content_of_stat (Files.stat_of_written hname.isName hdir hall hfile hexists) hname.engine

/-- Every table that was written and is found reads back. -/
theorem of_writeAll {named : List (Option String × Table)} {produced : List Produced}
    (hnodup : (named.map Prod.fst).Nodup) (hnames : ∀ n ∈ named, d.Names n.1)
    (h : writeAll f source d fs named = (.ok produced, fs')) :
    List.Forall₂ (fun n p => fs'.exists? p.artifact = true →
      Artifact.content fs' p.artifact = .ok (d.engine, contentOf n.2)) named produced := by
  induction named generalizing fs produced with
  | nil =>
    rw [writeAll] at h
    cases h
    exact .nil
  | cons n rest ih =>
    obtain ⟨table, t⟩ := n
    obtain ⟨hnew, hnodup⟩ := List.nodup_cons.mp hnodup
    have hlater := fun n hn => hnames n (.tail (table, t) hn)
    rw [writeAll] at h
    split at h
    · cases h
    · next first fs₁ hone =>
      rcases hresult : writeAll f source d fs₁ rest with ⟨result, fs₂⟩
      rw [hresult] at h
      cases result with
      | error e => cases h
      | ok later =>
        cases h
        refine .cons (content_of_writeOne (hnames _ (.head _)) hone (written_writeAll hlater hresult)
          fun hmem => ?_) (ih hnodup hlater hresult)
        obtain ⟨n, hn, hsame⟩ := List.mem_map.mp hmem
        exact hnew (d.fileName_injective hsame ▸ List.mem_map_of_mem hn)

end

end Convert

/-! ### Conversions -/

namespace Format

/-- What the artifacts of a source are to hold: a columnar source is its own artifact, and every other
source has one for each of its tables. -/
def contents (f : Format) (fs : Files) (p : Path) (options : ConvertOptions) :
    Except Error (List (Engine × Artifact.Content)) :=
  if f.isPassthrough then (Artifact.content fs p).map fun c => [c]
  else (f.decode fs p options).map fun tables =>
    tables.map fun t => (options.engine, Convert.contentOf t)

/-- The artifacts of a source are to hold the same where content, components and parameters are the
same. -/
theorem toOption_contents (f : Format) {fs fs' : Files} {p q : Path} {o o' : ConvertOptions}
    (hcontent : fs'.content q = fs.content p) (hpath : q.components = p.components)
    (hparams : f.params q o' = f.params p o) :
    (f.contents fs' q o').toOption = (f.contents fs p o).toOption := by
  unfold contents
  cases hnative : f.isPassthrough with
  | true =>
    have hengine : Engine.ofPath? q = Engine.ofPath? p := by
      unfold Engine.ofPath?
      rw [lowerExtension?_eq hpath]
    rw [if_pos rfl, if_pos rfl]
    unfold Artifact.content
    rw [hcontent, hengine]
    cases fs.content p with
    | error e =>
      cases e <;> cases Engine.ofPath? p <;> rfl
    | ok bytes => cases Engine.ofPath? p <;> rfl
  | false =>
    have hdecode := toOption_decode f hcontent hpath hparams
    obtain ⟨hengine, -, -⟩ := settings_of_params hnative hparams
    rw [if_neg Bool.false_ne_true, if_neg Bool.false_ne_true, hengine]
    cases hq : f.decode fs' q o' <;> cases hp : f.decode fs p o <;> rw [hq, hp] at hdecode
    · rfl
    · cases hdecode
    · cases hdecode
    · cases hdecode
      rfl

/-! ### Tables with names -/

/-- The tables of a source with what is added to its name for each; none if it cannot be decoded. -/
def named (f : Format) (fs : Files) (p : Path) (options : ConvertOptions) :
    List (Option String × Table) :=
  match (f.decode fs p options).toOption with
  | none => []
  | some tables => (Convert.suffixes (tables.map Table.name)).zip tables

variable {f : Format} {fs fs' : Files} {p q : Path} {o o' : ConvertOptions}

/-- What is added is different for each table. -/
theorem nodup_named : ((f.named fs p o).map Prod.fst).Nodup := by
  unfold named
  split
  · exact List.nodup_nil
  · next tables _ =>
    rw [List.map_fst_zip (Nat.le_of_eq (by rw [Convert.length_suffixes, List.length_map]))]
    exact Convert.nodup_suffixes _

/-- It makes names of artifacts in every directory. -/
theorem names_of_mem_named {n : Option String × Table} (hn : n ∈ f.named fs p o) :
    (∀ t, n.1 = some t → ∀ c ∈ t.toList, Text.IsTableChar c) ∧
      ∀ (dir : Path) (source : Fingerprint) (params : Params) (engine : Engine),
        (Destination.ofSource dir source params engine).Names n.1 := by
  have htable : ∀ t, n.1 = some t → ∀ c ∈ t.toList, Text.IsTableChar c := by
    intro t ht
    unfold named at hn
    split at hn
    · cases hn
    · exact Convert.of_mem_suffixes (ht ▸ (List.of_mem_zip hn).1)
  exact ⟨htable, fun _ _ _ _ => Destination.names_ofSource _ _ _ _ htable⟩

/-- The tables are the same where content, components and parameters are. -/
theorem named_congr (hcontent : fs'.content q = fs.content p) (hpath : q.components = p.components)
    (hparams : f.params q o' = f.params p o) : f.named fs' q o' = f.named fs p o := by
  unfold named
  rw [toOption_decode f hcontent hpath hparams]

/-- Every conversion that makes artifacts writes the tables of its source, unless there are none. -/
theorem convert_cases (hf : f.isPassthrough = false) (d : Destination) :
    (f.named fs p o = [] ∧ ∃ e, f.convert fs p d o = (.error e, fs)) ∨
      (f.decode fs p o = .ok ((f.named fs p o).map Prod.snd) ∧
        f.convert fs p d o = Convert.writeAll f p d fs (f.named fs p o)) := by
  unfold convert named
  rw [if_neg (Bool.not_eq_true _ |>.mpr hf)]
  cases f.decode fs p o with
  | error e => exact .inl ⟨rfl, _, rfl⟩
  | ok tables =>
    cases tables with
    | nil => exact .inl ⟨rfl, _, rfl⟩
    | cons t rest =>
      refine .inr ⟨congrArg Except.ok (List.map_snd_zip (Nat.le_of_eq ?_)).symm, rfl⟩
      rw [Convert.length_suffixes, List.length_map]

/-- Where the content of a source is the same, it cannot be decoded for the same reason, or the same tables
are written. -/
theorem convert_congr (hf : f.isPassthrough = false) (hcontent : fs'.content p = fs.content p)
    (d : Destination) :
    (f.named fs p o = [] ∧ ∃ e, f.convert fs p d o = (.error e, fs) ∧
        f.convert fs' p d o = (.error e, fs')) ∨
      (f.named fs p o ≠ [] ∧ f.convert fs p d o = Convert.writeAll f p d fs (f.named fs p o) ∧
        f.convert fs' p d o = Convert.writeAll f p d fs' (f.named fs p o)) := by
  unfold convert named
  rw [if_neg (Bool.not_eq_true _ |>.mpr hf), if_neg (Bool.not_eq_true _ |>.mpr hf), decode_congr f hcontent]
  cases f.decode fs p o with
  | error e => exact .inl ⟨rfl, _, rfl, rfl⟩
  | ok tables =>
    cases tables with
    | nil => exact .inl ⟨rfl, _, rfl, rfl⟩
    | cons t rest =>
      refine .inr ⟨fun hnone => ?_, rfl, rfl⟩
      have hlength : ((Convert.suffixes ((t :: rest).map Table.name)).zip (t :: rest)).length = 0 :=
        congrArg List.length hnone
      rw [List.length_zip, Convert.length_suffixes, List.length_map, Nat.min_self] at hlength
      cases hlength

/-- The artifacts of a conversion that are found hold what they are to hold. -/
theorem of_convert {f : Format} {fs fs' : Files} {source dir : Path} {version : Fingerprint}
    {params : Params} {options : ConvertOptions} {produced : List Produced}
    (h : f.convert fs source (.ofSource dir version params options.engine) options
      = (.ok produced, fs')) :
    ∃ contents, f.contents fs source options = .ok contents ∧
      List.Forall₂ (fun p c => fs'.exists? p.artifact = true →
        Artifact.content fs' p.artifact = .ok c) produced contents := by
  cases hnative : f.isPassthrough with
  | true =>
    unfold convert at h
    unfold contents
    rw [if_pos hnative] at h ⊢
    unfold Artifact.schema at h
    cases hcontent : Artifact.content fs source with
    | error e =>
      rw [hcontent] at h
      cases h
    | ok c =>
      rw [hcontent] at h
      cases h
      exact ⟨[c], rfl, .cons (fun _ => hcontent) .nil⟩
  | false =>
    obtain ⟨-, e, hconvert⟩ | ⟨hdecode, hconvert⟩ :=
      convert_cases hnative (.ofSource dir version params options.engine) <;> rw [hconvert] at h
    · cases h
    · have hreads := Convert.of_writeAll nodup_named (fun n hn => (names_of_mem_named hn).2 _ _ _ _) h
      have hcontents : f.contents fs source options
          = .ok (((f.named fs source options).map Prod.snd).map fun t =>
            (options.engine, Convert.contentOf t)) := by
        unfold contents
        rw [if_neg (Bool.not_eq_true _ |>.mpr hnative), hdecode]
        rfl
      refine ⟨_, hcontents, ?_⟩
      rw [List.map_map]
      exact List.forall₂_map_right_iff.mpr hreads.flip

end Format

end SourceTables
