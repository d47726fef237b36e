import SourceTables.Partition.Layout
import SourceTables.Proofs.Keyed
import SourceTables.Proofs.Outcome
import SourceTables.Proofs.Path.Parts

/-!
# `SourceTables.Proofs.Partition.Chain`: the keys that directories lead to

The chain of a directory is its longest leading run of `key=value` names, cut at the greatest depth. A
file belongs to the place where the chain of its directory ends.

The theorems:

* `chainOf_eq_ok`: the chain of a directory is found just when no key repeats in it.
* `chain_above`, `components_place`: the place of a file is nothing but the file's chain, and can be
  written down as a path.
-/

set_option autoImplicit false

namespace SourceTables

/-- The `key=value` names that components start with. -/
def leadingRun : List Component → Chain
  | [] => []
  | c :: rest => match Segment.parse? c.text with
    | some kv => kv :: leadingRun rest
    | none => []

namespace Detection

/-- The chain of a directory: its longest leading run, cut at the greatest depth. -/
def chain (d : Detection) (dir : Path) : Chain := (leadingRun dir.components).take d.maxDepth

/-- Whether a directory is nothing but its chain. -/
def IsChain (d : Detection) (dir : Path) : Prop := (d.chain dir).length = dir.components.length

instance (d : Detection) (dir : Path) : Decidable (d.IsChain dir) :=
  inferInstanceAs (Decidable (_ = _))

/-- A chain goes on as long as names have keys that are new. -/
theorem extendChain_eq_ok {dir : Path} {room : Nat} {before chain : Chain} {cs : List Component}
    {complete : Bool} (hbefore : before.keys.Nodup) :
    extendChain dir room before cs = .ok (chain, complete) ↔
      (before ++ (leadingRun cs).take room).keys.Nodup ∧ chain = before ++ (leadingRun cs).take room ∧
        complete = decide (((leadingRun cs).take room).length = cs.length) := by
  induction cs generalizing room before with
  | nil => simp [extendChain, leadingRun, hbefore, eq_comm]
  | cons c rest ih =>
    unfold extendChain leadingRun
    cases room with
    | zero => simp [hbefore, eq_comm]
    | succ room =>
      cases hparse : Segment.parse? c.text with
      | none => simp [hbefore, eq_comm]
      | some kv =>
        dsimp only
        by_cases hrepeats : kv.key ∈ before.keys
        · have hany : (before.any fun earlier => earlier.key == kv.key) = true := by
            obtain ⟨earlier, hmem, hkey⟩ := List.mem_map.mp hrepeats
            exact List.any_eq_true.mpr ⟨earlier, hmem, beq_iff_eq.mpr hkey⟩
          rw [if_pos hany]
          refine ⟨nofun, fun h => ?_⟩
          have hnodup := h.1
          rw [List.take_succ_cons, Chain.keys, List.map_append, List.map_cons] at hnodup
          exact absurd rfl ((List.nodup_append.mp hnodup).2.2 _ hrepeats _ (.head _))
        · have hany : ¬ (before.any fun earlier => earlier.key == kv.key) = true := by
            rw [List.any_eq_true]
            rintro ⟨earlier, hmem, hkey⟩
            exact hrepeats (beq_iff_eq.mp hkey ▸ List.mem_map_of_mem hmem)
          have hnext : (Chain.keys (before ++ [kv])).Nodup := by
            rw [Chain.keys, List.map_append]
            refine List.nodup_append.mpr ⟨hbefore, List.pairwise_singleton _ _, fun a ha b hb => ?_⟩
            rw [List.mem_singleton.mp hb]
            exact fun hab => hrepeats (hab ▸ ha)
          rw [if_neg hany, ih hnext, List.take_succ_cons, List.append_assoc]
          simp

/-- The chain of a directory is found if no key repeats. -/
theorem chainOf_eq_ok {d : Detection} {dir : Path} {chain : Chain} {complete : Bool} :
    d.chainOf dir = .ok (chain, complete) ↔
      (d.chain dir).keys.Nodup ∧ chain = d.chain dir ∧ complete = decide (d.IsChain dir) := by
  have hnil : (Chain.keys []).Nodup := List.nodup_nil
  exact extendChain_eq_ok hnil

/-! ### Where chains end -/

theorem length_leadingRun_le (cs : List Component) : (leadingRun cs).length ≤ cs.length := by
  induction cs with
  | nil => exact Nat.le_refl _
  | cons c rest ih =>
    unfold leadingRun
    split
    · exact Nat.succ_le_succ ih
    · exact Nat.zero_le _

/-- As many components as a run has keys lead to the same keys. -/
theorem leadingRun_take {cs : List Component} {n : Nat} (h : n ≤ (leadingRun cs).length) :
    leadingRun (cs.take n) = (leadingRun cs).take n ∧ (cs.take n).length = n := by
  induction cs generalizing n with
  | nil =>
    obtain rfl : n = 0 := Nat.le_zero.mp h
    exact ⟨rfl, rfl⟩
  | cons c rest ih =>
    cases n with
    | zero => exact ⟨rfl, rfl⟩
    | succ n =>
      unfold leadingRun at h ⊢
      rw [List.take_succ_cons]
      dsimp only
      split at h
      · next kv hkv =>
        obtain ⟨hrun, hlength⟩ := ih (Nat.le_of_succ_le_succ h)
        rw [hrun]
        exact ⟨rfl, congrArg Nat.succ hlength⟩
      · cases h

/-- A run that is as long as its components reads each of them. -/
theorem forall₂_leadingRun {cs : List Component} (h : (leadingRun cs).length = cs.length) :
    List.Forall₂ (fun c kv => Segment.parse? c.text = some kv) cs (leadingRun cs) := by
  induction cs with
  | nil => exact .nil
  | cons c rest ih =>
    unfold leadingRun at h ⊢
    split at h
    · next kv hkv =>
      exact .cons hkv (ih (Nat.succ.inj h))
    · cases h

/-- A component with a key is a name. -/
theorem exists_name_of_parse? {c : Component} {kv : KeyValue} (h : Segment.parse? c.text = some kv) :
    ∃ name, c = .name name := by
  cases c with
  | root | current | parent => cases h
  | name text => exact ⟨text, rfl⟩

/-- The components of a directory that is nothing but keys can be written down again. -/
theorem components_of_run {p : Path} {cs : List Component} (hp : ∀ c ∈ cs, c ∈ p.components)
    (h : (leadingRun cs).length = cs.length) : (Path.ofComponents cs).components = cs := by
  have hnames : (cs.map Component.text).map .name = cs := by
    rw [List.map_map]
    refine (List.map_congr_left fun c hc => ?_).trans (List.map_id cs)
    obtain ⟨kv, -, hkv⟩ := Outcome.exists_of_forall₂ (forall₂_leadingRun h) hc
    obtain ⟨name, rfl⟩ := exists_name_of_parse? hkv
    rfl
  rw [← hnames] at hp ⊢
  exact Path.components_ofComponents fun n hn => Path.isName_of_mem (hp _ (List.mem_map_of_mem hn))

/-- The directory that the keys of a file come from. -/
def above (rel : Path) : Path := rel.parent?.getD ⟨""⟩

/-- The components of the directory where the chain of a file ends. -/
def place (d : Detection) (rel : Path) : List Component :=
  (above rel).components.take (d.chain (above rel)).length

/-- The chain of a file is that of the place where it ends. -/
theorem chain_above (d : Detection) (rel : Path) :
    d.chain (above rel) = leadingRun (d.place rel) ∧
      (leadingRun (d.place rel)).length = (d.place rel).length := by
  have hle : (d.chain (above rel)).length ≤ (leadingRun (above rel).components).length :=
    List.length_take_le' _ _
  obtain ⟨hrun, hlength⟩ := leadingRun_take hle
  have hchain : leadingRun (d.place rel) = d.chain (above rel) := by
    rw [place, hrun, chain, List.length_take]
    simp
  exact ⟨hchain.symm, by rw [hchain, place, hlength]⟩

theorem components_place (d : Detection) (rel : Path) :
    (Path.ofComponents (d.place rel)).components = d.place rel :=
  components_of_run (fun _ => List.mem_of_mem_take) (d.chain_above rel).2

end Detection

end SourceTables
