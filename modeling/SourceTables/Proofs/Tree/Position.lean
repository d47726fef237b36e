import Mathlib.Data.List.Infix

/-!
# `SourceTables.Proofs.Tree.Position`: places in trees

Pages and documents are trees of different kinds. What is said of a place in them is the same: it is reached
by a list of numbers, the first of which counts the outermost nodes, and each further one those right below the
node that has been reached. A place lies in another one when its list goes on from that of the other. In the
order of lists, where the first number that differs decides and a list comes before those that go on from it,
the places are in the order in which their nodes start.

A list of nodes is known when the places are known that it takes its nodes from, each once and in this order.
Such a list is made from the first node and what is below it, and the nodes beside it.

The theorems:

* `forest_induction`: what holds below a node and beside it holds with it.
* `Lists.cons`, `Lists.below`: how such lists are put together.
* `exists_outermost`, `outermost_unique`: every selected node lies in one that is outermost, and in one only.
* `lists_outermost`: a search that stops at selected nodes finds the outermost ones.
-/

set_option autoImplicit false

namespace SourceTables

/-- How the nodes of a kind of tree stand below each other. Going down comes to an end. -/
structure Branching (ν : Type) where
  below : ν → List ν
  shrinks : ∃ size : ν → Nat, ∀ n, ∀ m ∈ below n, size m < size n

namespace Branching

variable {ν : Type} (b : Branching ν)

/-- Induction on some nodes, by what is below the first one and what stands beside it. -/
theorem forest_induction {motive : List ν → Prop} (nil : motive [])
    (cons : ∀ n rest, motive (b.below n) → motive rest → motive (n :: rest)) (ns : List ν) : motive ns := by
  obtain ⟨size, hsize⟩ := b.shrinks
  have bounded : ∀ bound ns, (∀ n ∈ ns, size n < bound) → motive ns := by
    intro bound
    induction bound with
    | zero =>
      intro ns hns
      cases ns with
      | nil => exact nil
      | cons n rest => exact absurd (hns n (.head _)) (Nat.not_lt_zero _)
    | succ bound ih =>
      intro ns hns
      induction ns with
      | nil => exact nil
      | cons n rest ihrest =>
        refine cons n rest (ih _ fun m hm => ?_) (ihrest fun m hm => hns m (.tail _ hm))
        have hn := hns n (.head _)
        have hm := hsize n m hm
        omega
  obtain ⟨bound, hbound⟩ : ∃ bound, ∀ n ∈ ns, size n < bound := by
    induction ns with
    | nil => exact ⟨0, nofun⟩
    | cons n rest ih =>
      obtain ⟨bound, hbound⟩ := ih
      refine ⟨max bound (size n + 1), fun m hm => ?_⟩
      obtain rfl | hm := List.mem_cons.mp hm
      · omega
      · have hm := hbound m hm
        omega
  exact bounded bound ns hbound

/-! ### Nodes at places -/

/-- The node at a place; there is none at the empty list, which would be all of the nodes. -/
def node? (ns : List ν) : List Nat → Option ν
  | [] => none
  | i :: p => ns[i]?.bind fun n => match p with
    | [] => some n
    | _ :: _ => node? (b.below n) p

variable {b} {ns rest : List ν} {n : ν} {p q : List Nat}

@[simp] theorem node?_nil : b.node? ns [] = none := rfl

/-- The same place when a node is put in front. -/
def shift : List Nat → List Nat
  | [] => []
  | i :: p => (i + 1) :: p

@[simp] theorem node?_singleton (i : Nat) : b.node? ns [i] = ns[i]? := by
  simp [node?]

theorem node?_cons_zero (hp : p ≠ []) : b.node? (n :: rest) (0 :: p) = b.node? (b.below n) p := by
  cases p with
  | nil => exact absurd rfl hp
  | cons i p => rfl

theorem node?_cons_shift (p : List Nat) : b.node? (n :: rest) (shift p) = b.node? rest p := by
  cases p <;> rfl

theorem shift_injective : Function.Injective shift := by
  intro p q h
  cases p <;> cases q <;> simp_all [shift]

theorem prefix_shift_iff : q <+: shift p ↔ ∃ r, r <+: p ∧ q = shift r := by
  cases p with
  | nil => simp [shift]
  | cons i p =>
    show q <+: (i + 1) :: p ↔ _
    rw [List.prefix_cons_iff]
    constructor
    · rintro (rfl | ⟨t, rfl, ht⟩)
      · exact ⟨[], List.nil_prefix, rfl⟩
      · exact ⟨i :: t, (List.prefix_cons_inj i).mpr ht, rfl⟩
    · rintro ⟨r, hr, rfl⟩
      obtain rfl | ⟨t, rfl, ht⟩ := List.prefix_cons_iff.mp hr
      · exact .inl rfl
      · exact .inr ⟨t, rfl, ht⟩

/-- A place below a node is a place among the nodes right below it. -/
theorem node?_append (hp : b.node? ns p = some n) (hq : q ≠ []) :
    b.node? ns (p ++ q) = b.node? (b.below n) q := by
  induction p generalizing ns with
  | nil => cases hp
  | cons i p ih =>
    cases hi : ns[i]? with
    | none => simp [node?, hi] at hp
    | some m =>
      cases p with
      | nil =>
        obtain rfl : m = n := by simpa [hi] using hp
        cases q with
        | nil => exact absurd rfl hq
        | cons j q => simp [node?, hi]
      | cons j p =>
        have hm : b.node? (b.below m) (j :: p) = some n := by simpa [node?, hi] using hp
        have hrest : b.node? ns (i :: (j :: p ++ q)) = b.node? (b.below m) (j :: p ++ q) := by
          simp [node?, hi]
        rw [List.cons_append, hrest, ih hm]

/-! ### Lists of nodes -/

variable (b) in
/-- Whether nodes are those at the places that are told, each once and in their order. -/
def Lists (ns : List ν) (told : List Nat → Prop) (found : List ν) : Prop :=
  ∃ places : List (List Nat), places.Pairwise (· < ·) ∧ (∀ p, p ∈ places ↔ told p) ∧
    places.map (b.node? ns) = found.map some

variable {told : List Nat → Prop} {found : List ν}

theorem Lists.congr {told' : List Nat → Prop} (h : b.Lists ns told found) (htold : ∀ p, told p ↔ told' p) :
    b.Lists ns told' found := by
  obtain ⟨places, hsorted, hmem, hfound⟩ := h
  exact ⟨places, hsorted, fun p => (hmem p).trans (htold p), hfound⟩

theorem lists_none (h : ∀ p, ¬ told p) : b.Lists ns told [] :=
  ⟨[], .nil, fun p => iff_of_false List.not_mem_nil (h p), rfl⟩

/-- The first node itself. -/
theorem lists_self (h : ∀ p, told p ↔ p = [0]) : b.Lists [n] told [n] :=
  ⟨[[0]], List.pairwise_singleton _ _, fun p => by rw [h, List.mem_singleton], rfl⟩

/-- Nodes below one that is reached. -/
theorem Lists.below (h : b.Lists (b.below n) (fun r => told (p ++ r)) found) (hp : b.node? ns p = some n)
    (htold : ∀ q, told q → ∃ r, r ≠ [] ∧ q = p ++ r) : b.Lists ns told found := by
  obtain ⟨places, hsorted, hmem, hfound⟩ := h
  refine ⟨places.map (p ++ ·), ?_, fun q => ?_, ?_⟩
  · rw [List.pairwise_map]
    exact hsorted.imp List.append_left_lt
  · rw [List.mem_map]
    constructor
    · rintro ⟨r, hr, rfl⟩
      exact (hmem r).mp hr
    · intro hq
      obtain ⟨r, -, rfl⟩ := htold q hq
      exact ⟨r, (hmem r).mpr hq, rfl⟩
  · rw [← hfound, List.map_map]
    refine List.map_congr_left fun r hr => ?_
    obtain ⟨r', hne, heq⟩ := htold _ ((hmem r).mp hr)
    obtain rfl : r = r' := List.append_cancel_left heq
    exact node?_append hp hne

/-- Nodes at the first one and nodes beside it. -/
theorem Lists.cons {first : List ν} (hfirst : b.Lists [n] (fun p => told p ∧ p.head? = some 0) first)
    (hrest : b.Lists rest (fun p => told (shift p)) found) (hnil : ¬ told []) :
    b.Lists (n :: rest) told (first ++ found) := by
  obtain ⟨places₁, hsorted₁, hmem₁, hfound₁⟩ := hfirst
  obtain ⟨places₂, hsorted₂, hmem₂, hfound₂⟩ := hrest
  refine ⟨places₁ ++ places₂.map shift, ?_, fun p => ?_, ?_⟩
  · have hshift {p q : List Nat} (hpq : p < q) : shift p < shift q := by
      cases p with
      | nil => cases q with
        | nil => exact hpq
        | cons j q => exact List.nil_lt_cons _ _
      | cons i p => cases q with
        | nil => exact absurd hpq (List.not_lt_nil _)
        | cons j q =>
          rw [List.cons_lt_cons_iff] at hpq
          refine List.cons_lt_cons_iff.mpr (hpq.imp (fun h => Nat.succ_lt_succ h) ?_)
          exact And.imp_left (congrArg (· + 1))
    rw [List.pairwise_append, List.pairwise_map]
    refine ⟨hsorted₁, hsorted₂.imp hshift, fun p hp q hq => ?_⟩
    -- What lies at the first node comes before what lies at a later one.
    obtain ⟨q, hmem, rfl⟩ := List.mem_map.mp hq
    have hhead := ((hmem₁ p).mp hp).2
    cases p with
    | nil => cases hhead
    | cons i p => cases q with
      | nil => exact absurd ((hmem₂ []).mp hmem) hnil
      | cons j q =>
        obtain rfl : i = 0 := Option.some_inj.mp hhead
        exact List.cons_lt_cons_iff.mpr (.inl (Nat.succ_pos j))
  · rw [List.mem_append, List.mem_map, hmem₁]
    constructor
    · rintro (hp | ⟨q, hq, rfl⟩)
      · exact hp.1
      · exact (hmem₂ q).mp hq
    · intro hp
      match p with
      | [] => exact absurd hp hnil
      | 0 :: p => exact .inl ⟨hp, rfl⟩
      | (i + 1) :: p => exact .inr ⟨i :: p, (hmem₂ _).mpr hp, rfl⟩
  · rw [List.map_append, List.map_append, ← hfound₁, ← hfound₂, List.map_map]
    congr 1
    · refine List.map_congr_left fun p hp => ?_
      have hhead := ((hmem₁ p).mp hp).2
      cases p with
      | nil => rfl
      | cons i p =>
        obtain rfl : i = 0 := Option.some_inj.mp hhead
        cases p <;> rfl
    · exact List.map_congr_left fun p _ => node?_cons_shift p

/-! ### Outermost nodes -/

variable {selected : ν → Bool}

variable (b) in
/-- Whether a selected node stands at a place. -/
def IsAt (selected : ν → Bool) (ns : List ν) (p : List Nat) : Prop :=
  ∃ n, b.node? ns p = some n ∧ selected n = true

variable (b) in
/-- Whether a selected node stands at a place that lies in no other such place. -/
def IsOutermost (selected : ν → Bool) (ns : List ν) (p : List Nat) : Prop :=
  b.IsAt selected ns p ∧ ∀ q, q <+: p → q ≠ p → ¬ b.IsAt selected ns q

theorem not_isAt_nil : ¬ b.IsAt selected ns [] := by
  rintro ⟨n, hn, -⟩
  cases hn

theorem isAt_zero : b.IsAt selected (n :: rest) [0] ↔ selected n = true := by
  simp [IsAt]

theorem isAt_below (hp : p ≠ []) :
    b.IsAt selected (n :: rest) (0 :: p) ↔ b.IsAt selected (b.below n) p := by
  rw [IsAt, node?_cons_zero hp]
  rfl

theorem isAt_append (hp : b.node? ns p = some n) (hq : q ≠ []) :
    b.IsAt selected ns (p ++ q) ↔ b.IsAt selected (b.below n) q := by
  rw [IsAt, node?_append hp hq]
  rfl

theorem isAt_shift (p : List Nat) : b.IsAt selected (n :: rest) (shift p) ↔ b.IsAt selected rest p := by
  rw [IsAt, node?_cons_shift]
  rfl

/-- A selected node hides those below it. -/
theorem isOutermost_cons_zero (hn : selected n = true) :
    b.IsOutermost selected (n :: rest) (0 :: p) ↔ p = [] := by
  constructor
  · rintro ⟨-, hnone⟩
    by_contra hp
    refine hnone [0] ⟨p, rfl⟩ (fun heq => hp (List.cons.inj heq).2.symm) (isAt_zero.mpr hn)
  · rintro rfl
    refine ⟨isAt_zero.mpr hn, fun q hq hne => ?_⟩
    obtain rfl | ⟨t, rfl, ht⟩ := List.prefix_cons_iff.mp hq
    · exact not_isAt_nil
    · exact absurd (by rw [List.prefix_nil.mp ht]) hne

/-- Below a node that is not selected the outermost nodes are those among the nodes below it. -/
theorem isOutermost_below (hn : selected n = false) :
    b.IsOutermost selected (n :: rest) (0 :: p) ↔ b.IsOutermost selected (b.below n) p := by
  by_cases hp : p = []
  · subst hp
    refine iff_of_false (fun h => ?_) fun h => not_isAt_nil h.1
    rw [isAt_zero.mp h.1] at hn
    cases hn
  · unfold IsOutermost
    rw [isAt_below hp]
    refine and_congr_right fun _ => ⟨fun h q hq hne hat => ?_, fun h q hq hne => ?_⟩
    · have hq' : q ≠ [] := fun heq => not_isAt_nil (heq ▸ hat)
      exact h (0 :: q) ((List.prefix_cons_inj 0).mpr hq) (fun heq => hne (List.cons.inj heq).2)
        ((isAt_below hq').mpr hat)
    · obtain rfl | ⟨q, rfl, hstart⟩ := List.prefix_cons_iff.mp hq
      · exact not_isAt_nil
      · by_cases hq' : q = []
        · subst hq'
          rw [isAt_zero, hn]
          exact Bool.false_ne_true
        · rw [isAt_below hq']
          exact h q hstart fun heq => hne (by rw [heq])

theorem isOutermost_shift (p : List Nat) :
    b.IsOutermost selected (n :: rest) (shift p) ↔ b.IsOutermost selected rest p := by
  unfold IsOutermost
  rw [isAt_shift]
  refine and_congr_right fun _ => ⟨fun h q hq hne hat => ?_, fun h q hq hne => ?_⟩
  · exact h (shift q) (prefix_shift_iff.mpr ⟨q, hq, rfl⟩) (fun heq => hne (shift_injective heq))
      ((isAt_shift q).mpr hat)
  · obtain ⟨q, hstart, rfl⟩ := prefix_shift_iff.mp hq
    rw [isAt_shift]
    exact h q hstart fun heq => hne (by rw [heq])

/-- A search that goes on below each node that it does not select finds the outermost ones. It may carry along
what it has come through. -/
theorem lists_outermost {ι : Type} (search : ι → List ν → List ν) (hnil : ∀ i, search i [] = [])
    (hcons : ∀ i n rest, ∃ j, search i (n :: rest)
      = (if selected n then [n] else search j (b.below n)) ++ search i rest) (i : ι) (ns : List ν) :
    b.Lists ns (b.IsOutermost selected ns) (search i ns) := by
  induction ns using b.forest_induction generalizing i with
  | nil =>
    rw [hnil]
    refine lists_none fun p hp => ?_
    obtain ⟨n, hn, -⟩ := hp.1
    cases p <;> cases hn
  | cons n rest ihbelow ihrest =>
    obtain ⟨j, hsearch⟩ := hcons i n rest
    rw [hsearch]
    refine .cons ?_ ((ihrest i).congr fun p => (isOutermost_shift p).symm) fun h => not_isAt_nil h.1
    have hzero {p : List Nat} (hhead : p.head? = some 0) : ∃ q, p = 0 :: q := by
      cases p with
      | nil => cases hhead
      | cons i q => exact ⟨q, by rw [Option.some_inj.mp hhead]⟩
    by_cases hn : selected n = true
    · -- The search stops here, and what is below the node is hidden by it.
      rw [if_pos hn]
      refine lists_self fun p => ⟨?_, ?_⟩
      · rintro ⟨hp, hhead⟩
        obtain ⟨q, rfl⟩ := hzero hhead
        rw [(isOutermost_cons_zero hn).mp hp]
      · rintro rfl
        exact ⟨(isOutermost_cons_zero hn).mpr rfl, rfl⟩
    · -- The search goes on below the node, from where every place is one step further.
      rw [Bool.not_eq_true] at hn
      rw [if_neg (by rw [hn]; exact Bool.false_ne_true)]
      refine ((ihbelow j).congr fun q => ?_).below (n := n) (p := [0]) rfl ?_
      · rw [List.singleton_append, isOutermost_below hn]
        exact (and_iff_left rfl).symm
      · rintro p ⟨hp, hhead⟩
        obtain ⟨q, rfl⟩ := hzero hhead
        exact ⟨q, fun heq => not_isAt_nil (heq ▸ ((isOutermost_below hn).mp hp).1), rfl⟩

/-- The selected ones of some nodes, without what is below them. -/
theorem lists_filter (ns : List ν) :
    b.Lists ns (fun p => b.IsAt selected ns p ∧ ∃ i, p = [i]) (ns.filter selected) := by
  induction ns with
  | nil =>
    refine lists_none ?_
    rintro p ⟨⟨n, hn, -⟩, i, rfl⟩
    cases hn
  | cons n rest ih =>
    have hbeside : b.Lists rest (fun p => b.IsAt selected (n :: rest) (shift p) ∧ ∃ i, shift p = [i])
        (rest.filter selected) := by
      refine ih.congr fun p => and_congr (isAt_shift p).symm ?_
      match p with
      | [] => exact iff_of_false nofun nofun
      | i :: p => simp [shift]
    have hself : b.Lists [n] (fun p => (b.IsAt selected (n :: rest) p ∧ ∃ i, p = [i]) ∧ p.head? = some 0)
        (if selected n then [n] else []) := by
      by_cases hn : selected n = true
      · rw [if_pos hn]
        refine lists_self fun p => ⟨?_, ?_⟩
        · rintro ⟨⟨-, i, rfl⟩, hhead⟩
          rw [Option.some_inj.mp hhead]
        · rintro rfl
          exact ⟨⟨isAt_zero.mpr hn, 0, rfl⟩, rfl⟩
      · rw [if_neg hn]
        refine lists_none ?_
        rintro p ⟨⟨hat, i, rfl⟩, hhead⟩
        obtain rfl : i = 0 := Option.some_inj.mp hhead
        exact hn (isAt_zero.mp hat)
    have hfilter : (n :: rest).filter selected
        = (if selected n then [n] else []) ++ rest.filter selected := by
      rw [List.filter_cons]
      split <;> rfl
    rw [hfilter]
    exact .cons hself hbeside fun h => not_isAt_nil h.1

/-- Every selected node is outermost or lies in one that is. -/
theorem exists_outermost (h : b.IsAt selected ns q) : ∃ p, b.IsOutermost selected ns p ∧ p <+: q := by
  induction hlength : q.length using Nat.strongRecOn generalizing q with
  | ind size ih =>
    by_cases houter : b.IsOutermost selected ns q
    · exact ⟨q, houter, List.prefix_rfl⟩
    · -- Another selected node stands at a shorter place that `q` goes on from.
      simp only [IsOutermost, h, true_and, not_forall, not_not] at houter
      obtain ⟨r, hr, hne, hat⟩ := houter
      have hshorter : r.length < size := by
        have hle := hr.length_le
        have hneq : r.length ≠ q.length := fun heq => hne (hr.eq_of_length heq)
        omega
      obtain ⟨p, hp, hpr⟩ := ih _ hshorter hat rfl
      exact ⟨p, hp, hpr.trans hr⟩

/-- No place lies in two places of outermost nodes. -/
theorem outermost_unique {p' : List Nat} (hp : b.IsOutermost selected ns p)
    (hp' : b.IsOutermost selected ns p') (h : p <+: q) (h' : p' <+: q) : p' = p := by
  by_contra hne
  rcases List.prefix_or_prefix_of_prefix h h' with hle | hle
  · exact hp'.2 p hle (Ne.symm hne) hp.1
  · exact hp.2 p' hle hne hp'.1

end Branching

end SourceTables
