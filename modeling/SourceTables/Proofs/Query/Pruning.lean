import SourceTables.Proofs.Partition.Order
import SourceTables.Proofs.Partition.Typing
import SourceTables.Proofs.Query.Meaning
import SourceTables.Proofs.Text.Utf8

/-!
# `SourceTables.Proofs.Query.Pruning`: no partition with matching rows is left out

A predicate on partitions may abstain, and where it decides it does so for all rows: what it decides
is never contradicted by the filter that it was made from. This is a bound from both sides, since a
negation turns a loss on one side into one on the other, and it is what the induction over filters
carries. A null value is where the bound is not an equality: the partition decides against the
comparison, and on the rows it is unknown.

The theorems:

* `agrees_predicate?`: the outcome on a partition is never the opposite of the filter's truth value on
  a row of it.
* `eval_of_decided`: where all values are there and compare, the outcome is two-valued.
* `pruning_sound_and_exact`: a partition that has a row on which all filters are true is kept, and a
  predicate whose comparisons are all decided keeps exactly the partitions that satisfy it.
-/

set_option autoImplicit false

namespace SourceTables

/-! ### Two-valued truth -/

namespace Predicate

/-- Whether the partition has a value for each key and each value compares. -/
def Decided (p : Partition) : Predicate → Prop
  | .always => True
  | .compare _ key literal =>
    ∃ value, p.value? key = some value ∧ value.isNull = false ∧ (value.compare? literal).isSome
  | .oneOf key literals =>
    ∃ value, p.value? key = some value ∧ value.isNull = false ∧
      ∀ literal ∈ literals, (value.compare? literal).isSome
  | .isNull key => ∃ value, p.value? key = some value
  | .and a b | .or a b => a.Decided p ∧ b.Decided p
  | .not a => a.Decided p

/-- Whether a partition satisfies a predicate, in two-valued logic. -/
def Holds (p : Partition) : Predicate → Prop
  | .always => True
  | .compare op key literal =>
    ∃ value o, p.value? key = some value ∧ value.compare? literal = some o ∧ op.accepts o
  | .oneOf key literals =>
    ∃ value, p.value? key = some value ∧ ∃ literal ∈ literals, value.compare? literal = some .eq
  | .isNull key => p.value? key = some .null
  | .and a b => a.Holds p ∧ b.Holds p
  | .or a b => a.Holds p ∨ b.Holds p
  | .not a => ¬ a.Holds p

/-- The outcome of a comparison with a value that is there and compares. -/
theorem compareValue_of_compare? {p : Partition} {key : String} {value literal : Literal}
    {o : Ordering} (op : Comparison) (hvalue : p.value? key = some value)
    (hnull : value.isNull = false) (ho : value.compare? literal = some o) :
    compareValue p op key literal = some (op.accepts o) := by
  unfold compareValue
  rw [hvalue]
  simp only [hnull, ho]
  rfl

/-- A predicate whose comparisons are all decided has a two-valued outcome. -/
theorem eval_of_decided {p : Partition} {q : Predicate} (h : q.Decided p) :
    ∃ b, q.eval p = some b ∧ (b = true ↔ q.Holds p) := by
  induction q with
  | always => exact ⟨true, rfl, by simp [Holds]⟩
  | compare op key literal =>
    obtain ⟨value, hvalue, hnull, hsome⟩ := h
    obtain ⟨o, ho⟩ := Option.isSome_iff_exists.mp hsome
    refine ⟨op.accepts o, compareValue_of_compare? op hvalue hnull ho, ?_⟩
    simp [Holds, hvalue, ho]
  | oneOf key literals =>
    obtain ⟨value, hvalue, hnull, hsome⟩ := h
    show ∃ b, literals.foldr _ _ = some b ∧ _
    induction literals with
    | nil => exact ⟨false, rfl, by simp [Holds]⟩
    | cons literal rest ih =>
      obtain ⟨o, ho⟩ := Option.isSome_iff_exists.mp (hsome literal List.mem_cons_self)
      obtain ⟨b, hb, hiff⟩ := ih fun l hl => hsome l (List.mem_cons_of_mem _ hl)
      refine ⟨o.isEq || b, ?_, ?_⟩
      · rw [List.foldr_cons, hb, compareValue_of_compare? .eq hvalue hnull ho]
        cases o <;> cases b <;> rfl
      · have heq : o.isEq = true ↔ value.compare? literal = some .eq := by
          rw [ho]
          cases o <;> simp
        simp only [Holds, hvalue, Option.some.injEq, exists_eq_left', List.mem_cons,
          exists_eq_or_imp, Bool.or_eq_true, heq] at hiff ⊢
        rw [hiff]
  | isNull key =>
    obtain ⟨value, hvalue⟩ := h
    refine ⟨value.isNull, by simp [eval, hvalue], ?_⟩
    cases value <;> simp [Holds, hvalue, Literal.isNull]
  | and a b iha ihb =>
    obtain ⟨x, hx, hxa⟩ := iha h.1
    obtain ⟨y, hy, hyb⟩ := ihb h.2
    refine ⟨x && y, ?_, ?_⟩
    · rw [eval, hx, hy]
      cases x <;> cases y <;> rfl
    · rw [Bool.and_eq_true, hxa, hyb, Holds]
  | or a b iha ihb =>
    obtain ⟨x, hx, hxa⟩ := iha h.1
    obtain ⟨y, hy, hyb⟩ := ihb h.2
    refine ⟨x || y, ?_, ?_⟩
    · rw [eval, hx, hy]
      cases x <;> cases y <;> rfl
    · rw [Bool.or_eq_true, hxa, hyb, Holds]
  | not a ih =>
    obtain ⟨x, hx, hxa⟩ := ih h
    refine ⟨!x, by rw [eval, hx]; rfl, ?_⟩
    rw [Holds, ← hxa]
    cases x <;> simp

end Predicate

/-! ### Outcomes that are never contradicted -/

/-- Whether an outcome, where it is decided, is not the opposite of a truth value. -/
def Agrees (outcome truth : Option Bool) : Prop := ∀ b, outcome = some b → truth ≠ some (!b)

namespace Agrees

theorem of_none (t : Option Bool) : Agrees none t := nofun

theorem to_unknown (o : Option Bool) : Agrees o none := fun _ _ => nofun

theorem refl (o : Option Bool) : Agrees o o := by
  intro b hb hb'
  cases b <;> simp_all

/-- Agreement is kept by conjunction. -/
theorem and {a b s t : Option Bool} (ha : Agrees a s) (hb : Agrees b t) :
    Agrees (Predicate.andOpen a b) (Predicate.andOpen s t) := by
  rcases a with _ | _ | _ <;> rcases b with _ | _ | _ <;> rcases s with _ | _ | _ <;>
    rcases t with _ | _ | _ <;> simp_all [Agrees, Predicate.andOpen]

/-- Agreement is kept by disjunction. -/
theorem or {a b s t : Option Bool} (ha : Agrees a s) (hb : Agrees b t) :
    Agrees (Predicate.orOpen a b) (Predicate.orOpen s t) := by
  rcases a with _ | _ | _ <;> rcases b with _ | _ | _ <;> rcases s with _ | _ | _ <;>
    rcases t with _ | _ | _ <;> simp_all [Agrees, Predicate.orOpen]

/-- Agreement is kept by negation, since it is a bound from both sides. -/
theorem not {a s : Option Bool} (ha : Agrees a s) : Agrees (a.map (!·)) (s.map (!·)) := by
  rcases a with _ | _ | _ <;> rcases s with _ | _ | _ <;> simp_all [Agrees]

end Agrees

/-! ### Values on partitions and on rows -/

/-- The cell of a literal in a column of its own type. -/
def Literal.plain : Literal → Cell
  | .integer n => .int n
  | .decimal x => .float x
  | .boolean b => .bool b
  | .text s => .text s
  | .null => .null

/-- In a column of a type that it fits a literal is its own cell. -/
theorem Literal.Fits.cell_eq {type : TextType} {l : Literal} (h : l.Fits type) :
    l.cell type = l.plain := by
  cases l <;> simp only [Fits] at h <;> first | rw [h]; rfl | rfl

/-- A cell is null just when its literal is. -/
theorem Literal.isNull_plain (l : Literal) : l.plain.isNull = l.isNull := by
  cases l <;> rfl

/-- Cells compare as their literals do. -/
theorem Literal.order?_plain (a b : Literal) : a.plain.order? b.plain = a.compare? b := by
  cases a <;> cases b <;> first | rfl | exact congrArg some (Text.compare_encodeUtf8 _ _)

/-- A constant that stands for a literal has its value on every row. -/
theorem RowReading.constant_of_literal? (r : RowReading) {c : Constant} {l : Literal}
    (h : c.literal? = some l) : r.constant c = l.plain ∧ l.isNull = false := by
  cases c with
  | integer n =>
    simp only [Constant.literal?] at h
    split at h
    · cases h
      exact ⟨rfl, rfl⟩
    · cases h
  | decimal x => cases h; exact ⟨rfl, rfl⟩
  | boolean b => cases h; exact ⟨rfl, rfl⟩
  | text s => cases h; exact ⟨rfl, rfl⟩
  | other => cases h

/-- An expression that is a literal has its value on every row. -/
theorem RowReading.value_of_literal? (r : RowReading) {e : Expr} {l : Literal}
    (h : e.literal? = some l) : r.value e = l.plain ∧ l.isNull = false := by
  cases e with
  | constant c => exact r.constant_of_literal? h
  | _ => cases h

/-- An expression that is a key is the column of this name. -/
theorem Expr.eq_column_of_key? {isKey : String → Bool} {e : Expr} {key : String}
    (h : e.key? isKey = some key) : e = .column key := by
  cases e with
  | column name =>
    simp only [Expr.key?] at h
    split at h
    · cases h; rfl
    · cases h
  | _ => cases h

section Partition

variable {keys : List PartitionKey} {p : Partition} {r : RowReading}

/-- A row has in its column for a key the value that the partition has for the key. -/
theorem RowReading.Carries.column_eq (hr : r.Carries keys p) (hp : p.Fits keys) {key : String}
    {value : Literal} (hvalue : p.value? key = some value) : r.column key = value.plain := by
  obtain ⟨k, hk, rfl, hfits⟩ := hp.exists_key hvalue
  rw [hr k hk, hvalue, Option.getD_some, hfits.cell_eq]

/-- The leaf of the induction: the outcome of a comparison on a partition agrees with a truth value
that is unknown for a null and accepts the order of values that compare. -/
theorem agrees_compareValue {op : Comparison} {key : String} {literal : Literal} {t : Option Bool}
    (hnull : ∀ value, p.value? key = some value → value.isNull → t = none)
    (hsome : ∀ value o, p.value? key = some value → value.isNull = false →
      value.compare? literal = some o → t = some (op.accepts o)) :
    Agrees (Predicate.compareValue p op key literal) t := by
  unfold Predicate.compareValue
  cases hvalue : p.value? key with
  | none => exact Agrees.of_none _
  | some value =>
    cases hv : value.isNull with
    | true =>
      -- The partition decides against a null, but the rows do not decide at all.
      rw [hnull value hvalue hv]
      exact Agrees.to_unknown _
    | false =>
      cases ho : value.compare? literal with
      | none =>
        simp only [hv, ho]
        exact Agrees.of_none _
      | some o =>
        rw [hsome value o hvalue hv ho]
        simp only [hv, ho]
        exact Agrees.refl _

/-- A comparison with the key on the left. -/
theorem agrees_compare_left (hp : p.Fits keys) (hr : r.Carries keys p) (op : Comparison)
    (key : String) {literal : Literal} (hliteral : literal.isNull = false) :
    Agrees (Predicate.compareValue p op key literal)
      (r.compare op (r.column key) literal.plain) := by
  refine agrees_compareValue (fun value hvalue hv => ?_) (fun value o hvalue hv ho => ?_)
  · rw [hr.column_eq hp hvalue, RowReading.compare, value.isNull_plain, hv]
    rfl
  · rw [hr.column_eq hp hvalue, RowReading.compare, value.isNull_plain, literal.isNull_plain, hv,
      hliteral, Literal.order?_plain, ho]
    rfl

/-- A comparison with the key on the right changes its direction. -/
theorem agrees_compare_right (hp : p.Fits keys) (hr : r.Carries keys p) (op : Comparison)
    (key : String) {literal : Literal} (hliteral : literal.isNull = false) :
    Agrees (Predicate.compareValue p op.swap key literal)
      (r.compare op literal.plain (r.column key)) := by
  refine agrees_compareValue (fun value hvalue hv => ?_) (fun value o hvalue hv ho => ?_)
  · rw [hr.column_eq hp hvalue, RowReading.compare, value.isNull_plain, hv, Bool.or_true]
    rfl
  · rw [hr.column_eq hp hvalue, RowReading.compare, value.isNull_plain, literal.isNull_plain, hv,
      hliteral, Literal.order?_plain, Literal.compare?_swap value literal, ho]
    show some (op.accepts o.swap) = _
    rw [← Comparison.accepts_swap op o.swap, Ordering.swap_swap]

/-- A test of a key for null. -/
theorem agrees_isNull (hp : p.Fits keys) (hr : r.Carries keys p) (key : String) :
    Agrees ((p.value? key).map Literal.isNull) (some (r.column key).isNull) := by
  cases hvalue : p.value? key with
  | none => exact Agrees.of_none _
  | some value =>
    rw [hr.column_eq hp hvalue, value.isNull_plain]
    exact Agrees.refl _

/-- A list of literals. -/
theorem agrees_among (hp : p.Fits keys) (hr : r.Carries keys p) (key : String) {items : List Expr}
    {literals : List Literal} (h : items.mapM Expr.literal? = some literals) :
    Agrees ((Predicate.oneOf key literals).eval p) (r.among (r.column key) items) := by
  induction items generalizing literals with
  | nil =>
    cases h
    exact Agrees.refl _
  | cons item items ih =>
    rw [List.mapM_cons] at h
    obtain ⟨literal, hliteral, h⟩ := Option.bind_eq_some_iff.mp h
    obtain ⟨rest, hrest, h⟩ := Option.bind_eq_some_iff.mp h
    cases h
    obtain ⟨hitem, hnull⟩ := r.value_of_literal? hliteral
    rw [RowReading.among, hitem]
    exact Agrees.or (agrees_compare_left hp hr .eq key hnull) (ih hrest)

/-- A predicate that is negated where asked for. -/
theorem agrees_negateIf {q : Predicate} {t : Option Bool} (negated : Bool)
    (h : Agrees (q.eval p) t) :
    Agrees ((Expr.negateIf negated q).eval p) (RowReading.negateIf negated t) := by
  cases negated with
  | false => exact h
  | true => exact Agrees.not h

/-- Both of two predicates. -/
theorem agrees_both {a b : Predicate} {s t : Option Bool} (ha : Agrees (a.eval p) s)
    (hb : Agrees (b.eval p) t) : Agrees ((a.both b).eval p) (Predicate.andOpen s t) := by
  rw [Predicate.eval_both]
  exact Agrees.and ha hb

/-! ### Filters -/

/-- A comparison that has a predicate agrees with it. -/
theorem agrees_comparePredicate? (hp : p.Fits keys) (hr : r.Carries keys p)
    {isKey : String → Bool} {op : Comparison} {left right : Expr} {q : Predicate}
    (h : Expr.comparePredicate? isKey op left right = some q) :
    Agrees (q.eval p) (r.compare op (r.value left) (r.value right)) := by
  unfold Expr.comparePredicate? at h
  split at h
  · next key hleft _ =>
    obtain ⟨literal, hliteral, rfl⟩ := Option.map_eq_some_iff.mp h
    obtain ⟨hright, hnull⟩ := r.value_of_literal? hliteral
    rw [Expr.eq_column_of_key? hleft, hright, RowReading.value]
    exact agrees_compare_left hp hr op key hnull
  · next key _ hright =>
    obtain ⟨literal, hliteral, rfl⟩ := Option.map_eq_some_iff.mp h
    obtain ⟨hleft, hnull⟩ := r.value_of_literal? hliteral
    rw [Expr.eq_column_of_key? hright, hleft, RowReading.value]
    exact agrees_compare_right hp hr op key hnull
  · cases h

/-- A range that has a predicate agrees with it. -/
theorem agrees_betweenPredicate? (hp : p.Fits keys) (hr : r.Carries keys p)
    {isKey : String → Bool} {inner low high : Expr} {q : Predicate}
    (h : Expr.betweenPredicate? isKey inner low high = some q) :
    Agrees (q.eval p) (Predicate.andOpen (r.compare .ge (r.value inner) (r.value low))
      (r.compare .le (r.value inner) (r.value high))) := by
  obtain ⟨key, hkey, h⟩ := Option.bind_eq_some_iff.mp h
  obtain ⟨a, ha, h⟩ := Option.bind_eq_some_iff.mp h
  obtain ⟨b, hb, h⟩ := Option.bind_eq_some_iff.mp h
  cases h
  obtain ⟨hlow, hlow'⟩ := r.value_of_literal? ha
  obtain ⟨hhigh, hhigh'⟩ := r.value_of_literal? hb
  rw [Expr.eq_column_of_key? hkey, hlow, hhigh, RowReading.value]
  exact agrees_both (agrees_compare_left hp hr .ge key hlow')
    (agrees_compare_left hp hr .le key hhigh')

/-- The outcome on a partition is never the opposite of the filter's truth value on a row of it. -/
theorem agrees_predicate? (hp : p.Fits keys) (hr : r.Carries keys p) {isKey : String → Bool} :
    ∀ (e : Expr) {q : Predicate}, e.predicate? isKey = some q → Agrees (q.eval p) (r.truth e)
  | .compare op left right, q, h => by
    rw [RowReading.truth, RowReading.value, Cell.truth?_ofTruth]
    exact agrees_comparePredicate? hp hr h
  | .and left right, q, h => by
    obtain ⟨a, ha, h⟩ := Option.bind_eq_some_iff.mp h
    obtain ⟨b, hb, h⟩ := Option.bind_eq_some_iff.mp h
    cases h
    rw [RowReading.truth, RowReading.value, Cell.truth?_ofTruth]
    exact agrees_both (agrees_predicate? hp hr left ha) (agrees_predicate? hp hr right hb)
  | .or left right, q, h => by
    obtain ⟨a, ha, h⟩ := Option.bind_eq_some_iff.mp h
    obtain ⟨b, hb, h⟩ := Option.bind_eq_some_iff.mp h
    cases h
    rw [RowReading.truth, RowReading.value, Cell.truth?_ofTruth]
    exact Agrees.or (agrees_predicate? hp hr left ha) (agrees_predicate? hp hr right hb)
  | .not inner, q, h => by
    obtain ⟨a, ha, rfl⟩ := Option.map_eq_some_iff.mp h
    rw [RowReading.truth, RowReading.value, Cell.truth?_ofTruth]
    exact Agrees.not (agrees_predicate? hp hr inner ha)
  | .isNull inner, q, h => by
    obtain ⟨key, hkey, rfl⟩ := Option.map_eq_some_iff.mp h
    rw [Expr.eq_column_of_key? hkey, RowReading.truth, RowReading.value, RowReading.value]
    exact agrees_isNull hp hr key
  | .isNotNull inner, q, h => by
    obtain ⟨key, hkey, rfl⟩ := Option.map_eq_some_iff.mp h
    rw [Expr.eq_column_of_key? hkey, RowReading.truth, RowReading.value, RowReading.value]
    exact Agrees.not (agrees_isNull hp hr key)
  | .inList inner items negated, q, h => by
    obtain ⟨list, hlist, rfl⟩ := Option.map_eq_some_iff.mp h
    obtain ⟨key, hkey, hlist⟩ := Option.bind_eq_some_iff.mp hlist
    obtain ⟨literals, hliterals, hlist⟩ := Option.bind_eq_some_iff.mp hlist
    cases hlist
    rw [Expr.eq_column_of_key? hkey, RowReading.truth, RowReading.value, RowReading.value,
      Cell.truth?_ofTruth]
    exact agrees_negateIf negated (agrees_among hp hr key hliterals)
  | .between inner low high negated, q, h => by
    obtain ⟨range, hrange, rfl⟩ := Option.map_eq_some_iff.mp h
    rw [RowReading.truth, RowReading.value, Cell.truth?_ofTruth]
    exact agrees_negateIf negated (agrees_betweenPredicate? hp hr hrange)
  | .column _, q, h | .constant _, q, h | .other _, q, h => by cases h

/-- On a row on which all filters are true, what the filters say together is not false. -/
theorem agrees_predicateOf (hp : p.Fits keys) (hr : r.Carries keys p) (isKey : String → Bool)
    {filters : List Expr} (hfilters : ∀ f ∈ filters, r.truth f = some true) :
    Agrees ((Expr.predicateOf isKey filters).eval p) (some true) := by
  have fold (qs : List Predicate) (acc : Predicate) (hacc : Agrees (acc.eval p) (some true))
      (hqs : ∀ q ∈ qs, Agrees (q.eval p) (some true)) :
      Agrees ((qs.foldl .both acc).eval p) (some true) := by
    induction qs generalizing acc with
    | nil => exact hacc
    | cons q qs ih =>
      exact ih (acc.both q) (agrees_both hacc (hqs q List.mem_cons_self))
        fun q' hq' => hqs q' (List.mem_cons_of_mem _ hq')
  refine fold _ .always (Agrees.refl _) fun q hq => ?_
  -- Filters without a predicate are left to the rows, and leave the partition in.
  obtain ⟨f, hf, hq⟩ := List.mem_filterMap.mp hq
  rw [← hfilters f hf]
  exact agrees_predicate? hp hr f hq

/-- So a partition with such a row is kept. -/
theorem keeps_predicateOf (hp : p.Fits keys) (hr : r.Carries keys p) (isKey : String → Bool)
    {filters : List Expr} (hfilters : ∀ f ∈ filters, r.truth f = some true) :
    (Expr.predicateOf isKey filters).keeps p = true := by
  have hagrees := agrees_predicateOf hp hr isKey hfilters
  unfold Predicate.keeps
  cases houtcome : (Expr.predicateOf isKey filters).eval p with
  | none => rfl
  | some b =>
    cases b with
    | true => rfl
    | false => exact absurd rfl (hagrees false houtcome)

end Partition

/-! ### Snapshots -/

/-- Whether the keys and partitions of a snapshot are those of a detected layout. -/
def Snapshot.Detected (s : Snapshot) : Prop :=
  ∃ (d : Detection) (root : Path) (entries : List Entry) (layout : Layout),
    d.detectListing root entries = .ok layout ∧ s.keys = layout.keys ∧
      s.partitions.map PartitionEntry.partition = layout.partitions

/-- The partitions of a snapshot with detected keys fit the keys. -/
theorem Snapshot.Detected.fits {s : Snapshot} (h : s.Detected) :
    ∀ entry ∈ s.partitions, entry.partition.Fits s.keys := by
  obtain ⟨d, root, entries, layout, hdetect, hkeys, hpartitions⟩ := h
  intro entry hentry
  have hlayout := Detection.detectListing_eq_ok.mp hdetect
  have hmem : entry.partition ∈ layout.partitions := by
    rw [← hpartitions]
    exact List.mem_map.mpr ⟨entry, hentry, rfl⟩
  rw [hkeys]
  exact Detection.fits_of_layoutOf hlayout _ hmem

/-- A partition that has a row on which all filters are true is kept, also when the keys are those
that an earlier snapshot was planned with; and a predicate all of whose comparisons are decided keeps
exactly the partitions that satisfy it. -/
theorem pruning_sound_and_exact (s planned : Snapshot) (filters : List Expr) (hs : s.Detected)
    (entry : PartitionEntry) (hentry : entry ∈ s.partitions) :
    (∀ r : RowReading, r.Carries s.keys entry.partition →
      (∀ f ∈ filters, r.truth f = some true) →
      (Expr.predicateOf planned.isKey filters).keeps entry.partition = true) ∧
    (∀ q : Predicate, q.Decided entry.partition →
      (q.keeps entry.partition = true ↔ q.Holds entry.partition)) := by
  constructor
  · intro r hr hfilters
    exact keeps_predicateOf (hs.fits entry hentry) hr planned.isKey hfilters
  · intro q hq
    obtain ⟨b, hb, hiff⟩ := Predicate.eval_of_decided hq
    rw [Predicate.keeps, hb, Option.getD_some]
    exact hiff

/-- The partition of a day, with one file. -/
def dayPartition (day : Int) (file : String) : Partition :=
  ⟨[("day", .integer day)], ⟨"day=" ++ toString day⟩, [⟨file⟩]⟩

/-- A snapshot of two days. -/
def twoDays : Snapshot :=
  { Snapshot.empty with
    keys := [⟨"day", .integer⟩]
    partitions := [⟨dayPartition 1 "t/day=1/a.csv", []⟩, ⟨dayPartition 2 "t/day=2/a.csv", []⟩] }

/-- The two days are those of a listing. -/
theorem detected_twoDays : twoDays.Detected := by
  let layout : Layout :=
    ⟨⟨"t"⟩, twoDays.keys, twoDays.partitions.map PartitionEntry.partition⟩
  refine ⟨⟨1, [], fun _ => true⟩, ⟨"t"⟩, [.file ⟨"day=1/a.csv"⟩, .file ⟨"day=2/a.csv"⟩], layout,
    Detection.detectListing_eq_ok.mpr ?_, rfl, rfl⟩
  have hlayout : (Detection.layoutOf ⟨1, [], fun _ => true⟩ ⟨"t"⟩
      [.file ⟨"day=1/a.csv"⟩, .file ⟨"day=2/a.csv"⟩]).toOption = some layout := by
    decide +kernel
  exact Outcome.eq_ok_of_toOption hlayout

/-- On two days, the filter that the day is not the second one keeps the first day, on which it is
true, and the predicate that it stands for keeps no other. -/
theorem pruning_twoDays :
    (Expr.predicateOf twoDays.isKey
        [.compare .ne (.constant (.integer 2)) (.column "day")]).keeps
      (dayPartition 1 "t/day=1/a.csv") = true ∧
    ((Predicate.compare .ne "day" (.integer 2)).keeps (dayPartition 2 "t/day=2/a.csv") = true ↔
      (Predicate.compare .ne "day" (.integer 2)).Holds (dayPartition 2 "t/day=2/a.csv")) := by
  have first := pruning_sound_and_exact twoDays twoDays
    [.compare .ne (.constant (.integer 2)) (.column "day")] detected_twoDays
    ⟨dayPartition 1 "t/day=1/a.csv", []⟩ List.mem_cons_self
  have second := pruning_sound_and_exact twoDays twoDays [] detected_twoDays
    ⟨dayPartition 2 "t/day=2/a.csv", []⟩ (List.mem_cons_of_mem _ List.mem_cons_self)
  constructor
  · refine first.1 ⟨fun _ => .int 1, fun _ => .null, fun _ _ _ => none⟩ ?_ ?_
    · intro key hkey
      rw [List.mem_singleton.mp hkey]
      rfl
    · intro f hf
      rw [List.mem_singleton.mp hf]
      rfl
  · exact second.2 _ ⟨.integer 2, rfl, rfl, rfl⟩

end SourceTables
