import SourceTables.BatchCache.Metered
import SourceTables.Proofs.Fingerprint

/-!
# `SourceTables.Proofs.BatchCache.Metered`: the count is the sum

A cache that counts its bytes by hand is in step when the count is the sum of the sizes, which is within
the budget, and no fingerprint has two entries. Every operation keeps it in step, and what it does is then
what the running cache does, which has no count and keeps its entries the other way round.

The theorems:

* `evict_eq`: the shortest leading part gives way that brings the rest within the budget.
* `MeteredCache.put_eq`: what a put keeps.
* `MeteredCache.InStep.call`: every call keeps the cache in step.
* `MeteredCache.shown_get`, `shown_put`, `shown_invalidate`, `shown_clear`: the running cache does the same.
-/

set_option autoImplicit false

namespace SourceTables

open BatchCache (bytesOf fitting)

variable {α : Type}

/-! ### Sizes -/

theorem BatchCache.bytesOf_append (es es' : List (CacheEntry α)) :
    bytesOf (es ++ es') = bytesOf es + bytesOf es' := by
  induction es with
  | nil => simp [bytesOf]
  | cons e rest ih =>
    show e.size + bytesOf (rest ++ es') = e.size + bytesOf rest + bytesOf es'
    rw [ih, Nat.add_assoc]

theorem BatchCache.bytesOf_concat (es : List (CacheEntry α)) (e : CacheEntry α) :
    bytesOf (es ++ [e]) = bytesOf es + e.size :=
  bytesOf_append es [e]

theorem BatchCache.bytesOf_reverse (es : List (CacheEntry α)) : bytesOf es.reverse = bytesOf es := by
  induction es with
  | nil => rfl
  | cons e rest ih =>
    rw [List.reverse_cons, BatchCache.bytesOf_concat, ih, Nat.add_comm]
    rfl

/-- The shortest leading part gives way that brings the rest within the budget. -/
theorem evict_eq (maxBytes : Nat) (es : List (CacheEntry α)) :
    ∃ n ≤ es.length, evict maxBytes ⟨bytesOf es, 0⟩ es = ⟨es.take n, es.drop n, ⟨bytesOf (es.drop n), 0⟩⟩ ∧
      bytesOf (es.drop n) ≤ maxBytes ∧ ∀ m < n, maxBytes < bytesOf (es.drop m) := by
  induction es with
  | nil => exact ⟨0, Nat.le_refl 0, rfl, Nat.zero_le _, nofun⟩
  | cons e rest ih =>
    by_cases hfits : bytesOf (e :: rest) ≤ maxBytes
    · refine ⟨0, Nat.zero_le _, ?_, hfits, nofun⟩
      rw [evict, if_pos hfits]
      rfl
    · obtain ⟨n, hn, heq, hle, hmin⟩ := ih
      have hsub : (Meter.sub ⟨bytesOf (e :: rest), 0⟩ e.size) = ⟨bytesOf rest, 0⟩ := by
        show Meter.sub ⟨e.size + bytesOf rest, 0⟩ e.size = _
        simp [Meter.sub]
      refine ⟨n + 1, Nat.succ_le_succ hn, ?_, hle, fun m hm => ?_⟩
      · rw [evict, if_neg hfits, hsub, heq]
        rfl
      · cases m with
        | zero => exact Nat.lt_of_not_le hfits
        | succ m => exact hmin m (Nat.lt_of_succ_lt_succ hm)

/-- A leading part that fits is taken, and the rest has what is left of the budget. -/
theorem BatchCache.fitting_append {budget : Nat} {es : List (CacheEntry α)} (h : bytesOf es ≤ budget)
    (rest : List (CacheEntry α)) :
    fitting budget (es ++ rest) = es ++ fitting (budget - bytesOf es) rest := by
  induction es generalizing budget with
  | nil => rfl
  | cons e es ih =>
    have hsum : bytesOf (e :: es) = e.size + bytesOf es := rfl
    rw [hsum] at h ⊢
    rw [List.cons_append, fitting, if_pos (by omega), ih (by omega), Nat.sub_sub]
    rfl

/-- What is left when the shortest part gives way is the longest part that fits, seen from the other end. -/
theorem BatchCache.fitting_reverse {budget n : Nat} {es : List (CacheEntry α)} (hn : n ≤ es.length)
    (hle : bytesOf (es.drop n) ≤ budget) (hmin : ∀ m < n, budget < bytesOf (es.drop m)) :
    fitting budget es.reverse = (es.drop n).reverse := by
  have hsplit : es.reverse = (es.drop n).reverse ++ (es.take n).reverse := by
    rw [← List.reverse_append, List.take_append_drop]
  rw [hsplit, BatchCache.fitting_append (by rwa [BatchCache.bytesOf_reverse]), BatchCache.bytesOf_reverse]
  cases n with
  | zero => simp [fitting]
  | succ m =>
    -- The last entry to give way would not fit.
    have hlast : es.drop m = es[m] :: es.drop (m + 1) := List.drop_eq_getElem_cons hn
    have hover := hmin m (Nat.lt_succ_self m)
    rw [hlast] at hover
    have hover : budget < es[m].size + bytesOf (es.drop (m + 1)) := hover
    rw [List.take_succ_eq_append_getElem hn, List.reverse_append, List.reverse_singleton, List.singleton_append,
      fitting, if_neg (by omega), List.append_nil]

namespace MeteredCache

variable {c : MeteredCache α} {f : Fingerprint} {limit : Nat}

/-! ### One entry for each fingerprint -/

/-- Whether no fingerprint has two entries. -/
def Distinct (es : List (CacheEntry α)) : Prop :=
  es.Pairwise fun a b => a.fingerprint.same b.fingerprint = false

/-- The entry of a fingerprint is the only one that agrees with it. -/
theorem find?_eq_some_iff {es : List (CacheEntry α)} (h : Distinct es) {e : CacheEntry α} :
    es.find? (fun e => e.fingerprint.same f) = some e ↔ e ∈ es ∧ e.fingerprint.same f = true := by
  constructor
  · intro hfind
    exact ⟨List.mem_of_find?_eq_some hfind, by simpa using List.find?_some hfind⟩
  · rintro ⟨hmem, hsame⟩
    induction es with
    | nil => cases hmem
    | cons e' rest ih =>
      obtain ⟨hother, hrest⟩ := List.pairwise_cons.mp h
      obtain rfl | hmem := List.mem_cons.mp hmem
      · rw [List.find?_cons, hsame]
      · rw [List.find?_cons, ← Fingerprint.same_congr_right hsame, hother e hmem]
        exact ih hrest hmem

/-- In which order the entries stand does not matter to a look-up. -/
theorem find?_reverse {es : List (CacheEntry α)} (h : Distinct es) :
    es.reverse.find? (fun e => e.fingerprint.same f) = es.find? (fun e => e.fingerprint.same f) := by
  have hreverse : Distinct es.reverse :=
    List.pairwise_reverse.mpr (h.imp fun hne => by rw [Fingerprint.same_comm, hne])
  refine Option.ext fun e => ?_
  rw [find?_eq_some_iff hreverse, find?_eq_some_iff h, List.mem_reverse]

/-- Without the entry of a fingerprint, the sizes add up to that much less. -/
theorem bytesOf_without {es : List (CacheEntry α)} (h : Distinct es) {e : CacheEntry α}
    (he : es.find? (fun e => e.fingerprint.same f) = some e) :
    bytesOf es = e.size + bytesOf (es.filter fun e => !e.fingerprint.same f) := by
  induction es with
  | nil => cases he
  | cons e' rest ih =>
    obtain ⟨hother, hrest⟩ := List.pairwise_cons.mp h
    rw [List.find?_cons] at he
    cases hsame : e'.fingerprint.same f with
    | true =>
      rw [hsame] at he
      cases he
      have hall : rest.filter (fun e => !e.fingerprint.same f) = rest := by
        rw [List.filter_eq_self]
        intro e'' he''
        rw [← Fingerprint.same_congr_right hsame, Fingerprint.same_comm, hother e'' he'']
        rfl
      rw [List.filter_cons, hsame, hall]
      rfl
    | false =>
      rw [hsame] at he
      rw [List.filter_cons, hsame]
      show e'.size + bytesOf rest = e.size + (e'.size + bytesOf _)
      rw [ih hrest he]
      omega

/-! ### Caches whose count is in step -/

/-- Whether the count is the sum of the sizes, which is within the budget, and no fingerprint has two
entries. -/
structure InStep (c : MeteredCache α) : Prop where
  meter : c.meter = ⟨bytesOf c.entries, 0⟩
  within : bytesOf c.entries ≤ c.maxBytes
  distinct : Distinct c.entries

theorem without_sublist (c : MeteredCache α) (f : Fingerprint) : (c.without f).Sublist c.entries :=
  List.filter_sublist

theorem not_same_of_mem_without {e : CacheEntry α} (he : e ∈ c.without f) : e.fingerprint.same f = false := by
  simpa using (List.mem_filter.mp he).2

/-- Nothing is left out for a fingerprint that has no entry. -/
theorem without_of_lacks (h : c.held? f = none) : c.without f = c.entries := by
  rw [without, List.filter_eq_self]
  simpa [held?] using h

/-- A part of the entries takes no more than all of them. -/
theorem bytesOf_le_of_sublist {es es' : List (CacheEntry α)} (h : es.Sublist es') :
    bytesOf es ≤ bytesOf es' := by
  induction h with
  | slnil => exact Nat.le_refl _
  | cons e _ ih => exact Nat.le_add_left_of_le ih
  | cons_cons e _ ih => exact Nat.add_le_add_left ih _

/-- What is taken out is taken off the count. -/
theorem InStep.drop_eq (h : c.InStep) (f : Fingerprint) :
    c.drop f = { c with entries := c.without f, meter := ⟨bytesOf (c.without f), 0⟩ } := by
  unfold drop
  cases he : c.held? f with
  | none =>
    rw [without_of_lacks he, ← h.meter]
  | some e =>
    have hbytes : bytesOf c.entries = e.size + bytesOf (c.without f) := bytesOf_without h.distinct he
    have hmeter : c.meter.sub e.size = ⟨bytesOf (c.without f), 0⟩ := by
      rw [h.meter, hbytes]
      simp [Meter.sub]
    exact congrArg (fun meter => { c with entries := c.without f, meter }) hmeter

/-- An entry that agrees with none of some entries comes after them. -/
theorem distinct_concat {es : List (CacheEntry α)} (h : Distinct es) {e : CacheEntry α}
    (hnew : ∀ e' ∈ es, e'.fingerprint.same e.fingerprint = false) : Distinct (es ++ [e]) := by
  refine List.pairwise_append.mpr ⟨h, List.pairwise_singleton _ _, fun e' he' e'' he'' => ?_⟩
  rw [List.mem_singleton.mp he'']
  exact hnew e' he'

/-- A put keeps its payload and lets the shortest leading part of the other entries give way that brings
all within the budget. -/
theorem InStep.put_eq (h : c.InStep) (hlimit : 2 * c.maxBytes ≤ limit) (f : Fingerprint) (payload : α)
    {size : Nat} (hpos : 0 < c.maxBytes) (hsize : size ≤ c.maxBytes) :
    ∃ n ≤ (c.without f).length,
      c.put limit f payload size = (some ((c.without f).take n),
        { c with
          entries := (c.without f).drop n ++ [⟨f, payload, size⟩]
          meter := ⟨bytesOf ((c.without f).drop n ++ [⟨f, payload, size⟩]), 0⟩
          counts := { c.counts with
            inserts := c.counts.inserts + 1
            evictions := c.counts.evictions + n } }) ∧
      bytesOf ((c.without f).drop n) + size ≤ c.maxBytes ∧
      ∀ m < n, c.maxBytes < bytesOf ((c.without f).drop m) + size := by
  obtain ⟨n, hn, hevict, hle, hmin⟩ := evict_eq c.maxBytes (c.without f ++ [⟨f, payload, size⟩])
  have hnew : n ≤ (c.without f).length := by
    -- The new entry fits by itself, so it is not among those that give way.
    refine Nat.le_of_not_lt fun hall => ?_
    have hover := hmin (c.without f).length hall
    rw [List.drop_left] at hover
    have hover : c.maxBytes < size + 0 := hover
    omega
  refine ⟨n, hnew, ?_, ?_, fun m hm => ?_⟩
  · -- Both terms are within the budget, so that the sum does not reach the end of the range.
    have hadd : Meter.add limit ⟨bytesOf (c.without f), 0⟩ size
        = ⟨bytesOf (c.without f ++ [⟨f, payload, size⟩]), 0⟩ := by
      have hothers := bytesOf_le_of_sublist (c.without_sublist f)
      have hwithin := h.within
      rw [BatchCache.bytesOf_concat, Meter.add, if_pos (by show bytesOf (c.without f) + size ≤ limit; omega)]
    unfold put
    rw [if_neg (by omega), h.drop_eq]
    dsimp only
    rw [hadd, hevict, List.take_append_of_le_length hnew, List.drop_append_of_le_length hnew,
      List.length_take, Nat.min_eq_left hnew]
  · rw [List.drop_append_of_le_length hnew, BatchCache.bytesOf_concat] at hle
    exact hle
  · have hover := hmin m hm
    rw [List.drop_append_of_le_length (Nat.le_trans (Nat.le_of_lt hm) hnew),
      BatchCache.bytesOf_concat] at hover
    exact hover

/-- A payload above the budget is not kept, and neither is the one before. -/
theorem InStep.put_eq_of_over (h : c.InStep) (f : Fingerprint) (payload : α) {size : Nat}
    (hover : c.maxBytes = 0 ∨ c.maxBytes < size) :
    c.put limit f payload size
      = (none, { c with entries := c.without f, meter := ⟨bytesOf (c.without f), 0⟩ }) := by
  unfold put
  rw [if_pos hover, h.drop_eq]

/-! ### Calls keep the count in step -/

theorem inStep_start (maxBytes : Nat) : InStep ({ maxBytes } : MeteredCache α) :=
  ⟨rfl, Nat.zero_le _, .nil⟩

/-- Some of the entries with their count are in step. -/
theorem InStep.sublist (h : c.InStep) {es : List (CacheEntry α)} (hes : es.Sublist c.entries)
    (counts : CacheCounts) : InStep { c with entries := es, meter := ⟨bytesOf es, 0⟩, counts } :=
  ⟨rfl, Nat.le_trans (bytesOf_le_of_sublist hes) h.within, h.distinct.sublist hes⟩

theorem InStep.get (h : c.InStep) (f : Fingerprint) : (c.get f).2.InStep := by
  unfold MeteredCache.get
  cases he : c.held? f with
  | none => exact ⟨h.meter, h.within, h.distinct⟩
  | some e =>
    have hbytes : bytesOf (c.without f ++ [e]) = bytesOf c.entries := by
      rw [BatchCache.bytesOf_concat, bytesOf_without h.distinct he, Nat.add_comm]
      rfl
    obtain ⟨-, hsame⟩ := (find?_eq_some_iff h.distinct).mp he
    refine ⟨?_, ?_, distinct_concat (h.distinct.sublist (c.without_sublist f)) fun e' he' => ?_⟩
    · show c.meter = ⟨bytesOf (c.without f ++ [e]), 0⟩
      rw [hbytes, h.meter]
    · show bytesOf (c.without f ++ [e]) ≤ c.maxBytes
      rw [hbytes]
      exact h.within
    · rw [← not_same_of_mem_without he']
      exact Fingerprint.same_congr_right hsame

theorem InStep.put (h : c.InStep) (hlimit : 2 * c.maxBytes ≤ limit) (f : Fingerprint) (payload : α)
    (size : Nat) : (c.put limit f payload size).2.InStep := by
  by_cases hover : c.maxBytes = 0 ∨ c.maxBytes < size
  · rw [h.put_eq_of_over f payload hover]
    exact h.sublist (c.without_sublist f) c.counts
  · obtain ⟨n, -, heq, hle, -⟩ := h.put_eq hlimit f payload (by omega) (by omega : size ≤ c.maxBytes)
    rw [heq]
    refine ⟨rfl, ?_, distinct_concat ?_ fun e he => not_same_of_mem_without (List.mem_of_mem_drop he)⟩
    · show bytesOf ((c.without f).drop n ++ [⟨f, payload, size⟩]) ≤ c.maxBytes
      rw [BatchCache.bytesOf_concat]
      exact hle
    · exact h.distinct.sublist ((List.drop_sublist _ _).trans (c.without_sublist f))

theorem InStep.invalidate (h : c.InStep) (f : Fingerprint) : (c.invalidate f).2.InStep := by
  unfold MeteredCache.invalidate
  cases c.held? f with
  | none => exact h
  | some e =>
    dsimp only
    rw [h.drop_eq]
    exact h.sublist (c.without_sublist f) _

theorem InStep.clear (h : c.InStep) : c.clear.InStep := by
  refine ⟨?_, Nat.zero_le _, .nil⟩
  show c.meter.reset = ⟨0, 0⟩
  rw [h.meter]
  rfl

/-! ### The running cache does the same -/

/-- What the running cache keeps: no count, and the most recently used entry first. -/
def shown (c : MeteredCache α) : BatchCache α := ⟨c.maxBytes, c.entries.reverse, c.counts⟩

@[simp] theorem shown_maxBytes (c : MeteredCache α) : c.shown.maxBytes = c.maxBytes := rfl

@[simp] theorem shown_counts (c : MeteredCache α) : c.shown.counts = c.counts := rfl

theorem shown_held? (h : c.InStep) (f : Fingerprint) : c.shown.held? f = c.held? f :=
  find?_reverse h.distinct

theorem shown_without (c : MeteredCache α) (f : Fingerprint) : c.shown.without f = (c.without f).reverse :=
  List.filter_reverse

theorem InStep.shown_get (h : c.InStep) (f : Fingerprint) :
    c.shown.get f = ((c.get f).1, (c.get f).2.shown) := by
  unfold BatchCache.get MeteredCache.get
  rw [shown_held? h, shown_without]
  cases c.held? f with
  | none => rfl
  | some e => simp [shown]

theorem InStep.shown_put (h : c.InStep) (hlimit : 2 * c.maxBytes ≤ limit) (f : Fingerprint) (payload : α)
    (size : Nat) : c.shown.put f payload size = (c.put limit f payload size).2.shown := by
  unfold BatchCache.put
  rw [shown_without]
  by_cases hover : c.maxBytes = 0 ∨ c.maxBytes < size
  · rw [h.put_eq_of_over f payload hover]
    exact if_pos hover
  · obtain ⟨n, hn, heq, hle, hmin⟩ := h.put_eq hlimit f payload (by omega) (by omega : size ≤ c.maxBytes)
    have hdrop {m : Nat} (hm : m ≤ (c.without f).length) :
        (c.without f ++ [CacheEntry.mk f payload size]).drop m
          = (c.without f).drop m ++ [CacheEntry.mk f payload size] :=
      List.drop_append_of_le_length hm
    -- One cache lets entries give way from the front, and the other keeps what fits from the back.
    have hall : CacheEntry.mk f payload size :: (c.without f).reverse
        = (c.without f ++ [CacheEntry.mk f payload size]).reverse := by
      rw [List.reverse_append]
      rfl
    have hkept : fitting c.maxBytes (CacheEntry.mk f payload size :: (c.without f).reverse)
        = ((c.without f).drop n ++ [CacheEntry.mk f payload size]).reverse := by
      rw [hall, ← hdrop hn]
      refine BatchCache.fitting_reverse ?_ ?_ fun m hm => ?_
      · rw [List.length_append]
        exact Nat.le_add_right_of_le hn
      · rw [hdrop hn, BatchCache.bytesOf_concat]
        exact hle
      · rw [hdrop (Nat.le_trans (Nat.le_of_lt hm) hn), BatchCache.bytesOf_concat]
        exact hmin m hm
    have hevicted : (CacheEntry.mk f payload size :: (c.without f).reverse).length
        - ((c.without f).drop n ++ [CacheEntry.mk f payload size]).reverse.length = n := by
      simp only [List.length_cons, List.length_reverse, List.length_append, List.length_drop, List.length_nil]
      omega
    simp only [shown_maxBytes, shown_counts, if_neg hover, heq, hkept, hevicted]
    rfl

theorem InStep.shown_invalidate (h : c.InStep) (f : Fingerprint) :
    c.shown.invalidate f = ((c.invalidate f).1, (c.invalidate f).2.shown) := by
  unfold BatchCache.invalidate MeteredCache.invalidate
  rw [shown_held? h, shown_without, h.drop_eq]
  cases c.held? f with
  | none => rfl
  | some e => rfl

theorem shown_clear (c : MeteredCache α) : c.shown.clear = c.clear.shown := rfl

end MeteredCache

end SourceTables
