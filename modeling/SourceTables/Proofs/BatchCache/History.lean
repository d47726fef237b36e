import SourceTables.Proofs.BatchCache.Metered

/-!
# `SourceTables.Proofs.BatchCache.History`: a cache and the calls that it has had

Everything that a cache keeps can be read off the calls that it has had and the answers that it gave.
Calls are listed with the last one first, so that each call adds to what is known of those before it.

The theorems:

* `MeteredCache.Tracks.call`: what one call does to a cache that goes with its calls.
* `MeteredCache.exact_after`: after any calls, the cache holds what was put last and not dropped since, in the
  order of its last use, within the budget; and the running cache holds the same.
-/

set_option autoImplicit false

namespace SourceTables

open BatchCache (bytesOf)

variable {α : Type}

namespace CacheCall

/-- Whether a call uses the entry of a fingerprint. -/
def uses (f : Fingerprint) : CacheCall α → Bool
  | .get g | .put g _ _ => g.same f
  | .invalidate _ | .clear => false

/-- Whether a call looks a payload up. -/
def isGet : CacheCall α → Bool
  | .get _ => true
  | _ => false

/-- How many calls there were since a fingerprint was used last. -/
def age (f : Fingerprint) : List (CacheCall α) → Nat
  | [] => 0
  | call :: earlier => if call.uses f then 0 else age f earlier + 1

/-- The payload that was put last under a fingerprint, unless it was not kept or has been dropped since. -/
def latest (f : Fingerprint) : List (CacheCall α × CacheAnswer α) → Option α
  | [] => none
  | (.get _, _) :: earlier => latest f earlier
  | (.put g payload _, answer) :: earlier => match answer with
    | .kept evicted =>
      if g.same f then some payload
      else if evicted.any (fun e => e.fingerprint.same f) then none else latest f earlier
    | _ => if g.same f then none else latest f earlier
  | (.invalidate g, _) :: earlier => if g.same f then none else latest f earlier
  | (.clear, _) :: _ => none

end CacheCall

namespace MeteredCache

open CacheCall (age latest)

variable {c : MeteredCache α} {f g : Fingerprint} {limit : Nat} {es es' : List (CacheEntry α)}
  {calls : List (CacheCall α)} {k : CacheCall α}

/-! ### Look-ups after an operation -/

/-- The payload that some entries hold for a fingerprint. -/
def payload? (es : List (CacheEntry α)) (f : Fingerprint) : Option α :=
  (es.find? fun e => e.fingerprint.same f).map CacheEntry.payload

theorem find?_congr (h : f.same g = true) (es : List (CacheEntry α)) :
    (es.find? fun e => e.fingerprint.same f) = es.find? fun e => e.fingerprint.same g := by
  congr 1
  funext e
  exact Fingerprint.same_congr_right h

/-- Without the entry of one fingerprint, the others are found as before. -/
theorem find?_without (c : MeteredCache α) (f g : Fingerprint) :
    ((c.without f).find? fun e => e.fingerprint.same g)
      = if f.same g = true then none else c.entries.find? fun e => e.fingerprint.same g := by
  rw [without, List.find?_filter]
  split
  · next hfg =>
    rw [List.find?_eq_none]
    intro e _
    simp [Fingerprint.same_congr_right hfg]
  · next hfg =>
    congr 1
    funext e
    cases hf : e.fingerprint.same f with
    | false => simp
    | true =>
      -- An entry of `f` is none of `g`.
      have hg : e.fingerprint.same g = false := by
        rw [Fingerprint.same_comm, Fingerprint.same_congr_right hf, Fingerprint.same_comm]
        simpa using hfg
      simp [hg]

/-- After entries have given way, the others are found as before. -/
theorem find?_drop (h : Distinct es) (n : Nat) (g : Fingerprint) :
    ((es.drop n).find? fun e => e.fingerprint.same g)
      = if (es.take n).any (fun e => e.fingerprint.same g) then none
        else es.find? fun e => e.fingerprint.same g := by
  have hsplit : es.find? (fun e => e.fingerprint.same g) = ((es.take n).find? fun e => e.fingerprint.same g).or
      ((es.drop n).find? fun e => e.fingerprint.same g) := by
    rw [← List.find?_append, List.take_append_drop]
  split
  · next hany =>
    obtain ⟨e, he, hsame⟩ := List.any_eq_true.mp hany
    rw [List.find?_eq_none]
    -- A second entry that agrees with `g` would agree with the one that gave way.
    intro e' he' hsame'
    have hboth : Distinct (es.take n ++ es.drop n) := by rwa [List.take_append_drop]
    have hne := (List.pairwise_append.mp hboth).2.2 e he e' he'
    rw [Fingerprint.same_trans hsame (Fingerprint.same_symm hsame')] at hne
    cases hne
  · next hany =>
    have hnone : ((es.take n).find? fun e => e.fingerprint.same g) = none := by
      rw [List.find?_eq_none]
      intro e he hsame
      exact hany (List.any_eq_true.mpr ⟨e, he, hsame⟩)
    rw [hsplit, hnone, Option.none_or]

/-! ### The order of last use -/

/-- Whether entries stand in the order of their last use, the least recent one first. -/
def Ordered (calls : List (CacheCall α)) (es : List (CacheEntry α)) : Prop :=
  es.Pairwise fun a b => age b.fingerprint calls < age a.fingerprint calls

/-- A call that does not use some entries leaves them in order. -/
theorem Ordered.unused (h : Ordered calls es) (hsub : es'.Sublist es)
    (hunused : ∀ e ∈ es', k.uses e.fingerprint = false) : Ordered (k :: calls) es' := by
  refine (h.sublist hsub).imp_of_mem fun {a b} ha hb hlt => ?_
  simp only [age, hunused a ha, hunused b hb, Bool.false_eq_true, if_false]
  omega

/-- The entry that a call uses comes last. -/
theorem Ordered.used (h : Ordered calls es) (hsub : es'.Sublist es)
    (hunused : ∀ e ∈ es', k.uses e.fingerprint = false) {e : CacheEntry α}
    (hused : k.uses e.fingerprint = true) : Ordered (k :: calls) (es' ++ [e]) := by
  refine List.pairwise_append.mpr ⟨h.unused hsub hunused, List.pairwise_singleton _ _, fun a ha b hb => ?_⟩
  rw [List.mem_singleton.mp hb]
  simp only [age, hused, hunused a ha, Bool.false_eq_true, if_false, if_true]
  omega

/-! ### A cache and its calls -/

/-- Whether a cache goes with the calls that it has had and the answers that it gave. -/
structure Tracks (calls : List (CacheCall α)) (events : List (CacheCall α × CacheAnswer α))
    (c : MeteredCache α) : Prop where
  inStep : c.InStep
  ordered : Ordered calls c.entries
  holds : ∀ f, payload? c.entries f = latest f events
  gets : c.counts.hits + c.counts.misses = calls.countP CacheCall.isGet

variable {events : List (CacheCall α × CacheAnswer α)}

theorem not_same_of_without {e : CacheEntry α} (he : e ∈ c.without f) : f.same e.fingerprint = false := by
  rw [Fingerprint.same_comm]
  exact not_same_of_mem_without he

/-- What is left without the entry of a fingerprint is what was put last elsewhere. -/
theorem Tracks.payload?_without (h : Tracks calls events c) (f g : Fingerprint) :
    payload? (c.without f) g = if f.same g = true then none else latest g events := by
  rw [payload?, find?_without, ← h.holds g]
  split <;> rfl

/-- One more entry is found in the place of none. -/
theorem payload?_concat {e : CacheEntry α} (hnew : ∀ e' ∈ es, e'.fingerprint.same e.fingerprint = false)
    (g : Fingerprint) :
    payload? (es ++ [e]) g = if e.fingerprint.same g = true then some e.payload else payload? es g := by
  rw [payload?, List.find?_append]
  split
  · next hsame =>
    have hnone : (es.find? fun e => e.fingerprint.same g) = none := by
      rw [List.find?_eq_none]
      intro e' he'
      rw [← Fingerprint.same_congr_right hsame, hnew e' he']
      exact Bool.false_ne_true
    rw [hnone, Option.none_or, List.find?_cons, hsame]
    rfl
  · next hother =>
    rw [Bool.not_eq_true] at hother
    rw [List.find?_cons, hother]
    exact congrArg _ (Option.or_none)

/-- A look-up moves the entry that it finds to the end. -/
theorem Tracks.get (h : Tracks calls events c) (f : Fingerprint) (answer : CacheAnswer α) :
    Tracks (.get f :: calls) ((.get f, answer) :: events) (c.get f).2 := by
  have hinStep := h.inStep.get f
  have hcount : (CacheCall.get f :: calls).countP CacheCall.isGet = calls.countP CacheCall.isGet + 1 :=
    List.countP_cons_of_pos rfl
  unfold MeteredCache.get at hinStep ⊢
  cases he : c.held? f with
  | none =>
    rw [he] at hinStep
    refine ⟨hinStep, ?_, h.holds, ?_⟩
    · refine h.ordered.unused (List.Sublist.refl _) fun e hmem => ?_
      have hother := List.find?_eq_none.mp he e hmem
      rw [Bool.not_eq_true, Fingerprint.same_comm] at hother
      exact hother
    · rw [hcount, ← h.gets]
      rfl
  | some e =>
    rw [he] at hinStep
    obtain ⟨-, hsame⟩ := (find?_eq_some_iff h.inStep.distinct).mp he
    have hothers : ∀ e' ∈ c.without f, e'.fingerprint.same e.fingerprint = false := fun e' he' => by
      rw [Fingerprint.same_congr_right hsame, not_same_of_mem_without he']
    refine ⟨hinStep, ?_, fun g => ?_, ?_⟩
    · refine h.ordered.used (c.without_sublist f) (fun e' he' => ?_) (Fingerprint.same_symm hsame)
      exact not_same_of_without he'
    · show payload? (c.without f ++ [e]) g = latest g events
      rw [payload?_concat hothers, h.payload?_without]
      -- The entry that moves is the one that was found under `f` before.
      split
      · next hg =>
        have hfound : c.held? g = some e := by
          rw [← he]
          exact (find?_congr (Fingerprint.same_trans (Fingerprint.same_symm hsame) hg) c.entries).symm
        rw [← h.holds g]
        exact (congrArg (Option.map CacheEntry.payload) hfound).symm
      · next hg =>
        rw [if_neg]
        intro hfg
        exact hg (Fingerprint.same_trans hsame hfg)
    · rw [hcount, ← h.gets]
      show c.counts.hits + 1 + c.counts.misses = c.counts.hits + c.counts.misses + 1
      omega

/-- A put that is kept comes last, after the entries that did not give way to it. -/
theorem Tracks.put (h : Tracks calls events c) (hlimit : 2 * c.maxBytes ≤ limit) (f : Fingerprint)
    (payload : α) (size : Nat) :
    Tracks (.put f payload size :: calls)
      ((.put f payload size, (c.put limit f payload size).1.elim .refused .kept) :: events)
      (c.put limit f payload size).2 := by
  have hinStep := h.inStep.put hlimit f payload size
  have hdistinct := h.inStep.distinct.sublist (c.without_sublist f)
  by_cases hover : c.maxBytes = 0 ∨ c.maxBytes < size
  · rw [h.inStep.put_eq_of_over f payload hover] at hinStep ⊢
    refine ⟨hinStep, ?_, fun g => h.payload?_without f g, h.gets⟩
    exact h.ordered.unused (c.without_sublist f) fun e he => not_same_of_without he
  · obtain ⟨n, -, heq, -, -⟩ := h.inStep.put_eq hlimit f payload (by omega) (by omega : size ≤ c.maxBytes)
    rw [heq] at hinStep ⊢
    have hunused : ∀ e ∈ (c.without f).drop n, f.same e.fingerprint = false := fun e he =>
      not_same_of_without (List.mem_of_mem_drop he)
    refine ⟨hinStep, ?_, fun g => ?_, h.gets⟩
    · exact h.ordered.used ((List.drop_sublist _ _).trans (c.without_sublist f)) hunused
        (Fingerprint.same_refl f)
    · show payload? ((c.without f).drop n ++ [⟨f, payload, size⟩]) g = _
      rw [payload?_concat fun e he => by rw [Fingerprint.same_comm, hunused e he]]
      show _ = latest g ((.put f payload size, .kept ((c.without f).take n)) :: events)
      -- Under another fingerprint there is what was there, unless it has given way.
      unfold latest
      dsimp only
      split
      · rfl
      · next hfg =>
        rw [payload?, find?_drop hdistinct]
        split
        · rfl
        · have hrest := h.payload?_without f g
          rw [if_neg hfg] at hrest
          exact hrest

/-- Of an invalidation, the entries that are left are those of other fingerprints. -/
theorem Tracks.invalidate (h : Tracks calls events c) (f : Fingerprint) (answer : CacheAnswer α) :
    Tracks (.invalidate f :: calls) ((.invalidate f, answer) :: events) (c.invalidate f).2 := by
  have hentries : (c.invalidate f).2.entries = c.without f := by
    unfold MeteredCache.invalidate
    cases he : c.held? f with
    | none => exact (without_of_lacks he).symm
    | some e =>
      dsimp only
      rw [h.inStep.drop_eq]
  refine ⟨h.inStep.invalidate f, ?_, fun g => ?_, ?_⟩
  · rw [hentries]
    exact h.ordered.unused (c.without_sublist f) fun _ _ => rfl
  · rw [hentries]
    exact h.payload?_without f g
  · have hcounts : (c.invalidate f).2.counts.hits = c.counts.hits ∧
        (c.invalidate f).2.counts.misses = c.counts.misses := by
      unfold MeteredCache.invalidate
      cases c.held? f <;> exact ⟨rfl, rfl⟩
    rw [hcounts.1, hcounts.2]
    exact h.gets

theorem Tracks.clear (h : Tracks calls events c) (answer : CacheAnswer α) :
    Tracks (.clear :: calls) ((.clear, answer) :: events) c.clear :=
  ⟨h.inStep.clear, .nil, fun _ => rfl, h.gets⟩

/-- Every call keeps a cache with its calls. -/
theorem Tracks.call (h : Tracks calls events c) (hlimit : 2 * c.maxBytes ≤ limit) (call : CacheCall α) :
    Tracks (call :: calls) ((call, (c.call limit call).1) :: events) (c.call limit call).2 := by
  cases call with
  | get f => exact h.get f _
  | put f payload size => exact h.put hlimit f payload size
  | invalidate f => exact h.invalidate f _
  | clear => exact h.clear _

/-! ### Caches after any calls -/

@[simp] theorem maxBytes_call (limit : Nat) (c : MeteredCache α) (call : CacheCall α) :
    (c.call limit call).2.maxBytes = c.maxBytes := by
  have hdrop (f : Fingerprint) : (c.drop f).maxBytes = c.maxBytes := by
    unfold MeteredCache.drop
    split <;> rfl
  cases call with
  | get f =>
    show (c.get f).2.maxBytes = c.maxBytes
    unfold MeteredCache.get
    split <;> rfl
  | put f payload size =>
    show (c.put limit f payload size).2.maxBytes = c.maxBytes
    unfold MeteredCache.put
    split
    · exact hdrop f
    · rfl
  | invalidate f =>
    show (c.invalidate f).2.maxBytes = c.maxBytes
    unfold MeteredCache.invalidate
    split
    · exact hdrop f
    · rfl
  | clear => rfl

@[simp] theorem maxBytes_after (maxBytes limit : Nat) (calls : List (CacheCall α)) :
    (after maxBytes limit calls).maxBytes = maxBytes := by
  induction calls with
  | nil => rfl
  | cons call earlier ih => rw [after, maxBytes_call, ih]

/-- A cache goes with all calls that it has had. -/
theorem tracks_after {maxBytes : Nat} (hlimit : 2 * maxBytes ≤ limit) (calls : List (CacheCall α)) :
    Tracks calls (history maxBytes limit calls) (after maxBytes limit calls) := by
  induction calls with
  | nil => exact ⟨inStep_start maxBytes, .nil, fun _ => rfl, rfl⟩
  | cons call earlier ih => exact ih.call (by rwa [maxBytes_after]) call

/-- The running cache is the one with a count, without the count. -/
theorem after_eq_shown {maxBytes : Nat} (hlimit : 2 * maxBytes ≤ limit) (calls : List (CacheCall α)) :
    BatchCache.after maxBytes calls = (after maxBytes limit calls).shown := by
  induction calls with
  | nil => rfl
  | cons call earlier ih =>
    have hinStep := (tracks_after hlimit earlier).inStep
    have hcount : 2 * (after maxBytes limit earlier).maxBytes ≤ limit := by rwa [maxBytes_after]
    cases call with
    | get f =>
      rw [BatchCache.after, ih, hinStep.shown_get]
      rfl
    | put f payload size =>
      rw [BatchCache.after, ih, hinStep.shown_put hcount]
      rfl
    | invalidate f =>
      rw [BatchCache.after, ih, hinStep.shown_invalidate]
      rfl
    | clear =>
      rw [BatchCache.after, ih, shown_clear]
      rfl

/-- What a cache with a count is after some calls, and what the running cache is after them. -/
structure Exact (maxBytes limit : Nat) (calls : List (CacheCall α))
    (events : List (CacheCall α × CacheAnswer α)) (c : MeteredCache α) (b : BatchCache α) : Prop where
  /-- The count is the sum of the sizes. -/
  counted : c.meter.total = bytesOf c.entries
  /-- It is within the budget. -/
  within : c.meter.total ≤ maxBytes
  /-- It never stopped at an end of its range, and the cache never ran out of entries to give way. -/
  faultless : c.meter.faults = 0
  /-- Every look-up is counted, as a hit or as a miss. -/
  gets : c.counts.hits + c.counts.misses = calls.countP CacheCall.isGet
  /-- No fingerprint has two entries. -/
  distinct : Distinct c.entries
  /-- The entries stand in the order of their last use. -/
  ordered : Ordered calls c.entries
  /-- A look-up finds what was put last and not dropped since. -/
  found : ∀ f, (c.get f).1 = latest f events
  /-- A put within the budget is kept, and the shortest leading part of the others gives way to it. -/
  evicted : ∀ (f : Fingerprint) (payload : α) (size : Nat), 0 < maxBytes → size ≤ maxBytes →
    ∃ evicted kept, c.without f = evicted ++ kept ∧ (c.put limit f payload size).1 = some evicted ∧
      (c.put limit f payload size).2.entries = kept ++ [⟨f, payload, size⟩] ∧
      bytesOf kept + size ≤ maxBytes ∧
      ∀ shorter longer, c.without f = shorter ++ longer → shorter.length < evicted.length →
        maxBytes < bytesOf longer + size
  /-- Any other put leaves the entries of other fingerprints. -/
  refused : ∀ (f : Fingerprint) (payload : α) (size : Nat), maxBytes = 0 ∨ maxBytes < size →
    (c.put limit f payload size).1 = none ∧ (c.put limit f payload size).2.entries = c.without f
  /-- The running cache keeps the same entries and reports the same bytes. -/
  running : b = c.shown ∧ b.bytes = c.meter.total
  /-- It gives the same answers. -/
  answers : ∀ f, (b.get f).1 = (c.get f).1 ∧ (b.invalidate f).1 = (c.invalidate f).1

/-- What a look-up finds. -/
theorem get_eq_payload? (c : MeteredCache α) (f : Fingerprint) : (c.get f).1 = payload? c.entries f := by
  show (c.get f).1 = (c.held? f).map CacheEntry.payload
  unfold MeteredCache.get
  cases c.held? f <;> rfl

/-- A cache that goes with its calls is exact. -/
theorem Tracks.exact (h : Tracks calls events c) (hlimit : 2 * c.maxBytes ≤ limit) :
    Exact c.maxBytes limit calls events c c.shown where
  counted := by rw [h.inStep.meter]
  within := by
    rw [h.inStep.meter]
    exact h.inStep.within
  faultless := by rw [h.inStep.meter]
  gets := h.gets
  distinct := h.inStep.distinct
  ordered := h.ordered
  found f := by rw [get_eq_payload?, h.holds]
  evicted f payload size hpos hsize := by
    obtain ⟨n, hn, heq, hle, hmin⟩ := h.inStep.put_eq hlimit f payload hpos hsize
    refine ⟨(c.without f).take n, (c.without f).drop n, (List.take_append_drop n _).symm, by rw [heq],
      by rw [heq], hle, fun shorter longer hsplit hlt => ?_⟩
    -- Every way to split the entries is to take some number of them from the front.
    rw [List.length_take, Nat.min_eq_left hn] at hlt
    have hlonger : longer = (c.without f).drop shorter.length := by rw [hsplit, List.drop_left]
    rw [hlonger]
    exact hmin shorter.length hlt
  refused f payload size hover := by
    rw [h.inStep.put_eq_of_over f payload hover]
    exact ⟨rfl, rfl⟩
  running := by
    refine ⟨rfl, ?_⟩
    rw [h.inStep.meter]
    exact BatchCache.bytesOf_reverse c.entries
  answers f := by
    rw [h.inStep.shown_get, h.inStep.shown_invalidate]
    exact ⟨rfl, rfl⟩

/-- A cache whose budget is at most half of what can be counted is exact after any calls. -/
theorem exact_after {maxBytes : Nat} (hlimit : 2 * maxBytes ≤ limit) (calls : List (CacheCall α)) :
    Exact maxBytes limit calls (history maxBytes limit calls) (after maxBytes limit calls)
      (BatchCache.after maxBytes calls) := by
  have hcount : 2 * (after maxBytes limit calls).maxBytes ≤ limit := by rwa [maxBytes_after]
  have h := (tracks_after hlimit calls).exact hcount
  rwa [maxBytes_after, ← after_eq_shown hlimit calls] at h

/-- The second of three payloads gives way to the third when the first was looked up in between. -/
theorem exact_after_look_up :
    let artifact : String → Fingerprint := fun name => ⟨⟨name⟩, 1, 1, none⟩
    let calls : List (CacheCall Nat) :=
      [.put (artifact "c") 3 4, .get (artifact "a"), .put (artifact "b") 2 4, .put (artifact "a") 1 4]
    ((after 10 20 calls).get (artifact "a")).1 = some 1 ∧ ((after 10 20 calls).get (artifact "b")).1 = none ∧
      (after 10 20 calls).meter.total ≤ 10 ∧ (after 10 20 calls).meter.faults = 0 := by
  intro artifact calls
  have h : Exact 10 20 calls (history 10 20 calls) (after 10 20 calls) (BatchCache.after 10 calls) :=
    exact_after (by decide) calls
  refine ⟨?_, ?_, h.within, h.faultless⟩
  · rw [h.found]
    decide
  · rw [h.found]
    decide

end MeteredCache

end SourceTables
