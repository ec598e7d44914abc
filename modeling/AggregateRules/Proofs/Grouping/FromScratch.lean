import AggregateRules.Proofs.Grouping.Coherence

/-!
# Proofs/Grouping/FromScratch — grouping step by step is grouping the live facts

When no live identity is added again, the entries of a bucket are exactly the live facts that select
its key, in the order in which they were last added or modified (`Gathers`): a detachment takes a
fact out of one bucket and out of the live facts, an insertion puts it last in both.

**Main statement** (`perm_fromScratch`): after such a run the buckets are, up to their order, those
of a fresh grouping to which the live facts are added at once.
-/

namespace AggregateRules.Grouping

variable {g : Grouping} {p : Pending} {facts : List Fact} {f : Fact} {id : FactId} {k k' : Value}

/-- The entries of every bucket are the facts that select its key, in their order. -/
def Gathers (g : Grouping) (facts : List Fact) : Prop :=
  ∀ k, g.entriesAt k = (facts.filter fun f => g.keyOf f = k).map fun f => (f.id, g.elementOf f)

theorem Gathers.stores_iff (h : Gathers g facts) :
    g.Stores k id ↔ ∃ f ∈ facts, f.id = id ∧ g.keyOf f = k := by
  rw [Grouping.stores_iff, h k]
  simp only [List.map_map, List.mem_map, List.mem_filter, decide_eq_true_eq, Function.comp_apply]
  constructor
  · rintro ⟨f, ⟨hf, hk⟩, hid⟩
    exact ⟨f, hf, hid, hk⟩
  · rintro ⟨f, hf, hid, hk⟩
    exact ⟨f, ⟨hf, hk⟩, hid⟩

theorem Gathers.insert (h : Gathers p.grouping facts) (hf : NotLive facts f) :
    Gathers (Grouping.insert f p).grouping (facts ++ [f]) := by
  intro k
  change _ = List.map (fun f => (f.id, p.grouping.elementOf f))
    (List.filter (fun f => p.grouping.keyOf f = k) _)
  rw [List.filter_append, List.map_append, ← h k]
  by_cases hk : p.grouping.keyOf f = k
  · have hnew : ¬ p.grouping.Stores k f.id := fun hs => by
      obtain ⟨f', hf', hid, -⟩ := h.stores_iff.mp hs
      exact hf (List.mem_map.mpr ⟨f', hf', hid⟩)
    rw [entriesAt_insert_of_new hk hnew]
    simp [hk]
  · rw [entriesAt_insert_of_ne hk]
    simp [hk]

/-- **Without an identity**, a bucket's entries are the facts of other identities that select its
key. -/
theorem Gathers.entriesAt_others (h : Gathers g facts) (id : FactId) (k : Value) :
    (g.entriesAt k).filter (fun e => !decide (e.1 = id)) =
      ((others id facts).filter fun f => g.keyOf f = k).map fun f => (f.id, g.elementOf f) := by
  rw [h k, List.filter_map, others, List.filter_filter, List.filter_filter]
  congr 1
  refine List.filter_congr fun f _ => ?_
  simp [Bool.and_comm]

theorem Gathers.detach (h : Gathers p.grouping facts) (ht : Tracks p.grouping facts)
    (hi : Indexed p.grouping) (id : FactId) :
    Gathers (Grouping.detach id p).2.grouping (others id facts) := by
  cases hk : p.grouping.factKeys.get? id with
  | none =>
    rw [detach_of_unknown hk, others_of_notMem (ht.unknown_iff.mp hk)]
    exact h
  | some k =>
    obtain ⟨bucket, hb, -⟩ := hi.found hk
    intro k'
    simp only [keyOf, elementOf, key_detach, element_detach]
    refine Eq.trans ?_ (h.entriesAt_others id k')
    rw [entriesAt_detach hk hb]
    split
    case isTrue => rfl
    case isFalse hne =>
      -- the identity is known under one key, so no other bucket has an entry of it
      refine (List.filter_eq_self.mpr fun e he => ?_).symm
      have hs : p.grouping.Stores k' e.1 := Grouping.stores_iff.mpr (List.mem_map_of_mem he)
      have hid : e.1 ≠ id := by
        rintro rfl
        have hk' := (ht e.1 k').mpr (h.stores_iff.mp hs)
        exact hne (Option.some.inj (hk.symm.trans hk'))
      simpa using hid

theorem Gathers.add (h : Gathers g facts) (hf : NotLive facts f) :
    Gathers (g.advance (.add f)) (Step.live facts (.add f)) := by
  rw [Step.live, others_of_notMem hf]
  exact Gathers.insert (p := ⟨g, ∅⟩) h hf

/-- **Every step that adds no live identity keeps the buckets to the live facts.** -/
theorem Gathers.advance (h : Gathers g facts) (ht : Tracks g facts) (hi : Indexed g) (s : Step)
    (hs : ∀ f, s = .add f → NotLive facts f) : Gathers (g.advance s) (s.live facts) := by
  have hremove : ∀ f : Fact, Gathers (g.advance (.remove f)) (Step.live facts (.remove f)) :=
    fun f => Gathers.detach (p := ⟨g, ∅⟩) h ht hi f.id
  cases s with
  | add f => exact h.add (hs f rfl)
  | modify f =>
    rcases ht.modify_cases hi f with ⟨hg, hlive⟩ | ⟨hg, hlive⟩
    · rw [hg, hlive]
      exact h
    · rw [hg, hlive]
      exact (hremove f).add (notMem_others f.id facts)
  | remove f => exact hremove f

theorem Gathers.foldl_advance : ∀ (ss : List Step) {g : Grouping} {facts : List Fact},
    Gathers g facts → Tracks g facts → Indexed g → EachAdd NotLive facts ss →
      Gathers (ss.foldl Grouping.advance g) (ss.foldl Step.live facts)
  | [], _, _, h, _, _, _ => h
  | s :: ss, _, _, h, ht, hi, hss =>
      foldl_advance ss (h.advance ht hi s hss.1) (ht.advance hi s) (hi.advance s) hss.2

theorem gathers_fresh (key element : Selector) : Gathers (fresh key element) [] := fun _ => rfl

theorem gathers_after (key element : Selector) {bs : List Batch} (h : AddsFresh bs) :
    Gathers (Aggregation.after bs (fresh key element)) (liveAfter bs) := by
  rw [after_eq]
  exact (gathers_fresh key element).foldl_advance (stepsOf bs) (tracks_fresh key element)
    (indexed_fresh key element) h

/-! ## Groupings of the same facts -/

/-- **A bucket is there if and only if some fact selects its key.** -/
theorem Gathers.mem_keys_iff (h : Gathers g facts) (hi : Indexed g) :
    k ∈ g.groups.keys ↔ ∃ f ∈ facts, g.keyOf f = k := by
  rw [OrderedMap.mem_keys_iff, Option.ne_none_iff_exists']
  constructor
  · rintro ⟨bucket, hb⟩
    obtain ⟨e, he⟩ := List.exists_mem_of_ne_nil _ (OrderedMap.entries_ne_nil (hi.nonempty hb))
    obtain ⟨f, hf, -, hk⟩ := h.stores_iff.mp ⟨bucket, hb, List.mem_map_of_mem he⟩
    exact ⟨f, hf, hk⟩
  · rintro ⟨f, hf, hk⟩
    obtain ⟨bucket, hb, -⟩ := h.stores_iff.mpr ⟨f, hf, rfl, hk⟩
    exact ⟨bucket, hb⟩

theorem Gathers.groupValue_eq (h : Gathers g facts) (k : Value) :
    g.groupValue k = .group k ((facts.filter fun f => g.keyOf f = k).map g.elementOf) := by
  rw [Grouping.groupValue_eq, h k, List.map_map]
  rfl

/-- With no empty buckets, a bucket is determined by its entries. -/
theorem Indexed.get?_eq (h : Indexed g) (k : Value) :
    (g.groups.get? k).map OrderedMap.entries =
      if g.entriesAt k = [] then none else some (g.entriesAt k) := by
  unfold entriesAt
  cases hb : g.groups.get? k with
  | none => rfl
  | some bucket => exact (if_neg (OrderedMap.entries_ne_nil (h.nonempty hb))).symm

/-- **Two groupings that gather the same facts by the same selectors have the same buckets.** -/
theorem Gathers.get?_eq {g' : Grouping} (h : Gathers g facts) (h' : Gathers g' facts)
    (hi : Indexed g) (hi' : Indexed g') (hs : g.key = g'.key ∧ g.element = g'.element) (k : Value) :
    g.groups.get? k = g'.groups.get? k := by
  have hkey : g.keyOf = g'.keyOf := by funext f; rw [keyOf, keyOf, hs.1]
  have helement : g.elementOf = g'.elementOf := by funext f; rw [elementOf, elementOf, hs.2]
  have he : g.entriesAt k = g'.entriesAt k := by rw [h k, h' k, hkey, helement]
  have : (g.groups.get? k).map OrderedMap.entries = (g'.groups.get? k).map OrderedMap.entries := by
    rw [hi.get?_eq k, hi'.get?_eq k, he]
  exact Option.map_injective (fun _ _ => OrderedMap.ext) this

/-- **Grouping step by step is grouping the live facts from scratch**, for every run that adds no
live identity: the buckets are the same up to their order, each there if and only if a live fact
selects its key, and its elements are those of exactly these facts, each once and in their order. -/
theorem perm_fromScratch (key element : Selector) (bs : List Batch) (h : AddsFresh bs) :
    let g := Aggregation.after bs (fresh key element)
    let scratch := Aggregation.after [.add (liveAfter bs)] (fresh key element)
    (results g).Perm (results scratch) ∧
      (∀ k, g.groups.get? k = scratch.groups.get? k) ∧
      ((liveAfter bs).map Fact.id).Nodup ∧
      ∀ k, (k ∈ g.groups.keys ↔ ∃ f ∈ liveAfter bs, key.select f.value = k) ∧
        g.groupValue k =
          .group k (((liveAfter bs).filter fun f => key.select f.value = k).map fun f =>
            element.select f.value) := by
  intro g scratch
  obtain ⟨hadds, hlive⟩ := liveAfter_add (nodup_liveAfter bs)
  have hg : Gathers g (liveAfter bs) := gathers_after key element h
  have hscratch : Gathers scratch (liveAfter bs) := by
    have := gathers_after key element hadds
    rwa [hlive] at this
  have hkey : g.key = key := (selectors_after key element bs).1
  have helement : g.element = element := (selectors_after key element bs).2
  have hi : Indexed g := indexed_after key element bs
  have hi' : Indexed scratch := indexed_after key element _
  have hsame : g.key = scratch.key ∧ g.element = scratch.element :=
    ⟨hkey.trans (selectors_after key element _).1.symm,
      helement.trans (selectors_after key element _).2.symm⟩
  have hget : ∀ k, g.groups.get? k = scratch.groups.get? k := hg.get?_eq hscratch hi hi' hsame
  refine ⟨?_, hget, nodup_liveAfter bs, fun k => ⟨?_, ?_⟩⟩
  · rw [results_eq, results_eq]
    exact (OrderedMap.entries_perm_of_get?_eq hget).map _
  · rw [hg.mem_keys_iff hi]
    simp only [keyOf, hkey]
  · rw [hg.groupValue_eq k]
    simp only [keyOf, hkey]
    rw [show g.elementOf = fun f => element.select f.value by
      funext f; simp only [elementOf, helement]]

/-- A fact that is moved away and back goes last; an unknown modification adds nothing; a fact that
was removed may be added again. -/
theorem perm_fromScratch_moved_back :
    let bs : List Batch :=
      [.add [.ofOrder 1 "a" 10, .ofOrder 2 "a" 20, .ofOrder 3 "b" 30],
        .modify [.ofOrder 1 "b" 11, .ofOrder 9 "a" 90, .ofOrder 1 "a" 12],
        .remove [.ofOrder 3 "b" 30], .add [.ofOrder 3 "a" 31]]
    let live : List Fact := [.ofOrder 2 "a" 20, .ofOrder 1 "a" 12, .ofOrder 3 "a" 31]
    let byCategory := fresh (.field "category") (.field "amount")
    AddsFresh bs ∧ liveAfter bs = live ∧
      results (Aggregation.after bs byCategory) =
        [.group (.text "a") [.int 20, .int 12, .int 31]] ∧
      (results (Aggregation.after bs byCategory)).Perm
        (results (Aggregation.after [.add live] byCategory)) := by
  intro bs live byCategory
  have hfresh : AddsFresh bs := by decide
  have hlive : liveAfter bs = live := by decide
  have h := (perm_fromScratch (.field "category") (.field "amount") bs hfresh).1
  rw [hlive] at h
  exact ⟨hfresh, hlive, by decide, h⟩

end AggregateRules.Grouping
