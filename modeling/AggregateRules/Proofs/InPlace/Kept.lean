import AggregateRules.Proofs.InPlace.Step

/-!
# Proofs/InPlace/Kept — live facts keep the places where they came

A fact takes the last place when its identity comes to be live, and keeps it until it is removed:
another addition is an overwriting, as a modification is (`Step.keep`).  Beside `liveAfter`, where
whatever was added or modified goes last, these are the same facts in another order
(`keptAfter_perm_liveAfter`).

Both maps list the kept facts, for each operation of a map does to its entries what the step does to
the facts (`Lists.store`).

**Main statement** (`results_in_place`): a collection holds the values of the kept facts, and a
projection has what the selector makes of them, one by one; neither depends on how the facts were
batched.
-/

namespace AggregateRules

variable {g : Value → Value} {m : OrderedMap FactId Value} {f : Fact} {facts kept live : List Fact}

/-! ## Kept facts -/

/-- The facts with one of them overwritten by the newer one of its identity. -/
def supersede (f : Fact) (facts : List Fact) : List Fact :=
  facts.map fun f' => if f'.id = f.id then f else f'

/-- The facts that are kept after one more step.  A fact that is kept already stays in its place. -/
def Step.keep (facts : List Fact) : Step → List Fact
  | .add f => if f.id ∈ facts.map Fact.id then supersede f facts else facts ++ [f]
  | .modify f => supersede f facts
  | .remove f => others f.id facts

/-- The facts that are kept after a run, the one that has been live longest first. -/
def keptAfter (bs : List Batch) : List Fact := (stepsOf bs).foldl Step.keep []

theorem supersede_of_notMem (h : f.id ∉ facts.map Fact.id) : supersede f facts = facts := by
  have hid : ∀ f' ∈ facts, (if f'.id = f.id then f else f') = f' := fun f' hf' =>
    if_neg fun hid => h (List.mem_map.mpr ⟨f', hf', hid⟩)
  rw [supersede, List.map_congr_left hid, List.map_id']

/-- **Overwriting a fact and moving it to the end** give the same facts. -/
theorem supersede_perm (h : f.id ∈ facts.map Fact.id) (hnodup : (facts.map Fact.id).Nodup) :
    (supersede f facts).Perm (others f.id facts ++ [f]) := by
  induction facts with
  | nil => exact absurd h List.not_mem_nil
  | cons f' facts ih =>
    rw [List.map_cons, List.nodup_cons] at hnodup
    by_cases hid : f'.id = f.id
    · have hnew : f.id ∉ facts.map Fact.id := hid ▸ hnodup.1
      have hsuper : supersede f (f' :: facts) = f :: facts := by
        rw [supersede, List.map_cons, if_pos hid]
        exact congrArg _ (supersede_of_notMem hnew)
      have hothers : others f.id (f' :: facts) = facts := by
        rw [others, List.filter_cons, if_neg (by simp [hid])]
        exact others_of_notMem hnew
      rw [hsuper, hothers]
      exact (List.perm_append_singleton f facts).symm
    · have hmem : f.id ∈ facts.map Fact.id := by simpa [Ne.symm hid] using h
      have hsuper : supersede f (f' :: facts) = f' :: supersede f facts := by
        rw [supersede, List.map_cons, if_neg hid]
        rfl
      have hothers : others f.id (f' :: facts) = f' :: others f.id facts := by
        rw [others, List.filter_cons, if_pos (by simp [hid])]
        rfl
      rw [hsuper, hothers, List.cons_append]
      exact (ih hmem hnodup.2).cons f'

/-- **Every step keeps the facts that are live after it**, in an order of its own. -/
theorem keep_perm_live (h : kept.Perm live) (hnodup : (live.map Fact.id).Nodup) (s : Step) :
    (s.keep kept).Perm (s.live live) := by
  have hids := h.map Fact.id
  have hothers : ∀ id, (others id kept).Perm (others id live) := fun id => h.filter _
  have hsuper : ∀ f : Fact, f.id ∈ live.map Fact.id →
      (supersede f kept).Perm (others f.id live ++ [f]) := fun f hf =>
    (supersede_perm (hids.mem_iff.mpr hf) (hids.nodup_iff.mpr hnodup)).trans
      ((hothers f.id).append_right [f])
  cases s with
  | add f =>
    by_cases hf : f.id ∈ live.map Fact.id
    · rw [Step.keep, if_pos (hids.mem_iff.mpr hf), Step.live]
      exact hsuper f hf
    · rw [Step.keep, if_neg (mt hids.mem_iff.mp hf), Step.live, others_of_notMem hf]
      exact h.append_right [f]
  | modify f =>
    by_cases hf : f.id ∈ live.map Fact.id
    · rw [Step.keep, Step.live, if_pos hf]
      exact hsuper f hf
    · rw [Step.keep, Step.live, if_neg hf, supersede_of_notMem (mt hids.mem_iff.mp hf)]
      exact h
  | remove f => exact hothers f.id

theorem foldl_keep_perm : ∀ (ss : List Step) {kept live : List Fact}, kept.Perm live →
    (live.map Fact.id).Nodup → (ss.foldl Step.keep kept).Perm (ss.foldl Step.live live)
  | [], _, _, h, _ => h
  | s :: ss, _, _, h, hnodup => foldl_keep_perm ss (keep_perm_live h hnodup s) (nodup_live hnodup s)

/-- **The kept facts are the live facts**, in the order in which they came to be live. -/
theorem keptAfter_perm_liveAfter (bs : List Batch) : (keptAfter bs).Perm (liveAfter bs) :=
  foldl_keep_perm (stepsOf bs) List.Perm.nil List.nodup_nil

example :
    let bs : List Batch :=
      [.add [.ofOrder 1 "a" 10, .ofOrder 2 "b" 20], .modify [.ofOrder 1 "a" 30]]
    keptAfter bs = [.ofOrder 1 "a" 30, .ofOrder 2 "b" 20] ∧
      liveAfter bs = [.ofOrder 2 "b" 20, .ofOrder 1 "a" 30] := ⟨rfl, rfl⟩

/-! ## The map of the kept facts -/

/-- A map lists some facts in their order, with what `g` makes of their values. -/
def Lists (g : Value → Value) (m : OrderedMap FactId Value) (facts : List Fact) : Prop :=
  m.entries = facts.map fun f => (f.id, g f.value)

theorem lists_empty (g : Value → Value) : Lists g ∅ [] := rfl

theorem Lists.keys_eq (h : Lists g m facts) : m.keys = facts.map Fact.id := by
  rw [OrderedMap.keys, h, List.map_map]
  rfl

theorem Lists.values_eq (h : Lists g m facts) : m.values = (facts.map Fact.value).map g := by
  rw [OrderedMap.values, h, List.map_map, List.map_map]
  rfl

theorem Lists.insert_of_mem (h : Lists g m facts) (hf : f.id ∈ m.keys) :
    Lists g (m.insert f.id (g f.value)) (supersede f facts) := by
  rw [Lists, OrderedMap.entries_insert_of_mem _ hf, h, OrderedMap.overwrite, supersede,
    List.map_map, List.map_map]
  refine List.map_congr_left fun f' _ => ?_
  by_cases hid : f'.id = f.id <;> simp [hid]

/-- **Every operation of the map does to its entries what the step does to the facts.** -/
theorem Lists.store (h : Lists g m facts) (s : Step) : Lists g (s.store g m) (s.keep facts) := by
  cases s with
  | add f =>
    by_cases hf : f.id ∈ m.keys
    · rw [Step.keep, if_pos (h.keys_eq ▸ hf)]
      exact h.insert_of_mem hf
    · rw [Step.keep, if_neg (h.keys_eq ▸ hf), Lists, Step.store,
        OrderedMap.entries_insert_of_notMem _ hf, h, List.map_append]
      rfl
  | modify f =>
    rw [Step.keep, Step.store, OrderedMap.replace]
    by_cases hf : f.id ∈ m.keys
    · rw [if_pos (OrderedMap.contains_iff.mpr hf)]
      exact h.insert_of_mem hf
    · rw [if_neg (mt OrderedMap.contains_iff.mp hf), supersede_of_notMem (h.keys_eq ▸ hf)]
      exact h
  | remove f =>
    rw [Step.keep, Step.store, Lists, OrderedMap.entries_erase, h, List.filter_map]
    exact congrArg _ (List.filter_congr fun f' _ => decide_not.symm)

theorem Lists.foldl_store : ∀ (ss : List Step) {m : OrderedMap FactId Value} {facts : List Fact},
    Lists g m facts → Lists g (ss.foldl (Step.store g) m) (ss.foldl Step.keep facts)
  | [], _, _, h => h
  | s :: ss, _, _, h => foldl_store ss (h.store s)

/-! ## Collections and projections of the same facts -/

theorem Collection.sequence_after (element : DataType) (bs : List Batch) :
    (Aggregation.after bs (fresh element)).sequence = .list ((keptAfter bs).map Fact.value) := by
  have hlists := (lists_empty id).foldl_store (stepsOf bs)
  rw [(shown_fresh element).after_eq, sequence]
  exact congrArg Value.list (hlists.values_eq.trans (List.map_id _))

/-- A collection has its one result from the first addition on. -/
theorem Collection.results_after (element : DataType) (bs : List Batch) :
    results (Aggregation.after bs (fresh element)) =
      if (stepsOf bs).any Step.isAdd then [.list ((keptAfter bs).map Fact.value)] else [] := by
  have hproduced : (Aggregation.after bs (fresh element)).produced =
      (stepsOf bs).any Step.isAdd := by
    rw [(shown_fresh element).after_eq, advance, ← reached_empty]
    rfl
  rw [← sequence_after element bs, ← hproduced]
  rfl

theorem Projection.results_after (selector : Selector) (bs : List Batch) :
    results (Aggregation.after bs (fresh selector)) =
      ((keptAfter bs).map Fact.value).map selector.select := by
  have hlists := (lists_empty selector.select).foldl_store (stepsOf bs)
  rw [after_eq, foldl_advance]
  exact hlists.values_eq

/-- **A collection and a projection hold the live facts in the places where they came**, after every
run: the one as the sequence of their latest values, the other as what the selector makes of these,
one by one.  How the same facts are split into batches makes no difference. -/
theorem results_in_place (element : DataType) (selector : Selector) (bs : List Batch) :
    (keptAfter bs).Perm (liveAfter bs) ∧
      (Aggregation.after bs (Collection.fresh element)).sequence =
        .list ((keptAfter bs).map Fact.value) ∧
      results (Aggregation.after bs (Collection.fresh element)) =
        (if (stepsOf bs).any Step.isAdd then [.list ((keptAfter bs).map Fact.value)] else []) ∧
      results (Aggregation.after bs (Projection.fresh selector)) =
        ((keptAfter bs).map Fact.value).map selector.select ∧
      ∀ bs', stepsOf bs' = stepsOf bs →
        results (Aggregation.after bs' (Collection.fresh element)) =
            results (Aggregation.after bs (Collection.fresh element)) ∧
          results (Aggregation.after bs' (Projection.fresh selector)) =
            results (Aggregation.after bs (Projection.fresh selector)) := by
  refine ⟨keptAfter_perm_liveAfter bs, Collection.sequence_after element bs,
    Collection.results_after element bs, Projection.results_after selector bs,
    fun bs' h => ⟨?_, ?_⟩⟩
  · rw [Collection.results_after, Collection.results_after, keptAfter, keptAfter, h]
  · rw [Projection.results_after, Projection.results_after, keptAfter, keptAfter, h]

end AggregateRules
