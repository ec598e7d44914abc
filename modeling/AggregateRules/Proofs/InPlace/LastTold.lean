import AggregateRules.Proofs.InPlace.Step

/-!
# Proofs/InPlace/LastTold — what a collection told last is what it holds

A batch either leaves a collection alone and tells nothing, or tells one change that carries the
sequence it leaves (`Shown.consume_cases`).  Nothing else can happen, for a batch without additions
finds nothing to do before the first addition.  So whoever knows what was told last knows the
result, however long ago that was.

**Main statement** (`result_is_last_told`): along every run a collection tells at most one change
for a batch, the first of them that its sequence is added and every other that it is modified; and
its result is what was told last.
-/

namespace AggregateRules.Collection

variable {c : Collection} {b : Batch} {change : Change}

/-- The one result, once it has been produced. -/
def result? (c : Collection) : Option Value := if c.produced then some c.sequence else none

theorem results_eq (c : Collection) : results c = c.result?.toList := by
  change (if c.produced then [c.sequence] else []) = _
  rw [result?]
  cases c.produced <;> rfl

/-- **A batch changes nothing, or it tells what it leaves.** -/
theorem Shown.consume_cases (h : c.Shown) (b : Batch) :
    AggregateRules.consume b c = ⟨c, []⟩ ∨
      ∃ c' : Collection, c'.Shown ∧ c'.produced = true ∧
        AggregateRules.consume b c = ⟨c', [c.change c']⟩ := by
  have hconsume : AggregateRules.consume b c = _ := h.consume_eq b
  cases hreached : reached id c.items b.steps with
  | false =>
    left
    rw [hconsume, hreached, advance_of_not_reached hreached]
    rfl
  | true =>
    right
    have hproduced : (c.advance b.steps).produced = true := by
      rw [Collection.advance, hreached, Bool.or_true]
    refine ⟨c.advance b.steps, h.advance b.steps, hproduced, ?_⟩
    rw [hconsume, hreached]
    rfl

theorem Shown.length_le_one (h : c.Shown) (bs : List Batch) :
    ∀ changes ∈ (Aggregation.run bs c).2, changes.length ≤ 1 := by
  induction bs generalizing c with
  | nil => exact fun changes hmem => absurd hmem List.not_mem_nil
  | cons b bs ih =>
    change ∀ changes ∈ _ :: _, _
    rw [List.forall_mem_cons]
    rcases h.consume_cases b with hb | ⟨c', hc', -, hb⟩
    · rw [hb]
      exact ⟨Nat.zero_le 1, ih h⟩
    · rw [hb]
      exact ⟨Nat.le_refl 1, ih hc'⟩

/-- **Only the first change of a run adds**, and only if nothing was produced before it. -/
theorem Shown.action_of_told (h : c.Shown) (bs : List Batch) {i : Nat}
    (hi : (Aggregation.told bs c)[i]? = some change) :
    change.action = if i = 0 ∧ c.produced = false then .added else .modified := by
  induction bs generalizing c i with
  | nil => exact absurd hi (by simp)
  | cons b bs ih =>
    rw [Aggregation.told_cons] at hi
    rcases h.consume_cases b with hb | ⟨c', hc', hproduced, hb⟩
    · rw [hb] at hi
      exact ih h hi
    · rw [hb] at hi
      cases i with
      | zero =>
        obtain rfl := Option.some.inj hi
        rw [Collection.change]
        cases c.produced <;> rfl
      | succ i =>
        rw [ih hc' hi, hproduced]
        simp

/-- **The result is what was told last**, or the one that was there before. -/
theorem Shown.result_after (h : c.Shown) (bs : List Batch) :
    (Aggregation.after bs c).result? =
      ((Aggregation.told bs c).getLast?.map Change.aggregate).or c.result? := by
  induction bs generalizing c with
  | nil => rfl
  | cons b bs ih =>
    rw [Aggregation.after_cons, Aggregation.told_cons]
    rcases h.consume_cases b with hb | ⟨c', hc', hproduced, hb⟩
    · rw [hb]
      exact ih h
    · have hresult : c'.result? = some (c.change c').aggregate := by
        rw [result?, hproduced]
        rfl
      rw [hb, ih hc', hresult, List.getLast?_append, List.getLast?_singleton, Option.map_or,
        Option.map_some, Option.or_assoc, Option.some_or]

/-- **What a collection told last is its result**, after every run: it tells at most one change for
a batch, the first one adds and every other modifies; as long as nothing was told there is no
result, and from then on the result is what the last change carries. -/
theorem result_is_last_told (element : DataType) (bs : List Batch) :
    let run := Aggregation.run bs (fresh element)
    (∀ changes ∈ run.2, changes.length ≤ 1) ∧
      (∀ i change, run.2.flatten[i]? = some change →
        change.action = if i = 0 then .added else .modified) ∧
      (results run.1 = [] ↔ run.2.flatten = []) ∧
      results run.1 = (run.2.flatten.getLast?.map Change.aggregate).toList := by
  intro run
  have hshown := shown_fresh element
  have hresults : results run.1 = (run.2.flatten.getLast?.map Change.aggregate).toList := by
    have hnone : (fresh element).result? = none := rfl
    have hlast := hshown.result_after bs
    rw [hnone, Option.or_none] at hlast
    rw [results_eq, Aggregation.fst_run, hlast]
    rfl
  refine ⟨hshown.length_le_one bs, fun i change hi => ?_, ?_, hresults⟩
  · have hnot : (fresh element).produced = false := rfl
    simp [hshown.action_of_told bs hi, hnot]
  · rw [hresults, Option.toList_eq_nil_iff, Option.map_eq_none_iff, List.getLast?_eq_none_iff]

end AggregateRules.Collection
