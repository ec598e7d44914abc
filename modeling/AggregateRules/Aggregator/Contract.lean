import AggregateRules.Fact

/-!
# Aggregator/Contract — what it is to aggregate facts incrementally

An aggregation has a state, consumes batches, and at any time has a list of results in the order in
which they were first produced.  Consuming a batch yields the state after it and the changes that the
batch caused.  A run consumes batches one after the other, and tells the changes of each.
-/

namespace AggregateRules

/-- What consuming a batch leaves behind. -/
structure Report (σ : Type) where
  state : σ
  changes : List Change

/-- A state that consumes batches of facts and has results. -/
class Aggregation (σ : Type) where
  /-- Consume one batch. -/
  consume : Batch → σ → Report σ
  /-- The results, first produced first. -/
  results : σ → List Value

export Aggregation (consume results)

namespace Aggregation

variable {σ : Type} [Aggregation σ]

/-- Consume batches one after the other, telling the changes of each. -/
def run : List Batch → σ → σ × List (List Change)
  | [], s => (s, [])
  | b :: bs, s =>
      let report := consume b s
      let (s', told) := run bs report.state
      (s', report.changes :: told)

/-- The state after a run. -/
def after (bs : List Batch) (s : σ) : σ := bs.foldl (fun s b => (consume b s).state) s

@[simp] theorem after_nil (s : σ) : after [] s = s := rfl

@[simp] theorem after_cons (b : Batch) (bs : List Batch) (s : σ) :
    after (b :: bs) s = after bs (consume b s).state := rfl

theorem fst_run : ∀ (bs : List Batch) (s : σ), (run bs s).1 = after bs s
  | [], _ => rfl
  | b :: bs, s => by simp [run, fst_run bs]

end Aggregation

end AggregateRules
