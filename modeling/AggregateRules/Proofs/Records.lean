import AggregateRules.Proofs.Fields
import AggregateRules.Proofs.Grouping.Coherence

/-!
# Proofs/Records — a record is what it holds under each name

A record is written down as a list of pairs, in any order and with names that may come again; what it
keeps are fields with their names in order.  So a record does not remember how it was written down:
two lists make one record exactly if they agree on the last pair of every name (`ofPairs_eq_iff`).

**Main statement** (`records_canonical`): the fields of a record are the last pairs of its list, and
facts whose records hold the same are one fact to everything that reads them, down to the bucket that
they fall into when the record is the key.
-/

namespace AggregateRules

namespace Value

variable {pairs pairs' : List (String × Value)} {name : String}

theorem field?_ofPairs (name : String) (pairs : List (String × Value)) :
    (ofPairs pairs).field? name = Fields.last? name pairs := Fields.get?_ofPairs name pairs

/-- **Two lists make one record** exactly if they agree. -/
theorem ofPairs_eq_iff : ofPairs pairs = ofPairs pairs' ↔ Fields.Agree pairs pairs' := by
  rw [ofPairs, ofPairs, record.injEq]
  exact Fields.ofPairs_eq_iff

/-- A missing field is null. -/
theorem select_field_ofPairs (name : String) (pairs : List (String × Value)) :
    (Selector.field name).select (ofPairs pairs) = (Fields.last? name pairs).getD null := by
  rw [Selector.select, field?_ofPairs, ofOption]

end Value

/-- **A record holds under each name what the last pair of that name says**, and nothing else of its
list: two lists make one record exactly if they agree on the last pair of every name, as they do if
one is the other in another order and no name comes twice.  So facts whose records agree are equal
and have the same fields selected, and in every grouping that has the record for a key they are
stored in one bucket; and if they do not agree, they are known under two keys. -/
theorem records_canonical :
    (∀ pairs name v, (Value.ofPairs pairs).field? name = some v ↔
      ∃ before after, pairs = before ++ (name, v) :: after ∧ ∀ p ∈ after, p.1 ≠ name) ∧
    (∀ pairs name, (Value.ofPairs pairs).field? name = none ↔ ∀ p ∈ pairs, p.1 ≠ name) ∧
    (∀ ps qs, Value.ofPairs ps = Value.ofPairs qs ↔ Fields.Agree ps qs) ∧
    (∀ ps qs : List (String × Value), ps.Perm qs → (ps.map Prod.fst).Nodup → Fields.Agree ps qs) ∧
    (∀ ps qs, Fields.Agree ps qs →
      (∀ id, (⟨id, Value.ofPairs ps⟩ : Fact) = ⟨id, Value.ofPairs qs⟩) ∧
      ∀ name, (Selector.field name).select (Value.ofPairs ps) =
          (Selector.field name).select (Value.ofPairs qs) ∧
        (Selector.field name).select (Value.ofPairs ps) =
          (Fields.last? name ps).getD .null) ∧
    ∀ (key element : Selector) (bs : List Batch) (f f' : Fact) (ps qs : List (String × Value)),
      f ∈ liveAfter bs → f' ∈ liveAfter bs →
      key.select f.value = Value.ofPairs ps → key.select f'.value = Value.ofPairs qs →
        let g := Aggregation.after bs (Grouping.fresh key element)
        (Fields.Agree ps qs ↔ g.factKeys.get? f.id = g.factKeys.get? f'.id) ∧
          (Fields.Agree ps qs → ∃ k, g.Stores k f.id ∧ g.Stores k f'.id) := by
  refine ⟨fun pairs name v => ?_, fun pairs name => ?_, fun _ _ => Value.ofPairs_eq_iff,
    fun _ _ => Fields.agree_of_perm, fun ps qs hagree => ?_,
    fun key element bs f f' ps qs hf hf' hps hqs => ?_⟩
  · rw [Value.field?_ofPairs, Fields.last?_eq_some_iff]
  · rw [Value.field?_ofPairs, Fields.last?_eq_none_iff]
  · have heq : Value.ofPairs ps = Value.ofPairs qs := Value.ofPairs_eq_iff.mpr hagree
    exact ⟨fun id => by rw [heq], fun name => ⟨by rw [heq], Value.select_field_ofPairs name ps⟩⟩
  · intro g
    obtain ⟨hknown, hstored⟩ := Grouping.known_of_live key element hf
    obtain ⟨hknown', hstored'⟩ := Grouping.known_of_live key element hf'
    rw [hps] at hknown hstored
    rw [hqs] at hknown' hstored'
    constructor
    · rw [hknown, hknown', Option.some.injEq, Value.ofPairs_eq_iff]
    · intro hagree
      rw [← Value.ofPairs_eq_iff.mpr hagree] at hstored'
      exact ⟨_, hstored, hstored'⟩

/-- Two facts with one record, written in two orders and once with a name that comes again. -/
example :
    let f : Fact := ⟨⟨1⟩, .ofPairs [("a", .int 1), ("b", .null)]⟩
    let f' : Fact := ⟨⟨2⟩, .ofPairs [("b", .int 5), ("a", .int 1), ("b", .null)]⟩
    results (Aggregation.after [.add [f, f']] (Grouping.fresh .identity (.field "a"))) =
      [.group (.record [("a", .int 1), ("b", .null)]) [.int 1, .int 1]] := by decide

end AggregateRules
