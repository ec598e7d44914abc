import AggregateRules.Proofs.InPlace.Step

/-!
# Proofs/InPlace/Balance — the changes of a projection against its results

Every addition is told as added.  If its fact is not live a result comes to be, and the books
balance: as many results are there as were told added and not told removed.  If its fact is live,
the result that stands in its place is overwritten, and nobody is told that it is gone.  So the
changes run ahead of the results by one for each such addition (`surplus_along`), and never fall
back.

**Main statement** (`balanced_along_iff`): by how much, and that the books balance all along a run
exactly if it adds no live fact.
-/

namespace AggregateRules

/-- How often some changes tell of an action. -/
def timesTold (a : Action) (told : List Change) : Nat := (told.map Change.action).count a

theorem timesTold_append (a : Action) (told told' : List Change) :
    timesTold a (told ++ told') = timesTold a told + timesTold a told' := by
  rw [timesTold, List.map_append, List.count_append]
  rfl

/-! ## Additions of live facts -/

/-- How many additions of a live fact a step is: one or none. -/
def Step.readds (facts : List Fact) : Step → Nat
  | .add f => if f.id ∈ facts.map Fact.id then 1 else 0
  | .modify _ => 0
  | .remove _ => 0

/-- How many additions of live facts there are among some steps. -/
def readdsAlong : List Fact → List Step → Nat
  | _, [] => 0
  | facts, s :: ss => s.readds facts + readdsAlong (s.live facts) ss

/-- How many additions of live facts there are in a run. -/
def readds (bs : List Batch) : Nat := readdsAlong [] (stepsOf bs)

theorem readdsAlong_eq_zero_iff : ∀ (ss : List Step) (facts : List Fact),
    readdsAlong facts ss = 0 ↔ EachAdd NotLive facts ss
  | [], _ => by simp [readdsAlong, EachAdd]
  | s :: ss, facts => by
      have hstep : s.readds facts = 0 ↔ ∀ f, s = .add f → NotLive facts f := by
        cases s <;> simp [Step.readds, NotLive]
      rw [readdsAlong, EachAdd, Nat.add_eq_zero_iff, hstep, readdsAlong_eq_zero_iff ss]

/-- **A run adds no live fact** if and only if the number of such additions is zero. -/
theorem readds_eq_zero_iff (bs : List Batch) : readds bs = 0 ↔ AddsFresh bs :=
  readdsAlong_eq_zero_iff (stepsOf bs) []

theorem AddsFresh.of_prefix {bs before : List Batch} (h : AddsFresh bs) (hbefore : before <+: bs) :
    AddsFresh before := by
  obtain ⟨later, rfl⟩ := hbefore
  rw [AddsFresh, stepsOf_append, eachAdd_append] at h
  exact h.1

namespace Projection

variable {p : Projection} {facts : List Fact}

/-! ## The surplus -/

/-- **A step keeps the books but for an addition of a live fact**, which is told and makes no
result. -/
theorem surplus_step (h : Holds p.projected facts) (s : Step) :
    timesTold .added (p.tells s) + p.projected.size =
      timesTold .removed (p.tells s) + (p.advance s).projected.size + s.readds facts := by
  cases s with
  | add f =>
    rw [advance, Step.store, Step.readds]
    by_cases hf : f.id ∈ p.projected.keys
    · rw [OrderedMap.size_insert_of_mem _ hf, if_pos ((h _).mp hf)]
      simp [tells, timesTold, Change.added]
      omega
    · rw [OrderedMap.size_insert_of_notMem _ hf, if_neg (mt (h _).mpr hf)]
      simp [tells, timesTold, Change.added]
      omega
  | modify f =>
    have hsize : (p.advance (.modify f)).projected.size = p.projected.size := by
      rw [advance, Step.store, OrderedMap.replace]
      split
      case isTrue hf => exact OrderedMap.size_insert_of_mem _ (OrderedMap.contains_iff.mp hf)
      case isFalse => rfl
    rw [hsize, tells, Step.readds]
    split <;> simp [timesTold, Change.modified]
  | remove f =>
    rw [advance, Step.store, tells, Step.readds]
    cases hget : p.projected.get? f.id with
    | some value =>
      have hf : f.id ∈ p.projected.keys := OrderedMap.mem_keys_iff.mpr (by simp [hget])
      have hsize := OrderedMap.size_erase_of_mem hf
      simp [timesTold, Change.removed]
      omega
    | none =>
      rw [OrderedMap.erase_of_notMem (OrderedMap.get?_eq_none_iff.mp hget)]
      simp [timesTold]

theorem surplus_along (ss : List Step) (h : Holds p.projected facts) :
    timesTold .added (p.toldAlong ss) + p.projected.size =
      timesTold .removed (p.toldAlong ss) + (ss.foldl advance p).projected.size +
        readdsAlong facts ss := by
  induction ss generalizing p facts with
  | nil => simp [toldAlong, timesTold, readdsAlong]
  | cons s ss ih =>
    have hstep := surplus_step h s
    have hrest := ih (p := p.advance s) (h.store s)
    rw [toldAlong, timesTold_append, timesTold_append, List.foldl_cons, readdsAlong]
    omega

/-- **The changes of a run exceed its results by the additions of live facts.** -/
theorem surplus (selector : Selector) (bs : List Batch) :
    timesTold .added (Aggregation.told bs (fresh selector)) =
      timesTold .removed (Aggregation.told bs (fresh selector)) +
        (results (Aggregation.after bs (fresh selector))).length + readds bs := by
  have hresults : ∀ p : Projection, (results p).length = p.projected.size := fun p =>
    List.length_map _
  rw [told_eq, after_eq, hresults]
  exact surplus_along (p := fresh selector) (stepsOf bs) holds_empty

/-- After a run as many results are there as were told added and not told removed. -/
def Balanced (selector : Selector) (bs : List Batch) : Prop :=
  timesTold .added (Aggregation.told bs (fresh selector)) =
    timesTold .removed (Aggregation.told bs (fresh selector)) +
      (results (Aggregation.after bs (fresh selector))).length

instance (selector : Selector) (bs : List Batch) : Decidable (Balanced selector bs) :=
  inferInstanceAs (Decidable (_ = _))

theorem balanced_iff (selector : Selector) (bs : List Batch) :
    Balanced selector bs ↔ AddsFresh bs := by
  rw [← readds_eq_zero_iff, Balanced, surplus]
  exact Nat.add_eq_left

/-- **The books balance all along a run** exactly if it adds no live fact; each addition that does
puts what was told ahead of the results by one, for good. -/
theorem balanced_along_iff (selector : Selector) (bs : List Batch) :
    (timesTold .added (Aggregation.told bs (fresh selector)) =
      timesTold .removed (Aggregation.told bs (fresh selector)) +
        (results (Aggregation.after bs (fresh selector))).length + readds bs) ∧
      ((∀ before, before <+: bs → Balanced selector before) ↔ AddsFresh bs) := by
  refine ⟨surplus selector bs, fun h => ?_, fun h before hbefore => ?_⟩
  · exact (balanced_iff selector bs).mp (h bs List.prefix_rfl)
  · exact (balanced_iff selector before).mpr (h.of_prefix hbefore)

/-- **A result that is overwritten by an addition is told added and never removed**: two additions
of one fact leave one result. -/
theorem readded_result_is_told_twice :
    let bs : List Batch := [.add [.ofOrder 1 "a" 10], .add [.ofOrder 1 "a" 20]]
    let byAmount := Selector.field "amount"
    Aggregation.told bs (fresh byAmount) = [.added (.int 10), .added (.int 20)] ∧
      results (Aggregation.after bs (fresh byAmount)) = [.int 20] ∧ ¬ Balanced byAmount bs := by
  decide

end Projection

end AggregateRules
