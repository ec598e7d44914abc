import AggregateRules.Aggregator.Collection
import AggregateRules.Aggregator.Projection
import AggregateRules.Proofs.Live
import AggregateRules.Proofs.OrderedMap

/-!
# Proofs/InPlace/Step — what one fact does to a map of all facts

A collection and a projection are built alike: a map from identities to values, and one operation of
the map for each step (`Step.store`).  They differ in what a value is made of a fact, and in what is
told.  A collection tells one change for a batch that finds something to do, whatever it does
(`Collection.Shown.consume_eq`); a projection tells one for each step that does
(`Projection.takeOne_eq`).

So a run of batches is the run of their steps (`Collection.Shown.after_eq`, `Projection.after_eq`),
and how the facts are batched leaves no trace in the map.
-/

namespace AggregateRules

variable {g : Value → Value} {m : OrderedMap FactId Value} {s : Step} {ss : List Step}
  {facts : List Fact}

/-! ## Steps on a map -/

/-- What a step does to a map that holds something of every fact: `g` is what it holds. -/
def Step.store (g : Value → Value) (m : OrderedMap FactId Value) : Step → OrderedMap FactId Value
  | .add f => m.insert f.id (g f.value)
  | .modify f => m.replace f.id (g f.value)
  | .remove f => m.erase f.id

/-- Whether a step finds something to do: an addition always does, any other step if its fact is
held. -/
def Step.reaches (m : OrderedMap FactId Value) : Step → Bool
  | .add _ => true
  | .modify f => m.contains f.id
  | .remove f => m.contains f.id

/-- Whether any of some steps finds something to do. -/
def reached (g : Value → Value) : OrderedMap FactId Value → List Step → Bool
  | _, [] => false
  | m, s :: ss => s.reaches m || reached g (s.store g m) ss

/-- **A step that finds nothing to do changes nothing.** -/
theorem store_of_not_reaches (h : s.reaches m = false) : s.store g m = m := by
  cases s with
  | add f => exact absurd h (by simp [Step.reaches])
  | modify f =>
    rw [Step.reaches] at h
    rw [Step.store, OrderedMap.replace, h]
    rfl
  | remove f => exact OrderedMap.erase_of_notMem (of_decide_eq_false h)

theorem foldl_store_of_not_reached : ∀ (ss : List Step) {m : OrderedMap FactId Value},
    reached g m ss = false → ss.foldl (Step.store g) m = m
  | [], _, _ => rfl
  | s :: ss, m, h => by
      obtain ⟨hs, hss⟩ := Bool.or_eq_false_iff.mp h
      rw [store_of_not_reaches hs] at hss
      rw [List.foldl_cons, store_of_not_reaches hs, foldl_store_of_not_reached ss hss]

theorem reached_append (m : OrderedMap FactId Value) (ss ss' : List Step) :
    reached g m (ss ++ ss') = (reached g m ss || reached g (ss.foldl (Step.store g) m) ss') := by
  induction ss generalizing m with
  | nil => rfl
  | cons s ss ih => rw [List.cons_append, reached, reached, ih, List.foldl_cons, Bool.or_assoc]

/-- Whether a step is an addition. -/
def Step.isAdd : Step → Bool
  | .add _ => true
  | _ => false

/-- **Where nothing is held, only an addition finds something to do.** -/
theorem reached_empty : ∀ ss : List Step, reached g ∅ ss = ss.any Step.isAdd
  | [] => rfl
  | .add _ :: _ => rfl
  | .modify _ :: ss => reached_empty ss
  | .remove _ :: ss => reached_empty ss

/-- A map holds something of some facts, and of no others. -/
def Holds (m : OrderedMap FactId Value) (facts : List Fact) : Prop :=
  ∀ id, id ∈ m.keys ↔ id ∈ facts.map Fact.id

theorem holds_empty : Holds ∅ [] := fun _ => Iff.rfl

/-- **Every step keeps the map to the live facts.** -/
theorem Holds.store (h : Holds m facts) (s : Step) : Holds (s.store g m) (s.live facts) := by
  intro id
  cases s with
  | add f => rw [Step.store, OrderedMap.mem_keys_insert, Step.live, mem_map_others_append, h id]
  | modify f =>
    by_cases hf : f.id ∈ m.keys
    · rw [Step.store, OrderedMap.replace, if_pos (OrderedMap.contains_iff.mpr hf),
        OrderedMap.mem_keys_insert, Step.live, if_pos ((h _).mp hf), mem_map_others_append, h id]
    · rw [Step.store, OrderedMap.replace, if_neg (mt OrderedMap.contains_iff.mp hf), Step.live,
        if_neg (mt (h _).mpr hf), h]
  | remove f => rw [Step.store, OrderedMap.mem_keys_erase, Step.live, mem_map_others, h id]

theorem Holds.foldl_store : ∀ (ss : List Step) {m : OrderedMap FactId Value} {facts : List Fact},
    Holds m facts → Holds (ss.foldl (Step.store g) m) (ss.foldl Step.live facts)
  | [], _, _, h => h
  | s :: ss, _, _, h => foldl_store ss (h.store s)

/-! ## What a run tells -/

namespace Aggregation

variable {σ : Type} [Aggregation σ]

/-- All that a run tells, in order. -/
def told (bs : List Batch) (s : σ) : List Change := (run bs s).2.flatten

@[simp] theorem told_nil (s : σ) : told [] s = [] := rfl

theorem told_cons (b : Batch) (bs : List Batch) (s : σ) :
    told (b :: bs) s = (consume b s).changes ++ told bs (consume b s).state := rfl

end Aggregation

/-! ## Collections -/

namespace Collection

variable {c : Collection}

/-- A collection that has produced nothing holds nothing. -/
def Shown (c : Collection) : Prop := c.produced = false → c.items = ∅

/-- A collection after some steps. -/
def advance (c : Collection) (ss : List Step) : Collection where
  element := c.element
  items := ss.foldl (Step.store id) c.items
  produced := c.produced || reached id c.items ss

/-- What a collection tells when it has become another: the first time, that the sequence is
added. -/
def change (c c' : Collection) : Change :=
  ⟨if c.produced then .modified else .added, c'.sequence⟩

theorem advance_of_not_reached (h : reached id c.items ss = false) : c.advance ss = c := by
  rw [advance, foldl_store_of_not_reached ss h, h, Bool.or_false]

theorem Shown.advance (h : c.Shown) (ss : List Step) : (c.advance ss).Shown := by
  intro hnot
  obtain ⟨hproduced, hreached⟩ := Bool.or_eq_false_iff.mp hnot
  rw [advance_of_not_reached hreached, h hproduced]

/-- A collection that finds something to do without an addition has produced something. -/
theorem Shown.produced_of_reached (h : c.Shown) (hadd : ss.any Step.isAdd = false)
    (hreached : reached id c.items ss = true) : c.produced = true := by
  by_contra hnot
  rw [h (Bool.eq_false_iff.mpr hnot), reached_empty, hadd] at hreached
  exact Bool.false_ne_true hreached

/-- One step of a walk through the items, which notes whether anything was found to do. -/
def noting (walked : OrderedMap FactId Value × Bool) (s : Step) : OrderedMap FactId Value × Bool :=
  (s.store id walked.1, walked.2 || s.reaches walked.1)

theorem foldl_noting (ss : List Step) (walked : OrderedMap FactId Value × Bool) :
    ss.foldl noting walked =
      (ss.foldl (Step.store id) walked.1, walked.2 || reached id walked.1 ss) := by
  induction ss generalizing walked with
  | nil => rw [List.foldl_nil, reached, Bool.or_false]; rfl
  | cons s ss ih => rw [List.foldl_cons, ih, noting, reached, Bool.or_assoc]; rfl

/-- An addition that is not empty tells the sequence that it leaves. -/
theorem add_cons (f : Fact) (facts : List Fact) (c : Collection) :
    c.add (f :: facts) =
      ⟨c.advance ((f :: facts).map .add), [c.change (c.advance ((f :: facts).map .add))]⟩ := by
  have hstate : ({ c with
      items := (f :: facts).foldl (fun m f => m.insert f.id f.value) c.items
      produced := true } : Collection) = c.advance ((f :: facts).map .add) := by
    rw [advance, List.foldl_map, List.map_cons, reached, Step.reaches, Bool.true_or, Bool.or_true]
    rfl
  rw [add, if_neg (by simp), hstate, change]
  cases c.produced <;> rfl

/-- What a batch without additions tells, when it has walked through the items. -/
theorem Shown.touched_eq (h : c.Shown) (step : Fact → Step) (hadd : ∀ f, (step f).isAdd = false)
    (facts : List Fact) :
    let walked := facts.foldl (fun walked f => noting walked (step f)) (c.items, false)
    c.touched walked.1 walked.2 =
      ⟨c.advance (facts.map step),
        if reached id c.items (facts.map step) then [c.change (c.advance (facts.map step))]
        else []⟩ := by
  have hnone : (facts.map step).any Step.isAdd = false := by simp [hadd]
  simp only [← List.foldl_map, foldl_noting, Bool.false_or]
  cases hreached : reached id c.items (facts.map step) with
  | true =>
    have hproduced := h.produced_of_reached hnone hreached
    have hstate : { c with items := (facts.map step).foldl (Step.store id) c.items } =
        c.advance (facts.map step) := by
      rw [Collection.advance, hproduced, Bool.true_or]
    rw [touched, hstate, change, hproduced]
    rfl
  | false =>
    rw [advance_of_not_reached hreached, foldl_store_of_not_reached _ hreached]
    rfl

/-- **A batch that finds something to do is told by one change**, with the sequence that it leaves;
any other changes nothing. -/
theorem Shown.consume_eq (h : c.Shown) (b : Batch) :
    consume b c =
      ⟨c.advance b.steps,
        if reached id c.items b.steps then [c.change (c.advance b.steps)] else []⟩ := by
  cases b with
  | add facts =>
    cases facts with
    | nil =>
      rw [Batch.steps, List.map_nil, advance_of_not_reached rfl]
      rfl
    | cons f facts => exact add_cons f facts c
  | modify facts => exact h.touched_eq .modify (fun _ => rfl) facts
  | remove facts => exact h.touched_eq .remove (fun _ => rfl) facts

/-- A collection that has consumed nothing. -/
def fresh (element : DataType) : Collection := { element }

theorem shown_fresh (element : DataType) : (fresh element).Shown := fun _ => rfl

theorem advance_advance (c : Collection) (ss ss' : List Step) :
    (c.advance ss).advance ss' = c.advance (ss ++ ss') := by
  rw [advance, advance, advance, List.foldl_append, reached_append, Bool.or_assoc]

/-- **A run of batches is the run of their steps.** -/
theorem Shown.after_eq (h : c.Shown) (bs : List Batch) :
    Aggregation.after bs c = c.advance (stepsOf bs) := by
  induction bs generalizing c with
  | nil => rw [stepsOf_nil, advance_of_not_reached rfl]; rfl
  | cons b bs ih =>
    have hstate : (AggregateRules.consume b c).state = c.advance b.steps :=
      congrArg Report.state (h.consume_eq b)
    rw [Aggregation.after_cons, hstate, ih (h.advance b.steps), advance_advance, stepsOf_cons]

theorem Shown.after (h : c.Shown) (bs : List Batch) : Shown (Aggregation.after bs c) := by
  rw [h.after_eq]
  exact h.advance (stepsOf bs)

/-- **A collection holds exactly the live facts**, after every run. -/
theorem holds_after (element : DataType) (bs : List Batch) :
    Holds (Aggregation.after bs (fresh element)).items (liveAfter bs) := by
  rw [(shown_fresh element).after_eq]
  exact holds_empty.foldl_store (stepsOf bs)

end Collection

/-! ## Projections -/

namespace Projection

variable {p : Projection} {r : Report Projection}

/-- Take one step, on top of what has been told so far. -/
def takeOne (r : Report Projection) : Step → Report Projection
  | .add f => addOne r f
  | .modify f => modifyOne r f
  | .remove f => removeOne r f

/-- What one step tells. -/
def tells (p : Projection) : Step → List Change
  | .add f => [.added (p.selector.select f.value)]
  | .modify f => if p.projected.contains f.id then [.modified (p.selector.select f.value)] else []
  | .remove f => (p.projected.get? f.id).toList.map .removed

/-- A projection after one step. -/
def advance (p : Projection) (s : Step) : Projection where
  selector := p.selector
  projected := s.store p.selector.select p.projected

/-- **What a step does**: to the map, and to what is told. -/
theorem takeOne_eq (r : Report Projection) (s : Step) :
    takeOne r s = ⟨r.state.advance s, r.changes ++ r.state.tells s⟩ := by
  cases s with
  | add f => rfl
  | modify f =>
    rw [takeOne, modifyOne, advance, tells, Step.store, OrderedMap.replace]
    split
    case isTrue => rfl
    case isFalse => rw [List.append_nil]
  | remove f =>
    rw [takeOne, removeOne, advance, tells, Step.store]
    cases hget : r.state.projected.get? f.id with
    | some value => rfl
    | none =>
      rw [OrderedMap.erase_of_notMem (OrderedMap.get?_eq_none_iff.mp hget)]
      simp

/-- **A step that finds nothing to do tells nothing either.** -/
theorem takeOne_of_not_reaches {s : Step} (h : s.reaches r.state.projected = false) :
    takeOne r s = r := by
  cases s with
  | add f => exact absurd h (by simp [Step.reaches])
  | modify f => exact if_neg (Bool.eq_false_iff.mp h)
  | remove f =>
    have hnone : r.state.projected.get? f.id = none :=
      OrderedMap.get?_eq_none_iff.mpr (of_decide_eq_false h)
    rw [takeOne, removeOne, hnone]

/-- What some steps tell, one after the other. -/
def toldAlong : Projection → List Step → List Change
  | _, [] => []
  | p, s :: ss => p.tells s ++ toldAlong (p.advance s) ss

theorem toldAlong_append (p : Projection) (ss ss' : List Step) :
    p.toldAlong (ss ++ ss') = p.toldAlong ss ++ (ss.foldl advance p).toldAlong ss' := by
  induction ss generalizing p with
  | nil => rfl
  | cons s ss ih => rw [List.cons_append, toldAlong, toldAlong, ih, List.append_assoc]; rfl

theorem foldl_takeOne (ss : List Step) (r : Report Projection) :
    ss.foldl takeOne r = ⟨ss.foldl advance r.state, r.changes ++ r.state.toldAlong ss⟩ := by
  induction ss generalizing r with
  | nil => rw [toldAlong, List.append_nil]; rfl
  | cons s ss ih => rw [List.foldl_cons, ih, takeOne_eq, toldAlong, List.append_assoc]; rfl

theorem consume_eq_foldl (b : Batch) (p : Projection) :
    consume b p = b.steps.foldl takeOne ⟨p, []⟩ := by
  cases b <;> simp only [consume, Batch.steps, List.foldl_map, takeOne]

theorem consume_eq (b : Batch) (p : Projection) :
    consume b p = ⟨b.steps.foldl advance p, p.toldAlong b.steps⟩ := by
  rw [consume_eq_foldl, foldl_takeOne, List.nil_append]

/-- **A run of batches is the run of their steps**, in what it leaves. -/
theorem after_eq (bs : List Batch) (p : Projection) :
    Aggregation.after bs p = (stepsOf bs).foldl advance p := by
  induction bs generalizing p with
  | nil => rfl
  | cons b bs ih =>
    have hstate : (AggregateRules.consume b p).state = b.steps.foldl advance p :=
      congrArg Report.state (consume_eq b p)
    rw [Aggregation.after_cons, hstate, ih, stepsOf_cons, List.foldl_append]

/-- **A run of batches is the run of their steps**, in what it tells. -/
theorem told_eq (bs : List Batch) (p : Projection) :
    Aggregation.told bs p = p.toldAlong (stepsOf bs) := by
  induction bs generalizing p with
  | nil => rfl
  | cons b bs ih =>
    have hconsume : AggregateRules.consume b p = ⟨b.steps.foldl advance p, p.toldAlong b.steps⟩ :=
      consume_eq b p
    rw [Aggregation.told_cons, hconsume, ih, stepsOf_cons, toldAlong_append]

/-- A projection that has consumed nothing. -/
def fresh (selector : Selector) : Projection := { selector }

/-- The map after some steps, each of which goes by the same selector. -/
theorem foldl_advance (ss : List Step) (p : Projection) :
    ss.foldl advance p =
      { p with projected := ss.foldl (Step.store p.selector.select) p.projected } := by
  induction ss generalizing p with
  | nil => rfl
  | cons s ss ih => rw [List.foldl_cons, ih]; rfl

/-- **A projection holds exactly the live facts**, after every run. -/
theorem holds_after (selector : Selector) (bs : List Batch) :
    Holds (Aggregation.after bs (fresh selector)).projected (liveAfter bs) := by
  rw [after_eq, foldl_advance]
  exact holds_empty.foldl_store (stepsOf bs)

end Projection

end AggregateRules
