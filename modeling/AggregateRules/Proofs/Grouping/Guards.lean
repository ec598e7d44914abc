import AggregateRules.Proofs.Grouping.NetChange

/-!
# Proofs/Grouping/Guards — what a batch takes for granted holds

A detachment takes it for granted that the bucket of a known identity is there and stores it, and a
mark that its effect can follow what is marked already: no bucket comes to be that is there, and
none changes or vanishes that is gone.  Here the same batches are worked through with guards, which
stop wherever that is not so.

The index points at buckets that store what it knows (`Indexed`), and the marks tell whether a
bucket is there by now (`Accounts`), so an effect that spans from there can follow.

**Main statement** (`run_guarded`): no guard ever stops, whatever the batches are.
-/

namespace AggregateRules

/-- Whether an effect on a bucket can follow another: a bucket that comes to be was gone, and one
that changes or vanishes was there. -/
def Action.admits : (previous next : Action) → Bool
  | .added, .added => false
  | .modified, .added => false
  | .removed, .modified => false
  | .removed, .removed => false
  | _, _ => true

/-- Fold one more effect in, if it can follow what is marked. -/
def Marks.markGuarded (marks : Marks) (key : Value) (action : Action) : Option Marks := do
  guard ((marks.get? key).all (·.admits action))
  return marks.mark key action

namespace Grouping

/-! ## Batches with guards -/

/-- Put a fact into the bucket that its value selects. -/
def insertGuarded (f : Fact) (p : Pending) : Option Pending := do
  let g := p.grouping
  let key := g.key.select f.value
  let element := g.element.select f.value
  let action := if g.groups.contains key then Action.modified else Action.added
  let bucket := ((g.groups.get? key).getD ∅).insert f.id element
  let marks ← p.marks.markGuarded key action
  return { grouping := { g with
             groups := g.groups.insert key bucket
             factKeys := g.factKeys.insert f.id key }
           marks }

/-- Take a fact out of the bucket it is known to stand in, which has to be there and to store it. -/
def detachGuarded (id : FactId) (p : Pending) : Option (Bool × Pending) :=
  let g := p.grouping
  match g.factKeys.get? id with
  | none => some (false, p)
  | some key => do
      let g := { g with factKeys := g.factKeys.erase id }
      let bucket ← g.groups.get? key
      guard (id ∈ bucket.keys)
      let bucket := bucket.erase id
      if bucket.isEmpty then
        let marks ← p.marks.markGuarded key .removed
        return (true, ⟨{ g with groups := g.groups.erase key }, marks⟩)
      else
        let marks ← p.marks.markGuarded key .modified
        return (true, ⟨{ g with groups := g.groups.insert key bucket }, marks⟩)

/-- Move a held fact to the bucket that its new value selects. -/
def moveGuarded (f : Fact) (p : Pending) : Option Pending := do
  let (found, p) ← detachGuarded f.id p
  if found then insertGuarded f p else return p

/-- A batch in progress, up to its end. -/
def pendingGuarded : Batch → Grouping → Option Pending
  | .add facts, g => facts.foldlM (fun p f => insertGuarded f p) ⟨g, ∅⟩
  | .modify facts, g => facts.foldlM (fun p f => moveGuarded f p) ⟨g, ∅⟩
  | .remove facts, g => facts.foldlM (fun p f => Prod.snd <$> detachGuarded f.id p) ⟨g, ∅⟩

/-- Consume batches one after the other, telling the changes of each. -/
def runGuarded : List Batch → Grouping → Option (Grouping × List (List Change))
  | [], g => some (g, [])
  | b :: bs, g => do
      let report := settle (← pendingGuarded b g)
      let (g', told) ← runGuarded bs report.state
      return (g', report.changes :: told)

/-! ## The guards hold -/

section Marks

variable {α : Type} {x y z : Option α} {a previous : Action}

/-- **An effect can follow a mark** that leaves the bucket as the effect finds it. -/
theorem admits_of_spans (hm : Marked (some previous) x y) (ha : a.Spans y z) :
    previous.admits a = true := by
  cases previous <;> cases a <;> simp_all [Marked, Action.Spans, Action.admits]

end Marks

variable {before g : Grouping} {p : Pending} {ks : List Value} {k : Value} {a : Action} {f : Fact}
  {id : FactId}

theorem Accounts.markGuarded {z : Option (OrderedMap FactId Value)} (h : Accounts before ks p)
    (ha : a.Spans (p.grouping.groups.get? k) z) :
    Marks.markGuarded p.marks k a = some (Marks.mark p.marks k a) := by
  have hadmits : (p.marks.get? k).all (·.admits a) = true := by
    have hm := h.marked k
    cases hk : p.marks.get? k with
    | none => rfl
    | some previous =>
      rw [hk] at hm
      exact admits_of_spans hm ha
  rw [Marks.markGuarded, hadmits]
  rfl

theorem Accounts.insertGuarded (h : Accounts before ks p) (f : Fact) :
    insertGuarded f p = some (insert f p) := by
  rw [Grouping.insertGuarded, h.markGuarded (spans_entered p.grouping _ ∅)]
  rfl

theorem Accounts.detachGuarded (h : Accounts before ks p) (hi : Indexed p.grouping)
    (id : FactId) : detachGuarded id p = some (detach id p) := by
  cases hk : p.grouping.factKeys.get? id with
  | none => simp only [Grouping.detachGuarded, hk, detach_of_unknown hk]
  | some k =>
    obtain ⟨bucket, hb, hid⟩ := hi.found hk
    have hmark := h.markGuarded (hb ▸ spans_left bucket (bucket.erase id))
    have hguard : (guard (id ∈ bucket.keys) : Option Unit) = some () := if_pos hid
    rw [detach_of_found hk hb, putBack, Grouping.detachGuarded, hk]
    change Option.bind (p.grouping.groups.get? k) _ = _
    rw [hb, Option.bind_some, hguard, Option.bind_eq_bind, Option.bind_some]
    cases he : (bucket.erase id).isEmpty with
    | true | false =>
      simp only [he, if_true, Bool.false_eq_true, if_false] at hmark ⊢
      rw [hmark]
      rfl

/-! ## In the middle of a batch -/

/-- What is so in the middle of a batch: the index points at buckets that are there, and the marks
account for what the batch has done to them. -/
def Midway (before : Grouping) (p : Pending) : Prop :=
  Indexed p.grouping ∧ ∃ ks, Accounts before ks p

theorem midway_start (h : Indexed g) : Midway g ⟨g, ∅⟩ :=
  ⟨h, [], fun _ => rfl, by simp⟩

theorem Midway.insert (h : Midway before p) (f : Fact) : Midway before (Grouping.insert f p) := by
  obtain ⟨hi, ks, hacc⟩ := h
  exact ⟨hi.insert f, _, hacc.touch (touch_insert f p)⟩

theorem Midway.detach (h : Midway before p) (id : FactId) :
    Midway before (Grouping.detach id p).2 := by
  obtain ⟨hi, ks, hacc⟩ := h
  refine ⟨hi.detach id, ?_⟩
  cases hk : p.grouping.factKeys.get? id with
  | none => exact ⟨ks, by rwa [detach_of_unknown hk]⟩
  | some k =>
    obtain ⟨bucket, hb, -⟩ := hi.found hk
    exact ⟨_, hacc.touch (touch_detach hk hb)⟩

theorem move_eq (f : Fact) (p : Pending) :
    move f p =
      if (Grouping.detach f.id p).1 then Grouping.insert f (Grouping.detach f.id p).2
      else (Grouping.detach f.id p).2 := rfl

theorem Midway.move (h : Midway before p) (f : Fact) : Midway before (Grouping.move f p) := by
  rw [move_eq]
  split
  · exact (h.detach f.id).insert f
  · exact h.detach f.id

theorem Midway.insertGuarded (h : Midway before p) (f : Fact) :
    insertGuarded f p = some (Grouping.insert f p) := by
  obtain ⟨-, ks, hacc⟩ := h
  exact hacc.insertGuarded f

theorem Midway.detachGuarded (h : Midway before p) (id : FactId) :
    detachGuarded id p = some (Grouping.detach id p) := by
  obtain ⟨hi, ks, hacc⟩ := h
  exact hacc.detachGuarded hi id

/-- **Between the two halves of a move the guards hold as well.** -/
theorem Midway.moveGuarded (h : Midway before p) (f : Fact) :
    moveGuarded f p = some (Grouping.move f p) := by
  have hinsert := (h.detach f.id).insertGuarded f
  rw [Grouping.moveGuarded, h.detachGuarded f.id, move_eq, Option.bind_eq_bind, Option.bind_some]
  cases hd : Grouping.detach f.id p with
  | mk found p' =>
    rw [hd] at hinsert
    cases found with
    | false => rfl
    | true => exact hinsert

/-- Steps that go through wherever something is so, and keep it so, go through one after another. -/
theorem foldlM_eq_some_foldl {α β : Type} {P : β → Prop} {step : β → α → Option β}
    {plain : β → α → β} (hstep : ∀ b a, P b → step b a = some (plain b a) ∧ P (plain b a)) :
    ∀ (as : List α) {b : β}, P b → as.foldlM step b = some (as.foldl plain b) ∧ P (as.foldl plain b)
  | [], _, h => ⟨rfl, h⟩
  | a :: as, b, h => by
      obtain ⟨hgo, hkeep⟩ := hstep b a h
      rw [List.foldlM_cons, hgo]
      exact foldlM_eq_some_foldl hstep as hkeep

theorem Indexed.pendingGuarded (h : Indexed g) (b : Batch) :
    pendingGuarded b g = some (pending b g) := by
  have hstart := midway_start h
  cases b with
  | add facts =>
    exact (foldlM_eq_some_foldl (fun p f hp => ⟨hp.insertGuarded f, hp.insert f⟩) facts hstart).1
  | modify facts =>
    exact (foldlM_eq_some_foldl (fun p f hp => ⟨hp.moveGuarded f, hp.move f⟩) facts hstart).1
  | remove facts =>
    refine (foldlM_eq_some_foldl (fun p f hp => ⟨?_, hp.detach f.id⟩) facts hstart).1
    rw [hp.detachGuarded f.id]
    rfl

theorem Indexed.runGuarded : ∀ (bs : List Batch) {g : Grouping}, Indexed g →
    runGuarded bs g = some (Aggregation.run bs g)
  | [], _, _ => rfl
  | b :: bs, g, h => by
      have hafter : Indexed (consume b g).state := by
        rw [state_consume]
        exact Indexed.foldl_advance b.steps h
      rw [Grouping.runGuarded, h.pendingGuarded b]
      change Option.bind (Grouping.runGuarded bs (consume b g).state) _ = _
      rw [Indexed.runGuarded bs hafter]
      rfl

/-- **No guard ever stops**: with guards every run goes through, with the same buckets and the same
changes.  So whenever the index knows an identity in the middle of a batch, the bucket is there and
stores it, and every effect that is marked can follow what is marked for its bucket.  It is so after
whatever steps of a further batch, and for every identity, whether or not a fact comes to it. -/
theorem run_guarded (key element : Selector) (bs : List Batch) :
    runGuarded bs (fresh key element) = some (Aggregation.run bs (fresh key element)) ∧
      ∀ done : List Step,
        let p := done.foldl Pending.take ⟨Aggregation.after bs (fresh key element), ∅⟩
        ∀ id k, p.grouping.factKeys.get? id = some k →
          ∃ bucket, p.grouping.groups.get? k = some bucket ∧ id ∈ bucket.keys := by
  refine ⟨Indexed.runGuarded bs (indexed_fresh key element), fun done => ?_⟩
  intro p id k hk
  have hp : Indexed p.grouping := by
    rw [grouping_foldl_take]
    exact Indexed.foldl_advance done (indexed_after key element bs)
  exact hp.found hk

/-- The guards do stop where something is amiss: here the index points at a bucket that is not
there. -/
example :
    let g : Grouping := ⟨.identity, .identity, ∅, OrderedMap.insert ∅ ⟨1⟩ .null⟩
    (detachGuarded ⟨1⟩ ⟨g, ∅⟩).isNone = true := by decide

end Grouping

end AggregateRules
