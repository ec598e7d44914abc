import AggregateRules.Aggregator.Grouping
import AggregateRules.Proofs.Live
import AggregateRules.Proofs.OrderedMap

/-!
# Proofs/Grouping/Step — what one fact does to the buckets

A batch works through its facts one after the other, each by an insertion, a detachment, or a
detachment and then an insertion.  What either does is said here once, on three views of a grouping:
the key that each identity is known under, the entries of each bucket, and which identities a bucket
stores.

The invariant is `Indexed`: an identity is stored in the bucket of the key it is known under, and no
bucket is empty.  It holds after every run (`indexed_after`) — so a detachment never misses its
bucket — although one identity may be stored in several buckets.
-/

namespace AggregateRules.Grouping

variable {g : Grouping} {p : Pending} {f : Fact} {id : FactId} {k : Value}

/-- A grouping that has consumed nothing. -/
def fresh (key element : Selector) : Grouping := { key, element }

/-! ## Views of a grouping -/

/-- The key that a fact's value selects. -/
def keyOf (g : Grouping) (f : Fact) : Value := g.key.select f.value

/-- The element that a fact's value selects. -/
def elementOf (g : Grouping) (f : Fact) : Value := g.element.select f.value

/-- The elements of a bucket, each with the identity that it came from. -/
def entriesAt (g : Grouping) (k : Value) : List (FactId × Value) :=
  ((g.groups.get? k).map OrderedMap.entries).getD []

/-- Whether the bucket of a key holds an element of an identity. -/
def Stores (g : Grouping) (k : Value) (id : FactId) : Prop :=
  ∃ bucket, g.groups.get? k = some bucket ∧ id ∈ bucket.keys

theorem stores_iff : g.Stores k id ↔ id ∈ (g.entriesAt k).map Prod.fst := by
  unfold Stores entriesAt
  cases g.groups.get? k <;> simp [OrderedMap.keys]

instance : Decidable (g.Stores k id) := decidable_of_iff _ stores_iff.symm

theorem entriesAt_eq {bucket : OrderedMap FactId Value} (h : g.groups.get? k = some bucket) :
    g.entriesAt k = bucket.entries := by simp [entriesAt, h]

theorem groupValue_eq (g : Grouping) (k : Value) :
    g.groupValue k = .group k ((g.entriesAt k).map Prod.snd) := by
  unfold groupValue entriesAt
  cases g.groups.get? k <;> rfl

/-- **The results are the buckets**, in their order. -/
theorem results_eq (g : Grouping) :
    results g = g.groups.entries.map fun e => .group e.1 e.2.values := by
  change List.map g.groupValue (List.map Prod.fst _) = _
  rw [List.map_map]
  refine List.map_congr_left fun e he => ?_
  have hb : g.groups.get? e.1 = some e.2 := OrderedMap.get?_eq_some_iff.mpr he
  rw [Function.comp_apply, groupValue_eq, entriesAt_eq hb]
  rfl

/-- An identity is stored under the key it is known by, and no bucket is empty. -/
structure Indexed (g : Grouping) : Prop where
  stored : ∀ {id k}, g.factKeys.get? id = some k → g.Stores k id
  nonempty : ∀ {k bucket}, g.groups.get? k = some bucket → bucket.isEmpty = false

/-! ## Inserting a fact -/

@[simp] theorem key_insert : (insert f p).grouping.key = p.grouping.key := rfl

@[simp] theorem element_insert : (insert f p).grouping.element = p.grouping.element := rfl

theorem factKeys_insert :
    (insert f p).grouping.factKeys = p.grouping.factKeys.insert f.id (p.grouping.keyOf f) := rfl

theorem get?_groups_insert (f : Fact) (p : Pending) (k : Value) :
    (insert f p).grouping.groups.get? k =
      if p.grouping.keyOf f = k then
        some (((p.grouping.groups.get? k).getD ∅).insert f.id (p.grouping.elementOf f))
      else p.grouping.groups.get? k := by
  change (p.grouping.groups.insert (p.grouping.keyOf f) _).get? k = _
  rw [OrderedMap.get?_insert]
  by_cases hk : p.grouping.keyOf f = k
  · subst hk
    rfl
  · rw [if_neg hk, if_neg hk]

theorem stores_insert :
    (insert f p).grouping.Stores k id ↔
      (p.grouping.keyOf f = k ∧ f.id = id) ∨ p.grouping.Stores k id := by
  unfold Stores
  rw [get?_groups_insert]
  by_cases hk : p.grouping.keyOf f = k
  · cases p.grouping.groups.get? k <;> simp [hk, eq_comm]
  · simp [hk]

theorem entriesAt_insert_of_ne (h : p.grouping.keyOf f ≠ k) :
    (insert f p).grouping.entriesAt k = p.grouping.entriesAt k := by
  rw [entriesAt, get?_groups_insert, if_neg h, entriesAt]

/-- **A fact that is new to its bucket enters it last.** -/
theorem entriesAt_insert_of_new (hk : p.grouping.keyOf f = k) (h : ¬ p.grouping.Stores k f.id) :
    (insert f p).grouping.entriesAt k =
      p.grouping.entriesAt k ++ [(f.id, p.grouping.elementOf f)] := by
  rw [entriesAt, get?_groups_insert, if_pos hk, entriesAt]
  cases hb : p.grouping.groups.get? k with
  | none => rfl
  | some bucket =>
    have hid : f.id ∉ bucket.keys := fun hid => h ⟨bucket, hb, hid⟩
    exact OrderedMap.entries_insert_of_notMem _ hid

/-! ## Detaching a fact -/

/-- The buckets with one of them put back, unless nothing is left in it. -/
def putBack (groups : OrderedMap Value (OrderedMap FactId Value)) (k : Value)
    (bucket : OrderedMap FactId Value) : OrderedMap Value (OrderedMap FactId Value) :=
  if bucket.isEmpty then groups.erase k else groups.insert k bucket

theorem detach_of_unknown (h : p.grouping.factKeys.get? id = none) : detach id p = (false, p) := by
  simp [detach, h]

/-- **A detachment that finds its bucket** takes the identity out of it and out of the index. -/
theorem detach_of_found {bucket : OrderedMap FactId Value}
    (hk : p.grouping.factKeys.get? id = some k) (hb : p.grouping.groups.get? k = some bucket) :
    detach id p =
      (true,
        { grouping := { p.grouping with
            groups := putBack p.grouping.groups k (bucket.erase id)
            factKeys := p.grouping.factKeys.erase id }
          marks := p.marks.mark k (if (bucket.erase id).isEmpty then .removed else .modified) }) := by
  simp only [detach, hk, hb, putBack]
  split <;> rfl

theorem detach_of_missing (hk : p.grouping.factKeys.get? id = some k)
    (hb : p.grouping.groups.get? k = none) :
    detach id p =
      (false, { p with
        grouping := { p.grouping with factKeys := p.grouping.factKeys.erase id } }) := by
  simp [detach, hk, hb]

/-- What a detachment leaves alone, and what it does to the index, whether or not it finds its
bucket. -/
theorem detach_index :
    (detach id p).2.grouping.key = p.grouping.key ∧
      (detach id p).2.grouping.element = p.grouping.element ∧
      (detach id p).2.grouping.factKeys = p.grouping.factKeys.erase id := by
  cases hk : p.grouping.factKeys.get? id with
  | none =>
    rw [detach_of_unknown hk, OrderedMap.erase_of_notMem (OrderedMap.get?_eq_none_iff.mp hk)]
    exact ⟨rfl, rfl, rfl⟩
  | some k =>
    cases hb : p.grouping.groups.get? k with
    | none => rw [detach_of_missing hk hb]; exact ⟨rfl, rfl, rfl⟩
    | some bucket => rw [detach_of_found hk hb]; exact ⟨rfl, rfl, rfl⟩

@[simp] theorem key_detach : (detach id p).2.grouping.key = p.grouping.key := detach_index.1

@[simp] theorem element_detach : (detach id p).2.grouping.element = p.grouping.element :=
  detach_index.2.1

theorem factKeys_detach : (detach id p).2.grouping.factKeys = p.grouping.factKeys.erase id :=
  detach_index.2.2

section Found

variable {bucket : OrderedMap FactId Value} (hk : p.grouping.factKeys.get? id = some k)
  (hb : p.grouping.groups.get? k = some bucket)

include hk hb

theorem get?_groups_detach (k' : Value) :
    (detach id p).2.grouping.groups.get? k' =
      if k = k' then (if (bucket.erase id).isEmpty then none else some (bucket.erase id))
      else p.grouping.groups.get? k' := by
  rw [detach_of_found hk hb, putBack]
  by_cases hke : (bucket.erase id).isEmpty
  · simp only [hke, if_true, OrderedMap.get?_erase]
  · simp only [hke, if_false, Bool.false_eq_true, OrderedMap.get?_insert]

/-- **The entries that stay** keep their order. -/
theorem entriesAt_detach (k' : Value) :
    (detach id p).2.grouping.entriesAt k' =
      if k = k' then (p.grouping.entriesAt k').filter fun e => !decide (e.1 = id)
      else p.grouping.entriesAt k' := by
  rw [entriesAt, get?_groups_detach hk hb, entriesAt]
  by_cases hkk : k = k'
  · subst hkk
    rw [if_pos rfl, if_pos rfl, hb]
    by_cases hke : (bucket.erase id).isEmpty
    · have := OrderedMap.isEmpty_iff.mp hke
      rw [OrderedMap.entries_erase] at this
      simp [hke, this]
    · simp [hke]
  · rw [if_neg hkk, if_neg hkk]

theorem stores_detach {k' : Value} {id' : FactId} :
    (detach id p).2.grouping.Stores k' id' ↔
      p.grouping.Stores k' id' ∧ ¬ (k = k' ∧ id = id') := by
  rw [stores_iff, stores_iff, entriesAt_detach hk hb]
  by_cases hkk : k = k'
  · subst hkk
    rw [if_pos rfl]
    constructor
    · intro h
      obtain ⟨e, he, rfl⟩ := List.mem_map.mp h
      obtain ⟨he, hne⟩ := List.mem_filter.mp he
      exact ⟨List.mem_map_of_mem he, fun hid => by simp [hid.2] at hne⟩
    · rintro ⟨h, hne⟩
      obtain ⟨e, he, rfl⟩ := List.mem_map.mp h
      have hid : e.1 ≠ id := fun hid => hne ⟨rfl, hid.symm⟩
      exact List.mem_map_of_mem (List.mem_filter.mpr ⟨he, by simpa using hid⟩)
  · simp [hkk]

end Found

/-! ## The invariant -/

theorem indexed_fresh (key element : Selector) : Indexed (fresh key element) :=
  ⟨fun h => by simp [fresh] at h, fun h => by simp [fresh] at h⟩

/-- An identity that is known has its bucket. -/
theorem Indexed.found (h : Indexed g) (hk : g.factKeys.get? id = some k) :
    ∃ bucket, g.groups.get? k = some bucket ∧ id ∈ bucket.keys := h.stored hk

theorem Indexed.insert (h : Indexed p.grouping) (f : Fact) : Indexed (insert f p).grouping where
  stored {id k} hid := by
    rw [factKeys_insert, OrderedMap.get?_insert] at hid
    rw [stores_insert]
    split at hid
    case isTrue heq => exact Or.inl ⟨Option.some.inj hid, heq⟩
    case isFalse => exact Or.inr (h.stored hid)
  nonempty {k bucket} hb := by
    rw [get?_groups_insert] at hb
    split at hb
    · rw [← Option.some.inj hb]
      exact OrderedMap.isEmpty_insert _ _ _
    · exact h.nonempty hb

theorem Indexed.detach (h : Indexed p.grouping) (id : FactId) :
    Indexed (detach id p).2.grouping := by
  cases hk : p.grouping.factKeys.get? id with
  | none => rwa [detach_of_unknown hk]
  | some k =>
    obtain ⟨bucket, hb, -⟩ := h.found hk
    refine ⟨fun {id' k'} hid' => ?_, fun {k' bucket'} hb' => ?_⟩
    · rw [factKeys_detach, OrderedMap.get?_erase] at hid'
      rw [stores_detach hk hb]
      split at hid'
      · exact absurd hid' (by simp)
      · rename_i hne
        exact ⟨h.stored hid', fun hh => hne hh.2⟩
    · rw [get?_groups_detach hk hb] at hb'
      split at hb'
      · split at hb'
        · exact absurd hb' (by simp)
        · rename_i hne
          rw [← Option.some.inj hb']
          simpa using hne
      · exact h.nonempty hb'

/-! ## Steps

What a step does to the buckets does not depend on what the batch has done before it, so a run of
batches is the run of their steps (`after_eq`). -/

/-- Take one step in the middle of a batch. -/
def Pending.take (p : Pending) : Step → Pending
  | .add f => Grouping.insert f p
  | .modify f => move f p
  | .remove f => (Grouping.detach f.id p).2

/-- The grouping after one step. -/
def advance (g : Grouping) (s : Step) : Grouping := (Pending.take ⟨g, ∅⟩ s).grouping

theorem move_of_unknown (h : p.grouping.factKeys.get? f.id = none) : move f p = p := by
  simp [move, detach_of_unknown h]

/-- **A known fact is moved by taking it out and putting it in again.** -/
theorem Indexed.move_eq (h : Indexed p.grouping) (hk : p.grouping.factKeys.get? f.id = some k) :
    move f p = Grouping.insert f (Grouping.detach f.id p).2 := by
  obtain ⟨bucket, hb, -⟩ := h.found hk
  simp [move, detach_of_found hk hb]

theorem Indexed.take (h : Indexed p.grouping) (s : Step) : Indexed (p.take s).grouping := by
  cases s with
  | add f => exact h.insert f
  | modify f =>
    rw [Pending.take]
    cases hk : p.grouping.factKeys.get? f.id with
    | none => rwa [move_of_unknown hk]
    | some k => rw [h.move_eq hk]; exact (h.detach f.id).insert f
  | remove f => exact h.detach f.id

theorem detach_congr (id : FactId) (g : Grouping) (marks marks' : Marks) :
    (Grouping.detach id ⟨g, marks⟩).1 = (Grouping.detach id ⟨g, marks'⟩).1 ∧
      (Grouping.detach id ⟨g, marks⟩).2.grouping = (Grouping.detach id ⟨g, marks'⟩).2.grouping := by
  cases hk : g.factKeys.get? id with
  | none => rw [detach_of_unknown hk, detach_of_unknown hk]; exact ⟨rfl, rfl⟩
  | some k =>
    cases hb : g.groups.get? k with
    | none => rw [detach_of_missing hk hb, detach_of_missing hk hb]; exact ⟨rfl, rfl⟩
    | some bucket => rw [detach_of_found hk hb, detach_of_found hk hb]; exact ⟨rfl, rfl⟩

/-- **The buckets after a step depend on the buckets before it only.** -/
theorem grouping_take (p : Pending) (s : Step) : (p.take s).grouping = p.grouping.advance s := by
  obtain ⟨g, marks⟩ := p
  cases s with
  | add f => rfl
  | modify f =>
    obtain ⟨hfound, hgrouping⟩ := detach_congr f.id g marks ∅
    simp only [advance, Pending.take, move, hfound]
    split
    · simp only [Grouping.insert, hgrouping]
    · exact hgrouping
  | remove f => exact (detach_congr f.id g marks ∅).2

theorem grouping_foldl_take : ∀ (ss : List Step) (p : Pending),
    (ss.foldl Pending.take p).grouping = ss.foldl advance p.grouping
  | [], _ => rfl
  | s :: ss, p => by
      rw [List.foldl_cons, List.foldl_cons, grouping_foldl_take ss, grouping_take]

theorem pending_eq (b : Batch) (g : Grouping) :
    pending b g = b.steps.foldl Pending.take ⟨g, ∅⟩ := by
  cases b <;> simp only [pending, Batch.steps, List.foldl_map, Pending.take]

theorem state_consume (b : Batch) (g : Grouping) :
    (consume b g).state = b.steps.foldl advance g := by
  change (pending b g).grouping = _
  rw [pending_eq, grouping_foldl_take]

/-- **A run of batches is the run of their steps** — how the facts are batched leaves no trace in
the buckets. -/
theorem after_eq : ∀ (bs : List Batch) (g : Grouping),
    Aggregation.after bs g = (stepsOf bs).foldl advance g
  | [], _ => rfl
  | b :: bs, g => by
      rw [Aggregation.after_cons, after_eq bs, stepsOf_cons, List.foldl_append, ← state_consume]
      rfl

theorem advance_modify_of_unknown (h : g.factKeys.get? f.id = none) :
    g.advance (.modify f) = g := by
  rw [advance, Pending.take, move_of_unknown (p := ⟨g, ∅⟩) h]

/-- **A known fact is modified by removing it and adding it again.** -/
theorem Indexed.advance_modify (h : Indexed g) (hk : g.factKeys.get? f.id = some k) :
    g.advance (.modify f) = (g.advance (.remove f)).advance (.add f) := by
  rw [Grouping.advance, Pending.take, Indexed.move_eq (p := ⟨g, ∅⟩) h hk]
  rfl

theorem Indexed.advance (h : Indexed g) (s : Step) : Indexed (g.advance s) :=
  Indexed.take (p := ⟨g, ∅⟩) h s

theorem Indexed.foldl_advance : ∀ (ss : List Step) {g : Grouping}, Indexed g →
    Indexed (ss.foldl Grouping.advance g)
  | [], _, h => h
  | s :: ss, _, h => foldl_advance ss (h.advance s)

/-- **After every run the index points at buckets that are there.** -/
theorem indexed_after (key element : Selector) (bs : List Batch) :
    Indexed (Aggregation.after bs (fresh key element)) := by
  rw [after_eq]
  exact Indexed.foldl_advance (stepsOf bs) (indexed_fresh key element)

/-! ## The selectors of a run -/

@[simp] theorem selectors_advance (g : Grouping) (s : Step) :
    (g.advance s).key = g.key ∧ (g.advance s).element = g.element := by
  cases s with
  | add f => exact ⟨rfl, rfl⟩
  | modify f =>
    simp only [Grouping.advance, Pending.take, move]
    split <;> simp
  | remove f => simp [Grouping.advance, Pending.take]

theorem keyOf_advance (g : Grouping) (s : Step) : (g.advance s).keyOf = g.keyOf := by
  funext f
  rw [keyOf, (selectors_advance g s).1, keyOf]

theorem elementOf_advance (g : Grouping) (s : Step) : (g.advance s).elementOf = g.elementOf := by
  funext f
  rw [elementOf, (selectors_advance g s).2, elementOf]

theorem selectors_foldl_advance : ∀ (ss : List Step) (g : Grouping),
    (ss.foldl Grouping.advance g).key = g.key ∧ (ss.foldl Grouping.advance g).element = g.element
  | [], _ => ⟨rfl, rfl⟩
  | s :: ss, g => by
      have h := selectors_foldl_advance ss (g.advance s)
      rw [(selectors_advance g s).1, (selectors_advance g s).2] at h
      exact h

theorem selectors_after (key element : Selector) (bs : List Batch) :
    (Aggregation.after bs (fresh key element)).key = key ∧
      (Aggregation.after bs (fresh key element)).element = element := by
  rw [after_eq]
  exact selectors_foldl_advance (stepsOf bs) (fresh key element)

end AggregateRules.Grouping
