import AggregateRules.Proofs.Grouping.Coherence
import AggregateRules.Proofs.InPlace.Step

/-!
# Proofs/Undo — removing what was added

What a strategy keeps of other identities is a part of its state, and a step shows in no part but
its own (`without_store`, `Grouping.without_advance`).  So if nothing was stored of the identities
that a run is about, neither before it nor after it, the state is the same as before, positions
included.  An added fact leaves nothing behind when its identity is removed, because it stands in
one bucket only, the one that it is known to stand in (`Grouping.Anchored`); this needs that nothing
was stored of it before.

**Main statement** (`remove_undoes_add`): adding facts of which nothing is stored and removing their
identities again, in whatever order and batches, restores a grouping and a projection, and it
restores a collection but for having produced its sequence.
-/

namespace AggregateRules

variable {v : Value → Value} {m : OrderedMap FactId Value} {live facts removed : List Fact}
  {ids : List FactId} {id : FactId} {s : Step} {ss : List Step}

/-! ## Undoing -/

/-- The steps that add some facts and then remove the identities of others. -/
def undoing (facts removed : List Fact) : List Step := facts.map .add ++ removed.map .remove

/-- The facts that are removed have the identities of those that are added. -/
def SameIds (removed facts : List Fact) : Prop :=
  ∀ id, id ∈ removed.map Fact.id ↔ id ∈ facts.map Fact.id

instance (removed facts : List Fact) : Decidable (SameIds removed facts) :=
  decidable_of_iff ((∀ id ∈ removed.map Fact.id, id ∈ facts.map Fact.id) ∧
      ∀ id ∈ facts.map Fact.id, id ∈ removed.map Fact.id)
    ⟨fun h id => ⟨h.1 id, h.2 id⟩, fun h => ⟨fun id => (h id).mp, fun id => (h id).mpr⟩⟩

theorem id_mem_of_mem_undoing (h : SameIds removed facts) (hs : s ∈ undoing facts removed) :
    s.id ∈ facts.map Fact.id := by
  rcases List.mem_append.mp hs with hs | hs
  · obtain ⟨f, hf, rfl⟩ := List.mem_map.mp hs
    exact List.mem_map_of_mem hf
  · obtain ⟨f, hf, rfl⟩ := List.mem_map.mp hs
    exact (h f.id).mp (List.mem_map_of_mem hf)

/-- **A fact that was removed is not live**, whatever was added before. -/
theorem notMem_live_undoing (h : SameIds removed facts) (live : List Fact)
    (hid : id ∈ facts.map Fact.id) :
    id ∉ ((undoing facts removed).foldl Step.live live).map Fact.id := by
  intro hlive
  obtain ⟨f', hf', hid'⟩ := List.mem_map.mp hlive
  rw [undoing, List.foldl_append, mem_foldl_remove] at hf'
  obtain ⟨f, hf, hfid⟩ := List.mem_map.mp ((h id).mpr hid)
  exact hf'.2 f hf (hid'.trans hfid.symm)

theorem stepsOf_removals (removals : List (List Fact)) :
    stepsOf (removals.map .remove) = removals.flatten.map .remove := by
  induction removals with
  | nil => rfl
  | cons fs removals ih =>
    rw [List.map_cons, stepsOf_cons, ih, List.flatten_cons, List.map_append]
    rfl

theorem stepsOf_undoing (facts : List Fact) (removals : List (List Fact)) :
    stepsOf (.add facts :: removals.map .remove) = undoing facts removals.flatten := by
  rw [stepsOf_cons, stepsOf_removals]
  rfl

/-! ## Maps of facts -/

/-- **A step shows in no part of a map but its own.** -/
theorem without_store (h : s.id ∈ ids) (m : OrderedMap FactId Value) :
    (s.store v m).without ids = m.without ids := by
  cases s with
  | add f => exact OrderedMap.without_insert h m _
  | modify f =>
    rw [Step.store, OrderedMap.replace]
    split
    · exact OrderedMap.without_insert h m _
    · rfl
  | remove f => exact OrderedMap.without_erase h m

theorem without_foldl_store (ss : List Step) (m : OrderedMap FactId Value)
    (h : ∀ s ∈ ss, s.id ∈ ids) : (ss.foldl (Step.store v) m).without ids = m.without ids :=
  List.foldlRecOn ss _ (motive := fun m' => m'.without ids = m.without ids) rfl
    fun m' ih s hs => (without_store (h s hs) m').trans ih

/-- **A map that held nothing of the facts is restored.** -/
theorem Holds.foldl_store_undoing (h : Holds m live) (hids : SameIds removed facts)
    (hnone : ∀ f ∈ facts, f.id ∉ m.keys) : (undoing facts removed).foldl (Step.store v) m = m := by
  have hbefore : ∀ id ∈ facts.map Fact.id, id ∉ m.keys := by
    intro id hid
    obtain ⟨f, hf, rfl⟩ := List.mem_map.mp hid
    exact hnone f hf
  have hafter : ∀ id ∈ facts.map Fact.id,
      id ∉ ((undoing facts removed).foldl (Step.store v) m).keys := fun id hid hkey =>
    notMem_live_undoing hids live hid ((h.foldl_store (undoing facts removed) id).mp hkey)
  calc (undoing facts removed).foldl (Step.store v) m
      = ((undoing facts removed).foldl (Step.store v) m).without (facts.map Fact.id) :=
        (OrderedMap.without_eq_self hafter).symm
    _ = m.without (facts.map Fact.id) :=
        without_foldl_store _ m fun s hs => id_mem_of_mem_undoing hids hs
    _ = m := OrderedMap.without_eq_self hbefore

/-! ## Groupings -/

namespace Grouping

variable {g : Grouping} {p : Pending} {f : Fact} {k : Value}

/-- Nothing is stored of an identity, in any bucket. -/
def Lacks (g : Grouping) (id : FactId) : Prop := ∀ k, ¬ g.Stores k id

theorem lacks_iff : g.Lacks id ↔ ∀ e ∈ g.groups.entries, id ∉ e.2.keys := by
  constructor
  · intro h e he hid
    exact h e.1 ⟨e.2, OrderedMap.get?_eq_some_iff.mpr he, hid⟩
  · rintro h k ⟨bucket, hb, hid⟩
    exact h (k, bucket) (OrderedMap.get?_eq_some_iff.mp hb) hid

instance : Decidable (g.Lacks id) := decidable_of_iff _ lacks_iff.symm

/-- What is left of a bucket without some identities, if anything is. -/
def bucketWithout (ids : List FactId) (bucket : OrderedMap FactId Value) :
    Option (OrderedMap FactId Value) :=
  if (bucket.without ids).isEmpty then none else some (bucket.without ids)

/-- What a grouping keeps of other identities. -/
def without (ids : List FactId) (g : Grouping) : Grouping :=
  { g with
    groups := g.groups.filterMap fun _ bucket => bucketWithout ids bucket
    factKeys := g.factKeys.without ids }

theorem bucketWithout_insert (h : id ∈ ids) (bucket : OrderedMap FactId Value) (a : Value) :
    bucketWithout ids (bucket.insert id a) = bucketWithout ids bucket := by
  rw [bucketWithout, OrderedMap.without_insert h, bucketWithout]

theorem bucketWithout_erase (h : id ∈ ids) (bucket : OrderedMap FactId Value) :
    bucketWithout ids (bucket.erase id) = bucketWithout ids bucket := by
  rw [bucketWithout, OrderedMap.without_erase h, bucketWithout]

theorem bucketWithout_of_isEmpty {bucket : OrderedMap FactId Value} (h : bucket.isEmpty = true) :
    bucketWithout ids bucket = none := by
  obtain rfl : bucket = ∅ := OrderedMap.ext (OrderedMap.isEmpty_iff.mp h)
  rfl

theorem without_insert (h : f.id ∈ ids) (p : Pending) :
    (insert f p).grouping.without ids = p.grouping.without ids := by
  have hgroups : (insert f p).grouping.groups.filterMap (fun _ => bucketWithout ids) =
      p.grouping.groups.filterMap fun _ => bucketWithout ids := by
    refine OrderedMap.filterMap_insert ?_
    rw [bucketWithout_insert h]
    cases p.grouping.groups.get? _ with
    | none => exact bucketWithout_of_isEmpty rfl
    | some bucket => rfl
  rw [without, hgroups, factKeys_insert, OrderedMap.without_insert h]
  rfl

theorem without_detach (h : id ∈ ids) (p : Pending) :
    (detach id p).2.grouping.without ids = p.grouping.without ids := by
  have hgroups : (detach id p).2.grouping.groups.filterMap (fun _ => bucketWithout ids) =
      p.grouping.groups.filterMap fun _ => bucketWithout ids := by
    cases hk : p.grouping.factKeys.get? id with
    | none => rw [detach_of_unknown hk]
    | some k =>
      cases hb : p.grouping.groups.get? k with
      | none => rw [detach_of_missing hk hb]
      | some bucket =>
        -- whether or not the bucket vanishes, without the identity it was what it is now
        rw [detach_of_found hk hb]
        change (putBack p.grouping.groups k (bucket.erase id)).filterMap _ = _
        rw [putBack]
        split
        case isTrue he =>
          refine OrderedMap.filterMap_erase ?_
          rw [hb, Option.bind_some, ← bucketWithout_erase h, bucketWithout_of_isEmpty he]
        case isFalse =>
          refine OrderedMap.filterMap_insert ?_
          rw [hb, Option.bind_some, bucketWithout_erase h]
  rw [without, hgroups, factKeys_detach, OrderedMap.without_erase h, key_detach, element_detach]
  rfl

/-- **A step shows in no part of a grouping but its own.** -/
theorem without_advance (h : s.id ∈ ids) (g : Grouping) :
    (g.advance s).without ids = g.without ids := by
  cases s with
  | add f => exact without_insert h ⟨g, ∅⟩
  | modify f =>
    have hdetach : (detach f.id ⟨g, ∅⟩).2.grouping.without ids = g.without ids :=
      without_detach h ⟨g, ∅⟩
    change Grouping.without ids (Pending.grouping (if (detach f.id ⟨g, ∅⟩).1 then _ else _)) = _
    split
    · exact (without_insert h _).trans hdetach
    · exact hdetach
  | remove f => exact without_detach h ⟨g, ∅⟩

theorem without_foldl_advance (ss : List Step) (g : Grouping) (h : ∀ s ∈ ss, s.id ∈ ids) :
    (ss.foldl advance g).without ids = g.without ids :=
  List.foldlRecOn ss _ (motive := fun g' => g'.without ids = g.without ids) rfl
    fun g' ih s hs => (without_advance (h s hs) g').trans ih

/-- **A grouping that lacks some identities is what it keeps of the others.** -/
theorem Indexed.without_eq_self (hi : Indexed g) (h : ∀ id ∈ ids, g.Lacks id) :
    g.without ids = g := by
  have hgroups : g.groups.filterMap (fun _ => bucketWithout ids) = g.groups := by
    refine OrderedMap.filterMap_eq_self fun e he => ?_
    have hb : g.groups.get? e.1 = some e.2 := OrderedMap.get?_eq_some_iff.mpr he
    have hsame : e.2.without ids = e.2 :=
      OrderedMap.without_eq_self fun id hid hkey => h id hid e.1 ⟨e.2, hb, hkey⟩
    rw [bucketWithout, hsame, hi.nonempty hb]
    rfl
  have hkeys : g.factKeys.without ids = g.factKeys :=
    OrderedMap.without_eq_self fun id hid hkey => by
      obtain ⟨k, hk⟩ := Option.ne_none_iff_exists'.mp (OrderedMap.mem_keys_iff.mp hkey)
      exact h id hid k (hi.stored hk)
  rw [without, hgroups, hkeys]

/-- An identity of which nothing is stored is not known. -/
theorem Indexed.unknown_of_lacks (hi : Indexed g) (h : g.Lacks id) :
    g.factKeys.get? id = none := by
  cases hk : g.factKeys.get? id with
  | none => rfl
  | some k => exact absurd (hi.stored hk) (h k)

/-- **Additions of facts that are not known** and differ from each other keep every identity
anchored. -/
theorem Anchored.foldl_add : ∀ (fs : List Fact) {g : Grouping}, Anchored g id →
    (fs.map Fact.id).Nodup → (∀ f ∈ fs, g.factKeys.get? f.id = none) →
      Anchored ((fs.map Step.add).foldl advance g) id
  | [], _, h, _, _ => h
  | f :: fs, g, h, hnodup, hnone => by
      obtain ⟨hf, hfs⟩ := List.nodup_cons.mp hnodup
      have hadd : Anchored (g.advance (.add f)) id :=
        Anchored.insert (p := ⟨g, ∅⟩) h fun hid k hk => by
          rw [← hid, hnone f List.mem_cons_self] at hk
          exact absurd hk (by simp)
      refine foldl_add fs hadd hfs fun f' hf' => ?_
      change (OrderedMap.insert g.factKeys f.id _).get? f'.id = none
      have hne : f.id ≠ f'.id := fun he => hf (List.mem_map.mpr ⟨f', hf', he.symm⟩)
      rw [OrderedMap.get?_insert, if_neg hne]
      exact hnone f' (List.mem_cons_of_mem f hf')

theorem Anchored.foldl_remove : ∀ (fs : List Fact) {g : Grouping}, Anchored g id → Indexed g →
    Anchored ((fs.map Step.remove).foldl advance g) id
  | [], _, h, _ => h
  | f :: fs, g, h, hi =>
      foldl_remove fs (Anchored.detach (p := ⟨g, ∅⟩) h hi f.id) (hi.advance (.remove f))

/-- **A grouping that lacked the facts is restored.** -/
theorem Tracks.foldl_advance_undoing (ht : Tracks g live) (hi : Indexed g)
    (hnodup : (facts.map Fact.id).Nodup) (hids : SameIds removed facts)
    (hlacks : ∀ f ∈ facts, g.Lacks f.id) :
    (undoing facts removed).foldl Grouping.advance g = g := by
  have hbefore : ∀ id ∈ facts.map Fact.id, g.Lacks id := by
    intro id hid
    obtain ⟨f, hf, rfl⟩ := List.mem_map.mp hid
    exact hlacks f hf
  have hafter : ∀ id ∈ facts.map Fact.id,
      Lacks ((undoing facts removed).foldl Grouping.advance g) id := by
    intro id hid k hs
    have hadded : Anchored ((facts.map Step.add).foldl Grouping.advance g) id :=
      Anchored.foldl_add facts (fun k hk => absurd hk (hbefore id hid k)) hnodup fun f hf =>
        hi.unknown_of_lacks (hlacks f hf)
    have hanchored : Anchored ((undoing facts removed).foldl Grouping.advance g) id := by
      rw [undoing, List.foldl_append]
      exact hadded.foldl_remove removed (Indexed.foldl_advance _ hi)
    have hunknown := (ht.foldl_advance (undoing facts removed) hi).unknown_iff.mpr
      (notMem_live_undoing hids live hid)
    exact absurd (hunknown.symm.trans (hanchored k hs)) (by simp)
  calc (undoing facts removed).foldl Grouping.advance g
      = ((undoing facts removed).foldl Grouping.advance g).without (facts.map Fact.id) :=
        ((Indexed.foldl_advance _ hi).without_eq_self hafter).symm
    _ = g.without (facts.map Fact.id) :=
        without_foldl_advance _ g fun s hs => id_mem_of_mem_undoing hids hs
    _ = g := hi.without_eq_self hbefore

end Grouping

/-! ## The three strategies -/

theorem Collection.advance_undoing {c : Collection} (h : Holds c.items live)
    (hids : SameIds removed facts) (hnone : ∀ f ∈ facts, f.id ∉ c.items.keys) :
    c.advance (undoing facts removed) = { c with produced := c.produced || !facts.isEmpty } := by
  have hreached : reached id c.items (undoing facts removed) = !facts.isEmpty := by
    cases facts with
    | nil =>
      have hnothing : removed = [] := List.eq_nil_iff_forall_not_mem.mpr fun f hf =>
        List.not_mem_nil ((hids f.id).mp (List.mem_map_of_mem hf))
      rw [hnothing]
      rfl
    | cons f facts => rfl
  rw [Collection.advance, h.foldl_store_undoing hids hnone, hreached]

/-- **Removing what was added restores the state**, for facts of distinct identities of which
nothing is stored, in every state that a run leads to; the identities may be removed in any order,
in any batches and with any values.  With the state the results are restored, in their places.  Only
a collection that had produced nothing has an empty sequence then, unless nothing was added. -/
theorem remove_undoes_add (element : DataType) (key member selector : Selector) (bs : List Batch)
    (facts : List Fact) (removals : List (List Fact)) (hnodup : (facts.map Fact.id).Nodup)
    (hids : SameIds removals.flatten facts) :
    let undone : List Batch := .add facts :: removals.map .remove
    let g := Aggregation.after bs (Grouping.fresh key member)
    let p := Aggregation.after bs (Projection.fresh selector)
    let c := Aggregation.after bs (Collection.fresh element)
    ((∀ f ∈ facts, g.Lacks f.id) → Aggregation.after undone g = g) ∧
      ((∀ f ∈ facts, f.id ∉ p.projected.keys) → Aggregation.after undone p = p) ∧
      ((∀ f ∈ facts, f.id ∉ c.items.keys) →
        Aggregation.after undone c = { c with produced := c.produced || !facts.isEmpty } ∧
          results (Aggregation.after undone c) =
            if results c = [] ∧ facts ≠ [] then [.list []] else results c) := by
  intro undone g p c
  have hsteps : stepsOf undone = undoing facts removals.flatten := stepsOf_undoing facts removals
  refine ⟨fun hlacks => ?_, fun hnone => ?_, fun hnone => ?_⟩
  · rw [Grouping.after_eq, hsteps]
    exact (Grouping.tracks_after key member bs).foldl_advance_undoing
      (Grouping.indexed_after key member bs) hnodup hids hlacks
  · rw [Projection.after_eq, hsteps, Projection.foldl_advance,
      (Projection.holds_after selector bs).foldl_store_undoing hids hnone]
  · have hshown : c.Shown := (Collection.shown_fresh element).after bs
    have hafter : Aggregation.after undone c =
        { c with produced := c.produced || !facts.isEmpty } := by
      rw [hshown.after_eq, hsteps]
      exact Collection.advance_undoing (Collection.holds_after element bs) hids hnone
    refine ⟨hafter, ?_⟩
    rw [hafter]
    change (if c.produced || !facts.isEmpty then [.list c.items.values] else []) =
      if (if c.produced then [c.sequence] else []) = [] ∧ facts ≠ [] then [.list []]
      else if c.produced then [c.sequence] else []
    cases hproduced : c.produced with
    | true => simp [Collection.sequence]
    | false => cases facts <;> simp [hshown hproduced]

/-- Facts that make a bucket and extend another are removed again in other batches, in another
order and with other values, beside a bucket in which an element of a removed identity has stayed
behind. -/
theorem remove_undoes_add_across_buckets :
    let bs : List Batch := [.add [.ofOrder 1 "a" 10, .ofOrder 2 "b" 20],
      .add [.ofOrder 1 "b" 11], .remove [.ofOrder 1 "b" 11]]
    let facts : List Fact := [.ofOrder 3 "c" 30, .ofOrder 4 "a" 40, .ofOrder 5 "c" 50]
    let removals : List (List Fact) :=
      [[.ofOrder 4 "z" 0], [], [.ofOrder 3 "a" 1, .ofOrder 5 "b" 2, .ofOrder 3 "c" 3]]
    let undone : List Batch := .add facts :: removals.map .remove
    let g := Aggregation.after bs (Grouping.fresh (.field "category") (.field "amount"))
    let p := Aggregation.after bs (Projection.fresh (.field "amount"))
    let c := Aggregation.after bs (Collection.fresh (.named "Order"))
    (facts.map Fact.id).Nodup ∧ SameIds removals.flatten facts ∧
      (∀ f ∈ facts, g.Lacks f.id ∧ f.id ∉ p.projected.keys ∧ f.id ∉ c.items.keys) ∧
      results (Aggregation.after undone g) =
        [.group (.text "a") [.int 10], .group (.text "b") [.int 20]] ∧
      Aggregation.after undone p = p ∧ results (Aggregation.after undone c) = results c := by
  intro bs facts removals undone g p c
  have hnodup : (facts.map Fact.id).Nodup := by decide
  have hids : SameIds removals.flatten facts := by decide
  have habsent : ∀ f ∈ facts, g.Lacks f.id ∧ f.id ∉ p.projected.keys ∧ f.id ∉ c.items.keys := by
    decide
  obtain ⟨hg, hp, hc⟩ := remove_undoes_add (.named "Order") (.field "category") (.field "amount")
    (.field "amount") bs facts removals hnodup hids
  refine ⟨hnodup, hids, habsent, ?_, hp fun f hf => (habsent f hf).2.1, ?_⟩
  · have hrestored := congrArg results (hg fun f hf => (habsent f hf).1)
    exact hrestored.trans (by decide)
  · exact (hc fun f hf => (habsent f hf).2.2).2.trans (by decide)

end AggregateRules
