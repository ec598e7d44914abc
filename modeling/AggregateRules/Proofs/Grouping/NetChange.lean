import AggregateRules.Proofs.Grouping.Step

/-!
# Proofs/Grouping/NetChange — a batch is told by its net effect

An effect on a bucket — added, modified, removed — says whether the bucket is there before and after
(`Action.Spans`), and folding two effects in a row spans from the first's beginning to the second's
end (`Marked.fold`).  So the marks of a batch relate the buckets before it to the buckets after it
(`accounts_pending`), whatever came to be and vanished in between.

**Main statement** (`netChange_consume`): the changes of a batch are exactly the net difference of
the buckets, and a consumer that applies the changes of every batch holds the buckets.
-/

namespace AggregateRules

/-! ## Effects and what they span -/

section Effects

variable {α : Type} {x y z : Option α} {a : Action} {m : Option Action}

/-- What an effect on a bucket says of the bucket before and after. -/
def Action.Spans : Action → Option α → Option α → Prop
  | .added, x, y => x = none ∧ y ≠ none
  | .modified, x, y => x ≠ none ∧ y ≠ none
  | .removed, x, y => x ≠ none ∧ y = none

/-- What a mark says of a bucket before and after; without a mark it is the same. -/
def Marked : Option Action → Option α → Option α → Prop
  | none, x, y => y = x
  | some a, x, y => a.Spans x y

/-- One more effect folded into a mark. -/
def Action.foldInto (m : Option Action) (a : Action) : Option Action :=
  m.elim (some a) (·.net a)

/-- **Effects in a row net to an effect of the whole** — the rule by which marks are folded is
composition. -/
theorem Marked.fold (hm : Marked m x y) (ha : a.Spans y z) : Marked (Action.foldInto m a) x z := by
  cases m with
  | none =>
    obtain rfl : y = x := hm
    exact ha
  | some b =>
    cases b <;> cases a <;>
      simp_all [Marked, Action.Spans, Action.foldInto, Action.net]

theorem Marked.added_iff (hm : Marked m x y) : m = some .added ↔ x = none ∧ y ≠ none := by
  rcases m with _ | _ | _ | _ <;> simp_all [Marked, Action.Spans]

theorem Marked.removed_iff (hm : Marked m x y) : m = some .removed ↔ x ≠ none ∧ y = none := by
  rcases m with _ | _ | _ | _ <;> simp_all [Marked, Action.Spans]

/-- A mark other than a removal leaves a bucket. -/
theorem Marked.ne_none (hm : Marked (some a) x y) (ha : a ≠ .removed) : y ≠ none := by
  cases a <;> simp_all [Marked, Action.Spans]

/-- An effect that leaves no mark leaves no bucket. -/
theorem eq_none_of_foldInto (ha : a.Spans y z) (hn : Action.foldInto m a = none) : z = none := by
  cases m with
  | none => simp [Action.foldInto] at hn
  | some b =>
    cases b <;> cases a <;> simp_all [Action.Spans, Action.foldInto, Action.net]

end Effects

theorem Marks.get?_mark (marks : Marks) (k k' : Value) (a : Action) :
    (marks.mark k a).get? k' =
      if k = k' then Action.foldInto (marks.get? k) a else marks.get? k' := by
  rw [Marks.mark]
  cases hm : marks.get? k with
  | none => rw [OrderedMap.get?_insert]; rfl
  | some b =>
    cases hn : b.net a with
    | none => simp only [hn, OrderedMap.get?_erase, Action.foldInto, Option.elim]
    | some net => simp only [hn, OrderedMap.get?_insert, Action.foldInto, Option.elim]

namespace Grouping

variable {g : Grouping} {p p' p'' : Pending} {k : Value} {ks ks' : List Value}

/-! ## Touching one bucket -/

/-- One bucket changes, and the effect that it changes by is marked. -/
structure Touch (k : Value) (p p' : Pending) : Prop where
  others : ∀ k', k ≠ k' → p'.grouping.groups.get? k' = p.grouping.groups.get? k'
  effect : ∃ a : Action, p'.marks = Marks.mark p.marks k a ∧
    a.Spans (p.grouping.groups.get? k) (p'.grouping.groups.get? k)

/-- What an insertion marks: a bucket that is there is modified, and one that is not is added. -/
theorem spans_entered (g : Grouping) (k : Value) (bucket : OrderedMap FactId Value) :
    Action.Spans (if g.groups.contains k then .modified else .added) (g.groups.get? k)
      (some bucket) := by
  rw [← OrderedMap.isSome_get?]
  cases g.groups.get? k with
  | none => exact ⟨rfl, Option.some_ne_none _⟩
  | some bucket' => exact ⟨Option.some_ne_none _, Option.some_ne_none _⟩

/-- What a detachment marks: a bucket with nothing left is removed, and any other is modified. -/
theorem spans_left (bucket left : OrderedMap FactId Value) :
    Action.Spans (if left.isEmpty then .removed else .modified) (some bucket)
      (if left.isEmpty then none else some left) := by
  split <;> simp [Action.Spans]

/-- **An inserted fact touches the bucket that it selects.** -/
theorem touch_insert (f : Fact) (p : Pending) : Touch (p.grouping.keyOf f) p (insert f p) where
  others k' hk := by rw [get?_groups_insert, if_neg hk]
  effect := by
    refine ⟨_, rfl, ?_⟩
    rw [get?_groups_insert, if_pos rfl]
    exact spans_entered p.grouping _ _

/-- **A detached fact touches the bucket that it is known to stand in.** -/
theorem touch_detach {id : FactId} {bucket : OrderedMap FactId Value}
    (hk : p.grouping.factKeys.get? id = some k) (hb : p.grouping.groups.get? k = some bucket) :
    Touch k p (detach id p).2 where
  others k' hne := by rw [get?_groups_detach hk hb, if_neg hne]
  effect := by
    refine ⟨_, by rw [detach_of_found hk hb], ?_⟩
    rw [get?_groups_detach hk hb, if_pos rfl, hb]
    exact spans_left bucket _

/-- Buckets change one after the other. -/
inductive Touches : List Value → Pending → Pending → Prop
  | refl (p : Pending) : Touches [] p p
  | cons {k : Value} {ks : List Value} {p p' p'' : Pending} :
      Touch k p p' → Touches ks p' p'' → Touches (k :: ks) p p''

theorem Touches.append (h : Touches ks p p') (h' : Touches ks' p' p'') :
    Touches (ks ++ ks') p p'' := by
  induction h with
  | refl => exact h'
  | cons ht _ ih => exact Touches.cons ht (ih h')

/-- The keys of the buckets that elements leave and enter in one step: the bucket that the fact is
known to stand in, and the one that it selects. -/
def touchedBy (g : Grouping) : Step → List Value
  | .add f => [g.keyOf f]
  | .modify f =>
      match g.factKeys.get? f.id with
      | none => []
      | some k => [k, g.keyOf f]
  | .remove f => (g.factKeys.get? f.id).toList

/-- The keys of the buckets that elements leave and enter along some steps. -/
def touched : Grouping → List Step → List Value
  | _, [] => []
  | g, s :: ss => g.touchedBy s ++ touched (g.advance s) ss

theorem touches_take (h : Indexed p.grouping) (s : Step) :
    Touches (p.grouping.touchedBy s) p (p.take s) := by
  cases s with
  | add f => exact Touches.cons (touch_insert f p) (Touches.refl _)
  | modify f =>
    rw [Pending.take, touchedBy]
    cases hk : p.grouping.factKeys.get? f.id with
    | none => rw [move_of_unknown hk]; exact Touches.refl p
    | some k =>
      obtain ⟨bucket, hb, -⟩ := h.found hk
      have hkey : (detach f.id p).2.grouping.keyOf f = p.grouping.keyOf f := by simp [keyOf]
      rw [h.move_eq hk, ← hkey]
      exact Touches.cons (touch_detach hk hb) (Touches.cons (touch_insert f _) (Touches.refl _))
  | remove f =>
    rw [Pending.take, touchedBy]
    cases hk : p.grouping.factKeys.get? f.id with
    | none => rw [detach_of_unknown hk]; exact Touches.refl p
    | some k =>
      obtain ⟨bucket, hb, -⟩ := h.found hk
      exact Touches.cons (touch_detach hk hb) (Touches.refl _)

theorem touches_foldl : ∀ (ss : List Step) {p : Pending}, Indexed p.grouping →
    Touches (p.grouping.touched ss) p (ss.foldl Pending.take p)
  | [], p, _ => Touches.refl p
  | s :: ss, p, h => by
      have ih := touches_foldl ss (h.take s)
      rw [grouping_take] at ih
      exact (touches_take h s).append ih

/-! ## What the marks account for -/

/-- The marks tell of every bucket how it came from what it was before the batch to what it is now;
a touched bucket without a mark is gone. -/
structure Accounts (before : Grouping) (ks : List Value) (p : Pending) : Prop where
  marked : ∀ k, Marked (p.marks.get? k) (before.groups.get? k) (p.grouping.groups.get? k)
  cancelled : ∀ k ∈ ks, p.marks.get? k = none → p.grouping.groups.get? k = none

theorem Accounts.touch (h : Accounts g ks p) (t : Touch k p p') : Accounts g (ks ++ [k]) p' := by
  obtain ⟨a, hmarks, hspans⟩ := t.effect
  refine ⟨fun k' => ?_, fun k' hk' hnone => ?_⟩
  · rw [hmarks, Marks.get?_mark]
    by_cases hk : k = k'
    · subst hk
      rw [if_pos rfl]
      exact (h.marked k).fold hspans
    · rw [if_neg hk, t.others k' hk]
      exact h.marked k'
  · rw [hmarks, Marks.get?_mark] at hnone
    by_cases hk : k = k'
    · subst hk
      rw [if_pos rfl] at hnone
      exact eq_none_of_foldInto hspans hnone
    · rw [if_neg hk] at hnone
      have hmem : k' ∈ ks := by simpa [Ne.symm hk] using hk'
      rw [t.others k' hk]
      exact h.cancelled k' hmem hnone

theorem Accounts.touches (t : Touches ks' p p') : ∀ {ks : List Value}, Accounts g ks p →
    Accounts g (ks ++ ks') p' := by
  induction t with
  | refl => intro ks h; rwa [List.append_nil]
  | cons ht _ ih =>
    intro ks h
    rw [List.append_cons]
    exact ih (h.touch ht)

/-- **The marks of a batch account for what it did to the buckets.** -/
theorem accounts_pending (h : Indexed g) (b : Batch) :
    Accounts g (g.touched b.steps) (pending b g) := by
  have h₀ : Accounts g [] ⟨g, ∅⟩ := ⟨fun _ => rfl, by simp⟩
  rw [pending_eq]
  exact Accounts.touches (touches_foldl b.steps (p := ⟨g, ∅⟩) h) h₀

/-! ## The changes of a batch -/

theorem mem_changes_iff {b : Batch} {a : Action} {k : Value} {es : List Value} :
    ⟨a, .group k es⟩ ∈ (consume b g).changes ↔
      (pending b g).marks.get? k = some a ∧
        es = ((pending b g).grouping.entriesAt k).map Prod.snd := by
  rw [OrderedMap.get?_eq_some_iff]
  change _ ∈ List.map _ _ ↔ _
  simp only [groupValue_eq, List.mem_map, Change.mk.injEq, Value.group.injEq, Prod.exists]
  constructor
  · rintro ⟨k', a', hmem, rfl, rfl, rfl⟩
    exact ⟨hmem, rfl⟩
  · rintro ⟨hmem, rfl⟩
    exact ⟨k, a, hmem, rfl, rfl, rfl⟩

end Grouping

/-- The key of the bucket that a change is about. -/
def Change.bucketKey? (c : Change) : Option Value :=
  match c.aggregate with
  | .group k _ => some k
  | _ => none

namespace Grouping

/-- Changes are the net difference of the buckets before and after, where elements entered or left
the buckets of the touched keys. -/
structure NetChange (before after : Grouping) (touched : List Value) (changes : List Change) :
    Prop where
  /-- Every change is about a bucket, and no two changes are about the same. -/
  once : ∃ ks : List Value, ks.Nodup ∧ changes.map Change.bucketKey? = ks.map some
  /-- Exactly the buckets that came to be are told as added. -/
  added : ∀ k, (∃ es, .added (.group k es) ∈ changes) ↔
    k ∉ before.groups.keys ∧ k ∈ after.groups.keys
  /-- Exactly the buckets that vanished are told as removed. -/
  removed : ∀ k, (∃ es, .removed (.group k es) ∈ changes) ↔
    k ∈ before.groups.keys ∧ k ∉ after.groups.keys
  /-- Only a bucket that was there and still is can be told as modified. -/
  modified : ∀ k es, .modified (.group k es) ∈ changes →
    k ∈ before.groups.keys ∧ k ∈ after.groups.keys
  /-- A touched bucket is told, unless it is there neither before nor after. -/
  touched : ∀ k ∈ touched, k ∈ before.groups.keys ∨ k ∈ after.groups.keys →
    ∃ a es, ⟨a, .group k es⟩ ∈ changes
  /-- A bucket that is not told is the same, element for element and in the same order. -/
  untold : ∀ k, (∀ a es, ⟨a, .group k es⟩ ∉ changes) →
    after.groups.get? k = before.groups.get? k
  /-- What is told of a bucket that is there is the bucket after the batch, which is not empty. -/
  carried : ∀ a k es, ⟨a, .group k es⟩ ∈ changes → a ≠ .removed →
    after.groupValue k = .group k es ∧ es ≠ []
  /-- A bucket that vanished is told without elements. -/
  emptied : ∀ k es, .removed (.group k es) ∈ changes → es = []

theorem told_iff {b : Batch} {a : Action} :
    (∃ es, ⟨a, .group k es⟩ ∈ (consume b g).changes) ↔ (pending b g).marks.get? k = some a := by
  simp only [mem_changes_iff, exists_and_left, exists_eq, and_true]

theorem bucketKeys_changes (b : Batch) (g : Grouping) :
    (consume b g).changes.map Change.bucketKey? = (pending b g).marks.keys.map some := by
  change List.map _ (List.map _ _) = List.map some (List.map Prod.fst _)
  rw [List.map_map, List.map_map]
  rfl

/-- **A batch on buckets that the index points at is told by its net difference.** -/
theorem Indexed.netChange (h : Indexed g) (b : Batch) :
    NetChange g (consume b g).state (g.touched b.steps) (consume b g).changes := by
  have acc := accounts_pending h b
  have hafter : Indexed (pending b g).grouping := by
    have := Indexed.foldl_advance b.steps h
    rwa [← state_consume] at this
  refine ⟨⟨_, OrderedMap.keys_nodup _, bucketKeys_changes b g⟩, fun k => ?added, fun k => ?removed,
    fun k es hmem => ?modified, fun k hk hor => ?touched, fun k hno => ?untold,
    fun a k es hmem ha => ?carried, fun k es hmem => ?emptied⟩
  case added =>
    rw [OrderedMap.mem_keys_iff, OrderedMap.mem_keys_iff, not_not]
    exact told_iff.trans (acc.marked k).added_iff
  case removed =>
    rw [OrderedMap.mem_keys_iff, OrderedMap.mem_keys_iff, not_not]
    exact told_iff.trans (acc.marked k).removed_iff
  case modified =>
    have hspans := acc.marked k
    rw [(mem_changes_iff.mp hmem).1] at hspans
    exact ⟨OrderedMap.mem_keys_iff.mpr hspans.1, OrderedMap.mem_keys_iff.mpr hspans.2⟩
  case touched =>
    cases hm : (pending b g).marks.get? k with
    | some a =>
      obtain ⟨es, hes⟩ := told_iff.mpr hm
      exact ⟨a, es, hes⟩
    | none =>
      have hgone := acc.cancelled k hk hm
      have hsame := acc.marked k
      rw [hm] at hsame
      have hbefore : g.groups.get? k = none := hsame.symm.trans hgone
      rcases hor with hb | ha
      · exact absurd hbefore (OrderedMap.mem_keys_iff.mp hb)
      · exact absurd hgone (OrderedMap.mem_keys_iff.mp ha)
  case untold =>
    have hsame := acc.marked k
    cases hm : (pending b g).marks.get? k with
    | none => rwa [hm] at hsame
    | some a =>
      obtain ⟨es, hes⟩ := told_iff.mpr hm
      exact absurd hes (hno a es)
  case carried =>
    obtain ⟨hm, rfl⟩ := mem_changes_iff.mp hmem
    have hspans := acc.marked k
    rw [hm] at hspans
    obtain ⟨bucket, hb⟩ := Option.ne_none_iff_exists'.mp (hspans.ne_none ha)
    refine ⟨groupValue_eq _ k, ?_⟩
    rw [entriesAt_eq hb]
    exact fun hv => OrderedMap.entries_ne_nil (hafter.nonempty hb) (List.map_eq_nil_iff.mp hv)
  case emptied =>
    obtain ⟨hm, rfl⟩ := mem_changes_iff.mp hmem
    have hspans := acc.marked k
    rw [hm] at hspans
    simp [entriesAt, hspans.2]

end Grouping

/-! ## A consumer of changes -/

/-- What a consumer of changes knows: the elements of each bucket. -/
abbrev Mirror := OrderedMap Value (List Value)

namespace Mirror

/-- Apply one change: forget a bucket that is removed, and know any other as it is told. -/
def apply (m : Mirror) (c : Change) : Mirror :=
  match c with
  | ⟨.removed, .group k _⟩ => m.erase k
  | ⟨_, .group k es⟩ => m.insert k es
  | _ => m

/-- Apply the changes of a run, batch by batch. -/
def follow (told : List (List Change)) : Mirror := told.flatten.foldl apply ∅

/-- What is known, in the form of results. -/
def results (m : Mirror) : List Value := m.entries.map fun e => .group e.1 e.2

/-- A consumer knows the buckets of a grouping. -/
def Knows (m : Mirror) (g : Grouping) : Prop :=
  ∀ k, m.get? k = (g.groups.get? k).map OrderedMap.values

/-- **To know the buckets is to hold the results**, up to the order of the buckets. -/
theorem Knows.results_perm {m : Mirror} {g : Grouping} (h : m.Knows g) :
    m.results.Perm (AggregateRules.results g) := by
  have hperm : m.entries.Perm (g.groups.mapValues OrderedMap.values).entries :=
    OrderedMap.entries_perm_of_get?_eq fun k => by rw [h k, OrderedMap.get?_mapValues]
  rw [Grouping.results_eq]
  simpa [results, OrderedMap.mapValues, Function.comp_def] using
    hperm.map fun e => Value.group e.1 e.2

/-! ### What applying changes does -/

theorem bucketKey?_eq_some_iff {c : Change} {k : Value} :
    c.bucketKey? = some k ↔ ∃ a es, c = ⟨a, .group k es⟩ := by
  obtain ⟨a, v⟩ := c
  cases v <;> simp [Change.bucketKey?]

theorem get?_apply (m : Mirror) (a : Action) (k k' : Value) (es : List Value) :
    (m.apply ⟨a, .group k es⟩).get? k' =
      if k = k' then (if a = .removed then none else some es) else m.get? k' := by
  cases a <;> simp [apply, OrderedMap.get?_insert, OrderedMap.get?_erase]

theorem get?_foldl_apply_of_untold {k : Value} :
    ∀ (ks : List Value) (cs : List Change) (m : Mirror),
      cs.map Change.bucketKey? = ks.map some → k ∉ ks → (cs.foldl apply m).get? k = m.get? k
  | [], [], _, _, _ => rfl
  | [], _ :: _, _, h, _ => by simp at h
  | _ :: _, [], _, h, _ => by simp at h
  | k' :: ks, c :: cs, m, h, hk => by
      obtain ⟨hc, hcs⟩ := List.cons.inj h
      obtain ⟨hne, hk⟩ : k ≠ k' ∧ k ∉ ks := by simpa using hk
      obtain ⟨a, es, rfl⟩ := bucketKey?_eq_some_iff.mp hc
      rw [List.foldl_cons, get?_foldl_apply_of_untold ks cs _ hcs hk, get?_apply,
        if_neg (Ne.symm hne)]

/-- **A bucket is known as it is told**, when it is told once. -/
theorem get?_foldl_apply_of_told {k : Value} {a : Action} {es : List Value} :
    ∀ (ks : List Value) (cs : List Change) (m : Mirror), ks.Nodup →
      cs.map Change.bucketKey? = ks.map some → ⟨a, .group k es⟩ ∈ cs →
      (cs.foldl apply m).get? k = if a = .removed then none else some es
  | [], [], _, _, _, hmem => absurd hmem List.not_mem_nil
  | [], _ :: _, _, _, h, _ => by simp at h
  | _ :: _, [], _, _, h, _ => by simp at h
  | k' :: ks, c :: cs, m, hnodup, h, hmem => by
      obtain ⟨hc, hcs⟩ := List.cons.inj h
      obtain ⟨hnotMem, hnodup⟩ := List.nodup_cons.mp hnodup
      rw [List.foldl_cons]
      rcases List.mem_cons.mp hmem with rfl | hmem
      · obtain rfl : k = k' := by simpa [Change.bucketKey?] using hc
        rw [get?_foldl_apply_of_untold ks cs _ hcs hnotMem, get?_apply, if_pos rfl]
      · exact get?_foldl_apply_of_told ks cs _ hnodup hcs hmem

/-- **A consumer that knew the buckets before knows them after**, once it has applied their net
difference. -/
theorem Knows.foldl_apply {m : Mirror} {before after : Grouping} {touched : List Value}
    {cs : List Change} (hm : m.Knows before) (hcs : before.NetChange after touched cs) :
    Knows (cs.foldl apply m) after := by
  intro k
  obtain ⟨ks, hnodup, hkeys⟩ := hcs.once
  by_cases htold : ∃ a es, ⟨a, .group k es⟩ ∈ cs
  · obtain ⟨a, es, hmem⟩ := htold
    rw [get?_foldl_apply_of_told ks cs m hnodup hkeys hmem]
    by_cases ha : a = .removed
    · subst ha
      have hgone := (hcs.removed k).mp ⟨es, hmem⟩
      rw [if_pos rfl, OrderedMap.get?_eq_none_iff.mpr hgone.2]
      rfl
    · obtain ⟨hbucket, hne⟩ := hcs.carried a k es hmem ha
      rw [if_neg ha]
      simp only [Grouping.groupValue, Value.group.injEq, true_and] at hbucket
      cases hb : after.groups.get? k with
      | none =>
        rw [hb] at hbucket
        exact absurd hbucket.symm hne
      | some bucket => simpa [hb] using hbucket.symm
  · have huntold : ∀ a es, ⟨a, .group k es⟩ ∉ cs := fun a es hmem => htold ⟨a, es, hmem⟩
    have hk : k ∉ ks := fun hk => by
      have hmem : some k ∈ cs.map Change.bucketKey? := by simpa [hkeys] using hk
      obtain ⟨c, hc, hck⟩ := List.mem_map.mp hmem
      obtain ⟨a, es, rfl⟩ := bucketKey?_eq_some_iff.mp hck
      exact huntold a es hc
    rw [get?_foldl_apply_of_untold ks cs m hkeys hk, hm k, hcs.untold k huntold]

/-- **A consumer that follows a run keeps knowing the buckets.** -/
theorem Knows.follow_run : ∀ (bs : List Batch) {m : Mirror} {g : Grouping}, g.Indexed → m.Knows g →
    Knows ((Aggregation.run bs g).2.flatten.foldl apply m) (Aggregation.after bs g)
  | [], _, _, _, hm => hm
  | b :: bs, m, g, hg, hm => by
      have hstate : (Grouping.consume b g).state.Indexed := by
        rw [Grouping.state_consume]
        exact Grouping.Indexed.foldl_advance b.steps hg
      have ih := Knows.follow_run bs hstate (hm.foldl_apply (hg.netChange b))
      rw [← List.foldl_append] at ih
      exact ih

end Mirror

namespace Grouping

/-- **A batch is told by exactly the net difference of the buckets, and its changes suffice to
follow them** — after every run and for every next batch, whatever the selectors. -/
theorem netChange_consume (key element : Selector) (bs : List Batch) (b : Batch) :
    let before := Aggregation.after bs (fresh key element)
    NetChange before (consume b before).state (before.touched b.steps) (consume b before).changes ∧
      ((Mirror.follow (Aggregation.run bs (fresh key element)).2).results).Perm (results before) := by
  have hindexed := indexed_after key element bs
  refine ⟨hindexed.netChange b, Mirror.Knows.results_perm ?_⟩
  exact Mirror.Knows.follow_run bs (indexed_fresh key element) fun _ => rfl

end Grouping

end AggregateRules
