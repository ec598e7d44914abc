import AggregateRules.Proofs.Grouping.Step

/-!
# Proofs/Grouping/Coherence — when the two indexes are inverse

The index knows exactly the live facts, each under the key that its latest value selects
(`tracks_after`); this holds after every run.  What can fail is that an element stays behind: an
addition does not take its identity out of the bucket where it stands, so a live identity that is
added again under another key is stored twice (`readded_identity_is_stored_twice`), and a removal
reaches only the second.

**Main statement** (`coherent_along_iff`): this is the only way.  The two indexes are inverse all
along a run exactly if no addition gives a live identity another key.
-/

namespace AggregateRules.Grouping

variable {g : Grouping} {p : Pending} {facts : List Fact} {f : Fact} {id : FactId} {k k' : Value}

/-! ## The index knows the live facts -/

/-- The index knows some facts, each under the key that its value selects. -/
def Tracks (g : Grouping) (facts : List Fact) : Prop :=
  ∀ id k, g.factKeys.get? id = some k ↔ ∃ f ∈ facts, f.id = id ∧ g.keyOf f = k

theorem Tracks.insert (h : Tracks p.grouping facts) (f : Fact) :
    Tracks (insert f p).grouping (others f.id facts ++ [f]) := by
  intro id k
  rw [factKeys_insert, OrderedMap.get?_insert]
  by_cases hid : f.id = id
  · subst hid
    rw [if_pos rfl, Option.some.injEq]
    constructor
    · intro hk
      exact ⟨f, by simp, rfl, hk⟩
    · rintro ⟨f', hf', hid', hk'⟩
      obtain rfl : f' = f := by simpa [hid'] using hf'
      exact hk'
  · rw [if_neg hid, h id k]
    constructor
    · rintro ⟨f', hf', hid', hk'⟩
      have hne : f'.id ≠ f.id := fun he => hid (he.symm.trans hid')
      exact ⟨f', List.mem_append_left _ (mem_others.mpr ⟨hf', hne⟩), hid', hk'⟩
    · rintro ⟨f', hf', hid', hk'⟩
      rcases List.mem_append.mp hf' with hf' | hf'
      · exact ⟨f', (mem_others.mp hf').1, hid', hk'⟩
      · obtain rfl : f' = f := by simpa using hf'
        exact absurd hid' hid

theorem Tracks.detach (h : Tracks p.grouping facts) (id : FactId) :
    Tracks (detach id p).2.grouping (others id facts) := by
  intro id' k
  have hkey : ∀ f, (Grouping.detach id p).2.grouping.keyOf f = p.grouping.keyOf f := by simp [keyOf]
  rw [factKeys_detach, OrderedMap.get?_erase]
  by_cases hid : id = id'
  · subst hid
    rw [if_pos rfl]
    constructor
    · intro hk
      exact absurd hk (by simp)
    · rintro ⟨f, hf, hid, -⟩
      exact absurd hid (mem_others.mp hf).2
  · rw [if_neg hid, h id' k]
    simp only [hkey, mem_others]
    constructor
    · rintro ⟨f, hf, rfl, hk⟩
      exact ⟨f, ⟨hf, Ne.symm hid⟩, rfl, hk⟩
    · rintro ⟨f, ⟨hf, -⟩, hid', hk⟩
      exact ⟨f, hf, hid', hk⟩

/-- An identity is known if and only if it is live. -/
theorem Tracks.known_iff (h : Tracks g facts) :
    (∃ k, g.factKeys.get? id = some k) ↔ id ∈ facts.map Fact.id := by
  constructor
  · rintro ⟨k, hk⟩
    obtain ⟨f, hf, rfl, -⟩ := (h id k).mp hk
    exact List.mem_map_of_mem hf
  · intro hid
    obtain ⟨f, hf, rfl⟩ := List.mem_map.mp hid
    exact ⟨g.keyOf f, (h f.id _).mpr ⟨f, hf, rfl, rfl⟩⟩

theorem Tracks.unknown_iff (h : Tracks g facts) :
    g.factKeys.get? id = none ↔ id ∉ facts.map Fact.id := by
  rw [← h.known_iff, ← Option.ne_none_iff_exists', ne_eq, not_not]

/-- **A modification is a removal and an addition**, of the buckets and of the live facts alike, or
it is nothing for both. -/
theorem Tracks.modify_cases (h : Tracks g facts) (hi : Indexed g) (f : Fact) :
    (g.advance (.modify f) = g ∧ Step.live facts (.modify f) = facts) ∨
      (g.advance (.modify f) = (g.advance (.remove f)).advance (.add f) ∧
        Step.live facts (.modify f) = Step.live (Step.live facts (.remove f)) (.add f)) := by
  cases hk : g.factKeys.get? f.id with
  | none =>
    exact Or.inl ⟨advance_modify_of_unknown hk, live_modify_of_notLive (h.unknown_iff.mp hk)⟩
  | some k =>
    exact Or.inr ⟨hi.advance_modify hk, live_modify_of_live (h.known_iff.mp ⟨k, hk⟩)⟩

/-- **Every step keeps the index to the live facts.** -/
theorem Tracks.advance (h : Tracks g facts) (hi : Indexed g) (s : Step) :
    Tracks (g.advance s) (s.live facts) := by
  have hremove : ∀ f : Fact, Tracks (g.advance (.remove f)) (Step.live facts (.remove f)) :=
    fun f => Tracks.detach (p := ⟨g, ∅⟩) h f.id
  cases s with
  | add f => exact Tracks.insert (p := ⟨g, ∅⟩) h f
  | modify f =>
    rcases h.modify_cases hi f with ⟨hg, hlive⟩ | ⟨hg, hlive⟩
    · rw [hg, hlive]
      exact h
    · rw [hg, hlive]
      exact Tracks.insert (p := ⟨g.advance (.remove f), ∅⟩) (hremove f) f
  | remove f => exact hremove f

theorem Tracks.foldl_advance : ∀ (ss : List Step) {g : Grouping} {facts : List Fact},
    Tracks g facts → Indexed g → Tracks (ss.foldl Grouping.advance g) (ss.foldl Step.live facts)
  | [], _, _, h, _ => h
  | s :: ss, _, _, h, hi => foldl_advance ss (h.advance hi s) (hi.advance s)

theorem tracks_fresh (key element : Selector) : Tracks (fresh key element) [] := by
  intro id k
  simp [fresh]

/-- **The index knows exactly the live facts**, after every run. -/
theorem tracks_after (key element : Selector) (bs : List Batch) :
    Tracks (Aggregation.after bs (fresh key element)) (liveAfter bs) := by
  rw [after_eq]
  exact (tracks_fresh key element).foldl_advance (stepsOf bs) (indexed_fresh key element)

/-- **A live fact is known under the key that its value selects**, and stored in that bucket. -/
theorem known_of_live (key element : Selector) {bs : List Batch} (hf : f ∈ liveAfter bs) :
    let g := Aggregation.after bs (fresh key element)
    g.factKeys.get? f.id = some (key.select f.value) ∧ g.Stores (key.select f.value) f.id := by
  intro g
  have hkey : g.key = key := (selectors_after key element bs).1
  have hknown : g.factKeys.get? f.id = some (key.select f.value) :=
    (tracks_after key element bs f.id _).mpr ⟨f, hf, rfl, by rw [keyOf, hkey]⟩
  exact ⟨hknown, (indexed_after key element bs).stored hknown⟩

/-! ## Coherence -/

/-- The two indexes are inverse to each other, and no bucket is empty. -/
structure Coherent (g : Grouping) : Prop where
  /-- An identity is stored in at most one bucket. -/
  once : ∀ {id k k'}, g.Stores k id → g.Stores k' id → k = k'
  /-- An identity is stored in a bucket if and only if it is known under the bucket's key. -/
  stores_iff : ∀ {id k}, g.Stores k id ↔ g.factKeys.get? id = some k
  /-- No bucket is empty. -/
  nonempty : ∀ {k bucket}, g.groups.get? k = some bucket → bucket.isEmpty = false

theorem Coherent.of_stores (hi : Indexed g)
    (h : ∀ {id k}, g.Stores k id → g.factKeys.get? id = some k) : Coherent g where
  once hk hk' := Option.some.inj ((h hk).symm.trans (h hk'))
  stores_iff := ⟨h, hi.stored⟩
  nonempty := hi.nonempty

theorem Coherent.indexed (h : Coherent g) : Indexed g := ⟨h.stores_iff.mpr, h.nonempty⟩

theorem coherent_fresh (key element : Selector) : Coherent (fresh key element) :=
  Coherent.of_stores (indexed_fresh key element) fun ⟨_, hb, _⟩ => by simp [fresh] at hb

/-- An identity is stored at most in the bucket of the key that it is known under. -/
def Anchored (g : Grouping) (id : FactId) : Prop :=
  ∀ k, g.Stores k id → g.factKeys.get? id = some k

theorem Coherent.anchored (h : Coherent g) (id : FactId) : Anchored g id :=
  fun _ => h.stores_iff.mp

/-- **Putting in an identity that is not known under another key** keeps every identity anchored. -/
theorem Anchored.insert (h : Anchored p.grouping id)
    (hf : f.id = id → ∀ k, p.grouping.factKeys.get? id = some k → k = p.grouping.keyOf f) :
    Anchored (Grouping.insert f p).grouping id := by
  intro k hs
  rw [factKeys_insert, OrderedMap.get?_insert]
  rcases stores_insert.mp hs with ⟨rfl, rfl⟩ | hs
  · rw [if_pos rfl]
  · have hk := h k hs
    split
    case isTrue hid => rw [hf hid k hk]
    case isFalse => exact hk

theorem Anchored.detach (h : Anchored p.grouping id) (hi : Indexed p.grouping) (id' : FactId) :
    Anchored (Grouping.detach id' p).2.grouping id := by
  cases hk : p.grouping.factKeys.get? id' with
  | none => rwa [detach_of_unknown hk]
  | some k =>
    obtain ⟨bucket, hb, -⟩ := hi.found hk
    intro k' hs
    obtain ⟨hs, hne⟩ := (stores_detach hk hb).mp hs
    have hk' := h k' hs
    rw [factKeys_detach, OrderedMap.get?_erase]
    split
    case isTrue hid =>
      subst hid
      exact absurd ⟨Option.some.inj (hk.symm.trans hk'), rfl⟩ hne
    case isFalse => exact hk'

theorem Coherent.insert (h : Coherent p.grouping)
    (hf : ∀ k, p.grouping.factKeys.get? f.id = some k → k = p.grouping.keyOf f) :
    Coherent (Grouping.insert f p).grouping :=
  Coherent.of_stores (h.indexed.insert f) fun {id k} =>
    (h.anchored id).insert (fun hid k hk => hf k (hid ▸ hk)) k

theorem Coherent.detach (h : Coherent p.grouping) (id : FactId) :
    Coherent (Grouping.detach id p).2.grouping :=
  Coherent.of_stores (h.indexed.detach id) fun {id' k} => (h.anchored id').detach h.indexed id k

/-- A fact keeps the key of the live facts of its identity. -/
def KeepsKey (key : Selector) (facts : List Fact) (f : Fact) : Prop :=
  ∀ f' ∈ facts, f'.id = f.id → key.select f'.value = key.select f.value

instance (key : Selector) (facts : List Fact) : DecidablePred (KeepsKey key facts) := fun _ =>
  inferInstanceAs (Decidable (∀ _ ∈ _, _))

/-- No addition of a run gives a live identity another key. -/
def KeepsKeys (key : Selector) (bs : List Batch) : Prop := EachAdd (KeepsKey key) [] (stepsOf bs)

theorem Coherent.advance (h : Coherent g) (ht : Tracks g facts) (s : Step)
    (hs : ∀ f, s = .add f → KeepsKey g.key facts f) : Coherent (g.advance s) := by
  have hremove : ∀ f : Fact, Coherent (g.advance (.remove f)) :=
    fun f => Coherent.detach (p := ⟨g, ∅⟩) h f.id
  cases s with
  | add f =>
    refine Coherent.insert (p := ⟨g, ∅⟩) h fun k hk => ?_
    obtain ⟨f', hf', hid, rfl⟩ := (ht f.id k).mp hk
    exact hs f rfl f' hf' hid
  | modify f =>
    rcases ht.modify_cases h.indexed f with ⟨hg, -⟩ | ⟨hg, -⟩
    · rwa [hg]
    · have hgone := (ht.advance h.indexed (.remove f)).unknown_iff.mpr (notMem_others f.id facts)
      rw [hg]
      refine Coherent.insert (p := ⟨g.advance (.remove f), ∅⟩) (hremove f) fun k hk => ?_
      exact absurd (hgone.symm.trans hk) (by simp)
  | remove f => exact hremove f

theorem Coherent.foldl_advance : ∀ (ss : List Step) {g : Grouping} {facts : List Fact},
    Coherent g → Tracks g facts → EachAdd (KeepsKey g.key) facts ss →
      Coherent (ss.foldl Grouping.advance g)
  | [], _, _, h, _, _ => h
  | s :: ss, g, _, h, ht, hss => by
      obtain ⟨hs, hss⟩ := hss
      rw [← (selectors_advance g s).1] at hss
      exact foldl_advance ss (h.advance ht s hs) (ht.advance h.indexed s) hss

/-! ## What stays behind

An insertion takes nothing out of any bucket, so an identity that a batch of additions has put in
two buckets is in both when the batch ends. -/

theorem stores_add :
    (g.advance (.add f)).Stores k id ↔ (g.keyOf f = k ∧ f.id = id) ∨ g.Stores k id :=
  stores_insert (p := ⟨g, ∅⟩)

theorem Stores.foldl_add (h : g.Stores k id) (fs : List Fact) :
    ((fs.map Step.add).foldl Grouping.advance g).Stores k id := by
  induction fs generalizing g with
  | nil => exact h
  | cons f fs ih => exact ih (stores_add.mpr (Or.inr h))

theorem keepsKey_of_once : ∀ (fs : List Fact) {g : Grouping} {facts : List Fact}, Indexed g →
    Tracks g facts →
    (∀ {id k k'}, ((fs.map Step.add).foldl Grouping.advance g).Stores k id →
      ((fs.map Step.add).foldl Grouping.advance g).Stores k' id → k = k') →
    EachAdd (KeepsKey g.key) facts (fs.map Step.add)
  | [], _, _, _, _, _ => trivial
  | f :: fs, g, facts, hi, ht, honce => by
      refine ⟨fun f₁ hf₁ f' hf' hid => ?_, ?_⟩
      · obtain rfl := Step.add.inj hf₁
        have hold : g.Stores (g.keyOf f') f.id := hi.stored ((ht f.id _).mpr ⟨f', hf', hid, rfl⟩)
        exact honce (Stores.foldl_add (stores_add.mpr (Or.inr hold)) fs)
          (Stores.foldl_add (stores_add.mpr (Or.inl ⟨rfl, rfl⟩)) fs)
      · have ih := keepsKey_of_once fs (hi.advance (.add f)) (ht.advance hi (.add f)) honce
        exact ih

/-- A batch that leaves the indexes inverse has given no live identity another key. -/
theorem Coherent.keepsKey (b : Batch) (hi : Indexed g) (ht : Tracks g facts)
    (h : Coherent (b.steps.foldl Grouping.advance g)) :
    EachAdd (KeepsKey g.key) facts b.steps := by
  cases b with
  | add fs => exact keepsKey_of_once fs hi ht h.once
  | modify fs => exact eachAdd_of_notAdd fun f => by simp [Batch.steps]
  | remove fs => exact eachAdd_of_notAdd fun f => by simp [Batch.steps]

theorem keepsKeys_of_coherent : ∀ (bs : List Batch) {g : Grouping} {facts : List Fact},
    Indexed g → Tracks g facts → (∀ cs, cs <+: bs → Coherent (Aggregation.after cs g)) →
      EachAdd (KeepsKey g.key) facts (stepsOf bs)
  | [], _, _, _, _, _ => trivial
  | b :: bs, g, facts, hi, ht, h => by
      have hb : Coherent (b.steps.foldl Grouping.advance g) := by
        have := h [b] ⟨bs, rfl⟩
        rwa [after_eq, stepsOf_cons, stepsOf_nil, List.append_nil] at this
      have ih := keepsKeys_of_coherent bs (Indexed.foldl_advance b.steps hi)
        (ht.foldl_advance b.steps hi) fun cs hcs => by
          have := h (b :: cs) (List.cons_prefix_cons.mpr ⟨rfl, hcs⟩)
          rwa [after_eq, stepsOf_cons, List.foldl_append, ← after_eq] at this
      rw [(selectors_foldl_advance b.steps g).1] at ih
      exact (eachAdd_append b.steps facts (stepsOf bs)).mpr ⟨hb.keepsKey b hi ht, ih⟩

theorem coherent_after {key element : Selector} {bs : List Batch} (h : KeepsKeys key bs) :
    Coherent (Aggregation.after bs (fresh key element)) := by
  rw [after_eq]
  exact Coherent.foldl_advance (stepsOf bs) (coherent_fresh key element)
    (tracks_fresh key element) h

theorem KeepsKeys.of_prefix {key : Selector} {cs bs : List Batch} (h : KeepsKeys key bs)
    (hcs : cs <+: bs) : KeepsKeys key cs := by
  obtain ⟨ds, rfl⟩ := hcs
  rw [KeepsKeys, stepsOf_append] at h
  exact ((eachAdd_append (stepsOf cs) [] (stepsOf ds)).mp h).1

theorem notMem_liveAfter_remove (cs : List Batch) {fs : List Fact} (hf : f ∈ fs) :
    f.id ∉ (liveAfter (cs ++ [.remove fs])).map Fact.id := by
  intro hid
  obtain ⟨f', hf', he⟩ := List.mem_map.mp hid
  rw [liveAfter, stepsOf_append, List.foldl_append, stepsOf_cons, stepsOf_nil, List.append_nil,
    Batch.steps, mem_foldl_remove] at hf'
  exact hf'.2 f hf he

/-- **The two indexes are inverse all along a run exactly if no addition gives a live identity
another key**; and along such a run no bucket holds an element of an identity that a batch has just
removed. -/
theorem coherent_along_iff (key element : Selector) (bs : List Batch) :
    ((∀ cs, cs <+: bs → Coherent (Aggregation.after cs (fresh key element))) ↔ KeepsKeys key bs) ∧
      (KeepsKeys key bs → ∀ cs fs, cs ++ [.remove fs] <+: bs → ∀ f ∈ fs, ∀ k,
        ¬ (Aggregation.after (cs ++ [.remove fs]) (fresh key element)).Stores k f.id) := by
  refine ⟨⟨fun h => ?_, fun h cs hcs => coherent_after (h.of_prefix hcs)⟩, ?_⟩
  · exact keepsKeys_of_coherent bs (indexed_fresh key element) (tracks_fresh key element) h
  · intro h cs fs hcs f hf k hs
    have hknown := (coherent_after (h.of_prefix hcs)).stores_iff.mp hs
    have hunknown := (tracks_after key element _).unknown_iff.mpr (notMem_liveAfter_remove cs hf)
    simp [hunknown] at hknown

/-- **A live identity that is added again under another key is stored twice**, and the element in
its first bucket outlives its removal. -/
theorem readded_identity_is_stored_twice :
    let byCategory := fresh (.field "category") (.field "amount")
    let added : List Batch := [.add [.ofOrder 1 "a" 10], .add [.ofOrder 1 "b" 20]]
    let twice := Aggregation.after added byCategory
    let removed := Aggregation.after (added ++ [.remove [.ofOrder 1 "b" 20]]) byCategory
    twice.Stores (.text "a") ⟨1⟩ ∧ twice.Stores (.text "b") ⟨1⟩ ∧ ¬ Coherent twice ∧
      results removed = [.group (.text "a") [.int 10]] := by
  intro byCategory added twice removed
  have h₁ : twice.Stores (.text "a") ⟨1⟩ := by decide
  have h₂ : twice.Stores (.text "b") ⟨1⟩ := by decide
  exact ⟨h₁, h₂, fun h => absurd (h.once h₁ h₂) (by decide), by decide⟩

end AggregateRules.Grouping
