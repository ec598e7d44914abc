import AggregateRules.Proofs.Grouping.Coherence

/-!
# Proofs/Grouping/Position — what a modification moves

A known fact is modified by taking it out and putting it in again, also when its new value selects
the bucket that it stands in.  So it goes to the end of its bucket; and a bucket that it was alone
in vanishes, comes to be again and goes to the end of the buckets (`Renewed`).

**Main statement** (`modify_in_place_iff`): a batch of modifications that changes no key leaves every
bucket and every element where it stands exactly if what it moves stands at the end already.  In any
case positions are all that it changes besides the elements of the modified facts.
-/

namespace AggregateRules.Grouping

open OrderedMap (toEnd overwrite)

variable {g g' : Grouping} {fs : List Fact} {f : Fact} {id : FactId} {k k' : Value}

/-! ## Buckets as maps -/

/-- The bucket of a key; empty if there is none. -/
def bucketAt (g : Grouping) (k : Value) : OrderedMap FactId Value := (g.groups.get? k).getD ∅

theorem entries_bucketAt (g : Grouping) (k : Value) : (g.bucketAt k).entries = g.entriesAt k := by
  unfold bucketAt entriesAt
  cases g.groups.get? k <;> rfl

theorem keys_bucketAt (g : Grouping) (k : Value) :
    (g.bucketAt k).keys = (g.entriesAt k).map Prod.fst := by
  rw [← entries_bucketAt, OrderedMap.keys]

theorem size_bucketAt (g : Grouping) (k : Value) :
    (g.bucketAt k).size = (g.entriesAt k).length := by
  rw [← entries_bucketAt, OrderedMap.size]

theorem bucketAt_eq {bucket : OrderedMap FactId Value} (h : g.groups.get? k = some bucket) :
    g.bucketAt k = bucket := by
  rw [bucketAt, h]
  rfl

theorem Indexed.mem_bucketAt (h : Indexed g) (hk : g.factKeys.get? id = some k) :
    id ∈ (g.bucketAt k).keys := by
  obtain ⟨bucket, hb, hid⟩ := h.found hk
  rwa [bucketAt_eq hb]

theorem bucketAt_add (g : Grouping) (f : Fact) (k : Value) :
    (g.advance (.add f)).bucketAt k =
      if g.keyOf f = k then (g.bucketAt k).insert f.id (g.elementOf f) else g.bucketAt k := by
  rw [bucketAt, Grouping.advance, Pending.take, get?_groups_insert]
  split <;> rfl

/-- A bucket that vanishes is empty. -/
theorem Indexed.bucketAt_remove (h : Indexed g) (hk : g.factKeys.get? f.id = some k) (k' : Value) :
    (g.advance (.remove f)).bucketAt k' =
      if k = k' then (g.bucketAt k').erase f.id else g.bucketAt k' := by
  obtain ⟨bucket, hb, -⟩ := h.found hk
  rw [bucketAt, Grouping.advance, Pending.take, get?_groups_detach hk hb]
  by_cases hkk : k = k'
  · subst hkk
    rw [if_pos rfl, if_pos rfl, bucketAt_eq hb]
    by_cases he : (bucket.erase f.id).isEmpty
    · rw [if_pos he]
      exact OrderedMap.ext (OrderedMap.isEmpty_iff.mp he).symm
    · rw [if_neg he]
      rfl
  · rw [if_neg hkk, if_neg hkk]
    rfl

/-! ## What a batch of modifications touches -/

/-- The facts whose identity is known; the others are passed over. -/
def held (g : Grouping) (fs : List Fact) : List Fact := fs.filter fun f => g.factKeys.contains f.id

/-- The facts that replace an element of a bucket. -/
def heldAt (g : Grouping) (fs : List Fact) (k : Value) : List Fact :=
  (g.held fs).filter fun f => g.keyOf f = k

/-- The keys of the buckets with one element that facts replace, once for each of them. -/
def singles (g : Grouping) (fs : List Fact) : List Value :=
  ((g.held fs).map g.keyOf).filter fun k => (g.entriesAt k).length = 1

theorem held_cons_of_unknown (h : g.factKeys.get? f.id = none) (fs : List Fact) :
    g.held (f :: fs) = g.held fs := by
  have hid : g.factKeys.contains f.id = false := by
    rw [← OrderedMap.isSome_get?, h]
    rfl
  simp [held, hid]

theorem held_cons_of_known (h : g.factKeys.get? f.id = some k) (fs : List Fact) :
    g.held (f :: fs) = f :: g.held fs := by
  have hid : g.factKeys.contains f.id = true := by
    rw [← OrderedMap.isSome_get?, h]
    rfl
  simp [held, hid]

/-- A fact selects the key that its identity is known under, if it is known. -/
def SameKey (g : Grouping) (f : Fact) : Prop :=
  ∀ k, g.factKeys.get? f.id = some k → g.keyOf f = k

theorem SameKey.known (h : SameKey g f) (hf : f ∈ g.held fs) :
    g.factKeys.get? f.id = some (g.keyOf f) := by
  have hid := (List.mem_filter.mp hf).2
  rw [← OrderedMap.isSome_get?, Option.isSome_iff_exists] at hid
  obtain ⟨k, hk⟩ := hid
  rw [hk, h k hk]

/-- The elements of a bucket with those of modified facts replaced where they stand. -/
def entriesInPlace (g : Grouping) (fs : List Fact) (k : Value) : List (FactId × Value) :=
  (g.heldAt fs k).foldl (fun es f => overwrite f.id (g.elementOf f) es) (g.entriesAt k)

/-- The results with the elements of modified facts replaced where they stand. -/
def resultsInPlace (g : Grouping) (fs : List Fact) : List Value :=
  g.groups.keys.map fun k => .group k ((g.entriesInPlace fs k).map Prod.snd)

/-- A grouping with the same selectors that knows the same identities, under the same keys. -/
structure Alike (g g' : Grouping) : Prop where
  key : g'.key = g.key
  element : g'.element = g.element
  known : ∀ id, g'.factKeys.get? id = g.factKeys.get? id

section Alike

variable (h : Alike g g')

include h

theorem Alike.keyOf_eq : g'.keyOf = g.keyOf := by
  funext f
  rw [keyOf, keyOf, h.key]

theorem Alike.elementOf_eq : g'.elementOf = g.elementOf := by
  funext f
  rw [elementOf, elementOf, h.element]

theorem Alike.held_eq (fs : List Fact) : g'.held fs = g.held fs := by
  unfold held
  refine List.filter_congr fun f _ => ?_
  rw [← OrderedMap.isSome_get?, ← OrderedMap.isSome_get?, h.known]

theorem Alike.heldAt_eq (fs : List Fact) (k : Value) : g'.heldAt fs k = g.heldAt fs k := by
  rw [heldAt, heldAt, h.held_eq, h.keyOf_eq]

theorem Alike.sameKey (hf : SameKey g f) : SameKey g' f := by
  intro k hk
  rw [h.known] at hk
  rw [h.keyOf_eq]
  exact hf k hk

end Alike

/-! ## One modification -/

section Modify

variable (h : Indexed g) (hk : g.factKeys.get? f.id = some (g.keyOf f))

include h hk

theorem Indexed.alike_modify : Alike g (g.advance (.modify f)) where
  key := (selectors_advance g _).1
  element := (selectors_advance g _).2
  known id := by
    rw [h.advance_modify hk, Grouping.advance, Pending.take, factKeys_insert,
      OrderedMap.get?_insert]
    change (if f.id = id then some ((g.advance (.remove f)).keyOf f)
      else (Grouping.detach f.id ⟨g, ∅⟩).2.grouping.factKeys.get? id) = _
    rw [keyOf_advance, factKeys_detach, OrderedMap.get?_erase]
    split
    case isTrue hid => rw [← hid, hk]
    case isFalse => rfl

/-- **A modified element goes to the end of its bucket.** -/
theorem Indexed.bucketAt_modify (k : Value) :
    (g.advance (.modify f)).bucketAt k =
      if g.keyOf f = k then (g.bucketAt k).renew f.id (g.elementOf f) else g.bucketAt k := by
  rw [h.advance_modify hk, bucketAt_add, keyOf_advance, elementOf_advance, h.bucketAt_remove hk]
  split <;> rfl

/-- **A bucket with one element goes to the end of the buckets** when that element is modified. -/
theorem Indexed.keys_modify :
    (g.advance (.modify f)).groups.keys =
      if (g.entriesAt (g.keyOf f)).length = 1 then toEnd g.groups.keys (g.keyOf f)
      else g.groups.keys := by
  obtain ⟨bucket, hb, hid⟩ := h.found hk
  have hmem : g.keyOf f ∈ g.groups.keys := by
    rw [OrderedMap.mem_keys_iff, hb]
    exact Option.some_ne_none _
  have halone : (bucket.erase f.id).isEmpty = true ↔ (g.entriesAt (g.keyOf f)).length = 1 := by
    have hsize := OrderedMap.size_erase_of_mem hid
    rw [OrderedMap.isEmpty_iff, ← List.length_eq_zero_iff, entriesAt_eq hb]
    simp only [OrderedMap.size] at hsize
    omega
  have hgroups : (g.advance (.remove f)).groups =
      putBack g.groups (g.keyOf f) (bucket.erase f.id) := by
    rw [Grouping.advance, Pending.take, detach_of_found (p := ⟨g, ∅⟩) hk hb]
  rw [h.advance_modify hk]
  change ((g.advance (.remove f)).groups.insert ((g.advance (.remove f)).keyOf f) _).keys = _
  rw [keyOf_advance, hgroups, putBack]
  by_cases he : (bucket.erase f.id).isEmpty = true
  · -- the bucket vanishes, and its key comes to be again behind the others
    have hgone : g.keyOf f ∉ (g.groups.erase (g.keyOf f)).keys := fun hk' =>
      (OrderedMap.mem_keys_erase.mp hk').2 rfl
    rw [if_pos he, if_pos (halone.mp he), OrderedMap.keys_insert_of_notMem _ hgone,
      OrderedMap.keys_erase, toEnd]
  · have hkept := OrderedMap.keys_insert_of_mem (bucket.erase f.id) hmem
    rw [if_neg he, if_neg fun hone => he (halone.mpr hone),
      OrderedMap.keys_insert_of_mem _ (hkept ▸ hmem), hkept]

theorem Indexed.length_entriesAt_modify (k : Value) :
    ((g.advance (.modify f)).entriesAt k).length = (g.entriesAt k).length := by
  rw [← size_bucketAt, ← size_bucketAt, h.bucketAt_modify hk]
  split
  case isTrue heq => exact OrderedMap.size_renew_of_mem _ (heq ▸ h.mem_bucketAt hk)
  case isFalse => rfl

end Modify

/-! ## A batch of modifications -/

/-- What a batch of modifications that changes no key makes of the buckets: the elements that it
replaces go to the end of their buckets, and the buckets with one element to the end of all. -/
structure Renewed (g : Grouping) (fs : List Fact) (g' : Grouping) : Prop where
  bucketAt : ∀ k, g'.bucketAt k = ((g.heldAt fs k).map fun f => (f.id, g.elementOf f)).foldl
    (fun m e => m.renew e.1 e.2) (g.bucketAt k)
  keys : g'.groups.keys = (g.singles fs).foldl toEnd g.groups.keys

/-- **A batch of modifications that changes no key** renews what it touches.  A modification changes
neither who is known under which key nor how many elements a bucket has, so the rest of the batch
touches what it would have touched without it. -/
theorem Indexed.renewed : ∀ (fs : List Fact) {g : Grouping}, Indexed g →
    (∀ f ∈ fs, SameKey g f) → Renewed g fs ((fs.map Step.modify).foldl Grouping.advance g)
  | [], _, _, _ => ⟨fun _ => rfl, rfl⟩
  | f :: fs, g, h, hfs => by
      have hf : SameKey g f := hfs f List.mem_cons_self
      have hrest : ∀ f' ∈ fs, SameKey g f' := fun f' hf' => hfs f' (List.mem_cons_of_mem f hf')
      rw [List.map_cons, List.foldl_cons]
      cases hknown : g.factKeys.get? f.id with
      | none =>
        rw [advance_modify_of_unknown hknown]
        obtain ⟨hbuckets, hkeys⟩ := Indexed.renewed fs h hrest
        refine ⟨fun k => ?_, ?_⟩
        · rw [heldAt, held_cons_of_unknown hknown]
          exact hbuckets k
        · rw [singles, held_cons_of_unknown hknown]
          exact hkeys
      | some k =>
        obtain rfl := hf k hknown
        have halike := h.alike_modify hknown
        obtain ⟨hbuckets, hkeys⟩ := Indexed.renewed fs (h.advance (.modify f)) fun f' hf' =>
          halike.sameKey (hrest f' hf')
        refine ⟨fun k => ?_, ?_⟩
        · rw [hbuckets k, halike.heldAt_eq, halike.elementOf_eq, h.bucketAt_modify hknown,
            heldAt, heldAt, held_cons_of_known hknown, List.filter_cons]
          by_cases hk : g.keyOf f = k
          · simp [hk]
          · simp [hk]
        · rw [hkeys, singles, singles, halike.held_eq, halike.keyOf_eq, held_cons_of_known hknown,
            h.keys_modify hknown, List.map_cons, List.filter_cons]
          simp only [h.length_entriesAt_modify hknown]
          by_cases hone : (g.entriesAt (g.keyOf f)).length = 1
          · simp [hone]
          · simp [hone]

/-! ## When nothing moves -/

/-- What a batch of modifications moves stands at the end already: in every bucket the elements that
it replaces, and among the buckets those with one element, each in the order in which the batch
comes to them last. -/
structure Trailing (g : Grouping) (fs : List Fact) : Prop where
  elements : ∀ k, ((g.heldAt fs k).map Fact.id).dedup <:+ (g.entriesAt k).map Prod.fst
  buckets : (g.singles fs).dedup <:+ g.groups.keys

theorem Indexed.heldAt_mem (h : Indexed g) (hfs : ∀ f ∈ fs, SameKey g f) (k : Value) :
    ∀ e ∈ (g.heldAt fs k).map fun f => (f.id, g.elementOf f), e.1 ∈ (g.bucketAt k).keys := by
  intro e he
  obtain ⟨f, hf, rfl⟩ := List.mem_map.mp he
  obtain ⟨hheld, hk⟩ := List.mem_filter.mp hf
  obtain rfl : g.keyOf f = k := by simpa using hk
  exact h.mem_bucketAt ((hfs f (List.mem_filter.mp hheld).1).known hheld)

theorem entriesInPlace_eq (g : Grouping) (fs : List Fact) (k : Value) :
    g.entriesInPlace fs k = ((g.heldAt fs k).map fun f => (f.id, g.elementOf f)).foldl
      (fun es e => overwrite e.1 e.2 es) (g.bucketAt k).entries := by
  rw [entriesInPlace, List.foldl_map, entries_bucketAt]

section Renewed

variable (hr : Renewed g fs g') (h : Indexed g) (hfs : ∀ f ∈ fs, SameKey g f)

include hr

theorem Renewed.keys_eq_iff :
    g'.groups.keys = g.groups.keys ↔ (g.singles fs).dedup <:+ g.groups.keys := by
  rw [hr.keys, OrderedMap.foldl_toEnd_eq_iff g.groups.keys_nodup]

theorem Renewed.keys_perm : g'.groups.keys.Perm g.groups.keys := by
  rw [hr.keys]
  refine OrderedMap.foldl_toEnd_perm g.groups.keys_nodup fun k hk => ?_
  have hone : (g.entriesAt k).length = 1 := by simpa using (List.mem_filter.mp hk).2
  rw [OrderedMap.mem_keys_iff]
  intro hnone
  simp [entriesAt, hnone] at hone

include h hfs

theorem Renewed.entriesAt_eq_iff (k : Value) :
    g'.entriesAt k = g.entriesInPlace fs k ↔
      ((g.heldAt fs k).map Fact.id).dedup <:+ (g.entriesAt k).map Prod.fst := by
  have hids : ((g.heldAt fs k).map fun f => (f.id, g.elementOf f)).map Prod.fst =
      (g.heldAt fs k).map Fact.id := by
    rw [List.map_map]
    rfl
  rw [← entries_bucketAt, hr.bucketAt, entriesInPlace_eq,
    OrderedMap.entries_foldl_renew_eq_iff (h.heldAt_mem hfs k), hids, keys_bucketAt]

theorem Renewed.entriesAt_perm (k : Value) : (g'.entriesAt k).Perm (g.entriesInPlace fs k) := by
  rw [← entries_bucketAt, hr.bucketAt, entriesInPlace_eq]
  exact OrderedMap.entries_foldl_renew_perm (h.heldAt_mem hfs k)

end Renewed

/-- A fact keeps the key of the live facts of its identity exactly if it selects the key that the
identity is known under. -/
theorem sameKey_iff (key element : Selector) (bs : List Batch) (f : Fact) :
    SameKey (Aggregation.after bs (fresh key element)) f ↔ KeepsKey key (liveAfter bs) f := by
  have ht := tracks_after key element bs
  have hkey := (selectors_after key element bs).1
  constructor
  · intro h f' hf' hid
    have := h _ ((ht f.id _).mpr ⟨f', hf', hid, rfl⟩)
    rw [keyOf, keyOf, hkey] at this
    exact this.symm
  · intro h k hk
    obtain ⟨f', hf', hid, rfl⟩ := (ht f.id k).mp hk
    rw [keyOf, keyOf, hkey]
    exact (h f' hf' hid).symm

/-- **A batch of modifications that changes no key leaves every bucket and every element where it
stands, replacing the elements of the modified facts only, exactly if what it moves stands at the end
already.**  In any case each bucket holds the entries that it would hold then, and the buckets are
the same, up to their order. -/
theorem modify_in_place_iff (key element : Selector) (bs : List Batch) (fs : List Fact)
    (h : ∀ f ∈ fs, KeepsKey key (liveAfter bs) f) :
    let g := Aggregation.after bs (fresh key element)
    let g' := (consume (.modify fs) g).state
    ((g'.groups.keys = g.groups.keys ∧ ∀ k, g'.entriesAt k = g.entriesInPlace fs k) ↔
        g.Trailing fs) ∧
      (g.Trailing fs → results g' = g.resultsInPlace fs) ∧
      g'.groups.keys.Perm g.groups.keys ∧ ∀ k, (g'.entriesAt k).Perm (g.entriesInPlace fs k) := by
  intro g g'
  have hi : Indexed g := indexed_after key element bs
  have hsame : ∀ f ∈ fs, SameKey g f := fun f hf => (sameKey_iff key element bs f).mpr (h f hf)
  have hr : Renewed g fs g' := by
    have hstate : g' = (fs.map Step.modify).foldl Grouping.advance g := state_consume (.modify fs) g
    rw [hstate]
    exact hi.renewed fs hsame
  have hinPlace : (g'.groups.keys = g.groups.keys ∧ ∀ k, g'.entriesAt k = g.entriesInPlace fs k) ↔
      g.Trailing fs := by
    rw [hr.keys_eq_iff]
    constructor
    · rintro ⟨hbuckets, hentries⟩
      exact ⟨fun k => (hr.entriesAt_eq_iff hi hsame k).mp (hentries k), hbuckets⟩
    · intro ht
      exact ⟨ht.buckets, fun k => (hr.entriesAt_eq_iff hi hsame k).mpr (ht.elements k)⟩
  refine ⟨hinPlace, fun ht => ?_, hr.keys_perm, hr.entriesAt_perm hi hsame⟩
  obtain ⟨hkeys, hentries⟩ := hinPlace.mpr ht
  change g'.groups.keys.map g'.groupValue = _
  rw [hkeys, resultsInPlace]
  refine List.map_congr_left fun k _ => ?_
  rw [groupValue_eq, hentries k]

/-- One bucket with one element, at the end: its element is replaced where it stands. -/
theorem modify_in_place_last :
    let bs : List Batch := [.add [.ofOrder 1 "a" 10, .ofOrder 2 "b" 20]]
    let fs : List Fact := [.ofOrder 2 "b" 21]
    let g := Aggregation.after bs (fresh (.field "category") (.field "amount"))
    (∀ f ∈ fs, KeepsKey (.field "category") (liveAfter bs) f) ∧ g.Trailing fs ∧
      results (consume (.modify fs) g).state =
        [.group (.text "a") [.int 10], .group (.text "b") [.int 21]] := by
  intro bs fs g
  have hkeeps : ∀ f ∈ fs, KeepsKey (.field "category") (liveAfter bs) f := by decide
  have hinPlace := modify_in_place_iff (.field "category") (.field "amount") bs fs hkeeps
  have htrailing : g.Trailing fs := by
    refine ⟨fun k => ?_, by decide⟩
    by_cases hk : k = .text "b"
    · subst hk
      decide
    · have hnone : g.heldAt fs k = [] :=
        List.filter_eq_nil_iff.mpr fun f hf => by
          obtain rfl : f = .ofOrder 2 "b" 21 := List.mem_singleton.mp (List.mem_filter.mp hf).1
          have : g.keyOf (.ofOrder 2 "b" 21) = .text "b" := by decide
          simpa [this] using Ne.symm hk
      rw [hnone]
      exact List.nil_suffix
  exact ⟨hkeeps, htrailing, hinPlace.2.1 htrailing⟩

/-- **A bucket with one element moves behind the others** when that element is modified, and an
element moves behind the others of its bucket. -/
theorem modified_moves_to_end :
    let byCategory := fresh (.field "category") (.field "amount")
    let apart := Aggregation.after [.add [.ofOrder 1 "a" 10, .ofOrder 2 "b" 20]] byCategory
    let together := Aggregation.after [.add [.ofOrder 1 "a" 10, .ofOrder 2 "a" 20]] byCategory
    let fs : List Fact := [.ofOrder 1 "a" 11]
    (∀ f ∈ fs, SameKey apart f ∧ SameKey together f) ∧
      results apart = [.group (.text "a") [.int 10], .group (.text "b") [.int 20]] ∧
      apart.resultsInPlace fs = [.group (.text "a") [.int 11], .group (.text "b") [.int 20]] ∧
      results (consume (.modify fs) apart).state =
        [.group (.text "b") [.int 20], .group (.text "a") [.int 11]] ∧
      results together = [.group (.text "a") [.int 10, .int 20]] ∧
      together.resultsInPlace fs = [.group (.text "a") [.int 11, .int 20]] ∧
      results (consume (.modify fs) together).state = [.group (.text "a") [.int 20, .int 11]] := by
  intro byCategory apart together fs
  refine ⟨fun f hf => ?_, by decide, by decide, by decide, by decide, by decide, by decide⟩
  obtain rfl := List.mem_singleton.mp hf
  exact ⟨(sameKey_iff _ _ _ _).mpr (by decide), (sameKey_iff _ _ _ _).mpr (by decide)⟩

end AggregateRules.Grouping
