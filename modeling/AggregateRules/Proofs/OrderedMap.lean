import Mathlib.Data.List.Dedup
import Mathlib.Data.List.Nodup
import AggregateRules.OrderedMap

/-!
# Proofs/OrderedMap — what a map holds, read off its entries and back

`get?_eq_some_iff` ties look-up to the entries.  Two maps that answer every look-up alike hold the
same entries and differ at most in their order (`entries_perm_of_get?_eq`); with their keys in the
same order, they are the same map (`eq_of_keys_eq`).

A key that is taken out and put in again holds what an insertion in its place would give it, but
stands last.  `entries_foldl_renew_eq_iff` says when that makes no difference.

A part of a map (`filterMap`, `without`) stays as it is under whatever happens to the other keys, so
a map that holds none of them before and after is the same map (`without_eq_self`).
-/

namespace AggregateRules.OrderedMap

variable {κ α : Type} [DecidableEq κ]

/-! ## Look-up and entries -/

/-- **A key is looked up to the value it is entered with.** -/
theorem get?_eq_some_iff {m : OrderedMap κ α} {k : κ} {a : α} :
    m.get? k = some a ↔ (k, a) ∈ m.entries := by
  constructor
  · intro h
    obtain ⟨e, he, rfl⟩ := Option.map_eq_some_iff.mp h
    have hk : e.1 = k := by simpa using List.find?_some he
    exact hk ▸ List.mem_of_find?_eq_some he
  · intro h
    have hk : k ∈ m.keys := List.mem_map.mpr ⟨_, h, rfl⟩
    obtain ⟨b, hb⟩ := Option.ne_none_iff_exists'.mp fun hn => get?_eq_none_iff.mp hn hk
    obtain ⟨e, he, rfl⟩ := Option.map_eq_some_iff.mp hb
    have hek : e.1 = k := by simpa using List.find?_some he
    have : e = (k, a) :=
      List.inj_on_of_nodup_map m.nodup_keys (List.mem_of_find?_eq_some he) h hek
    rw [hb, this]

theorem mem_keys_iff {m : OrderedMap κ α} {k : κ} : k ∈ m.keys ↔ m.get? k ≠ none := by
  rw [ne_eq, get?_eq_none_iff, not_not]

omit [DecidableEq κ] in
theorem entries_nodup (m : OrderedMap κ α) : m.entries.Nodup := List.Nodup.of_map _ m.nodup_keys

/-- **Maps that answer alike hold the same entries**, up to their order. -/
theorem entries_perm_of_get?_eq {m m' : OrderedMap κ α} (h : ∀ k, m.get? k = m'.get? k) :
    m.entries.Perm m'.entries :=
  (List.perm_ext_iff_of_nodup m.entries_nodup m'.entries_nodup).mpr fun ⟨k, a⟩ => by
    rw [← get?_eq_some_iff, ← get?_eq_some_iff, h]

/-- **The order of the keys is all that look-up leaves open.** -/
theorem eq_of_keys_eq {m m' : OrderedMap κ α} (hkeys : m.keys = m'.keys)
    (h : ∀ k, m.get? k = m'.get? k) : m = m' := by
  have hpaired (m : OrderedMap κ α) :
      m.entries.map (fun e => (e.1, some e.2)) = m.keys.map fun k => (k, m.get? k) := by
    rw [keys, List.map_map]
    refine List.map_congr_left fun e he => ?_
    rw [Function.comp_apply, get?_eq_some_iff.mpr he]
  have hinj : Function.Injective fun e : κ × α => (e.1, some e.2) := fun e e' he => by
    obtain ⟨h₁, h₂⟩ := Prod.mk.inj he
    exact Prod.ext h₁ (Option.some.inj h₂)
  refine ext (hinj.list_map ?_)
  rw [hpaired m, hpaired m', hkeys, funext h]

/-! ## How much a map holds -/

theorem size_insert_of_mem {m : OrderedMap κ α} {k : κ} (a : α) (h : k ∈ m.keys) :
    (m.insert k a).size = m.size := by
  rw [← length_keys, keys_insert_of_mem a h, length_keys]

theorem size_insert_of_notMem {m : OrderedMap κ α} {k : κ} (a : α) (h : k ∉ m.keys) :
    (m.insert k a).size = m.size + 1 := by
  rw [← length_keys, keys_insert_of_notMem a h, List.length_append, length_keys,
    List.length_singleton]

/-- An erasure takes out one entry. -/
theorem size_erase_of_mem {m : OrderedMap κ α} {k : κ} (h : k ∈ m.keys) :
    (m.erase k).size + 1 = m.size := by
  have hkeys : (m.erase k).keys = m.keys.erase k := by
    rw [keys_erase, m.keys_nodup.erase_eq_filter]
    rfl
  rw [← length_keys, hkeys, List.length_erase_add_one h, length_keys]

/-! ## Maps that hold nothing -/

omit [DecidableEq κ] in
theorem isEmpty_iff {m : OrderedMap κ α} : m.isEmpty = true ↔ m.entries = [] :=
  List.isEmpty_iff

omit [DecidableEq κ] in
theorem entries_ne_nil {m : OrderedMap κ α} (h : m.isEmpty = false) : m.entries ≠ [] := by
  rw [ne_eq, ← isEmpty_iff, h]
  exact Bool.false_ne_true

/-- An insertion leaves something. -/
@[simp] theorem isEmpty_insert (m : OrderedMap κ α) (k : κ) (a : α) :
    (m.insert k a).isEmpty = false := by
  have hk : k ∈ (m.insert k a).keys := mem_keys_insert.mpr (Or.inl rfl)
  rw [← Bool.not_eq_true, isEmpty_iff]
  intro hn
  simp [keys, hn] at hk

/-! ## Taking keys out and putting them in again -/

/-- A list with one of its elements moved to the end. -/
def toEnd (l : List κ) (k : κ) : List κ := (l.filter fun x => !decide (x = k)) ++ [k]

/-- **Elements that are moved to the end** stand there in the order of their last moves, behind the
others. -/
theorem foldl_toEnd : ∀ ks l : List κ,
    ks.foldl toEnd l = (l.filter fun x => !decide (x ∈ ks)) ++ ks.dedup
  | [], l => by simp
  | k :: ks, l => by
      have hfilter : (l.filter fun x => !decide (x ∈ k :: ks)) =
          (l.filter fun x => !decide (x = k)).filter fun x => !decide (x ∈ ks) := by
        rw [List.filter_filter]
        exact List.filter_congr fun x _ => by simp [Bool.and_comm]
      rw [List.foldl_cons, foldl_toEnd ks, toEnd, List.filter_append, hfilter, List.append_assoc]
      by_cases hk : k ∈ ks
      · simp [hk]
      · simp [hk, List.dedup_cons_of_notMem]

/-- **Moving elements to the end moves nothing** exactly if they stand there already, in the order
of their last moves. -/
theorem foldl_toEnd_eq_iff {ks l : List κ} (hl : l.Nodup) :
    ks.foldl toEnd l = l ↔ ks.dedup <:+ l := by
  rw [foldl_toEnd]
  constructor
  · intro h
    exact ⟨_, h⟩
  · rintro ⟨front, rfl⟩
    have hdisjoint := (List.nodup_append.mp hl).2.2
    have hfront : (front.filter fun x => !decide (x ∈ ks)) = front :=
      List.filter_eq_self.mpr fun x hx => by
        have : x ∉ ks := fun hxk => hdisjoint x hx x (List.mem_dedup.mpr hxk) rfl
        simpa using this
    have hback : (ks.dedup.filter fun x => !decide (x ∈ ks)) = [] :=
      List.filter_eq_nil_iff.mpr fun x hx => by simpa using List.mem_dedup.mp hx
    rw [List.filter_append, hfront, hback, List.append_nil]

theorem toEnd_perm {l : List κ} {k : κ} (hl : l.Nodup) (hk : k ∈ l) : (toEnd l k).Perm l := by
  have herase : toEnd l k = l.erase k ++ [k] := by
    rw [hl.erase_eq_filter]
    rfl
  rw [herase]
  exact (List.perm_append_singleton k _).trans (List.perm_cons_erase hk).symm

theorem foldl_toEnd_perm : ∀ {ks l : List κ}, l.Nodup → (∀ k ∈ ks, k ∈ l) →
    (ks.foldl toEnd l).Perm l
  | [], _, _, _ => List.Perm.refl _
  | k :: ks, l, hl, h => by
      have hperm := toEnd_perm hl (h k List.mem_cons_self)
      refine (foldl_toEnd_perm (hperm.nodup_iff.mpr hl) fun k' hk' => ?_).trans hperm
      exact hperm.mem_iff.mpr (h k' (List.mem_cons_of_mem k hk'))

/-- Take a key out and put it in again with another value. -/
def renew (m : OrderedMap κ α) (k : κ) (a : α) : OrderedMap κ α := (m.erase k).insert k a

theorem keys_renew (m : OrderedMap κ α) (k : κ) (a : α) : (m.renew k a).keys = toEnd m.keys k := by
  have hk : k ∉ (m.erase k).keys := fun hk => (mem_keys_erase.mp hk).2 rfl
  rw [renew, keys_insert_of_notMem a hk, keys_erase, toEnd]

/-- A key that is put in again answers look-up as if it had stayed. -/
theorem get?_renew (m : OrderedMap κ α) (k k' : κ) (a : α) :
    (m.renew k a).get? k' = (m.insert k a).get? k' := by
  rw [renew, get?_insert, get?_insert, get?_erase]
  split <;> rfl

theorem size_renew_of_mem {m : OrderedMap κ α} {k : κ} (a : α) (h : k ∈ m.keys) :
    (m.renew k a).size = m.size := by
  have hk : k ∉ (m.erase k).keys := fun hk => (mem_keys_erase.mp hk).2 rfl
  rw [renew, size_insert_of_notMem a hk, size_erase_of_mem h]

theorem keys_foldl_renew (es : List (κ × α)) (m : OrderedMap κ α) :
    (es.foldl (fun m e => m.renew e.1 e.2) m).keys = (es.map Prod.fst).foldl toEnd m.keys := by
  induction es generalizing m with
  | nil => rfl
  | cons e es ih => rw [List.foldl_cons, ih, keys_renew, List.map_cons, List.foldl_cons]

theorem get?_foldl_renew (es : List (κ × α)) {m m' : OrderedMap κ α}
    (h : ∀ k, m.get? k = m'.get? k) (k : κ) :
    (es.foldl (fun m e => m.renew e.1 e.2) m).get? k =
      (es.foldl (fun m e => m.insert e.1 e.2) m').get? k := by
  induction es generalizing m m' with
  | nil => exact h k
  | cons e es ih =>
    refine ih fun k => ?_
    rw [get?_renew, get?_insert, get?_insert, h]

/-- **Insertions under held keys** overwrite values and move nothing. -/
theorem foldl_insert_of_mem (es : List (κ × α)) {m : OrderedMap κ α}
    (h : ∀ e ∈ es, e.1 ∈ m.keys) :
    (es.foldl (fun m e => m.insert e.1 e.2) m).keys = m.keys ∧
      (es.foldl (fun m e => m.insert e.1 e.2) m).entries =
        es.foldl (fun l e => overwrite e.1 e.2 l) m.entries := by
  induction es generalizing m with
  | nil => exact ⟨rfl, rfl⟩
  | cons e es ih =>
    have he : e.1 ∈ m.keys := h e List.mem_cons_self
    have hkeys : (m.insert e.1 e.2).keys = m.keys := keys_insert_of_mem e.2 he
    obtain ⟨hk, hes⟩ := ih (m := m.insert e.1 e.2) fun e' he' => by
      rw [hkeys]
      exact h e' (List.mem_cons_of_mem e he')
    rw [List.foldl_cons, List.foldl_cons, hk, hes, hkeys, entries_insert_of_mem e.2 he]
    exact ⟨rfl, rfl⟩

/-- **Putting held keys in again is overwriting their values where they stand** exactly if they
stand at the end already, in the order in which they are put in last. -/
theorem entries_foldl_renew_eq_iff {es : List (κ × α)} {m : OrderedMap κ α}
    (h : ∀ e ∈ es, e.1 ∈ m.keys) :
    (es.foldl (fun m e => m.renew e.1 e.2) m).entries =
        es.foldl (fun l e => overwrite e.1 e.2 l) m.entries ↔
      (es.map Prod.fst).dedup <:+ m.keys := by
  obtain ⟨hkeys, hentries⟩ := foldl_insert_of_mem es h
  rw [← hentries, ← foldl_toEnd_eq_iff m.keys_nodup, ← keys_foldl_renew]
  constructor
  · intro heq
    rw [ext heq, hkeys]
  · intro heq
    have hmap := eq_of_keys_eq (heq.trans hkeys.symm) (get?_foldl_renew es fun _ => rfl)
    rw [hmap]

/-- In any case it moves keys and does nothing else. -/
theorem entries_foldl_renew_perm {es : List (κ × α)} {m : OrderedMap κ α}
    (h : ∀ e ∈ es, e.1 ∈ m.keys) :
    (es.foldl (fun m e => m.renew e.1 e.2) m).entries.Perm
      (es.foldl (fun l e => overwrite e.1 e.2 l) m.entries) := by
  rw [← (foldl_insert_of_mem es h).2]
  exact entries_perm_of_get?_eq (get?_foldl_renew es fun _ => rfl)

/-! ## Mapping the values -/

section MapValues

variable {β : Type}

omit [DecidableEq κ] in
/-- The map with every value replaced by what a function makes of it. -/
def mapValues (f : α → β) (m : OrderedMap κ α) : OrderedMap κ β where
  entries := m.entries.map fun e => (e.1, f e.2)
  nodup_keys := by
    rw [List.map_map]
    exact m.nodup_keys

theorem get?_mapValues (f : α → β) (m : OrderedMap κ α) (k : κ) :
    (m.mapValues f).get? k = (m.get? k).map f := by
  simp [get?, mapValues, List.find?_map, Function.comp_def]

end MapValues

/-! ## Parts of a map

A part of a map does not show what an operation does to entries that are not of the part. -/

section Parts

variable {β : Type} {m : OrderedMap κ α} {ks : List κ} {k : κ} {a : α}

omit [DecidableEq κ] in
theorem map_fst_filterMap_sublist (f : κ → α → Option β) : ∀ es : List (κ × α),
    ((es.filterMap fun e => (f e.1 e.2).map fun b => (e.1, b)).map Prod.fst).Sublist
      (es.map Prod.fst)
  | [] => List.Sublist.slnil
  | e :: es => by
      have ih := map_fst_filterMap_sublist f es
      rw [List.filterMap_cons, List.map_cons]
      cases f e.1 e.2 with
      | none => exact ih.cons e.1
      | some b => exact ih.cons_cons e.1

omit [DecidableEq κ] in
/-- The map of what a function makes of the entries, where it makes something of them. -/
def filterMap (f : κ → α → Option β) (m : OrderedMap κ α) : OrderedMap κ β where
  entries := m.entries.filterMap fun e => (f e.1 e.2).map fun b => (e.1, b)
  nodup_keys := m.nodup_keys.sublist (map_fst_filterMap_sublist f m.entries)

omit [DecidableEq κ] in
theorem entries_filterMap (f : κ → α → Option β) (m : OrderedMap κ α) :
    (m.filterMap f).entries =
      m.entries.filterMap fun e => (f e.1 e.2).map fun b => (e.1, b) := rfl

/-- **An insertion is passed over** if it makes no difference to what the function makes of the
key. -/
theorem filterMap_insert {f : κ → α → Option β} (h : f k a = (m.get? k).bind (f k)) :
    (m.insert k a).filterMap f = m.filterMap f := by
  refine ext ?_
  by_cases hk : k ∈ m.keys
  · rw [entries_filterMap, entries_filterMap, entries_insert_of_mem a hk, overwrite,
      List.filterMap_map]
    refine List.filterMap_congr fun e he => ?_
    by_cases hek : e.1 = k
    · subst hek
      rw [get?_eq_some_iff.mpr he, Option.bind_some] at h
      simp [h]
    · simp [hek]
  · rw [get?_eq_none_iff.mpr hk, Option.bind_none] at h
    simp [entries_filterMap, entries_insert_of_notMem a hk, h]

/-- **An erasure is passed over** if the function makes nothing of the key. -/
theorem filterMap_erase {f : κ → α → Option β} (h : (m.get? k).bind (f k) = none) :
    (m.erase k).filterMap f = m.filterMap f := by
  refine ext ?_
  rw [entries_filterMap, entries_filterMap, entries_erase, List.filterMap_filter]
  refine List.filterMap_congr fun e he => ?_
  by_cases hek : e.1 = k
  · subst hek
    rw [get?_eq_some_iff.mpr he, Option.bind_some] at h
    simp [h]
  · simp [hek]

omit [DecidableEq κ] in
theorem filterMap_eq_self {f : κ → α → Option α} (h : ∀ e ∈ m.entries, f e.1 e.2 = some e.2) :
    m.filterMap f = m := by
  have hsome : ∀ e ∈ m.entries, (f e.1 e.2).map (fun a => (e.1, a)) = some e := fun e he => by
    rw [h e he, Option.map_some]
  refine ext ?_
  rw [entries_filterMap, List.filterMap_congr hsome]
  exact List.filterMap_some

/-- The map without some keys. -/
def without (ks : List κ) (m : OrderedMap κ α) : OrderedMap κ α :=
  m.filterMap fun k a => if k ∈ ks then none else some a

theorem without_insert (h : k ∈ ks) (m : OrderedMap κ α) (a : α) :
    (m.insert k a).without ks = m.without ks := by
  refine filterMap_insert ?_
  cases m.get? k <;> simp [h]

theorem without_erase (h : k ∈ ks) (m : OrderedMap κ α) :
    (m.erase k).without ks = m.without ks := by
  refine filterMap_erase ?_
  cases m.get? k <;> simp [h]

theorem without_eq_self (h : ∀ k ∈ ks, k ∉ m.keys) : m.without ks = m :=
  filterMap_eq_self fun e he => if_neg fun hk => h e.1 hk (List.mem_map_of_mem he)

end Parts

end AggregateRules.OrderedMap
