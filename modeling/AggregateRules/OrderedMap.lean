/-!
# OrderedMap — a map that lists its keys in the order they came

A key keeps the place of its first insertion: inserting a held key overwrites its value where it
stands, erasing a key closes the gap, and the other entries never move.  The view is `entries`;
`keys_insert_of_mem`, `keys_insert_of_notMem` and `keys_erase` say what each operation does to the
order, `get?_insert` and `get?_erase` what it does to the contents.
-/

namespace AggregateRules

/-- A finite map whose entries stand in the order in which their keys were first inserted. -/
structure OrderedMap (κ α : Type) where
  entries : List (κ × α)
  nodup_keys : (entries.map Prod.fst).Nodup

namespace OrderedMap

variable {κ α : Type}

@[ext] theorem ext {m m' : OrderedMap κ α} (h : m.entries = m'.entries) : m = m' := by
  cases m; cases m'; cases h; rfl

/-! ## The views -/

/-- The keys, first inserted first. -/
def keys (m : OrderedMap κ α) : List κ := m.entries.map Prod.fst

/-- The values, in the order of their keys. -/
def values (m : OrderedMap κ α) : List α := m.entries.map Prod.snd

/-- The number of entries. -/
def size (m : OrderedMap κ α) : Nat := m.entries.length

/-- Whether the map holds nothing. -/
def isEmpty (m : OrderedMap κ α) : Bool := m.entries.isEmpty

/-- The map that holds nothing. -/
def empty : OrderedMap κ α := ⟨[], by simp⟩

instance : EmptyCollection (OrderedMap κ α) := ⟨empty⟩

instance : Inhabited (OrderedMap κ α) := ⟨empty⟩

@[simp] theorem entries_empty : (∅ : OrderedMap κ α).entries = [] := rfl

@[simp] theorem keys_empty : (∅ : OrderedMap κ α).keys = [] := rfl

@[simp] theorem values_empty : (∅ : OrderedMap κ α).values = [] := rfl

@[simp] theorem length_keys (m : OrderedMap κ α) : m.keys.length = m.size := by simp [keys, size]

theorem keys_nodup (m : OrderedMap κ α) : m.keys.Nodup := m.nodup_keys

/-! ## The operations -/

variable [DecidableEq κ]

/-- The value held under a key. -/
def get? (m : OrderedMap κ α) (k : κ) : Option α :=
  (m.entries.find? fun e => decide (e.1 = k)).map Prod.snd

/-- Whether a key is held. -/
def contains (m : OrderedMap κ α) (k : κ) : Bool := decide (k ∈ m.keys)

/-- The entries with the value under `k` replaced — no key moves. -/
def overwrite (k : κ) (a : α) (es : List (κ × α)) : List (κ × α) :=
  es.map fun e => if e.1 = k then (k, a) else e

theorem map_fst_overwrite (k : κ) (a : α) (es : List (κ × α)) :
    (overwrite k a es).map Prod.fst = es.map Prod.fst := by
  rw [overwrite, List.map_map]
  refine List.map_congr_left fun e _ => ?_
  by_cases h : e.1 = k <;> simp [h]

/-- Put a value under a key: in place if the key is held, at the end if it is new. -/
def insert (m : OrderedMap κ α) (k : κ) (a : α) : OrderedMap κ α :=
  if h : k ∈ m.keys then
    ⟨overwrite k a m.entries, by rw [map_fst_overwrite]; exact m.nodup_keys⟩
  else
    ⟨m.entries ++ [(k, a)], by
      rw [List.map_append, List.nodup_append]
      refine ⟨m.nodup_keys, by simp, fun x hx y hy => ?_⟩
      rintro rfl
      simp only [List.map_cons, List.map_nil, List.mem_singleton] at hy
      exact h (hy ▸ hx)⟩

/-- Put a value under a key that is held, and leave the map alone otherwise. -/
def replace (m : OrderedMap κ α) (k : κ) (a : α) : OrderedMap κ α :=
  if m.contains k then m.insert k a else m

/-- Take a key out; the entries after it close the gap. -/
def erase (m : OrderedMap κ α) (k : κ) : OrderedMap κ α :=
  ⟨m.entries.filter fun e => !decide (e.1 = k),
    m.nodup_keys.sublist (List.filter_sublist.map Prod.fst)⟩

/-! ## What an operation does to the order -/

@[simp] theorem contains_iff {m : OrderedMap κ α} {k : κ} : m.contains k = true ↔ k ∈ m.keys := by
  simp [contains]

theorem entries_insert_of_mem {m : OrderedMap κ α} {k : κ} (a : α) (h : k ∈ m.keys) :
    (m.insert k a).entries = overwrite k a m.entries := by simp [insert, h]

theorem entries_insert_of_notMem {m : OrderedMap κ α} {k : κ} (a : α) (h : k ∉ m.keys) :
    (m.insert k a).entries = m.entries ++ [(k, a)] := by simp [insert, h]

/-- **Overwriting moves nothing** — a held key keeps its place. -/
theorem keys_insert_of_mem {m : OrderedMap κ α} {k : κ} (a : α) (h : k ∈ m.keys) :
    (m.insert k a).keys = m.keys := by
  rw [keys, entries_insert_of_mem a h, map_fst_overwrite, keys]

/-- **A new key comes last.** -/
theorem keys_insert_of_notMem {m : OrderedMap κ α} {k : κ} (a : α) (h : k ∉ m.keys) :
    (m.insert k a).keys = m.keys ++ [k] := by
  simp [keys, entries_insert_of_notMem a h]

@[simp] theorem mem_keys_insert {m : OrderedMap κ α} {k k' : κ} {a : α} :
    k' ∈ (m.insert k a).keys ↔ k' = k ∨ k' ∈ m.keys := by
  by_cases h : k ∈ m.keys
  · rw [keys_insert_of_mem a h]
    exact ⟨Or.inr, fun h' => h'.elim (fun e => e ▸ h) id⟩
  · rw [keys_insert_of_notMem a h]
    simp [or_comm]

@[simp] theorem entries_erase (m : OrderedMap κ α) (k : κ) :
    (m.erase k).entries = m.entries.filter fun e => !decide (e.1 = k) := rfl

/-- **Erasing closes the gap** — the other keys keep their relative order. -/
theorem keys_erase (m : OrderedMap κ α) (k : κ) :
    (m.erase k).keys = m.keys.filter fun k' => !decide (k' = k) := by
  simp [keys, List.filter_map, Function.comp_def]

@[simp] theorem mem_keys_erase {m : OrderedMap κ α} {k k' : κ} :
    k' ∈ (m.erase k).keys ↔ k' ∈ m.keys ∧ k' ≠ k := by
  simp [keys_erase]

/-! ## What an operation does to the contents -/

@[simp] theorem get?_empty (k : κ) : (∅ : OrderedMap κ α).get? k = none := rfl

theorem isSome_get? (m : OrderedMap κ α) (k : κ) : (m.get? k).isSome = m.contains k := by
  rw [Bool.eq_iff_iff, contains_iff]
  simp [get?, keys, List.find?_isSome]

theorem get?_eq_none_iff {m : OrderedMap κ α} {k : κ} : m.get? k = none ↔ k ∉ m.keys := by
  rw [← Option.not_isSome_iff_eq_none, isSome_get?, contains_iff]

theorem find?_overwrite (k k' : κ) (a : α) : ∀ es : List (κ × α),
    ((overwrite k a es).find? fun e => decide (e.1 = k')).map Prod.snd =
      if k = k' then (if k ∈ es.map Prod.fst then some a else none)
      else (es.find? fun e => decide (e.1 = k')).map Prod.snd
  | [] => by simp [overwrite]
  | (k₀, a₀) :: es => by
      have ih := find?_overwrite k k' a es
      simp only [overwrite, List.map_cons] at ih ⊢
      by_cases h₀ : k₀ = k
      · subst h₀
        by_cases hk : k₀ = k' <;> simp_all
      · by_cases hk : k = k'
        · subst hk
          have hmem : k ∈ k₀ :: es.map Prod.fst ↔ k ∈ es.map Prod.fst := by
            simp only [List.mem_cons, Ne.symm h₀, false_or]
          simp_all only [if_true, if_false, List.find?_cons, decide_false]
        · by_cases h' : k₀ = k' <;> simp_all

/-- **An insertion is seen under its own key and nowhere else.** -/
theorem get?_insert (m : OrderedMap κ α) (k k' : κ) (a : α) :
    (m.insert k a).get? k' = if k = k' then some a else m.get? k' := by
  by_cases h : k ∈ m.keys
  · have h' : k ∈ m.entries.map Prod.fst := h
    rw [get?, entries_insert_of_mem a h, find?_overwrite]
    simp only [h', if_true, get?]
  · have hnone : m.get? k = none := get?_eq_none_iff.mpr h
    rw [get?, entries_insert_of_notMem a h, List.find?_append]
    by_cases hk : k = k'
    · subst hk
      have : m.entries.find? (fun e => decide (e.1 = k)) = none := by
        simpa [get?] using hnone
      simp [this]
    · simp [hk, get?]

/-- **An erasure is seen under its own key and nowhere else.** -/
theorem get?_erase (m : OrderedMap κ α) (k k' : κ) :
    (m.erase k).get? k' = if k = k' then none else m.get? k' := by
  by_cases hk : k = k'
  · subst hk
    rw [if_pos rfl, get?_eq_none_iff, mem_keys_erase]
    exact fun h => h.2 rfl
  · rw [get?, get?, entries_erase, List.find?_filter, if_neg hk]
    refine congrArg (Option.map Prod.snd) (congrArg (List.find? · m.entries) (funext fun e => ?_))
    by_cases h : e.1 = k'
    · simp [h, Ne.symm hk]
    · simp [h]

/-- Erasing a key that is not held changes nothing. -/
theorem erase_of_notMem {m : OrderedMap κ α} {k : κ} (h : k ∉ m.keys) : m.erase k = m := by
  refine ext (List.filter_eq_self.mpr fun e he => ?_)
  have : e.1 ≠ k := fun hk => h (List.mem_map.mpr ⟨e, he, hk⟩)
  simpa using this

end OrderedMap

end AggregateRules
