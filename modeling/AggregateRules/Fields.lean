/-!
# Fields — named contents in the order of their names

Fields are kept so that their names strictly increase, by code point.  Putting one in finds its place
or overwrites the one of its name, so what a list of pairs leaves depends on the last content of each
name and not on the order of the pairs.  `get?_insert` says what a field put in does to the others.
-/

namespace AggregateRules

namespace Fields

variable {α : Type}

/-- Put a field where its name belongs, over a field of that name if there is one. -/
def insert (name : String) (a : α) : List (String × α) → List (String × α)
  | [] => [(name, a)]
  | (name', a') :: rest =>
      if name < name' then (name, a) :: (name', a') :: rest
      else if name = name' then (name, a) :: rest
      else (name', a') :: insert name a rest

/-- The fields that a list of pairs leaves, each pair put in after the ones before it. -/
def ofPairs (pairs : List (String × α)) : List (String × α) :=
  pairs.foldl (fun fields pair => insert pair.1 pair.2 fields) []

/-- The content of a named field. -/
def get? (name : String) : List (String × α) → Option α
  | [] => none
  | (name', a) :: rest => if name = name' then some a else get? name rest

/-- Names strictly increase along the fields. -/
def InOrder (fields : List (String × α)) : Prop := (fields.map Prod.fst).Pairwise (· < ·)

@[simp] theorem ofPairs_nil : ofPairs ([] : List (String × α)) = [] := rfl

theorem ofPairs_concat (pairs : List (String × α)) (pair : String × α) :
    ofPairs (pairs ++ [pair]) = insert pair.1 pair.2 (ofPairs pairs) := by
  simp [ofPairs, List.foldl_append]

/-- **A field put in is found under its name, and no other name sees it.** -/
theorem get?_insert (name name' : String) (a : α) : ∀ fields : List (String × α),
    get? name (insert name' a fields) = if name = name' then some a else get? name fields
  | [] => rfl
  | (n, b) :: rest => by
      rw [insert]
      by_cases hlt : name' < n
      · simp [hlt, get?]
      · by_cases heq : name' = n
        · subst heq
          by_cases h : name = name' <;> simp [get?, h]
        · simp only [hlt, heq, if_false, get?, get?_insert name name' a rest]
          by_cases h : name = n
          · subst h
            simp [Ne.symm heq]
          · simp [h]

theorem mem_insert {name : String} {a : α} {pair : String × α} : ∀ {fields : List (String × α)},
    pair ∈ insert name a fields → pair = (name, a) ∨ pair ∈ fields
  | [], h => by simpa [insert] using h
  | (n, b) :: rest, h => by
      rw [insert] at h
      split at h
      · simpa using h
      · split at h
        · rcases List.mem_cons.mp h with h | h
          · exact Or.inl h
          · exact Or.inr (List.mem_cons_of_mem _ h)
        · rcases List.mem_cons.mp h with h | h
          · exact Or.inr (h ▸ List.mem_cons_self)
          · exact (mem_insert h).imp id (List.mem_cons_of_mem _)

end Fields

end AggregateRules
