import AggregateRules.Value.Basic

/-!
# Value/Order — values are ordered by variant, then by content

The variants stand in the order of their names; within a variant the contents decide: sequences
lexicographically, a bucket by its key and then its elements, a record as the sequence of its fields,
names before contents.  `compare_eq_iff` ties the order to equality, and so equality of values is
decided by comparing them.
-/

namespace AggregateRules.Value

/-- Where a value's variant stands in the order. -/
def rank : Value → Nat
  | bool _ => 0
  | group .. => 1
  | int _ => 2
  | list _ => 3
  | null => 4
  | record _ => 5
  | text _ => 6
  | uint _ => 7

mutual

/-- The order of values. -/
protected def compare : Value → Value → Ordering
  | bool a, bool b => compare a b
  | group k es, group k' es' => (k.compare k').then (compareItems es es')
  | int m, int n => compare m.toInt n.toInt
  | list xs, list ys => compareItems xs ys
  | record fs, record gs => compareFields fs gs
  | text s, text t => compare s t
  | uint m, uint n => compare m.toNat n.toNat
  | v, w => compare v.rank w.rank

/-- The lexicographic order of sequences. -/
def compareItems : List Value → List Value → Ordering
  | [], [] => .eq
  | [], _ :: _ => .lt
  | _ :: _, [] => .gt
  | v :: vs, w :: ws => (v.compare w).then (compareItems vs ws)

/-- The lexicographic order of fields, a name before its content. -/
def compareFields : List (String × Value) → List (String × Value) → Ordering
  | [], [] => .eq
  | [], _ :: _ => .lt
  | _ :: _, [] => .gt
  | (n, v) :: fs, (m, w) :: gs => ((compare n m).then (v.compare w)).then (compareFields fs gs)

end

instance : Ord Value := ⟨Value.compare⟩

mutual

/-- **Values that compare equal are equal.** -/
theorem compare_eq_iff : ∀ v w : Value, v.compare w = .eq ↔ v = w
  | bool a, w => by cases w <;> simp [Value.compare, rank]
  | group k es, w => by
      cases w <;> simp [Value.compare, rank, Ordering.then_eq_eq, compare_eq_iff k,
        compareItems_eq_iff es]
  | int n, w => by
      cases w <;> simp [Value.compare, rank, Int64.toInt_inj]
  | list xs, w => by
      cases w <;> simp [Value.compare, rank, compareItems_eq_iff xs]
  | null, w => by cases w <;> simp [Value.compare, rank]
  | record fs, w => by
      cases w <;> simp [Value.compare, rank, compareFields_eq_iff fs]
  | text s, w => by cases w <;> simp [Value.compare, rank]
  | uint n, w => by
      cases w <;> simp [Value.compare, rank, UInt64.toNat_inj]

theorem compareItems_eq_iff : ∀ vs ws : List Value, compareItems vs ws = .eq ↔ vs = ws
  | [], ws => by cases ws <;> simp [compareItems]
  | v :: vs, ws => by
      cases ws <;> simp [compareItems, Ordering.then_eq_eq, compare_eq_iff v,
        compareItems_eq_iff vs]

theorem compareFields_eq_iff : ∀ fs gs : List (String × Value),
    compareFields fs gs = .eq ↔ fs = gs
  | [], gs => by cases gs <;> simp [compareFields]
  | (n, v) :: fs, gs => by
      cases gs <;> simp [compareFields, Ordering.then_eq_eq, compare_eq_iff v,
        compareFields_eq_iff fs, Prod.ext_iff]

end

instance : DecidableEq Value := fun v w => decidable_of_iff _ (compare_eq_iff v w)

end AggregateRules.Value
