import Mathlib.Data.List.Sort
import AggregateRules.DataType.Basic
import AggregateRules.Proofs.ByteOrder
import AggregateRules.Proofs.Grouping.Coherence
import AggregateRules.Value.Order

/-!
# Proofs/Order — values and types are totally ordered

Values compare by variant and then by content, and the content of a value may hold values again, in a
sequence or under names.  So whatever is shown of values is shown of sequences and of fields along
with it.  Only transitivity has three values to it, and then the variants settle all but the case
that all three are of one variant (`compare_lt_or_oneVariant`); inside a variant, every step of a
lexicographic order hands transitivity on (`then_lt_trans`), given that what compares equal is equal.
Types are the same with fewer variants.

**Main statement** (`totally_ordered`): both orders are total, they agree with equality, and a list
has one ascending arrangement, whatever arrangement it is in.
-/

namespace AggregateRules

/-- The laws of a total order that takes nothing for equal but what is. -/
structure TotallyOrders {α : Type} (cmp : α → α → Ordering) : Prop where
  eq_iff : ∀ a b, cmp a b = .eq ↔ a = b
  swap : ∀ a b, cmp b a = (cmp a b).swap
  trans : ∀ a b c, cmp a b = .lt → cmp b c = .lt → cmp a c = .lt

namespace TotallyOrders

variable {α : Type} {cmp : α → α → Ordering}

theorem lawfulEqCmp (h : TotallyOrders cmp) : Std.LawfulEqCmp cmp where
  compare_self := (h.eq_iff _ _).mpr rfl
  eq_of_compare := (h.eq_iff _ _).mp

theorem transCmp (h : TotallyOrders cmp) : Std.TransCmp cmp where
  eq_swap := h.swap _ _
  isLE_trans {a b c} hab hbc := by
    rw [Ordering.isLE_iff_eq_lt_or_eq_eq, h.eq_iff] at *
    rcases hab with hab | rfl
    · rcases hbc with hbc | rfl
      · exact Or.inl (h.trans a b c hab hbc)
      · exact Or.inl hab
    · exact hbc

end TotallyOrders

/-- A step of a lexicographic order is transitive if what is compared first is, and what is compared
after it. -/
theorem then_lt_trans {α : Type} {cmp : α → α → Ordering} (heq : ∀ x y, cmp x y = .eq ↔ x = y)
    {a b c : α} {p q r : Ordering} (hcmp : cmp a b = .lt → cmp b c = .lt → cmp a c = .lt)
    (hthen : p = .lt → q = .lt → r = .lt) (hab : (cmp a b).then p = .lt)
    (hbc : (cmp b c).then q = .lt) : (cmp a c).then r = .lt := by
  rw [Ordering.then_eq_lt] at *
  rcases hab with hab | ⟨hab, hp⟩
  · rcases hbc with hbc | ⟨hbc, -⟩
    · exact Or.inl (hcmp hab hbc)
    · exact Or.inl ((heq b c).mp hbc ▸ hab)
  · obtain rfl := (heq a b).mp hab
    exact hbc.imp id fun ⟨hbc, hq⟩ => ⟨hbc, hthen hp hq⟩

/-! ## Values -/

namespace Value

variable {u v w : Value}

theorem compare_of_rank_ne (h : v.rank ≠ w.rank) : v.compare w = compare v.rank w.rank := by
  cases v <;> cases w <;> first | rfl | exact absurd rfl h

theorem compare_of_rank_lt (h : v.rank < w.rank) : v.compare w = .lt := by
  rw [compare_of_rank_ne h.ne]
  exact Nat.compare_eq_lt.mpr h

theorem rank_le_of_compare_lt (h : v.compare w = .lt) : v.rank ≤ w.rank := by
  by_cases hrank : v.rank = w.rank
  · exact hrank.le
  · rw [compare_of_rank_ne hrank] at h
    exact (Nat.compare_eq_lt.mp h).le

mutual

/-- **Comparing the other way round reverses the answer.** -/
theorem compare_swap : ∀ v w : Value, w.compare v = (v.compare w).swap
  | bool a, w => by
      cases w with
      | bool b => exact (Std.OrientedCmp.eq_swap : compare b a = _)
      | _ => rfl
  | group k es, w => by
      cases w with
      | group k' es' =>
        simp only [Value.compare, Ordering.swap_then, compare_swap k, compareItems_swap es]
      | _ => rfl
  | int m, w => by
      cases w with
      | int n => exact (Std.OrientedCmp.eq_swap : compare n.toInt m.toInt = _)
      | _ => rfl
  | list xs, w => by
      cases w with
      | list ys => exact compareItems_swap xs ys
      | _ => rfl
  | null, w => by cases w <;> rfl
  | record fs, w => by
      cases w with
      | record gs => exact compareFields_swap fs gs
      | _ => rfl
  | text s, w => by
      cases w with
      | text t => exact (Std.OrientedCmp.eq_swap : compare t s = _)
      | _ => rfl
  | uint m, w => by
      cases w with
      | uint n => exact (Std.OrientedCmp.eq_swap : compare n.toNat m.toNat = _)
      | _ => rfl

theorem compareItems_swap : ∀ vs ws : List Value,
    compareItems ws vs = (compareItems vs ws).swap
  | [], [] => rfl
  | [], _ :: _ => rfl
  | _ :: _, [] => rfl
  | v :: vs, w :: ws => by
      simp only [compareItems, Ordering.swap_then, compare_swap v, compareItems_swap vs]

theorem compareFields_swap : ∀ fs gs : List (String × Value),
    compareFields gs fs = (compareFields fs gs).swap
  | [], [] => rfl
  | [], _ :: _ => rfl
  | _ :: _, [] => rfl
  | (n, v) :: fs, (m, w) :: gs => by
      have hname : compare m n = (compare n m).swap := Std.OrientedCmp.eq_swap
      simp only [compareFields, Ordering.swap_then, hname, compare_swap v, compareFields_swap fs]

end

/-- Three values of one variant. -/
inductive OneVariant : Value → Value → Value → Prop
  | bool (a b c : Bool) : OneVariant (bool a) (bool b) (bool c)
  | group (k k' k'' : Value) (es es' es'' : List Value) :
      OneVariant (group k es) (group k' es') (group k'' es'')
  | int (l m n : Int64) : OneVariant (int l) (int m) (int n)
  | list (xs ys zs : List Value) : OneVariant (list xs) (list ys) (list zs)
  | null : OneVariant null null null
  | record (fs gs hs : List (String × Value)) : OneVariant (record fs) (record gs) (record hs)
  | text (r s t : String) : OneVariant (text r) (text s) (text t)
  | uint (l m n : UInt64) : OneVariant (uint l) (uint m) (uint n)

theorem oneVariant_of_rank_eq (h : u.rank = v.rank) (h' : v.rank = w.rank) : OneVariant u v w := by
  cases u <;> cases v <;> simp [rank] at h <;> cases w <;> simp [rank] at h' <;> constructor

/-- Three ascending values ascend by their variants, or are of one. -/
theorem compare_lt_or_oneVariant (huv : u.compare v = .lt) (hvw : v.compare w = .lt) :
    u.compare w = .lt ∨ OneVariant u v w := by
  have hle := rank_le_of_compare_lt huv
  have hle' := rank_le_of_compare_lt hvw
  rcases hle.lt_or_eq with hlt | heq
  · exact Or.inl (compare_of_rank_lt (hlt.trans_le hle'))
  · rcases hle'.lt_or_eq with hlt | heq'
    · exact Or.inl (compare_of_rank_lt (heq.trans_lt hlt))
    · exact Or.inr (oneVariant_of_rank_eq heq heq')

mutual

/-- **What ascends twice ascends.** -/
theorem compare_lt_trans (u v w : Value) (huv : u.compare v = .lt) (hvw : v.compare w = .lt) :
    u.compare w = .lt :=
  (compare_lt_or_oneVariant huv hvw).elim id fun h =>
    match u, v, w, h, huv, hvw with
    | _, _, _, .bool a b c, huv, hvw => (Std.TransCmp.lt_trans huv hvw : compare a c = _)
    | _, _, _, .group k k' k'' es es' es'', huv, hvw =>
        then_lt_trans compare_eq_iff (compare_lt_trans k k' k'')
          (compareItems_lt_trans es es' es'') huv hvw
    | _, _, _, .int l m n, huv, hvw =>
        (Std.TransCmp.lt_trans huv hvw : compare l.toInt n.toInt = _)
    | _, _, _, .list xs ys zs, huv, hvw => compareItems_lt_trans xs ys zs huv hvw
    | _, _, _, .null, huv, _ => huv
    | _, _, _, .record fs gs hs, huv, hvw => compareFields_lt_trans fs gs hs huv hvw
    | _, _, _, .text r s t, huv, hvw => (Std.TransCmp.lt_trans huv hvw : compare r t = _)
    | _, _, _, .uint l m n, huv, hvw =>
        (Std.TransCmp.lt_trans huv hvw : compare l.toNat n.toNat = _)

theorem compareItems_lt_trans : ∀ us vs ws : List Value, compareItems us vs = .lt →
    compareItems vs ws = .lt → compareItems us ws = .lt
  | [], _, _ :: _, _, _ => rfl
  | _, _ :: _, [], _, hvw => Ordering.noConfusion hvw
  | _, [], [], _, hvw => Ordering.noConfusion hvw
  | _ :: _, [], _, huv, _ => Ordering.noConfusion huv
  | u :: us, v :: vs, w :: ws, huv, hvw =>
      then_lt_trans compare_eq_iff (compare_lt_trans u v w)
        (compareItems_lt_trans us vs ws) huv hvw

theorem compareFields_lt_trans : ∀ fs gs hs : List (String × Value), compareFields fs gs = .lt →
    compareFields gs hs = .lt → compareFields fs hs = .lt
  | [], _, _ :: _, _, _ => rfl
  | _, _ :: _, [], _, hgh => Ordering.noConfusion hgh
  | _, [], [], _, hgh => Ordering.noConfusion hgh
  | _ :: _, [], _, hfg, _ => Ordering.noConfusion hfg
  | (l, u) :: fs, (m, v) :: gs, (n, w) :: hs, hfg, hgh => by
      -- a name, then a content, then the rest
      simp only [compareFields, Ordering.then_assoc] at hfg hgh ⊢
      refine then_lt_trans (fun _ _ => Std.LawfulEqCmp.compare_eq_iff_eq) Std.TransCmp.lt_trans
        ?_ hfg hgh
      exact then_lt_trans compare_eq_iff (compare_lt_trans u v w) (compareFields_lt_trans fs gs hs)

end

theorem totallyOrders_compare : TotallyOrders Value.compare :=
  ⟨compare_eq_iff, compare_swap, compare_lt_trans⟩

instance : Std.TransOrd Value := totallyOrders_compare.transCmp

instance : Std.LawfulEqOrd Value := totallyOrders_compare.lawfulEqCmp

/-! ### Which order it is -/

/-- What an order of values makes of the variants, and of the contents within each. -/
structure ByContent (cmp : Value → Value → Ordering) : Prop where
  variant : ∀ v w : Value, v.rank < w.rank → cmp v w = .lt
  bool : ∀ a b, cmp (bool a) (bool b) = compare a b
  group : ∀ k k' es es',
    cmp (group k es) (group k' es') = (cmp k k').then (List.compareLex cmp es es')
  int : ∀ m n, cmp (int m) (int n) = compare m.toInt n.toInt
  list : ∀ xs ys, cmp (list xs) (list ys) = List.compareLex cmp xs ys
  record : ∀ fs gs, cmp (record fs) (record gs) =
    List.compareLex
      (fun f g => (compare (Utf8.bytes f.1) (Utf8.bytes g.1)).then (cmp f.2 g.2)) fs gs
  text : ∀ s t, cmp (text s) (text t) = compare (Utf8.bytes s) (Utf8.bytes t)
  uint : ∀ m n, cmp (uint m) (uint n) = compare m.toNat n.toNat

theorem compareItems_eq : ∀ vs ws : List Value,
    compareItems vs ws = List.compareLex Value.compare vs ws
  | [], [] => rfl
  | [], _ :: _ => rfl
  | _ :: _, [] => rfl
  | v :: vs, w :: ws => by
      rw [compareItems, List.compareLex_cons_cons, compareItems_eq vs ws]

theorem compareFields_eq : ∀ fs gs : List (String × Value),
    compareFields fs gs = List.compareLex
      (fun f g => (compare (Utf8.bytes f.1) (Utf8.bytes g.1)).then (f.2.compare g.2)) fs gs
  | [], [] => rfl
  | [], _ :: _ => rfl
  | _ :: _, [] => rfl
  | (n, v) :: fs, (m, w) :: gs => by
      rw [compareFields, List.compareLex_cons_cons, compareFields_eq fs gs, Utf8.compare_bytes]

/-- **Values compare by variant, sequences lexicographically, buckets by key and then by elements,
records by their fields in turn, and texts by their bytes.** -/
theorem byContent_compare : ByContent Value.compare where
  variant _ _ := compare_of_rank_lt
  bool _ _ := rfl
  group k k' es es' := by rw [Value.compare, compareItems_eq]
  int _ _ := rfl
  list := compareItems_eq
  record := compareFields_eq
  text s t := (Utf8.compare_bytes s t).symm
  uint _ _ := rfl

end Value

/-! ## Types -/

namespace DataType

theorem compare_swap : ∀ s t : DataType, t.compare s = (s.compare t).swap
  | group k e, t => by
      cases t with
      | group k' e' =>
        simp only [DataType.compare, Ordering.swap_then, compare_swap k, compare_swap e]
      | _ => rfl
  | list e, t => by
      cases t with
      | list e' => exact compare_swap e e'
      | _ => rfl
  | named n, t => by
      cases t with
      | named m => exact (Std.OrientedCmp.eq_swap : compare m n = _)
      | _ => rfl

theorem compare_lt_trans (s t u : DataType) (hst : s.compare t = .lt) (htu : t.compare u = .lt) :
    s.compare u = .lt := by
  -- where the variants differ, they settle it
  induction s generalizing t u with
  | group k e ihk ihe =>
    cases t with
    | group k' e' =>
      cases u with
      | group k'' e'' => exact then_lt_trans compare_eq_iff (ihk k' k'') (ihe e' e'') hst htu
      | list | named => rfl
    | list | named =>
      cases u with
      | group => exact Ordering.noConfusion htu
      | list | named => rfl
  | list e ih =>
    cases t with
    | group => exact Ordering.noConfusion hst
    | list e' =>
      cases u with
      | group => exact Ordering.noConfusion htu
      | list e'' => exact ih e' e'' hst htu
      | named => rfl
    | named =>
      cases u with
      | group | list => exact Ordering.noConfusion htu
      | named => rfl
  | named m =>
    cases t with
    | group | list => exact Ordering.noConfusion hst
    | named =>
      cases u with
      | group | list => exact Ordering.noConfusion htu
      | named n => exact (Std.TransCmp.lt_trans hst htu : compare m n = _)

theorem totallyOrders_compare : TotallyOrders DataType.compare :=
  ⟨compare_eq_iff, compare_swap, compare_lt_trans⟩

instance : Std.TransOrd DataType := totallyOrders_compare.transCmp

instance : Std.LawfulEqOrd DataType := totallyOrders_compare.lawfulEqCmp

/-- What an order of types makes of the variants, and of the contents within each. -/
structure ByContent (cmp : DataType → DataType → Ordering) : Prop where
  variant : ∀ s t : DataType, s.rank < t.rank → cmp s t = .lt
  group : ∀ k k' e e', cmp (group k e) (group k' e') = (cmp k k').then (cmp e e')
  list : ∀ e e', cmp (list e) (list e') = cmp e e'
  named : ∀ m n, cmp (named m) (named n) = compare (Utf8.bytes m) (Utf8.bytes n)

theorem byContent_compare : ByContent DataType.compare where
  variant s t h := by
    cases s <;> cases t <;> first | rfl | simp [rank] at h
  group _ _ _ _ := rfl
  list _ _ := rfl
  named m n := (Utf8.compare_bytes m n).symm

end DataType

/-! ## Sorting -/

section Sorting

variable {α : Type} [Ord α] {xs ys : List α}

/-- No element is less than one before it. -/
def Ascending (xs : List α) : Prop := xs.Pairwise fun x y => (compare x y).isLE

/-- The list in ascending order. -/
def sorted (xs : List α) : List α := xs.mergeSort fun x y => (compare x y).isLE

variable [Std.TransOrd α]

theorem ascending_sorted (xs : List α) : Ascending (sorted xs) := by
  refine List.pairwise_mergeSort (fun _ _ _ => Std.TransCmp.isLE_trans) (fun x y => ?_) xs
  have hswap : compare y x = (compare x y).swap := Std.OrientedCmp.eq_swap
  cases h : compare x y <;> simp [hswap, h]

/-- **A list has one ascending arrangement.** -/
theorem eq_sorted_iff [Std.LawfulEqOrd α] : ys = sorted xs ↔ ys.Perm xs ∧ Ascending ys := by
  constructor
  · rintro rfl
    exact ⟨List.mergeSort_perm .., ascending_sorted xs⟩
  · rintro ⟨hperm, hascending⟩
    refine List.Perm.eq_of_pairwise (fun x y _ _ hxy hyx => ?_) hascending (ascending_sorted xs)
      (hperm.trans (List.mergeSort_perm ..).symm)
    exact Std.LawfulEqCmp.eq_of_compare (Std.OrientedCmp.isLE_antisymm hxy hyx)

theorem sorted_eq_of_perm [Std.LawfulEqOrd α] (h : xs.Perm ys) : sorted xs = sorted ys :=
  eq_sorted_iff.mpr ⟨(List.mergeSort_perm ..).trans h, ascending_sorted xs⟩

end Sorting

/-- **Values are totally ordered, and so are types**, by variant and then by content, nested to any
depth.  Values that compare equal are equal, and that is the equality that buckets are kept apart by:
after any run, two live facts are known under one key exactly if the keys that their values select
compare equal.  A list of values has one ascending arrangement, and sorting any permutation of it
gives that. -/
theorem totally_ordered :
    (TotallyOrders (compare : Value → Value → Ordering) ∧
      Value.ByContent compare ∧
      (∀ (key element : Selector) (bs : List Batch) (f f' : Fact),
        f ∈ liveAfter bs → f' ∈ liveAfter bs →
          let g := Aggregation.after bs (Grouping.fresh key element)
          (compare (key.select f.value) (key.select f'.value) = .eq ↔
            g.factKeys.get? f.id = g.factKeys.get? f'.id)) ∧
      (∀ vs ws : List Value, ws = sorted vs ↔ ws.Perm vs ∧ Ascending ws) ∧
      ∀ vs ws : List Value, vs.Perm ws → sorted vs = sorted ws) ∧
    TotallyOrders (compare : DataType → DataType → Ordering) ∧
      DataType.ByContent compare ∧
      (∀ ss ts : List DataType, ts = sorted ss ↔ ts.Perm ss ∧ Ascending ts) ∧
      ∀ ss ts : List DataType, ss.Perm ts → sorted ss = sorted ts := by
  refine ⟨⟨Value.totallyOrders_compare, Value.byContent_compare,
    fun key element bs f f' hf hf' => ?_, fun _ _ => eq_sorted_iff, fun _ _ => sorted_eq_of_perm⟩,
    DataType.totallyOrders_compare, DataType.byContent_compare, fun _ _ => eq_sorted_iff,
    fun _ _ => sorted_eq_of_perm⟩
  intro g
  obtain ⟨hknown, -⟩ := Grouping.known_of_live key element hf
  obtain ⟨hknown', -⟩ := Grouping.known_of_live key element hf'
  rw [hknown, hknown', Option.some.injEq]
  exact Value.compare_eq_iff _ _

end AggregateRules
