import Mathlib.Data.List.Induction
import Mathlib.Data.String.Basic
import AggregateRules.Fields

/-!
# Proofs/Fields — fields are determined by what is found under each name

Putting a field in keeps the names in order, and fields whose names are in order are determined by
look-up (`InOrder.ext`): each field is what is found under its name, and there is only one ascending
arrangement of them.  What is found after a list of pairs is the last pair of the name
(`get?_ofPairs`), so two lists leave the same fields exactly if they have the same last pair of every
name (`ofPairs_eq_iff`); of the order of pairs of different names nothing is left.
-/

namespace AggregateRules.Fields

variable {α : Type} {name : String} {a : α} {fields fields' pairs pairs' : List (String × α)}

/-! ## The last pair of a name -/

/-- The content of the last pair of a name. -/
def last? (name : String) (pairs : List (String × α)) : Option α := pairs.reverse.lookup name

/-- Every name has the same last content in both lists. -/
def Agree (pairs pairs' : List (String × α)) : Prop := ∀ name, last? name pairs = last? name pairs'

theorem last?_concat (name : String) (pairs : List (String × α)) (pair : String × α) :
    last? name (pairs ++ [pair]) = if name = pair.1 then some pair.2 else last? name pairs := by
  rw [last?, List.reverse_concat, List.lookup_cons, last?]
  by_cases h : name = pair.1
  · simp [h]
  · simp [h, beq_false_of_ne h]

theorem last?_eq_none_iff : last? name pairs = none ↔ ∀ pair ∈ pairs, pair.1 ≠ name := by
  rw [last?, List.lookup_eq_none_iff]
  simp only [List.mem_reverse, bne_iff_ne, ne_comm]

theorem last?_eq_some_iff : last? name pairs = some a ↔
    ∃ before after, pairs = before ++ (name, a) :: after ∧ ∀ pair ∈ after, pair.1 ≠ name := by
  rw [last?, List.lookup_eq_some_iff]
  constructor
  · rintro ⟨after, before, hpairs, hafter⟩
    refine ⟨before.reverse, after.reverse, ?_, fun pair hpair => ?_⟩
    · simpa using congrArg List.reverse hpairs
    · have := hafter pair (List.mem_reverse.mp hpair)
      exact Ne.symm (by simpa using this)
  · rintro ⟨before, after, rfl, hafter⟩
    refine ⟨after.reverse, before.reverse, by simp, fun pair hpair => ?_⟩
    have := hafter pair (List.mem_reverse.mp hpair)
    simpa using Ne.symm this

/-- Where no name comes twice, the last pair of a name is the pair of it. -/
theorem last?_eq_some_iff_mem (h : (pairs.map Prod.fst).Nodup) :
    last? name pairs = some a ↔ (name, a) ∈ pairs := by
  rw [last?_eq_some_iff]
  constructor
  · rintro ⟨before, after, rfl, -⟩
    simp
  · intro hmem
    obtain ⟨before, after, rfl⟩ := List.append_of_mem hmem
    refine ⟨before, after, rfl, fun pair hpair hname => ?_⟩
    rw [List.map_append, List.map_cons, List.nodup_append] at h
    exact (List.nodup_cons.mp h.2.1).1 (List.mem_map.mpr ⟨pair, hpair, hname⟩)

/-- **The order of pairs of different names has no bearing on the last ones.** -/
theorem agree_of_perm (hperm : pairs.Perm pairs') (h : (pairs.map Prod.fst).Nodup) :
    Agree pairs pairs' := by
  refine fun name => Option.ext fun a => ?_
  rw [last?_eq_some_iff_mem h, last?_eq_some_iff_mem ((hperm.map Prod.fst).nodup_iff.mp h),
    hperm.mem_iff]

/-- **What is found after a list of pairs** is the last pair of the name. -/
theorem get?_ofPairs (name : String) (pairs : List (String × α)) :
    get? name (ofPairs pairs) = last? name pairs := by
  induction pairs using List.reverseRecOn with
  | nil => rfl
  | append_singleton pairs pair ih => rw [ofPairs_concat, get?_insert, last?_concat, ih]

/-! ## Names in order -/

theorem inOrder_cons {pair : String × α} :
    InOrder (pair :: fields) ↔ (∀ p ∈ fields, pair.1 < p.1) ∧ InOrder fields := by
  rw [InOrder, List.map_cons, List.pairwise_cons, List.forall_mem_map, InOrder]

theorem InOrder.insert (name : String) (a : α) : ∀ {fields : List (String × α)},
    InOrder fields → InOrder (insert name a fields)
  | [], _ => List.pairwise_singleton ..
  | (n, b) :: rest, h => by
      obtain ⟨hrest, hin⟩ := inOrder_cons.mp h
      rw [Fields.insert]
      split
      case isTrue hlt =>
        refine inOrder_cons.mpr ⟨fun p hp => ?_, h⟩
        rcases List.mem_cons.mp hp with rfl | hp
        · exact hlt
        · exact hlt.trans (hrest p hp)
      case isFalse hle =>
        split
        case isTrue heq => exact inOrder_cons.mpr ⟨heq ▸ hrest, hin⟩
        case isFalse hne =>
          refine inOrder_cons.mpr ⟨fun p hp => ?_, hin.insert name a⟩
          rcases mem_insert hp with rfl | hp
          · exact lt_of_le_of_ne (not_lt.mp hle) (Ne.symm hne)
          · exact hrest p hp

theorem inOrder_ofPairs (pairs : List (String × α)) : InOrder (ofPairs pairs) := by
  induction pairs using List.reverseRecOn with
  | nil => exact List.Pairwise.nil
  | append_singleton pairs pair ih =>
    rw [ofPairs_concat]
    exact ih.insert pair.1 pair.2

/-- A field that is left is one of the pairs. -/
theorem mem_of_mem_ofPairs {pair : String × α} (h : pair ∈ ofPairs pairs) : pair ∈ pairs := by
  induction pairs using List.reverseRecOn with
  | nil => exact h
  | append_singleton pairs last ih =>
    rw [ofPairs_concat] at h
    rw [List.mem_append, List.mem_singleton]
    exact (mem_insert h).symm.imp ih id

/-- **A field is what is found under its name.** -/
theorem InOrder.mem_iff : ∀ {fields : List (String × α)}, InOrder fields →
    ((name, a) ∈ fields ↔ get? name fields = some a)
  | [], _ => by simp [get?]
  | (n, b) :: rest, h => by
      obtain ⟨hrest, hin⟩ := inOrder_cons.mp h
      rw [List.mem_cons, get?]
      by_cases hname : name = n
      · subst hname
        have hnot : (name, a) ∉ rest := fun hmem => lt_irrefl name (hrest (name, a) hmem)
        simp [hnot, eq_comm]
      · simp [hname, hin.mem_iff]

/-- **Fields in order are determined by what is found under each name.** -/
theorem InOrder.ext (h : InOrder fields) (h' : InOrder fields')
    (hget : ∀ name, get? name fields = get? name fields') : fields = fields' := by
  have hpairs : fields.Pairwise fun p q => p.1 < q.1 := List.pairwise_map.mp h
  have hpairs' : fields'.Pairwise fun p q => p.1 < q.1 := List.pairwise_map.mp h'
  have hne : ∀ {p q : String × α}, p.1 < q.1 → p ≠ q := fun hlt heq => hlt.ne (heq ▸ rfl)
  have hperm : fields.Perm fields' := by
    refine (List.perm_ext_iff_of_nodup (hpairs.imp hne) (hpairs'.imp hne)).mpr fun ⟨name, a⟩ => ?_
    rw [h.mem_iff, h'.mem_iff, hget]
  exact hperm.eq_of_pairwise (fun _ _ _ _ hlt hgt => absurd hlt (lt_asymm hgt)) hpairs hpairs'

/-- **Two lists of pairs leave the same fields** exactly if they agree. -/
theorem ofPairs_eq_iff : ofPairs pairs = ofPairs pairs' ↔ Agree pairs pairs' := by
  constructor
  · intro h name
    rw [← get?_ofPairs, ← get?_ofPairs, h]
  · intro h
    refine (inOrder_ofPairs pairs).ext (inOrder_ofPairs pairs') fun name => ?_
    rw [get?_ofPairs, get?_ofPairs, h]

/-! ## Fields and their pairs -/

/-- Where no name comes twice, the fields that are left are the pairs. -/
theorem mem_ofPairs_iff (h : (pairs.map Prod.fst).Nodup) {pair : String × α} :
    pair ∈ ofPairs pairs ↔ pair ∈ pairs := by
  obtain ⟨name, a⟩ := pair
  rw [(inOrder_ofPairs pairs).mem_iff, get?_ofPairs, last?_eq_some_iff_mem h]

theorem InOrder.names_nodup (h : InOrder fields) : (fields.map Prod.fst).Nodup :=
  List.Pairwise.imp (fun hlt => hlt.ne) h

/-- **Fields in order are left by themselves as pairs**, whatever order they are put in. -/
theorem InOrder.ofPairs_eq_of_perm (h : InOrder fields) (hperm : fields.Perm pairs) :
    ofPairs pairs = fields := by
  refine (inOrder_ofPairs pairs).ext h fun name => Option.ext fun a => ?_
  rw [get?_ofPairs, ← agree_of_perm hperm h.names_nodup name, last?_eq_some_iff_mem h.names_nodup,
    h.mem_iff]

end AggregateRules.Fields
