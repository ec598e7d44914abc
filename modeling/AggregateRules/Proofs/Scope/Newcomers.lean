import AggregateRules.Proofs.Scope.Family

/-!
# Proofs/Scope/Newcomers — what adopting brings in, and what adopting again does

A scope takes a binding for visible if it sees one of that name and path, and while it works through
a list that includes the bindings that have just come in.  So of each place the first binding comes
in, if the place is not seen yet (`Scope.adopt_eq`), and afterwards every place of the list is seen
(`Scope.mem_places_adopt`): whatever is adopted from the same list again finds its place taken.

**Main statement** (`adopt_newcomers`): in families of whatever history no two visible bindings
share a place, adopting appends the newcomers, and adopting some of them again changes nothing.
-/

namespace AggregateRules

namespace Scope

variable {s : Scope} {ds : Declarations} {place : String × String}

/-- **Every place of a list that was adopted is seen.** -/
theorem mem_places_adopt :
    place ∈ (s.adopt ds).visible.places ↔ place ∈ s.visible.places ∨ place ∈ ds.places := by
  have hnew : place ∈ (s.newcomers ds).places ↔ place ∈ ds.places ∧ place ∉ s.visible.places := by
    have hfirst :
        place ∈ (firstsBy Declaration.place ds).map Declaration.place ↔ place ∈ ds.places :=
      mem_map_firstsBy
    rw [← hfirst]
    constructor
    · intro h
      obtain ⟨d, hd, rfl⟩ := List.mem_map.mp h
      exact ⟨List.mem_map_of_mem (List.mem_filter.mp hd).1, notMem_places_of_mem_newcomers hd⟩
    · rintro ⟨h, hunseen⟩
      obtain ⟨d, hd, rfl⟩ := List.mem_map.mp h
      exact List.mem_map_of_mem (List.mem_filter.mpr ⟨hd, decide_eq_true hunseen⟩)
  have happend : (s.adopt ds).visible.places = s.visible.places ++ (s.newcomers ds).places := by
    rw [visible_adopt, Declarations.places, List.map_append]
    rfl
  rw [happend, List.mem_append, hnew]
  tauto

/-- Nothing comes in whose place is seen. -/
theorem adopt_of_seen (h : ∀ d ∈ ds, d.place ∈ s.visible.places) : s.adopt ds = s := by
  have hnone : s.newcomers ds = [] := List.eq_nil_iff_forall_not_mem.mpr fun d hd =>
    notMem_places_of_mem_newcomers hd (h d ((newcomers_sublist s ds).subset hd))
  rw [adopt_eq, hnone, List.append_nil]

/-- **Adopting from the same bindings again changes nothing.** -/
theorem adopt_adopt_of_subset {es : Declarations} (h : es ⊆ ds) :
    (s.adopt ds).adopt es = s.adopt ds :=
  adopt_of_seen fun _ hd => mem_places_adopt.mpr (Or.inr (List.mem_map_of_mem (h hd)))

end Scope

namespace Family

variable {label : String} {calls : List Call} {j : Nat} {s : Scope}

/-- **Adopting brings in the first binding of each place that is not seen yet**, behind what was
visible before and in the order of the list, for every scope of a family: in whatever way it was
reached, it never sees two bindings of one name and path.  So the same list again, in any order and
with any of its bindings left out, changes nothing; and adopting one list and then another is
adopting both. -/
theorem adopt_newcomers (hs : (after label calls)[j]? = some s) (ds : Declarations) :
    s.visible.places.Nodup ∧
      (s.adopt ds).visible =
        s.visible ++ (firstsBy Declaration.place ds).filter
          (fun d => decide (d.place ∉ s.visible.places)) ∧
      (∀ es, es ⊆ ds → (s.adopt ds).adopt es = s.adopt ds) ∧
      ∀ es, (s.adopt ds).adopt es = s.adopt (ds ++ es) :=
  ⟨(reached_after label calls hs).places_nodup, Scope.visible_adopt s ds,
    fun _ hes => Scope.adopt_adopt_of_subset hes, fun es => (Scope.adopt_append s ds es).symm⟩

/-- A place that is seen, one that comes twice under different types, and one name in two paths. -/
theorem adopt_newcomers_repeated :
    let a : Declaration := ⟨"a", .named "T", "Rule"⟩
    let b : Declaration := ⟨"b", .named "T", "Rule/P"⟩
    let calls : List Call := [.declare 0 (.named "T") (some "a"), .derive 0 "P",
      .declare 1 (.named "T") (some "b"), .declare 0 (.named "U") none, .adopt 0 [b, b]]
    let s : Scope := ⟨"Rule", [], [a, ⟨"$var2$", .named "U", "Rule"⟩, b]⟩
    let ds : Declarations := [⟨"b", .named "U", "Rule/P"⟩, ⟨"c", .named "T", "X"⟩,
      ⟨"a", .named "T", "X"⟩, ⟨"c", .named "U", "X"⟩, a]
    (after "Rule" calls)[0]? = some s ∧
      (s.adopt ds).visible = s.visible ++ [⟨"c", .named "T", "X"⟩, ⟨"a", .named "T", "X"⟩] ∧
      (s.adopt ds).adopt ds.reverse = s.adopt ds := by
  intro a b calls s ds
  have hs : (after "Rule" calls)[0]? = some s := by cbv
  obtain ⟨-, hvisible, hagain, -⟩ := adopt_newcomers hs ds
  exact ⟨hs, hvisible.trans (by decide), hagain _ (List.reverse_subset.mpr (List.Subset.refl ds))⟩

end Family

end AggregateRules
