import AggregateRules.Proofs.Scope.Family

/-!
# Proofs/Scope/Adopted — which bindings a parent gets from a child

A parent takes a child's bindings for visible by name and scope, and the scope is a path of labels,
which siblings may share.  So a binding of a child is lost if its parent sees a binding of the same
name and path that a sibling declared, unless the two are of one type: then they are the same
(`sibling_binding_is_lost`).

**Main statement** (`adopt_keeps_all_iff`): this is the only way to lose a binding.  What the child
inherited is never lost, for its parent still sees it.
-/

namespace AggregateRules

namespace Scope

variable {s : Scope} {d : Declaration} {ds : Declarations}

theorem mem_visible_adopt_iff (hds : ds.places.Nodup) :
    d ∈ (s.adopt ds).visible ↔ d ∈ s.visible ∨ d ∈ ds ∧ s.sees d = false := by
  rw [visible_adopt, newcomers_of_nodup s hds, List.mem_append, List.mem_filter,
    Bool.not_eq_true']

/-- **A binding that is seen is visible** if it agrees with what is seen in its place. -/
theorem mem_or_not_sees_iff (hs : s.visible.places.Nodup) :
    d ∈ s.visible ∨ s.sees d = false ↔
      ∀ e ∈ s.visible, e.name = d.name → e.scope = d.scope → e.type = d.type := by
  constructor
  · rintro (hd | hunseen) e he hname hscope
    · rw [Declarations.eq_of_place_eq hs he hd (Prod.ext hname hscope)]
    · rw [← Bool.not_eq_true, sees_iff] at hunseen
      exact absurd ⟨e, he, hname, hscope⟩ hunseen
  · intro hagree
    cases hsees : s.sees d with
    | false => exact Or.inr rfl
    | true =>
      obtain ⟨e, he, hname, hscope⟩ := sees_iff.mp hsees
      have heq : e = d := by
        cases e
        cases d
        simp only [Declaration.mk.injEq]
        exact ⟨hname, hagree _ he hname hscope, hscope⟩
      exact Or.inl (heq ▸ he)

end Scope

namespace Family

variable {calls before : List Call} {label : String} {i j : Nat} {parent child : Scope}

/-- **What a child inherited its parent still sees.** -/
theorem inherited_subset_visible (hderived : DerivedAfter label calls before i j)
    (hparent : (after label calls)[i]? = some parent)
    (hchild : (after label calls)[j]? = some child) : child.inherited ⊆ parent.visible := by
  obtain ⟨childLabel, later, rfl⟩ := hderived.call
  obtain ⟨p, hp⟩ := Option.ne_none_iff_exists'.mp fun hnone =>
    Nat.not_le_of_lt hderived.parent_lt (List.getElem?_eq_none_iff.mp hnone)
  -- the child as it came to be
  have hborn : (after label (before ++ [.derive i childLabel]))[j]? = some (p.child childLabel) := by
    rw [after_concat, next, hp, hderived.number_eq, List.getElem?_append_right Nat.le.refl]
    simp
  obtain ⟨parent', hparent', hgrew⟩ := exists_after hp (.derive i childLabel :: later)
  obtain ⟨child', hchild', hgrew'⟩ := exists_after hborn later
  rw [List.append_assoc, List.singleton_append] at hchild'
  obtain rfl := Option.some.inj (hparent'.symm.trans hparent)
  obtain rfl := Option.some.inj (hchild'.symm.trans hchild)
  rw [hgrew'.inherited_eq]
  exact hgrew.visible_prefix.subset

/-- **A parent that adopts what a child sees gets all of it exactly if it sees none of the child's
own bindings with another type**, in families of whatever history, in which siblings may share
labels, and parents go on to declare and to adopt. -/
theorem adopt_keeps_all_iff (hderived : DerivedAfter label calls before i j)
    (hparent : (after label calls)[i]? = some parent)
    (hchild : (after label calls)[j]? = some child) :
    (∀ d ∈ child.visible, d ∈ (parent.adopt child.visible).visible) ↔
      ∀ d ∈ child.own, ∀ e ∈ parent.visible,
        e.name = d.name → e.scope = d.scope → e.type = d.type := by
  have hplaces := (reached_after label calls hparent).places_nodup
  have hadopted : ∀ d ∈ child.visible, d ∈ (parent.adopt child.visible).visible ↔
      ∀ e ∈ parent.visible, e.name = d.name → e.scope = d.scope → e.type = d.type := by
    intro d hd
    rw [Scope.mem_visible_adopt_iff (reached_after label calls hchild).places_nodup,
      ← Scope.mem_or_not_sees_iff hplaces, and_iff_right hd]
  constructor
  · intro hall d hd
    have hvisible : d ∈ child.visible := List.mem_append_right _ hd
    exact (hadopted d hvisible).mp (hall d hvisible)
  · intro hagree d hd
    rw [hadopted d hd]
    rcases List.mem_append.mp hd with hinherited | hown
    · have hseen := inherited_subset_visible hderived hparent hchild hinherited
      exact (Scope.mem_or_not_sees_iff hplaces).mp (Or.inl hseen)
    · exact hagree d hown

/-- Siblings that share a path and declare the same binding are adopted one after the other. -/
theorem adopt_keeps_all_of_siblings :
    let x : Declaration := ⟨"x", .named "T", "Rule/Pattern"⟩
    let y : Declaration := ⟨"y", .named "U", "Rule/Pattern"⟩
    let calls : List Call := [.derive 0 "Pattern", .derive 0 "Pattern",
      .declare 1 (.named "T") (some "x"), .declare 2 (.named "T") (some "x"),
      .declare 2 (.named "U") (some "y"), .adopt 0 [x], .declare 0 (.named "V") (some "y")]
    let parent : Scope := ⟨"Rule", [], [x, ⟨"y", .named "V", "Rule"⟩]⟩
    let child : Scope := ⟨"Rule/Pattern", [], [x, y]⟩
    DerivedAfter "Rule" calls [.derive 0 "Pattern"] 0 2 ∧
      (after "Rule" calls)[0]? = some parent ∧ (after "Rule" calls)[2]? = some child ∧
      ∀ d ∈ child.visible, d ∈ (parent.adopt child.visible).visible := by
  intro x y calls parent child
  have hderived : DerivedAfter "Rule" calls [.derive 0 "Pattern"] 0 2 :=
    ⟨⟨"Pattern", _, rfl⟩, by decide, by decide⟩
  have hparent : (after "Rule" calls)[0]? = some parent := by cbv
  have hchild : (after "Rule" calls)[2]? = some child := by cbv
  exact ⟨hderived, hparent, hchild,
    (adopt_keeps_all_iff hderived hparent hchild).mpr (by decide)⟩

/-- **A binding is lost to a sibling's** of the same name and path and of another type: the parent
sees the sibling's, and does not adopt the child's. -/
theorem sibling_binding_is_lost :
    let x : Declaration := ⟨"x", .named "T", "Rule/Pattern"⟩
    let x' : Declaration := ⟨"x", .named "U", "Rule/Pattern"⟩
    let calls : List Call := [.derive 0 "Pattern", .derive 0 "Pattern",
      .declare 1 (.named "T") (some "x"), .declare 2 (.named "U") (some "x"), .adopt 0 [x]]
    let parent : Scope := ⟨"Rule", [], [x]⟩
    let child : Scope := ⟨"Rule/Pattern", [], [x']⟩
    DerivedAfter "Rule" calls [.derive 0 "Pattern"] 0 2 ∧
      (after "Rule" calls)[0]? = some parent ∧ (after "Rule" calls)[2]? = some child ∧
      x' ∈ child.visible ∧ x' ∉ (parent.adopt child.visible).visible ∧
      (parent.adopt child.visible).lookup "x" = some x := by
  intro x x' calls parent child
  exact ⟨⟨⟨"Pattern", _, rfl⟩, by decide, by decide⟩, by cbv, by cbv, by decide, by decide,
    by decide⟩

end Family

end AggregateRules
