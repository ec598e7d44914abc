import Mathlib.Data.List.Nodup
import AggregateRules.Proofs.Scope.Names

/-!
# Proofs/Scope/FullNames — what a full name tells

A full name is a path and a short name with the separator between them, and labels and short names
may hold separators themselves.  So it can be cut in more than one way: two bindings have one full
name if they share path and short name, or if the short name of one runs on along the path of the
other (`Declaration.Spells`), and in no other case (`fullName_eq_iff`).

In a scope that never adopts, the paths lead inwards along the visible bindings (`Grown.inward`) and
the short names stay apart, so the one that runs on is the outer one.

**Main statement** (`fullNames_apart`): the visible bindings have different full names, unless the
short name of one spells out the way to another.  That can be (`separator_in_name_collides`), but
not where short names hold no separator, whatever the labels.
-/

namespace AggregateRules

/-! ## Cutting at a separator -/

/-- A list that is cut at two places with the same element is cut twice at one place, or what stands
between the two ends one side and begins the other. -/
theorem append_cons_eq_append_cons {α : Type} {p q r s : List α} {c : α}
    (h : p ++ c :: q = r ++ c :: s) :
    (p = r ∧ q = s) ∨ (∃ way, r = p ++ c :: way ∧ q = way ++ c :: s) ∨
      ∃ way, p = r ++ c :: way ∧ s = way ++ c :: q := by
  rcases List.append_eq_append_iff.mp h with ⟨_, rfl, hq⟩ | ⟨_, rfl, hs⟩
  · rcases List.cons_eq_append_iff.mp hq with ⟨rfl, hsq⟩ | ⟨way, rfl, rfl⟩
    · exact Or.inl ⟨(List.append_nil p).symm, (List.cons.inj hsq).2.symm⟩
    · exact Or.inr (Or.inl ⟨way, rfl, rfl⟩)
  · rcases List.cons_eq_append_iff.mp hs with ⟨rfl, hqs⟩ | ⟨way, rfl, rfl⟩
    · exact Or.inl ⟨List.append_nil r, (List.cons.inj hqs).2⟩
    · exact Or.inr (Or.inr ⟨way, rfl, rfl⟩)

/-- A path with something more behind it. -/
def extendPath (path more : String) : String := path ++ scopeSeparator ++ more

theorem toList_extendPath (path more : String) :
    (extendPath path more).toList = path.toList ++ '/' :: more.toList := by
  simp [extendPath, scopeSeparator]

theorem extendPath_extendPath (p q r : String) :
    extendPath (extendPath p q) r = extendPath p (extendPath q r) := by
  simp [extendPath, String.append_assoc]

/-- **A text is cut at a separator** in one place, or in two with something between them. -/
theorem extendPath_eq_iff {p q r s : String} :
    extendPath p q = extendPath r s ↔ (p = r ∧ q = s) ∨
      (∃ way, r = extendPath p way ∧ q = extendPath way s) ∨
        ∃ way, p = extendPath r way ∧ s = extendPath way q := by
  constructor
  · intro h
    rw [← String.toList_inj, toList_extendPath, toList_extendPath] at h
    simp only [← String.toList_inj, toList_extendPath]
    rcases append_cons_eq_append_cons h with hsame | ⟨way, hr, hq⟩ | ⟨way, hp, hs⟩
    · exact Or.inl hsame
    · exact Or.inr (Or.inl ⟨String.ofList way, by simpa using hr, by simpa using hq⟩)
    · exact Or.inr (Or.inr ⟨String.ofList way, by simpa using hp, by simpa using hs⟩)
  · rintro (⟨rfl, rfl⟩ | ⟨way, rfl, rfl⟩ | ⟨way, rfl, rfl⟩)
    · rfl
    · exact (extendPath_extendPath ..).symm
    · exact extendPath_extendPath ..

/-! ## Full names -/

namespace Declaration

variable {d e : Declaration}

theorem fullName_eq_extendPath (d : Declaration) : d.fullName = extendPath d.scope d.name := rfl

/-- The short name of a binding is the way from its path to that of another one, and then the short
name of that. -/
def Spells (d e : Declaration) : Prop :=
  ∃ way, e.scope = extendPath d.scope way ∧ d.name = extendPath way e.name

/-- **Two bindings have one full name** if they share path and short name, or if one of them spells
out the way to the other. -/
theorem fullName_eq_iff :
    d.fullName = e.fullName ↔ d.place = e.place ∨ d.Spells e ∨ e.Spells d := by
  rw [fullName_eq_extendPath, fullName_eq_extendPath, extendPath_eq_iff, place, place,
    Prod.mk.injEq, and_comm]
  rfl

/-- The one that spells out the way holds a separator in its short name. -/
theorem Spells.separator_mem (h : d.Spells e) : '/' ∈ d.name.toList := by
  obtain ⟨way, -, hname⟩ := h
  simp [hname, toList_extendPath]

theorem Spells.scope_ne (h : d.Spells e) : d.scope ≠ e.scope := by
  obtain ⟨way, hscope, -⟩ := h
  intro heq
  have hlength := congrArg (fun s => s.toList.length) (heq.trans hscope)
  simp [toList_extendPath] at hlength

end Declaration

namespace Scope

variable {s : Scope} {d e : Declaration}

/-! ## Paths lead inwards -/

/-- A path is the other, or leads on from it. -/
def Leads (outer inner : String) : Prop := inner = outer ∨ ∃ way, inner = extendPath outer way

theorem Leads.trans {p q r : String} (h : Leads p q) (h' : Leads q r) : Leads p r := by
  rcases h with rfl | ⟨way, rfl⟩
  · exact h'
  · rcases h' with rfl | ⟨way', rfl⟩
    · exact Or.inr ⟨way, rfl⟩
    · exact Or.inr ⟨extendPath way way', extendPath_extendPath ..⟩

/-- A binding does not spell out the way to one further out. -/
theorem not_spells_of_leads (h : Leads d.scope e.scope) : ¬ e.Spells d := by
  intro hspells
  obtain ⟨way, hscope, -⟩ := id hspells
  rcases h with heq | ⟨way', hscope'⟩
  · exact hspells.scope_ne heq
  · have hlength := congrArg (fun s => s.toList.length) hscope
    have hlength' := congrArg (fun s => s.toList.length) hscope'
    simp only [toList_extendPath, List.length_append, List.length_cons] at hlength hlength'
    omega

/-- The path of each visible binding leads to the path of the scope, and to that of every binding
after it. -/
structure Inward (s : Scope) : Prop where
  to_path : ∀ d ∈ s.visible, Leads d.scope s.path
  pairwise : s.visible.Pairwise fun d e => Leads d.scope e.scope

/-- **In a scope that never adopts the paths lead inwards.** -/
theorem Grown.inward (h : s.Grown) : s.Inward := by
  induction h with
  | root label => exact ⟨by simp, by simp⟩
  | @child s label _ ih =>
    refine ⟨fun d hd => ?_, by simpa using ih.pairwise⟩
    rw [visible_child] at hd
    exact (ih.to_path d hd).trans (Or.inr ⟨label, rfl⟩)
  | @declare s type name? _ ih =>
    cases hname : s.freshName name? with
    | error fault => rwa [run_declare_of_error hname]
    | ok name =>
      rw [run_declare_of_ok hname]
      change (s.push ⟨name, type, s.path⟩).Inward
      refine ⟨fun d hd => ?_, ?_⟩
      · rw [visible_push] at hd
        rcases List.mem_append.mp hd with hd | hd
        · exact ih.to_path d hd
        · exact Or.inl (by rw [List.mem_singleton.mp hd, path_push])
      · rw [visible_push, List.pairwise_append]
        refine ⟨ih.pairwise, List.pairwise_singleton .., fun d hd e he => ?_⟩
        rw [List.mem_singleton.mp he]
        exact ih.to_path d hd

/-! ## Different bindings, different full names -/

theorem Grown.fullName_eq_iff (h : s.Grown) (hd : d ∈ s.visible) (he : e ∈ s.visible)
    (hne : d ≠ e) : d.fullName = e.fullName ↔ d.Spells e ∨ e.Spells d := by
  have hplaces := Declarations.places_nodup_of_names_nodup h.names_nodup
  have hplace : d.place ≠ e.place := fun heq => hne (Declarations.eq_of_place_eq hplaces hd he heq)
  rw [Declaration.fullName_eq_iff]
  exact or_iff_right hplace

/-- **Of two visible bindings it is the outer one**, which stands first, that can spell out the way
to the other. -/
theorem Grown.pairwise_fullName_eq_iff (h : s.Grown) :
    s.visible.Pairwise fun d e => ¬ e.Spells d ∧ (d.fullName = e.fullName ↔ d.Spells e) := by
  have hnames : s.visible.Pairwise fun d e => d.name ≠ e.name :=
    List.pairwise_map.mp h.names_nodup
  refine (hnames.and h.inward.pairwise).imp fun {d e} ⟨hne, hleads⟩ => ?_
  have hnot := not_spells_of_leads hleads
  have hplace : d.place ≠ e.place := fun heq => hne (congrArg Prod.fst heq)
  refine ⟨hnot, ?_⟩
  rw [Declaration.fullName_eq_iff, or_iff_right hplace, or_iff_left hnot]

theorem Grown.fullNames_nodup_iff (h : s.Grown) :
    (s.visible.map Declaration.fullName).Nodup ↔ s.visible.Pairwise fun d e => ¬ d.Spells e := by
  rw [List.Nodup, List.pairwise_map]
  refine ⟨fun hne => ?_, fun hnot => ?_⟩
  · exact (h.pairwise_fullName_eq_iff.and hne).imp fun ⟨⟨_, hiff⟩, hne⟩ => mt hiff.mpr hne
  · exact (h.pairwise_fullName_eq_iff.and hnot).imp fun ⟨⟨_, hiff⟩, hnot⟩ => mt hiff.mp hnot

/-- **Two different bindings that are visible in a scope have different full names**, unless the
short name of the one, which stands first and further out, spells out the way to the other.  So all
full names are different exactly if no two such bindings are visible, as it is whenever no visible
short name holds a separator, whatever the labels. -/
theorem fullNames_apart (h : s.Grown) :
    (∀ d ∈ s.visible, ∀ e ∈ s.visible, d ≠ e →
      (d.fullName = e.fullName ↔ d.Spells e ∨ e.Spells d)) ∧
    (s.visible.Pairwise fun d e => ¬ e.Spells d ∧ (d.fullName = e.fullName ↔ d.Spells e)) ∧
    ((s.visible.map Declaration.fullName).Nodup ↔ s.visible.Pairwise fun d e => ¬ d.Spells e) ∧
    ((∀ d ∈ s.visible, '/' ∉ d.name.toList) → (s.visible.map Declaration.fullName).Nodup) := by
  refine ⟨fun d hd e he hne => h.fullName_eq_iff hd he hne, h.pairwise_fullName_eq_iff,
    h.fullNames_nodup_iff, fun hplain => h.fullNames_nodup_iff.mpr ?_⟩
  refine List.pairwise_of_forall_mem_list fun d hd e _ hspells => ?_
  exact hplain d hd hspells.separator_mem

/-- Labels may hold separators, and one label may come again. -/
theorem fullNames_apart_odd_labels :
    let root := ((Scope.declare (.named "T") (some "x")).run (Scope.root "Rule")).state
    let outer := ((Scope.declare (.named "T") none).run (root.child "A//")).state
    let s := ((Scope.declare (.named "U") (some "A")).run (outer.child "A//")).state
    s.Grown ∧ s.visible.map Declaration.fullName =
        ["Rule/x", "Rule/A///$var2$", "Rule/A///A///A"] ∧
      (∀ d ∈ s.visible, '/' ∉ d.name.toList) ∧ (s.visible.map Declaration.fullName).Nodup := by
  intro root outer s
  have hgrown : s.Grown :=
    .declare _ _ (.child _ (.declare _ _ (.child _ (.declare _ _ (.root "Rule")))))
  have hvisible : s.visible = [⟨"x", .named "T", "Rule"⟩, ⟨"$var2$", .named "T", "Rule/A//"⟩,
      ⟨"A", .named "U", "Rule/A///A//"⟩] := by cbv
  have hplain : ∀ d ∈ s.visible, '/' ∉ d.name.toList := by
    rw [hvisible]
    decide
  exact ⟨hgrown, by rw [hvisible]; decide, hplain, (fullNames_apart hgrown).2.2.2 hplain⟩

/-- **A short name that holds a separator can spell out the way to an inner binding**: both have one
full name, and the scope sees both. -/
theorem separator_in_name_collides :
    let d : Declaration := ⟨"A/x", .named "T", "Rule"⟩
    let e : Declaration := ⟨"x", .named "U", "Rule/A"⟩
    let root := ((Scope.declare (.named "T") (some "A/x")).run (Scope.root "Rule")).state
    let s := ((Scope.declare (.named "U") (some "x")).run (root.child "A")).state
    s.Grown ∧ s.visible = [d, e] ∧ d ≠ e ∧ d.fullName = e.fullName := by
  intro d e root s
  have hgrown : s.Grown := .declare _ _ (.child _ (.declare _ _ (.root "Rule")))
  exact ⟨hgrown, by cbv, by decide, by decide⟩

end Scope

end AggregateRules
