import AggregateRules.Proofs.Scope.Newcomers

/-!
# Proofs/Scope/Resolution — when a name means the same from inside and from outside

A scope looks a name up from its innermost binding outwards; a list of bindings, such as a frozen
aggregate carries, is searched from the outermost inwards.  Of a scope in which no two visible
bindings share a place, the two agree on every name exactly if no two bindings share a name
(`unambiguous_iff`).  Declaring never brings in a name that is visible, deriving brings in none at
all; adopting asks for the place only, so it may bring in a name that the scope sees in another path
(`shadowed_name_is_ambiguous`).

**Main statement** (`unambiguous_iff_adoptsFitting`): this is the only way.  Names mean one thing in
every scope of a family exactly if every adoption fitted.
-/

namespace AggregateRules

namespace Declarations

variable {ds : Declarations} {d : Declaration} {name : String}

theorem find_cons (d : Declaration) (ds : Declarations) (name : String) :
    find (d :: ds) name = if d.name = name then some d else find ds name := by
  rw [find, List.find?_cons]
  by_cases h : d.name = name
  · simp [h]
  · rw [if_neg h, beq_false_of_ne h]
    rfl

theorem findLast_cons (d : Declaration) (ds : Declarations) (name : String) :
    findLast (d :: ds) name = (findLast ds name).or (if d.name = name then some d else none) := by
  rw [findLast, List.reverse_cons, List.find?_append, List.find?_singleton, findLast]
  simp only [beq_iff_eq]

theorem find_eq_none_iff : find ds name = none ↔ name ∉ ds.names := by
  rw [find, List.find?_eq_none, mem_names]
  simp

/-- **Search from either end agrees exactly if no name comes twice**, where no place does: if the
first binding of a name is the last, it is the only one. -/
theorem findLast_eq_find_iff : ∀ {ds : Declarations}, ds.places.Nodup →
    ((∀ name, findLast ds name = find ds name) ↔ ds.names.Nodup)
  | [], _ => iff_of_true (fun _ => rfl) List.nodup_nil
  | d :: ds, h => by
      obtain ⟨hd, hds⟩ := List.nodup_cons.mp h
      rw [names_cons, List.nodup_cons, ← findLast_eq_find_iff hds]
      simp only [find_cons, findLast_cons]
      constructor
      · intro hsame
        have hnew : findLast ds d.name = none := by
          have hself := hsame d.name
          rw [if_pos rfl, if_pos rfl] at hself
          cases hlast : findLast ds d.name with
          | none => rfl
          | some e =>
            rw [hlast] at hself
            obtain rfl : e = d := Option.some.inj hself
            exact absurd (List.mem_map_of_mem (mem_of_findLast hlast).1) hd
        rw [findLast_eq_none_iff] at hnew
        refine ⟨hnew, fun name => ?_⟩
        by_cases hname : d.name = name
        · rw [← hname, findLast_eq_none_iff.mpr hnew, find_eq_none_iff.mpr hnew]
        · simpa [hname] using hsame name
      · rintro ⟨hnew, hsame⟩ name
        by_cases hname : d.name = name
        · rw [if_pos hname, ← hname, findLast_eq_none_iff.mpr hnew, Option.none_or, if_pos rfl]
        · rw [if_neg hname, if_neg hname, Option.or_none, hsame]

/-- Where no place comes twice, no name does if bindings of one name are of one path. -/
theorem names_nodup_iff_scope_eq (h : ds.places.Nodup) :
    ds.names.Nodup ↔ ∀ d ∈ ds, ∀ e ∈ ds, d.name = e.name → d.scope = e.scope := by
  rw [names, List.nodup_map_iff_inj_on (List.Nodup.of_map _ h)]
  constructor
  · intro hinj d hd e he hname
    rw [hinj d hd e he hname]
  · intro hscope d hd e he hname
    exact eq_of_place_eq h hd he (Prod.ext hname (hscope d hd e he hname))

end Declarations

namespace Scope

variable {s s' : Scope} {ds : Declarations}

/-- Every name means the same, looked up from inside and searched from outside. -/
def Unambiguous (s : Scope) : Prop := ∀ name, s.lookup name = s.visible.find name

theorem unambiguous_iff (h : s.visible.places.Nodup) : s.Unambiguous ↔ s.visible.names.Nodup :=
  Declarations.findLast_eq_find_iff h

/-- Bindings that share a name with each other, or with one that is visible, only if they are of one
path. -/
def Fits (s : Scope) (ds : Declarations) : Prop :=
  ∀ d ∈ ds, ∀ e ∈ s.visible ++ ds, d.name = e.name → d.scope = e.scope

/-- **Adopting keeps names apart exactly if what is adopted fits.** -/
theorem names_nodup_adopt_iff (hplaces : s.visible.places.Nodup) (hnames : s.visible.names.Nodup) :
    (s.adopt ds).visible.names.Nodup ↔ s.Fits ds := by
  rw [Declarations.names_nodup_iff_scope_eq (places_nodup_adopt ds hplaces)]
  constructor
  · -- what the list brings in may be another binding, but one of the same place
    intro hscope d hd e he hname
    have hplaced : ∀ d ∈ s.visible ++ ds, ∃ d' ∈ (s.adopt ds).visible, d'.place = d.place :=
      fun d hd => List.mem_map.mp (mem_places_adopt.mpr ((List.mem_append.mp hd).imp
        List.mem_map_of_mem List.mem_map_of_mem))
    obtain ⟨d', hd', hplace⟩ := hplaced d (List.mem_append_right _ hd)
    obtain ⟨e', he', hplace'⟩ := hplaced e he
    obtain ⟨hdname, hdscope⟩ := Prod.mk.inj hplace
    obtain ⟨hename, hescope⟩ := Prod.mk.inj hplace'
    rw [← hdscope, ← hescope]
    exact hscope d' hd' e' he' ((hdname.trans hname).trans hename.symm)
  · intro hfits
    have hmem : ∀ d ∈ (s.adopt ds).visible, d ∈ s.visible ∨ d ∈ ds := fun d hd => by
      rw [visible_adopt, List.mem_append] at hd
      exact hd.imp_right fun hnew => (newcomers_sublist s ds).subset hnew
    intro d hd e he hname
    rcases hmem d hd, hmem e he with ⟨hd | hd, he | he⟩
    · exact (Declarations.names_nodup_iff_scope_eq hplaces).mp hnames d hd e he hname
    · exact (hfits e he d (List.mem_append_left _ hd) hname.symm).symm
    · exact hfits d hd e (List.mem_append_left _ he) hname
    · exact hfits d hd e (List.mem_append_right _ he) hname

/-- A scope that sees names apart saw them apart before. -/
theorem Grew.names_nodup (h : s.Grew s') (hnodup : s'.visible.names.Nodup) :
    s.visible.names.Nodup :=
  hnodup.sublist (h.visible_prefix.sublist.map Declaration.name)

end Scope

namespace Family

variable {label : String} {calls before : List Call} {c : Call} {s : Scope}

/-- Every adoption of a run is of bindings that fit when they are adopted. -/
def AdoptsFitting (label : String) (calls : List Call) : Prop :=
  ∀ before i ds, before ++ [.adopt i ds] <+: calls →
    ∀ s, (after label before)[i]? = some s → s.Fits ds

theorem AdoptsFitting.of_prefix (h : AdoptsFitting label calls) (hbefore : before <+: calls) :
    AdoptsFitting label before :=
  fun earlier i ds hearlier => h earlier i ds (hearlier.trans hbefore)

/-- **While every adoption fits, names stay apart** in every scope. -/
theorem names_nodup_of_adoptsFitting (label : String) (calls : List Call) :
    AdoptsFitting label calls → ∀ {j : Nat} {s : Scope}, (after label calls)[j]? = some s →
      s.visible.names.Nodup := by
  induction calls using List.reverseRecOn with
  | nil =>
    intro _ j s hs
    obtain ⟨-, rfl⟩ := eq_of_getElem?_root hs
    exact List.nodup_nil
  | append_singleton calls c ih =>
    intro hfitting j s hs
    have ih := @ih (hfitting.of_prefix (List.prefix_append ..))
    rw [after_concat] at hs
    cases origin hs with
    | kept hkept _ => exact ih hkept
    | declared hs₀ hdeclared => exact hdeclared ▸ Scope.names_nodup_declare (ih hs₀) _ _
    | @adopted s₀ ds hs₀ hadopted =>
      have hfits : s₀.Fits ds := hfitting calls j ds List.prefix_rfl s₀ hs₀
      have hplaces := (reached_after label calls hs₀).places_nodup
      exact hadopted ▸ (Scope.names_nodup_adopt_iff hplaces (ih hs₀)).mpr hfits
    | @derived p i childLabel hp _ hderived =>
      rw [hderived, Scope.visible_child]
      exact ih hp

/-- **Names mean one thing in every scope of a family exactly if every adoption fitted**, that is,
brought in no binding under a name that the scope saw in another path, or was adopting in another
path; and of any one scope, exactly if no two bindings that it sees share a name. -/
theorem unambiguous_iff_adoptsFitting (label : String) (calls : List Call) :
    (∀ s ∈ after label calls, s.Unambiguous ↔ s.visible.names.Nodup) ∧
      ((∀ s ∈ after label calls, s.Unambiguous) ↔ AdoptsFitting label calls) := by
  have hplaces : ∀ {calls : List Call} {j : Nat} {s : Scope},
      (after label calls)[j]? = some s → s.visible.places.Nodup :=
    fun hs => (reached_after label _ hs).places_nodup
  have hone : ∀ s ∈ after label calls, s.Unambiguous ↔ s.visible.names.Nodup := fun s hs => by
    obtain ⟨j, hj⟩ := List.mem_iff_getElem?.mp hs
    exact Scope.unambiguous_iff (hplaces hj)
  refine ⟨hone, fun hall before i ds hbefore s hs => ?_, fun hfitting s hs => ?_⟩
  · -- what is visible at the end was visible apart before and after the adoption
    obtain ⟨later, rfl⟩ := hbefore
    have hadopted : (after label (before ++ [.adopt i ds]))[i]? = some (s.adopt ds) := by
      rw [after_concat, next, List.getElem?_modify, hs]
      simp
    obtain ⟨s', hs', hgrew⟩ := exists_after hadopted later
    have hnames : s'.visible.names.Nodup :=
      (hone s' (List.mem_of_getElem? hs')).mp (hall s' (List.mem_of_getElem? hs'))
    have hafter := hgrew.names_nodup hnames
    exact (Scope.names_nodup_adopt_iff (hplaces hs) ((Scope.Grew.adopt s ds).names_nodup hafter)).mp
      hafter
  · obtain ⟨j, hj⟩ := List.mem_iff_getElem?.mp hs
    exact (hone s hs).mpr (names_nodup_of_adoptsFitting label calls hfitting hj)

/-- **A binding that a scope adopts and one that it has declared meanwhile share a name**: looked up
the name means the inner one, and searched for in what is visible the outer one. -/
theorem shadowed_name_is_ambiguous :
    let x : Declaration := ⟨"x", .named "U", "Rule"⟩
    let x' : Declaration := ⟨"x", .named "T", "Rule/Pattern"⟩
    let before : List Call := [.derive 0 "Pattern", .declare 1 (.named "T") (some "x"),
      .declare 0 (.named "U") (some "x")]
    let child : Scope := ⟨"Rule/Pattern", [], [x']⟩
    let s : Scope := ⟨"Rule", [], [x, x']⟩
    DerivedAfter "Rule" before [] 0 1 ∧ (after "Rule" before)[1]? = some child ∧
      (after "Rule" (before ++ [.adopt 0 child.visible]))[0]? = some s ∧
      s.lookup "x" = some x' ∧ s.visible.find "x" = some x ∧ ¬ s.Unambiguous := by
  intro x x' before child s
  have hlookup : s.lookup "x" = some x' := by decide
  have hfind : s.visible.find "x" = some x := by decide
  refine ⟨⟨⟨"Pattern", _, rfl⟩, by decide, by decide⟩, by cbv, by cbv, hlookup, hfind, fun h => ?_⟩
  exact absurd ((hlookup.symm.trans (h "x")).trans hfind) (by decide)

end Family

end AggregateRules
