import Mathlib.Data.List.Induction
import Mathlib.Logic.Relation
import AggregateRules.Proofs.Scope.Names

/-!
# Proofs/Scope/Family — the scopes that come of one root

The scopes of a family are numbered in the order in which they came to be, the root first, and every
call is on one of them: it derives a child, declares or adopts, in whatever order and on whichever
scope.  A call changes at most the scope that it is on (`origin`), and of that scope only the own
bindings, which it can but extend (`Scope.Grew`).  So a scope stays what it was derived as: `birth`
finds the call that derived it, and its inherited bindings are what its parent saw then, although
the parent may have gone on.
-/

namespace AggregateRules

/-! ## What a scope keeps -/

/-- A scope with more bindings of its own. -/
structure Scope.Grew (s s' : Scope) : Prop where
  path_eq : s'.path = s.path
  inherited_eq : s'.inherited = s.inherited
  own : s.own <+: s'.own

namespace Scope.Grew

variable {s s' s'' : Scope}

protected theorem refl (s : Scope) : Grew s s := ⟨rfl, rfl, List.prefix_rfl⟩

protected theorem trans (h : Grew s s') (h' : Grew s' s'') : Grew s s'' :=
  ⟨h'.path_eq.trans h.path_eq, h'.inherited_eq.trans h.inherited_eq, h.own.trans h'.own⟩

theorem declare (type : DataType) (name? : Option String) (s : Scope) :
    Grew s ((Scope.declare type name?).run s).state := by
  rw [state_declare]
  exact ⟨rfl, rfl, List.prefix_append ..⟩

theorem adopt (s : Scope) (ds : Declarations) : Grew s (s.adopt ds) :=
  ⟨path_adopt s ds, inherited_adopt s ds, own_prefix_adopt s ds⟩

/-- **What was visible stays visible**, in its order. -/
theorem visible_prefix (h : Grew s s') : s.visible <+: s'.visible := by
  rw [visible, visible, h.inherited_eq]
  exact (List.prefix_append_right_inj _).mpr h.own

end Scope.Grew

/-! ## Families -/

/-- Scopes, in the order in which they came to be. -/
abbrev Family : Type := List Scope

namespace Family

/-- A call on one of the scopes of a family. -/
inductive Call where
  /-- Derive a child. -/
  | derive (parent : Nat) (label : String)
  /-- Declare a binding. -/
  | declare (number : Nat) (type : DataType) (name? : Option String)
  /-- Adopt bindings. -/
  | adopt (number : Nat) (ds : Declarations)

/-- The scope whose bindings a call may change. -/
def Call.on? : Call → Option Nat
  | derive .. => none
  | declare number .. => some number
  | adopt number _ => some number

/-- Whether a call has a scope adopt. -/
def Call.adopts : Call → Bool
  | adopt .. => true
  | _ => false

/-- The family after one call; a call on a scope that is not there does nothing. -/
def next (F : Family) : Call → Family
  | .derive parent label => F ++ (F[parent]?.map (·.child label)).toList
  | .declare number type name? =>
      F.modify number fun s => ((Scope.declare type name?).run s).state
  | .adopt number ds => F.modify number (·.adopt ds)

/-- The family of a root after some calls. -/
def after (label : String) (calls : List Call) : Family := calls.foldl next [Scope.root label]

variable {F : Family} {c : Call} {calls before more : List Call} {label : String} {i j : Nat}
  {s s' : Scope}

theorem after_concat (label : String) (calls : List Call) (c : Call) :
    after label (calls ++ [c]) = (after label calls).next c := List.foldl_concat ..

/-! ## Where a scope comes from -/

/-- How a scope comes out of a call. -/
inductive Origin (F : Family) (j : Nat) (s : Scope) : Call → Prop
  /-- The call is on another scope. -/
  | kept {c : Call} (hs : F[j]? = some s) (hc : c.on? ≠ some j) : Origin F j s c
  | declared {s₀ : Scope} {type : DataType} {name? : Option String} (hs₀ : F[j]? = some s₀)
      (hs : s = ((Scope.declare type name?).run s₀).state) : Origin F j s (.declare j type name?)
  | adopted {s₀ : Scope} {ds : Declarations} (hs₀ : F[j]? = some s₀) (hs : s = s₀.adopt ds) :
      Origin F j s (.adopt j ds)
  | derived {p : Scope} {i : Nat} {label : String} (hp : F[i]? = some p) (hj : j = F.length)
      (hs : s = p.child label) : Origin F j s (.derive i label)

theorem getElem?_modify_eq_some {f : Scope → Scope} (h : (F.modify i f)[j]? = some s) :
    ∃ s₀, F[j]? = some s₀ ∧ s = if i = j then f s₀ else s₀ := by
  rw [List.getElem?_modify] at h
  obtain ⟨s₀, hs₀, hs⟩ := Option.map_eq_some_iff.mp h
  refine ⟨s₀, hs₀, ?_⟩
  by_cases hij : i = j <;> simp_all

/-- **A scope was there before the call, or the call derived it.** -/
theorem origin (h : (F.next c)[j]? = some s) : Origin F j s c := by
  cases c with
  | derive i label =>
    rw [next] at h
    by_cases hj : j < F.length
    · rw [List.getElem?_append_left hj] at h
      exact .kept h (by simp [Call.on?])
    · rw [List.getElem?_append_right (Nat.le_of_not_lt hj)] at h
      cases hp : F[i]? with
      | none => simp [hp] at h
      | some p =>
        obtain ⟨hzero, hs⟩ : j - F.length = 0 ∧ p.child label = s := by
          simpa [hp, List.getElem?_singleton] using h
        exact .derived hp (by omega) hs.symm
  | declare i type name? =>
    obtain ⟨s₀, hs₀, rfl⟩ := getElem?_modify_eq_some h
    split
    case isTrue hij => subst hij; exact .declared hs₀ rfl
    case isFalse hij => exact .kept hs₀ (by simpa [Call.on?] using hij)
  | adopt i ds =>
    obtain ⟨s₀, hs₀, rfl⟩ := getElem?_modify_eq_some h
    split
    case isTrue hij => subst hij; exact .adopted hs₀ rfl
    case isFalse hij => exact .kept hs₀ (by simpa [Call.on?] using hij)

theorem eq_of_getElem?_root (h : (after label [])[j]? = some s) : j = 0 ∧ s = Scope.root label := by
  rw [after, List.foldl_nil, List.getElem?_singleton] at h
  split at h
  case isTrue hj => exact ⟨hj, (Option.some.inj h).symm⟩
  case isFalse => exact absurd h (by simp)

/-- **Every scope of a family is reached** from its root. -/
theorem reached_after (label : String) (calls : List Call) :
    ∀ {j : Nat} {s : Scope}, (after label calls)[j]? = some s → s.Reached := by
  induction calls using List.reverseRecOn with
  | nil =>
    intro j s h
    obtain ⟨-, rfl⟩ := eq_of_getElem?_root h
    exact .root label
  | append_singleton calls c ih =>
    intro j s h
    rw [after_concat] at h
    cases origin h with
    | kept hs _ => exact ih hs
    | declared hs₀ hs => exact hs ▸ .declare _ _ (ih hs₀)
    | adopted hs₀ hs => exact hs ▸ .adopt _ (ih hs₀)
    | derived hp _ hs => exact hs ▸ .child _ (ih hp)

/-- A family in which nobody adopts has grown by deriving and declaring. -/
theorem grown_after (label : String) (calls : List Call) (hplain : ∀ c ∈ calls, c.adopts = false) :
    ∀ {j : Nat} {s : Scope}, (after label calls)[j]? = some s → s.Grown := by
  induction calls using List.reverseRecOn with
  | nil =>
    intro j s h
    obtain ⟨-, rfl⟩ := eq_of_getElem?_root h
    exact .root label
  | append_singleton calls c ih =>
    intro j s h
    have ih := @ih fun c' hc' => hplain c' (List.mem_append_left _ hc')
    have hc := hplain c (List.mem_append_right _ List.mem_cons_self)
    rw [after_concat] at h
    cases origin h with
    | kept hs _ => exact ih hs
    | declared hs₀ hs => exact hs ▸ .declare _ _ (ih hs₀)
    | adopted => exact absurd hc (by simp [Call.adopts])
    | derived hp _ hs => exact hs ▸ .child _ (ih hp)

/-! ## Scopes stay -/

theorem exists_next (h : F[j]? = some s) (c : Call) : ∃ s', (F.next c)[j]? = some s' ∧ s.Grew s' := by
  obtain ⟨hj, -⟩ := List.getElem?_eq_some_iff.mp h
  cases c with
  | derive i label => exact ⟨s, by rwa [next, List.getElem?_append_left hj], .refl s⟩
  | declare i type name? =>
    rw [next, List.getElem?_modify, h]
    by_cases hij : i = j
    · exact ⟨_, by simp [hij], .declare type name? s⟩
    · exact ⟨s, by simp [hij], .refl s⟩
  | adopt i ds =>
    rw [next, List.getElem?_modify, h]
    by_cases hij : i = j
    · exact ⟨_, by simp [hij], .adopt s ds⟩
    · exact ⟨s, by simp [hij], .refl s⟩

/-- **No call takes a scope away**, or anything that is visible in it. -/
theorem exists_after (h : (after label before)[j]? = some s) (more : List Call) :
    ∃ s', (after label (before ++ more))[j]? = some s' ∧ s.Grew s' := by
  induction more using List.reverseRecOn with
  | nil => exact ⟨s, by rwa [List.append_nil], .refl s⟩
  | append_singleton more c ih =>
    obtain ⟨s₁, hs₁, hgrew₁⟩ := ih
    obtain ⟨s₂, hs₂, hgrew₂⟩ := exists_next hs₁ c
    exact ⟨s₂, by rwa [← List.append_assoc, after_concat], hgrew₁.trans hgrew₂⟩

/-! ## Birth -/

/-- Scope `j` is derived from scope `i` by the call that comes after some of the calls. -/
structure DerivedAfter (label : String) (calls before : List Call) (i j : Nat) : Prop where
  call : ∃ childLabel later, calls = before ++ .derive i childLabel :: later
  parent_lt : i < (after label before).length
  number_eq : j = (after label before).length

theorem DerivedAfter.append (h : DerivedAfter label calls before i j) (more : List Call) :
    DerivedAfter label (calls ++ more) before i j := by
  obtain ⟨childLabel, later, rfl⟩ := h.call
  exact ⟨⟨childLabel, later ++ more, by simp⟩, h.parent_lt, h.number_eq⟩

/-- What a scope inherits: nothing if it is the root, and otherwise what its parent saw at the moment
when the scope was derived. -/
inductive Born (label : String) (calls : List Call) : Nat → Scope → Prop
  | root {s : Scope} (hs : s.inherited = []) : Born label calls 0 s
  | child {s p : Scope} {before : List Call} {i j : Nat}
      (hderived : DerivedAfter label calls before i j) (hp : (after label before)[i]? = some p)
      (hs : s.inherited = p.visible) : Born label calls j s

theorem Born.concat (h : Born label calls j s) (hgrew : s.Grew s') (c : Call) :
    Born label (calls ++ [c]) j s' := by
  cases h with
  | root hs => exact .root (hgrew.inherited_eq.trans hs)
  | child hderived hp hs => exact .child (hderived.append [c]) hp (hgrew.inherited_eq.trans hs)

/-- **A scope is the root, or one of the calls derived it.** -/
theorem birth (label : String) (calls : List Call) :
    ∀ {j : Nat} {s : Scope}, (after label calls)[j]? = some s → Born label calls j s := by
  induction calls using List.reverseRecOn with
  | nil =>
    intro j s h
    obtain ⟨rfl, rfl⟩ := eq_of_getElem?_root h
    exact .root rfl
  | append_singleton calls c ih =>
    intro j s h
    rw [after_concat] at h
    cases origin h with
    | kept hs _ => exact (ih hs).concat (.refl s) _
    | declared hs₀ hs => exact (ih hs₀).concat (hs ▸ .declare _ _ _) _
    | adopted hs₀ hs => exact (ih hs₀).concat (hs ▸ .adopt _ _) _
    | derived hp hj hs =>
      obtain ⟨hi, -⟩ := List.getElem?_eq_some_iff.mp hp
      exact .child ⟨⟨_, [], rfl⟩, hi, hj⟩ hp (congrArg Scope.inherited hs)

end Family

end AggregateRules
