import AggregateRules.Proofs.Scope.Family

/-!
# Proofs/Scope/Orderly — what is visible where nobody adopts

Without adoption a scope holds what it declared itself, in its own path, and what its parent saw when
it was derived, in the paths of its ancestors (`inherited_scope`).  A name is free before it is
declared, whether it was asked for or generated, so it resolves to one binding everywhere.

**Main statement** (`orderly_of_plain`): every scope of a family in which nobody adopts is `Orderly`,
however the calls on its scopes were interleaved and whether or not they were refused.
-/

namespace AggregateRules.Family

variable {F : Family} {c : Call} {calls before more : List Call} {label : String} {i j : Nat}
  {s p : Scope}

/-! ## What a scope declared -/

/-- The binding that a call has a scope declare, unless it is refused. -/
def granted? (F : Family) (j : Nat) : Call → Option Declaration
  | .declare i type name? =>
      if i = j then F[j]?.bind fun s => ((Scope.declare type name?).run s).answer.toOption
      else none
  | _ => none

/-- The bindings that a scope declared, in the order of the calls. -/
def declaredIn (j : Nat) : Family → List Call → Declarations
  | _, [] => []
  | F, c :: calls => (F.granted? j c).toList ++ declaredIn j (F.next c) calls

theorem declaredIn_concat (j : Nat) (F : Family) (calls : List Call) (c : Call) :
    declaredIn j F (calls ++ [c]) =
      declaredIn j F calls ++ ((calls.foldl next F).granted? j c).toList := by
  induction calls generalizing F with
  | nil => exact List.append_nil _
  | cons c' calls ih => rw [List.cons_append, declaredIn, declaredIn, ih, List.append_assoc]; rfl

theorem granted?_of_on?_ne (F : Family) (hc : c.on? ≠ some j) : F.granted? j c = none := by
  cases c with
  | declare i type name? => exact if_neg fun hij => hc (congrArg some hij)
  | _ => rfl

theorem granted?_of_getElem?_eq_none (h : F[j]? = none) (c : Call) : F.granted? j c = none := by
  cases c with
  | declare i type name? => simp [granted?, h]
  | _ => rfl

/-- A scope that is not there yet has declared nothing. -/
theorem declaredIn_eq_nil (h : (after label calls)[j]? = none) :
    declaredIn j [Scope.root label] calls = [] := by
  induction calls using List.reverseRecOn with
  | nil => rfl
  | append_singleton calls c ih =>
    have hbefore : (after label calls)[j]? = none := by
      by_contra hs
      obtain ⟨s, hs⟩ := Option.ne_none_iff_exists'.mp hs
      obtain ⟨s', hs', -⟩ := exists_next hs c
      rw [after_concat, hs'] at h
      exact absurd h (by simp)
    rw [declaredIn_concat, ih hbefore]
    exact congrArg Option.toList (granted?_of_getElem?_eq_none hbefore c)

/-- **A scope's own bindings are those it declared**, in the order of the calls. -/
theorem own_eq_declaredIn (label : String) (calls : List Call)
    (hplain : ∀ c ∈ calls, c.adopts = false) : ∀ {j : Nat} {s : Scope},
      (after label calls)[j]? = some s → s.own = declaredIn j [Scope.root label] calls := by
  induction calls using List.reverseRecOn with
  | nil =>
    intro j s h
    obtain ⟨-, rfl⟩ := eq_of_getElem?_root h
    rfl
  | append_singleton calls c ih =>
    intro j s h
    have ih := @ih fun c' hc' => hplain c' (List.mem_append_left _ hc')
    have hc := hplain c (List.mem_append_right _ List.mem_cons_self)
    rw [after_concat] at h
    rw [declaredIn_concat]
    cases origin h with
    | kept hs hon =>
      rw [granted?_of_on?_ne _ hon, ih hs]
      exact (List.append_nil _).symm
    | declared hs₀ hs =>
      rw [hs, Scope.state_declare, ← ih hs₀]
      have hs₀' : (calls.foldl next [Scope.root label])[j]? = _ := hs₀
      rw [granted?, if_pos rfl, hs₀']
      rfl
    | adopted => exact absurd hc (by simp [Call.adopts])
    | derived hp hj hs =>
      rw [hs, declaredIn_eq_nil (List.getElem?_eq_none (Nat.le_of_eq hj.symm))]
      rfl

/-! ## Ancestors -/

/-- A scope was derived from another by one of the calls. -/
def IsParent (label : String) (calls : List Call) (i j : Nat) : Prop :=
  ∃ before, DerivedAfter label calls before i j

/-- A scope was derived from another, or from one that was, and so on. -/
def IsAncestor (label : String) (calls : List Call) : Nat → Nat → Prop :=
  Relation.TransGen (IsParent label calls)

theorem IsParent.append (h : IsParent label calls i j) (more : List Call) :
    IsParent label (calls ++ more) i j := by
  obtain ⟨before, hderived⟩ := h
  exact ⟨before, hderived.append more⟩

theorem IsAncestor.append (h : IsAncestor label calls i j) (more : List Call) :
    IsAncestor label (calls ++ more) i j :=
  Relation.TransGen.mono (fun _ _ hparent => IsParent.append hparent more) i j h

/-- **An inherited binding stands in the path of an ancestor**, the one that declared it. -/
theorem inherited_scope (label : String) (j : Nat) : ∀ (calls : List Call) (s : Scope),
    (∀ c ∈ calls, c.adopts = false) → (after label calls)[j]? = some s → ∀ d ∈ s.inherited,
      ∃ i a, IsAncestor label calls i j ∧ (after label calls)[i]? = some a ∧
        d.scope = a.path := by
  induction j using Nat.strongRecOn with
  | ind j ih =>
    intro calls s hplain hs d hd
    cases birth label calls hs with
    | root hroot => exact absurd (hroot ▸ hd) List.not_mem_nil
    | @child _ p before i _ hderived hp hseen =>
      obtain ⟨childLabel, later, rfl⟩ := hderived.call
      have hbefore : ∀ c ∈ before, c.adopts = false :=
        fun c hc => hplain c (List.mem_append_left _ hc)
      have hparent : IsAncestor label (before ++ .derive i childLabel :: later) i j :=
        .single ⟨before, hderived⟩
      rw [hseen, Scope.visible, List.mem_append] at hd
      rcases hd with hd | hd
      · -- the parent inherited it itself, from one of its own ancestors at that time
        have hlt : i < j := hderived.number_eq ▸ hderived.parent_lt
        obtain ⟨i', a, hancestor, ha, hscope⟩ := ih i hlt before p hbefore hp d hd
        obtain ⟨a', ha', hgrew⟩ := exists_after ha (.derive i childLabel :: later)
        exact ⟨i', a', (hancestor.append _).trans hparent, ha', hscope.trans hgrew.path_eq.symm⟩
      · obtain ⟨p', hp', hgrew⟩ := exists_after hp (.derive i childLabel :: later)
        have hscope := (grown_after label before hbefore hp).ownFresh.scope_eq d hd
        exact ⟨i, p', hparent, hp', hscope.trans hgrew.path_eq.symm⟩

/-! ## Order -/

/-- What a scope of a family sees, and which declarations it grants. -/
structure Orderly (label : String) (calls : List Call) (j : Nat) (s : Scope) : Prop where
  /-- No two visible bindings share a name, and none is without one. -/
  names : s.visible.names.Nodup ∧ "" ∉ s.visible.names
  /-- What the scope declared stands in its path. -/
  own_scope : ∀ d ∈ s.own, d.scope = s.path
  /-- What it inherited stands in the path of an ancestor. -/
  inherited_scope : ∀ d ∈ s.inherited, ∃ i a, IsAncestor label calls i j ∧
    (after label calls)[i]? = some a ∧ d.scope = a.path
  /-- It sees what its parent saw when it was derived, and then what it declared itself. -/
  view : (j = 0 ∧ s.visible = declaredIn j [Scope.root label] calls) ∨
    ∃ before i p, DerivedAfter label calls before i j ∧ (after label before)[i]? = some p ∧
      s.visible = p.visible ++ declaredIn j [Scope.root label] calls
  own_eq : s.own = declaredIn j [Scope.root label] calls
  /-- A name resolves to the visible binding of that name, if there is one. -/
  lookup_some : ∀ name d, s.lookup name = some d ↔ d ∈ s.visible ∧ d.name = name
  lookup_none : ∀ name, s.lookup name = none ↔ name ∉ s.visible.names
  /-- A binding without a name is always declared. -/
  unnamed : ∀ type, ∃ d, ((Scope.declare type none).run s).answer = .ok d
  /-- A binding with a name is refused exactly if the name is empty or visible. -/
  named : ∀ type name, (∃ fault, ((Scope.declare type (some name)).run s).answer = .error fault) ↔
    name = "" ∨ name ∈ s.visible.names

theorem exists_fault_iff (type : DataType) (name : String) (s : Scope) :
    (∃ fault, ((Scope.declare type (some name)).run s).answer = .error fault) ↔
      name = "" ∨ name ∈ s.visible.names := by
  have hfresh := Scope.freshName_some s name
  by_cases hempty : name = ""
  · rw [if_pos hempty] at hfresh
    exact iff_of_true ⟨_, congrArg Outcome.answer (Scope.run_declare_of_error hfresh)⟩ (Or.inl hempty)
  · rw [if_neg hempty] at hfresh
    by_cases hvisible : name ∈ s.visible.names
    · rw [if_pos hvisible] at hfresh
      simp [Scope.run_declare_of_error hfresh, hvisible]
    · rw [if_neg hvisible] at hfresh
      simp [Scope.run_declare_of_ok hfresh, hempty, hvisible]

theorem view_of_birth (h : Born label calls j s) :
    (j = 0 ∧ s.visible = s.own) ∨
      ∃ before i p, DerivedAfter label calls before i j ∧ (after label before)[i]? = some p ∧
        s.visible = p.visible ++ s.own := by
  cases h with
  | root hs => exact Or.inl ⟨rfl, by rw [Scope.visible, hs, List.nil_append]⟩
  | child hderived hp hs => exact Or.inr ⟨_, _, _, hderived, hp, by rw [Scope.visible, hs]⟩

/-- **Every scope of a family in which nobody adopts is orderly.** -/
theorem orderly_of_plain (label : String) (calls : List Call)
    (hplain : ∀ c ∈ calls, c.adopts = false) (j : Nat) (s : Scope)
    (hs : (after label calls)[j]? = some s) : Orderly label calls j s := by
  have hgrown := grown_after label calls hplain hs
  have hown := own_eq_declaredIn label calls hplain hs
  exact
    { names := ⟨hgrown.names_nodup, hgrown.empty_notMem_names⟩
      own_scope := hgrown.ownFresh.scope_eq
      inherited_scope := inherited_scope label j calls s hplain hs
      view := hown ▸ view_of_birth (birth label calls hs)
      own_eq := hown
      lookup_some := fun name d => Scope.lookup_eq_some_iff hgrown.names_nodup
      lookup_none := fun name => Scope.lookup_eq_none_iff
      unnamed := fun type =>
        have hname : s.freshName none = .ok _ := rfl
        ⟨_, congrArg Outcome.answer (Scope.run_declare_of_ok hname)⟩
      named := fun type name => exists_fault_iff type name s }

/-- A generated name passes over one that was chosen; a child keeps its older view while its parent
goes on, and may declare what the parent has declared since. -/
theorem orderly_older_view :
    let calls : List Call := [.declare 0 (.named "T") (some "$var2$"), .declare 0 (.named "T") none,
      .derive 0 "A", .declare 0 (.named "T") (some "late"), .declare 1 (.named "U") (some "late"),
      .declare 1 (.named "U") (some "$var3$"), .derive 1 "B"]
    let b : Scope := ⟨"Rule/A/B", [⟨"$var2$", .named "T", "Rule"⟩, ⟨"$var3$", .named "T", "Rule"⟩,
      ⟨"late", .named "U", "Rule/A"⟩], []⟩
    (∀ c ∈ calls, c.adopts = false) ∧ (after "Rule" calls)[2]? = some b ∧
      Orderly "Rule" calls 2 b := by
  intro calls b
  have hplain : ∀ c ∈ calls, c.adopts = false := by decide
  have hb : (after "Rule" calls)[2]? = some b := by cbv
  exact ⟨hplain, hb, orderly_of_plain "Rule" calls hplain 2 b hb⟩

end AggregateRules.Family
