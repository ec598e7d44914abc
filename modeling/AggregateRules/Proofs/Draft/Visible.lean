import AggregateRules.Proofs.Draft.Mirror
import AggregateRules.Proofs.Draft.Run

/-!
# Proofs/Draft/Visible — the bindings that a frozen aggregate lists

The list is put together from scopes that were derived at different times: what the aggregate
inherits is a copy of what was visible where it was started, and its source sees a copy of what the
aggregate saw.  So what any link does later, further out or further in, does not enter it.

How a source is started decides what it sees.  A binding that is declared for it stands in the scope
of the aggregate before the source derives its own; one that was made elsewhere need not
(`Feeds.bound`).  Then a local binding may take its name, and adopting, which asks for the pair of
name and scope, lists both.

**Main statements**.
* `frozen_declarations`: the list is what was visible at the start, the binding of the source, and
  the local bindings of the source, if none of these has the name of that binding.
* `frozen_names_nodup_iff`: the names are distinct exactly if none has it from another scope;
  `foreign_name_is_listed_twice` is a run where one has.
-/

namespace AggregateRules

namespace Draft

variable {l x y : Draft} {request : Request} {o : Outcome Draft (Option Declaration)}
  {parent : Scope} {opening : Opening} {cs : List Call} {n : Nat}

/-! ## An aggregate and its source -/

/-- A pattern that is the source of an aggregate with a given scope: it sees what the aggregate
sees, and its binding is the aggregate's own, or it is the one that its name resolves to there, if
any. -/
structure Feeds (p : PatternDraft) (scope : Scope) : Prop where
  inherited_eq : p.scope.inherited = scope.visible
  bound : (scope.own = [p.declaration] ∧ p.declaration.name ∉ scope.inherited.names) ∨
    (scope.own = [] ∧ ∀ e, scope.lookup p.declaration.name = some e → e = p.declaration)

/-- What every call keeps of a link: an aggregate has no binding of its own but its source's, and
the local bindings of a pattern have names of their own. -/
def Settled : Draft → Prop
  | aggregate a => (a.source = none → a.scope.own = []) ∧ ∀ p, a.source = some p → Feeds p a.scope
  | pattern p => p.scope.OwnFresh

theorem settled_of_child {s : Scope} {label : String} (hlast : x.inner? = none)
    (hscope : x.scope = s.child label) : x.Settled := by
  cases x with
  | aggregate a =>
    have hnone : a.source = none := Option.map_eq_none_iff.mp hlast
    exact ⟨fun _ => congrArg Scope.own hscope, fun p hp => absurd hp (by simp [hnone])⟩
  | pattern p =>
    change p.scope = _ at hscope
    rw [Settled, hscope]
    exact Scope.ownFresh_child s label

theorem Settled.alike (h : x.Settled) (hxy : x.Alike y) : y.Settled := by
  cases x with
  | aggregate a =>
    obtain ⟨source, rfl⟩ := hxy.of_aggregate
    have hinner := hxy.inner_eq
    simp only [inner?, Option.map_map] at hinner
    refine ⟨fun hnone => ?_, fun p hp => ?_⟩
    · obtain rfl : source = none := hnone
      exact h.1 (by simpa using hinner)
    · obtain rfl : source = some p := hp
      obtain ⟨p', hp', hpristine⟩ := Option.map_eq_some_iff.mp hinner
      obtain ⟨hscope, hdeclaration⟩ :
          p'.scope.inherited = p.scope.inherited ∧ p'.declaration = p.declaration := by
        simp only [Function.comp_apply, pristine, pattern.injEq, PatternDraft.mk.injEq,
          Scope.mk.injEq] at hpristine
        exact ⟨hpristine.1.2.1, hpristine.2.1⟩
      obtain ⟨hinherited, hbound⟩ := h.2 p' hp'
      rw [hscope] at hinherited
      rw [hdeclaration] at hbound
      exact ⟨hinherited, hbound⟩
  | pattern p =>
    obtain ⟨source, rfl⟩ := hxy.of_pattern
    exact h

theorem Settled.effect (h : l.Settled) (he : Effect l request o) : o.state.Settled := by
  cases he with
  | refused | selected | aggregateConfigured | patternConfigured | conditioned | nested => exact h
  | declared hname => exact Scope.OwnFresh.push h hname _
  | sourceDeclared hnone hname =>
    refine ⟨fun hn => absurd hn (by simp), fun p hp => ?_⟩
    obtain rfl := Option.some.inj hp
    have hfresh := Scope.freshName_notMem hname
    rw [Scope.visible, Declarations.names_append, List.mem_append, not_or] at hfresh
    refine ⟨rfl, Or.inl ⟨?_, hfresh.1⟩⟩
    rw [Scope.own_push, h.1 hnone]
    rfl
  | sourceBound hnone hlookup =>
    refine ⟨fun hn => absurd hn (by simp), fun p hp => ?_⟩
    obtain rfl := Option.some.inj hp
    exact ⟨rfl, Or.inr ⟨h.1 hnone, hlookup⟩⟩

/-- **Every link is settled**, after every run. -/
theorem settled_after (parent : Scope) (opening : Opening) (cs : List Call) :
    ∀ n x, ((start parent opening).after cs).link? n = some x → x.Settled := by
  refine forall_link_after (fun _ x y => Settled.alike) (fun _ l c o _ => Settled.effect)
    (fun _ x y _ hxy => settled_of_child hxy.inner?_eq hxy.scope_eq) (fun n x hx => ?_)
  obtain ⟨-, rfl⟩ := eq_of_link? inner?_start hx
  exact settled_of_child inner?_start scope_start

/-- **Names stay apart at every link**, if they do where the definition is begun. -/
theorem names_nodup_after (hparent : parent.visible.names.Nodup) (opening : Opening)
    (cs : List Call) :
    ∀ n x, ((start parent opening).after cs).link? n = some x → x.scope.visible.names.Nodup := by
  refine forall_link_after (fun _ x y hx hxy => hxy.scope_eq ▸ hx) (fun _ l c o _ hl he => ?_)
    (fun _ x y hx hxy => ?_) (fun n x hx => ?_)
  · rcases c with ⟨depth, request⟩
    cases he with
    | declared hname | sourceDeclared _ hname => exact Scope.names_nodup_push hl hname _
    | _ => exact hl
  · rwa [hxy.scope_eq, Scope.visible_child]
  · obtain ⟨-, rfl⟩ := eq_of_link? inner?_start hx
    rwa [scope_start, Scope.visible_child]

/-! ## Local bindings, and where an aggregate is started -/

/-- The local binding that an entry of a log tells of. -/
def Entry.declared? (e : Entry) : Option Declaration :=
  match e.call.request, e.answer with
  | .toPattern (.declare ..), .ok (.ok b?) => b?
  | _, _ => none

/-- The local bindings declared at one depth, in order. -/
abbrev declaredAt (n : Nat) (log : List Entry) : Declarations := readAt Entry.declared? n log

/-- The local bindings of a link, if it is a pattern. -/
def locals : Draft → Declarations
  | aggregate _ => []
  | pattern p => p.scope.own

theorem locals_gathered : Gathered locals [] Entry.declared? fun bs b => bs ++ [b] where
  missed c why events := by simp [Entry.declared?]
  alike x y hxy := hxy.congr fun z => by cases z <;> rfl
  effect l c o he := by
    rcases c with ⟨depth, request⟩
    cases he with
    | refused => simp [Entry.declared?]
    | _ => rfl
  start parent opening := by cases opening <;> rfl

/-- **The local bindings of a pattern are those that were declared on it.** -/
theorem locals_eq_declaredAt (hx : ((start parent opening).after cs).link? n = some x) :
    x.locals = declaredAt n ((start parent opening).log cs) :=
  (gatheredAt_of_link? hx).symm.trans (locals_gathered.eq_readAt parent opening cs n)

/-! ## The scope of an aggregate once its source is frozen -/

section Closing

variable {p : PatternDraft} {scope : Scope} {source : PatternElement}

/-- The binding of a source is inherited as soon as its name is. -/
theorem Feeds.mem_inherited_iff (h : Feeds p scope) :
    p.declaration ∈ scope.inherited ↔ p.declaration.name ∈ scope.inherited.names := by
  refine ⟨fun hmem => List.mem_map_of_mem hmem, fun hname => ?_⟩
  rcases h.bound with ⟨-, hfresh⟩ | ⟨hown, hlookup⟩
  · exact absurd hname hfresh
  · have hvisible : scope.visible = scope.inherited := by
      rw [Scope.visible, hown, List.append_nil]
    rw [← hvisible] at hname ⊢
    obtain ⟨e, he⟩ := Option.isSome_iff_exists.mp (Scope.isSome_lookup_iff.mpr hname)
    exact hlookup e he ▸ (Scope.mem_of_lookup he).1

/-- No local binding of a source has a name that the aggregate inherits. -/
theorem Feeds.notMem_inherited (h : Feeds p scope) (hp : p.scope.OwnFresh) :
    ∀ b ∈ p.scope.own, b.name ∉ scope.inherited.names := by
  intro b hb hname
  refine hp.notMem_inherited b hb ?_
  rw [h.inherited_eq, Scope.visible, Declarations.names_append]
  exact List.mem_append_left _ hname

theorem Feeds.visible_adoptOne (h : Feeds p scope) :
    (scope.adoptOne p.declaration).visible =
      scope.inherited ++ if p.declaration ∈ scope.inherited then [] else [p.declaration] := by
  rw [Scope.visible_adoptOne]
  rcases h.bound with ⟨hown, hfresh⟩ | ⟨hown, -⟩
  · have hvisible : scope.visible = scope.inherited ++ [p.declaration] := by
      rw [Scope.visible, hown]
    have hsees : scope.sees p.declaration = true :=
      Scope.sees_iff.mpr ⟨p.declaration, by simp [hvisible], rfl, rfl⟩
    rw [hsees, if_pos rfl, hvisible, List.append_nil, if_neg (mt h.mem_inherited_iff.mp hfresh)]
  · have hvisible : scope.visible = scope.inherited := by
      rw [Scope.visible, hown, List.append_nil]
    by_cases hmem : p.declaration ∈ scope.inherited
    · have hsees : scope.sees p.declaration = true :=
        Scope.sees_iff.mpr ⟨p.declaration, hvisible ▸ hmem, rfl, rfl⟩
      rw [hsees, if_pos rfl, if_pos hmem, hvisible]
    · have hsees : scope.sees p.declaration = false :=
        Scope.not_sees_of_notMem (hvisible ▸ mt h.mem_inherited_iff.mpr hmem)
      rw [hsees, if_neg (by simp), if_neg hmem, hvisible]

/-- **An aggregate lists** what it inherits, the binding of its source unless it is inherited, and
the local bindings of its source but for one that passes for that binding. -/
theorem Feeds.visible_closingScope (h : Feeds p scope) (hp : p.scope.OwnFresh)
    (hdeclaration : source.declaration = p.declaration)
    (hdeclarations : source.declarations = p.scope.own) :
    (AggregateDraft.closingScope scope source).visible =
      scope.inherited ++ (if p.declaration ∈ scope.inherited then [] else [p.declaration]) ++
        p.scope.own.filter fun b =>
          !(b.name == p.declaration.name && b.scope == p.declaration.scope) := by
  have hadopted := h.visible_adoptOne
  rw [AggregateDraft.closingScope, hdeclaration, hdeclarations, Scope.adopt_cons, Scope.adopt_nil,
    Scope.visible_adopt, Scope.newcomers_of_nodup _
      (Declarations.places_nodup_of_names_nodup hp.nodup), hadopted]
  refine congrArg _ (List.filter_congr fun b hb => congrArg _ (Bool.eq_iff_iff.mpr ?_))
  -- no local binding has the name of an inherited one, so the source's binding is all there is to
  -- see
  have hfresh : ∀ e ∈ scope.inherited, e.name ≠ b.name := fun e he hname =>
    h.notMem_inherited hp b hb (Declarations.mem_names.mpr ⟨e, he, hname⟩)
  rw [Scope.sees_iff, hadopted, Bool.and_eq_true, beq_iff_eq, beq_iff_eq]
  constructor
  · rintro ⟨e, he, hname, hscope⟩
    rcases List.mem_append.mp he with he | he
    · exact absurd hname (hfresh e he)
    · split at he
      · exact absurd he List.not_mem_nil
      · obtain rfl := List.mem_singleton.mp he
        exact ⟨hname.symm, hscope.symm⟩
  · rintro ⟨hname, hscope⟩
    have hnew : p.declaration ∉ scope.inherited := fun hmem => hfresh _ hmem hname.symm
    exact ⟨p.declaration, by simp [hnew], hname.symm, hscope.symm⟩

/-- The names that an aggregate lists are distinct, but for those of a local binding of its source
and of the source's own binding. -/
theorem Feeds.names_nodup_iff (h : Feeds p scope) (hp : p.scope.OwnFresh)
    (hscope : scope.visible.names.Nodup) (hdeclaration : source.declaration = p.declaration)
    (hdeclarations : source.declarations = p.scope.own) :
    (AggregateDraft.closingScope scope source).visible.names.Nodup ↔
      ∀ b ∈ p.scope.own, b.name = p.declaration.name → b.scope = p.declaration.scope := by
  rw [h.visible_closingScope hp hdeclaration hdeclarations]
  set listed := p.scope.own.filter fun b =>
    !(b.name == p.declaration.name && b.scope == p.declaration.scope) with hlisted
  have happart : (scope.inherited.names ++ Declarations.names listed).Nodup := by
    rw [Scope.visible, Declarations.names_append] at hscope
    refine hscope.of_append_left.append (hp.nodup.sublist (List.filter_sublist.map _)) ?_
    intro name hname hlocal
    obtain ⟨b, hb, rfl⟩ := Declarations.mem_names.mp hlocal
    exact h.notMem_inherited hp b (List.mem_of_mem_filter hb) hname
  by_cases hmem : p.declaration ∈ scope.inherited
  · rw [if_pos hmem, List.append_nil, Declarations.names_append]
    refine iff_of_true happart fun b hb hname => absurd ?_ (h.notMem_inherited hp b hb)
    exact hname ▸ List.mem_map_of_mem hmem
  · have hnew := mt h.mem_inherited_iff.mpr hmem
    rw [if_neg hmem, List.append_assoc, List.singleton_append, Declarations.names_append,
      Declarations.names_cons, List.nodup_middle, List.nodup_cons, List.mem_append, not_or,
      and_iff_left happart, and_iff_right hnew, Declarations.mem_names]
    constructor
    · intro hnone b hb hname
      by_contra hne
      exact hnone ⟨b, by simp [hlisted, hb, hne], hname⟩
    · rintro hsame ⟨b, hb, hname⟩
      have hb' := List.mem_filter.mp hb
      have hscope := hsame b hb'.1 hname
      exact absurd hb'.2 (by simp [hname, hscope])

end Closing

/-- After a run, a frozen aggregate is closed over a scope that its source feeds, and the local
bindings of the source have names of their own. -/
theorem feeds_of_walk {e : Element} {a : AggregateElement}
    (he : ((start parent opening).after cs).freeze.answer = .ok e)
    (ha : e.walk[n]? = some (.aggregate a)) :
    ∃ (l : AggregateDraft) (p : PatternDraft),
      ((start parent opening).after cs).link? n = some (.aggregate l) ∧
      ((start parent opening).after cs).link? (n + 1) = some (.pattern p) ∧
      Feeds p l.scope ∧ p.scope.OwnFresh ∧ a.source.declaration = p.declaration ∧
      a.source.declarations = p.scope.own ∧
      a.declarations = (AggregateDraft.closingScope l.scope a.source).visible := by
  obtain ⟨l, p, hl, hsource, -, hdeclaration, hdeclarations, hlisted⟩ := aggregate_of_walk he ha
  have hp : ((start parent opening).after cs).link? (n + 1) = some (.pattern p) := by
    rw [link?_succ_eq_bind, hl, Option.bind_some, inner?, hsource]
    rfl
  have hfeeds : Feeds p l.scope := (settled_after parent opening cs n _ hl).2 p hsource
  have hfresh : p.scope.OwnFresh := settled_after parent opening cs (n + 1) _ hp
  exact ⟨l, p, hl, hp, hfeeds, hfresh, hdeclaration, hdeclarations, hlisted⟩

end Draft

open Draft

variable {parent : Scope} {e : Element} {a : AggregateElement} {n : Nat}

/-! ## What a frozen aggregate lists -/

/-- **A frozen aggregate lists** what was visible where it was started, as it was then, after that
the binding of its source, unless it stands there already, and last the bindings that were declared
on its source, in order; provided that none of these has the name of the source's binding. -/
theorem frozen_declarations (parent : Scope) (opening : Opening) (cs : List Call)
    (he : ((start parent opening).after cs).freeze.answer = .ok e)
    (ha : e.walk[n]? = some (.aggregate a))
    (hlocal : a.source.declaration.name ∉ a.source.declarations.names) :
    a.source.declarations = declaredAt (n + 1) ((start parent opening).log cs) ∧
      (∃! s, StartedIn parent opening cs n s) ∧
      ∀ s, StartedIn parent opening cs n s →
        a.declarations = s.visible ++
          (if a.source.declaration ∈ s.visible then [] else [a.source.declaration]) ++
          a.source.declarations := by
  obtain ⟨l, p, hl, hp, hfeeds, hfresh, hdeclaration, hdeclarations, hlisted⟩ := feeds_of_walk he ha
  obtain ⟨s, hs, hinherited⟩ := inherited_eq_of_startedIn parent opening cs n _ hl
  refine ⟨hdeclarations.trans (locals_eq_declaredAt hp),
    ⟨s, hs, fun s' hs' => hs'.unique hs⟩, fun s' hs' => ?_⟩
  have hall : (p.scope.own.filter fun b =>
      !(b.name == p.declaration.name && b.scope == p.declaration.scope)) = p.scope.own := by
    refine List.filter_eq_self.mpr fun b hb => ?_
    have hne : b.name ≠ p.declaration.name := fun hname =>
      hlocal (Declarations.mem_names.mpr ⟨b, hdeclarations ▸ hb, hdeclaration ▸ hname⟩)
    simp [hne]
  obtain rfl := hs'.unique hs
  change l.scope.inherited = s'.visible at hinherited
  rw [hlisted, hfeeds.visible_closingScope hfresh hdeclaration hdeclarations, hall, hdeclarations,
    hdeclaration, hinherited]

/-- An aggregate around another.  The outer source is declared, the inner one is bound to a binding
made elsewhere; the outer one declares a local binding before the inner aggregate is started, and
one after that. -/
def nestedCalls : List Call :=
  [⟨0, .toAggregate (.groupBy .identity .identity)⟩,
    ⟨0, .toAggregate (.declareSource (.named "Order") (some "order"))⟩,
    ⟨1, .toPattern (.declare (.named "Day") (some "day"))⟩,
    ⟨1, .toPattern (.nest (.named "Order"))⟩,
    ⟨1, .toPattern (.declare (.named "Week") (some "week"))⟩,
    ⟨2, .toAggregate (.project .identity)⟩,
    ⟨2, .toAggregate (.sourceOf ⟨"line", .named "Line", "Other"⟩)⟩,
    ⟨3, .toPattern (.declare (.named "Price") (some "price"))⟩]

/-- The inner aggregate lists what its own source declares, and nothing from further out that came
after its start. -/
theorem frozen_declarations_nested :
    ∃ e a, (startSum.after nestedCalls).freeze.answer = .ok e ∧
      e.walk[2]? = some (.aggregate a) ∧
      a.source.declaration.name ∉ a.source.declarations.names ∧
      a.declarations.names = ["order", "day", "line", "price"] ∧
      a.source.declarations = declaredAt 3 (startSum.log nestedCalls) ∧
      ∃! s, StartedIn (.root "Rule") (.aggregate (.named "Sum") {}) nestedCalls 2 s := by
  have hlists := @frozen_declarations _ _ 2 (.root "Rule") (.aggregate (.named "Sum") {})
    nestedCalls rfl rfl (by decide)
  exact ⟨_, _, rfl, rfl, by decide, rfl, hlists.1, hlists.2.1⟩

/-- **The names that a frozen aggregate lists are distinct** exactly when no local binding of its
source has the name of the source's binding, from another scope.  (One from the same scope would
pass for that binding, and be left out.) -/
theorem frozen_names_nodup_iff (hparent : parent.Grown) (opening : Opening) (cs : List Call)
    (he : ((start parent opening).after cs).freeze.answer = .ok e) (ha : .aggregate a ∈ e.walk) :
    a.declarations.names.Nodup ↔
      ∀ b ∈ a.source.declarations, b.name = a.source.declaration.name →
        b.scope = a.source.declaration.scope := by
  obtain ⟨n, ha⟩ := List.mem_iff_getElem?.mp ha
  obtain ⟨l, p, hl, -, hfeeds, hfresh, hdeclaration, hdeclarations, hlisted⟩ := feeds_of_walk he ha
  rw [hlisted, hdeclaration, hdeclarations]
  exact hfeeds.names_nodup_iff hfresh (names_nodup_after hparent.names_nodup opening cs n _ hl)
    hdeclaration hdeclarations

/-- The names of the outer aggregate of `nestedCalls` are distinct. -/
theorem frozen_names_nodup_nested :
    (Scope.root "Rule").Grown ∧
      ∃ a, (startSum.after nestedCalls).freeze.answer = .ok (.aggregate a) ∧
        a.declarations.names = ["order", "day", "week"] ∧ a.declarations.names.Nodup := by
  refine ⟨.root "Rule", _, rfl, rfl, ?_⟩
  exact (frozen_names_nodup_iff (.root "Rule") (.aggregate (.named "Sum") {}) nestedCalls rfl
    List.mem_cons_self).mpr (by decide)

/-- An aggregate over a binding made elsewhere, whose source declares a binding of the same name. -/
def foreignCalls : List Call :=
  [⟨0, .toAggregate (.groupBy .identity .identity)⟩,
    ⟨0, .toAggregate (.sourceOf ⟨"order", .named "Order", "Other"⟩)⟩,
    ⟨1, .toPattern (.declare (.named "Order") (some "order"))⟩]

/-- **A name is listed twice**, though no call was refused: the source does not see its own binding
when that was made elsewhere, so a local binding may take its name. -/
theorem foreign_name_is_listed_twice :
    (Scope.root "Rule").Grown ∧
      ((Scope.declare (.named "Order") (some "order")).run (.root "Other")).answer =
        .ok ⟨"order", .named "Order", "Other"⟩ ∧
      (startSum.log foreignCalls).all Entry.granted ∧
      ∃ e a, (startSum.after foreignCalls).freeze.answer = .ok e ∧ .aggregate a ∈ e.walk ∧
        a.declarations.names = ["order", "order"] ∧ ¬ a.declarations.names.Nodup :=
  ⟨.root "Rule", rfl, rfl, _, _, rfl, List.mem_cons_self, rfl, by decide⟩

end AggregateRules
