import Mathlib.Data.List.Induction
import AggregateRules.Proofs.Draft.Effect

/-!
# Proofs/Draft/Run — a definition under a sequence of calls

A call goes its way on one link (`Draft.Effect`).  Of the links outside, it changes nothing but what
stands inside them (`Draft.Alike`); the links inside stay, and one may be started behind the last
(`perform_of_link?`).  So a law about the links of a definition, after any sequence of calls, is
proved link by link: `forall_link_after` asks what a call keeps on its own link, on a link that it
starts, and on the others.

The log of a run lists its calls with what they answered.  Where every call adds to its link what
its entry tells, the link has gathered what the log tells of its depth (`Gathered.after`).
-/

namespace AggregateRules.Draft

variable {d d' l l' x y : Draft} {request : Request} {depth m n : Nat} {why : Misaddressed}
  {o : Outcome Draft (Option Declaration)}

/-! ## Parts of a link -/

/-- The scope of a link. -/
def scope : Draft → Scope
  | aggregate d => d.scope
  | pattern d => d.scope

/-- The label of the scope of a link. -/
def label : Draft → String
  | aggregate _ => AggregateDraft.scopeLabel
  | pattern _ => PatternDraft.scopeLabel

/-- The label of a link inside one of a given label. -/
def innerLabel (label : String) : String :=
  if label = AggregateDraft.scopeLabel then PatternDraft.scopeLabel else AggregateDraft.scopeLabel

/-- The policy of a link. -/
def policy : Draft → Policy
  | aggregate d => d.policy
  | pattern d => d.policy

/-- A link without what stands inside it. -/
def bare : Draft → Draft
  | aggregate d => aggregate { d with source := none }
  | pattern d => pattern { d with source := none }

/-- A link as it was when it was started, under the default policy. -/
def pristine : Draft → Draft
  | aggregate d =>
      aggregate { d with
        scope := { d.scope with own := [] }, factory := none, source := none, policy := {} }
  | pattern d =>
      pattern { d with
        scope := { d.scope with own := [] }, conditions := [], source := none, policy := {} }

/-- Links that differ at most in what calls further in have made of what stands inside them. -/
structure Alike (x y : Draft) : Prop where
  bare_eq : x.bare = y.bare
  inner_eq : x.inner?.map pristine = y.inner?.map pristine

@[simp] theorem label_pristine (x : Draft) : x.pristine.label = x.label := by
  cases x <;> rfl

@[simp] theorem path_pristine (x : Draft) : x.pristine.scope.path = x.scope.path := by
  cases x <;> rfl

@[simp] theorem inherited_pristine (x : Draft) :
    x.pristine.scope.inherited = x.scope.inherited := by
  cases x <;> rfl

theorem pristine_eq_of_bare_eq (h : x.bare = y.bare) : x.pristine = y.pristine := by
  have hbare : ∀ z : Draft, z.bare.pristine = z.pristine := fun z => by cases z <;> rfl
  rw [← hbare x, h, hbare]

/-- What does not depend on what stands inside is the same for both. -/
theorem Alike.congr {γ : Type} {A : Draft → γ} (hA : ∀ z : Draft, A z.bare = A z)
    (h : x.Alike y) : A x = A y := by
  rw [← hA x, h.bare_eq, hA]

theorem Alike.of_aggregate {a : AggregateDraft} (h : (aggregate a).Alike y) :
    ∃ source, y = aggregate { a with source } := by
  cases y with
  | aggregate a' =>
    obtain ⟨scope, resultType, factory, source, policy⟩ := a'
    have hbare := h.bare_eq
    simp only [bare, aggregate.injEq, AggregateDraft.mk.injEq] at hbare
    obtain ⟨rfl, rfl, rfl, -, rfl⟩ := hbare
    exact ⟨source, rfl⟩
  | pattern => exact absurd h.bare_eq (by simp [bare])

theorem Alike.of_pattern {p : PatternDraft} (h : (pattern p).Alike y) :
    ∃ source, y = pattern { p with source } := by
  cases y with
  | aggregate => exact absurd h.bare_eq (by simp [bare])
  | pattern p' =>
    obtain ⟨scope, declaration, conditions, source, policy⟩ := p'
    have hbare := h.bare_eq
    simp only [bare, pattern.injEq, PatternDraft.mk.injEq] at hbare
    obtain ⟨rfl, rfl, rfl, -, rfl⟩ := hbare
    exact ⟨source, rfl⟩

theorem Alike.scope_eq (h : x.Alike y) : x.scope = y.scope :=
  h.congr fun z => by cases z <;> rfl

theorem Effect.pristine_eq (h : Effect l request o) : o.state.pristine = l.pristine := by
  cases h <;> rfl

/-- What stands inside a link stays, whatever call is made on the link. -/
theorem Effect.inner?_eq (h : Effect l request o) (hx : l.inner? = some x) :
    o.state.inner? = some x := by
  cases h with
  | sourceDeclared hnone => exact absurd hx (by simp [inner?, hnone])
  | sourceBound hnone => exact absurd hx (by simp [inner?, hnone])
  | nested hnone => exact absurd hx (by simp [inner?, hnone])
  | _ => exact hx

/-! ## How a definition is begun, and a link inside it -/

/-- How a link is begun. -/
inductive Opening where
  | aggregate (resultType : DataType) (policy : Policy)
  | pattern (declaration : Declaration) (policy : Policy)

/-- The link that is begun in a scope. -/
def start (parent : Scope) : Opening → Draft
  | .aggregate resultType policy => aggregate (.start resultType parent policy)
  | .pattern declaration policy => pattern (.start parent declaration policy)

/-- An aggregate that is begun in a root scope, under the default policy. -/
def startSum : Draft := start (.root "Rule") (.aggregate (.named "Sum") {})

section Start

variable {parent : Scope} {opening : Opening}

@[simp] theorem inner?_start : (start parent opening).inner? = none := by
  cases opening <;> rfl

@[simp] theorem scope_start :
    (start parent opening).scope = parent.child (start parent opening).label := by
  cases opening <;> rfl

/-- A link that is begun inside another: in its scope, under its policy, and of the other kind. -/
structure BegunIn (x y : Draft) : Prop where
  eq_start : ∃ opening, y = start x.scope opening
  policy_eq : y.policy = x.policy
  label_eq : y.label = innerLabel x.label

theorem BegunIn.inner?_eq (h : BegunIn x y) : y.inner? = none := by
  obtain ⟨opening, rfl⟩ := h.eq_start
  exact inner?_start

theorem BegunIn.scope_eq (h : BegunIn x y) : y.scope = x.scope.child y.label := by
  obtain ⟨opening, rfl⟩ := h.eq_start
  exact scope_start

/-- **A call that puts a link inside begins it there.** -/
theorem Effect.begun (h : Effect l request o) (hl : l.inner? = none)
    (hx : o.state.inner? = some x) : BegunIn o.state x := by
  cases h with
  | @sourceDeclared d type name? name =>
    obtain rfl := Option.some.inj hx
    exact ⟨⟨.pattern ⟨name, type, d.scope.path⟩ d.policy, rfl⟩, rfl, rfl⟩
  | @sourceBound d b =>
    obtain rfl := Option.some.inj hx
    exact ⟨⟨.pattern b d.policy, rfl⟩, rfl, rfl⟩
  | @nested d resultType =>
    obtain rfl := Option.some.inj hx
    exact ⟨⟨.aggregate resultType d.policy, rfl⟩, rfl, rfl⟩
  | _ => exact absurd (hl.symm.trans hx) (by simp)

end Start

/-! ## Where a call goes -/

theorem link?_succ (h : d.inner? = some x) (n : Nat) : d.link? (n + 1) = x.link? n := by
  rw [link?, h, Option.bind_some]

/-- The link behind another is the one that stands inside it. -/
theorem link?_succ_eq_bind (d : Draft) (n : Nat) : d.link? (n + 1) = (d.link? n).bind inner? := by
  induction n generalizing d with
  | zero => cases h : d.inner? <;> simp [link?, h]
  | succ n ih =>
    calc d.inner?.bind (link? (n + 1))
      _ = d.inner?.bind fun x => (x.link? n).bind inner? := congrArg _ (funext ih)
      _ = (d.link? (n + 1)).bind inner? := (Option.bind_assoc ..).symm

/-- A definition in which nothing stands inside is its only link. -/
theorem eq_of_link? (h : d.inner? = none) (hx : d.link? n = some x) : n = 0 ∧ x = d := by
  cases n with
  | zero => exact ⟨rfl, (Option.some.inj hx).symm⟩
  | succ n => exact absurd hx (by rw [link?, h]; simp)

theorem link?_add (h : d.link? n = some l) (m : Nat) : d.link? (n + m) = l.link? m := by
  induction n generalizing d with
  | zero =>
    obtain rfl := Option.some.inj h
    rw [Nat.zero_add]
  | succ n ih =>
    obtain ⟨x, hx, hl⟩ := Option.bind_eq_some_iff.mp h
    rw [Nat.add_right_comm, link?_succ hx]
    exact ih hl

theorem perform_toAggregate (a : AggregateDraft) (request : AggregateRequest) :
    (aggregate a).perform (.toAggregate request) 0 =
      .ok (((AggregateDraft.attempt request).run a).mapState aggregate) := rfl

theorem perform_toPattern (p : PatternDraft) (request : PatternRequest) :
    (pattern p).perform (.toPattern request) 0 =
      .ok (((PatternDraft.attempt request).run p).mapState pattern) := rfl

theorem perform_succ_of_error (hx : d.inner? = some x) (h : x.perform request n = .error why) :
    d.perform request (n + 1) = .error why := by
  cases d with
  | aggregate d =>
    obtain ⟨p, hp, rfl⟩ := Option.map_eq_some_iff.mp hx
    cases hpp : p.perform request n with
    | error => simp_all [perform, AggregateDraft.perform, Except.map]
    | ok => simp_all [perform, Except.map]
  | pattern d =>
    obtain ⟨a, ha, rfl⟩ := Option.map_eq_some_iff.mp hx
    cases haa : a.perform request n with
    | error => simp_all [perform, PatternDraft.perform, Except.map]
    | ok => simp_all [perform, Except.map]

theorem perform_succ_of_ok (hx : d.inner? = some x) (h : x.perform request n = .ok o) :
    ∃ d', d.perform request (n + 1) = .ok ⟨o.answer, d', o.events⟩ ∧ d'.bare = d.bare ∧
      d'.inner? = some o.state := by
  cases d with
  | aggregate d =>
    obtain ⟨p, hp, rfl⟩ := Option.map_eq_some_iff.mp hx
    cases hpp : p.perform request n with
    | error => simp_all [perform, Except.map]
    | ok op =>
      rw [perform, hpp] at h
      obtain rfl := Except.ok.inj h
      refine ⟨aggregate { d with source := some op.state }, ?_, rfl, rfl⟩
      rw [perform, AggregateDraft.perform, hp]
      simp only [hpp]
      rfl
  | pattern d =>
    obtain ⟨a, ha, rfl⟩ := Option.map_eq_some_iff.mp hx
    cases haa : a.perform request n with
    | error => simp_all [perform, Except.map]
    | ok oa =>
      rw [perform, haa] at h
      obtain rfl := Except.ok.inj h
      refine ⟨pattern { d with source := some oa.state }, ?_, rfl, rfl⟩
      rw [perform, PatternDraft.perform, ha]
      simp only [haa]
      rfl

theorem perform_of_link?_eq_none (h : d.link? n = none) :
    d.perform request n = .error .noSuchLink := by
  induction n generalizing d with
  | zero => exact absurd h (by simp [link?])
  | succ n ih =>
    cases hx : d.inner? with
    | some x =>
      rw [link?_succ hx] at h
      exact perform_succ_of_error hx (ih h)
    | none =>
      cases d with
      | aggregate d =>
        rw [perform, AggregateDraft.perform, Option.map_eq_none_iff.mp hx]
        rfl
      | pattern d =>
        rw [perform, PatternDraft.perform, Option.map_eq_none_iff.mp hx]
        rfl

theorem perform_of_link?_of_error (h : d.link? n = some l) (hl : l.perform request 0 = .error why) :
    d.perform request n = .error why := by
  induction n generalizing d with
  | zero =>
    obtain rfl := Option.some.inj h
    exact hl
  | succ n ih =>
    obtain ⟨x, hx, hxl⟩ := Option.bind_eq_some_iff.mp h
    exact perform_succ_of_error hx (ih hxl)

/-- A definition with another link in the place of one of its links. -/
structure Replaced (d : Draft) (n : Nat) (l' d' : Draft) : Prop where
  inward : ∀ m, d'.link? (n + m) = l'.link? m
  outward : ∀ m < n, ∃ x y, d.link? m = some x ∧ d'.link? m = some y ∧ x.Alike y

theorem pristine_of_perform {n : Nat} (h : d.perform request n = .ok o) :
    o.state.pristine = d.pristine := by
  cases n with
  | zero => exact (effect_of_perform h).pristine_eq
  | succ n =>
    cases hx : d.inner? with
    | none =>
      rw [perform_of_link?_eq_none (by rw [link?, hx]; rfl)] at h
      exact absurd h (by simp)
    | some x =>
      cases hp : x.perform request n with
      | error why =>
        rw [perform_succ_of_error hx hp] at h
        exact absurd h (by simp)
      | ok o' =>
        obtain ⟨d', hd', hbare, -⟩ := perform_succ_of_ok hx hp
        rw [hd'] at h
        obtain rfl := Except.ok.inj h
        exact pristine_eq_of_bare_eq hbare

/-- **A call goes its way on its link, and leaves the links outside as they are.** -/
theorem perform_of_link?_of_ok (h : d.link? n = some l) (hl : l.perform request 0 = .ok o) :
    ∃ d', d.perform request n = .ok ⟨o.answer, d', o.events⟩ ∧ Replaced d n o.state d' := by
  induction n generalizing d with
  | zero =>
    obtain rfl := Option.some.inj h
    exact ⟨o.state, hl, fun m => by rw [Nat.zero_add], fun m hm => absurd hm (Nat.not_lt_zero m)⟩
  | succ n ih =>
    obtain ⟨x, hx, hxl⟩ := Option.bind_eq_some_iff.mp h
    obtain ⟨x', hx', hinward, houtward⟩ := ih hxl
    obtain ⟨d', hd', hbare, hinner⟩ := perform_succ_of_ok hx hx'
    refine ⟨d', hd', fun m => ?_, fun m hm => ?_⟩
    · rw [Nat.add_right_comm, link?_succ hinner, hinward]
    · cases m with
      | zero =>
        refine ⟨d, d', rfl, rfl, hbare.symm, ?_⟩
        rw [hx, hinner, Option.map_some, Option.map_some, pristine_of_perform hx']
      | succ m =>
        rw [link?_succ hx, link?_succ hinner]
        exact houtward m (Nat.lt_of_succ_lt_succ hm)

/-! ## Calls -/

/-- A request, with the number of links that it stands further in. -/
structure Call where
  depth : Nat
  request : Request

variable {c : Call} {cs : List Call}

/-- The definition after a call; a call that reaches no link leaves it as it is. -/
def next (d : Draft) (c : Call) : Draft :=
  match d.perform c.request c.depth with
  | .ok o => o.state
  | .error _ => d

/-- The definition after some calls. -/
def after (d : Draft) (cs : List Call) : Draft := cs.foldl next d

@[simp] theorem after_nil (d : Draft) : d.after [] = d := rfl

@[simp] theorem after_cons (d : Draft) (c : Call) (cs : List Call) :
    d.after (c :: cs) = (d.next c).after cs := rfl

theorem after_append (d : Draft) (cs cs' : List Call) :
    d.after (cs ++ cs') = (d.after cs).after cs' := List.foldl_append

theorem after_concat (d : Draft) (cs : List Call) (c : Call) :
    d.after (cs ++ [c]) = (d.after cs).next c := after_append d cs [c]

theorem next_of_error (h : d.perform c.request c.depth = .error why) : d.next c = d := by
  rw [next, h]

theorem next_of_ok (h : d.perform c.request c.depth = .ok o) : d.next c = o.state := by
  rw [next, h]

/-- A call reaches a link that takes it, or nothing happens. -/
theorem reached_or_missed (d : Draft) (c : Call) :
    (∃ l o, d.link? c.depth = some l ∧ l.perform c.request 0 = .ok o) ∨
      ∃ why, d.perform c.request c.depth = .error why := by
  cases hl : d.link? c.depth with
  | none => exact Or.inr ⟨_, perform_of_link?_eq_none hl⟩
  | some l =>
    cases ho : l.perform c.request 0 with
    | error why => exact Or.inr ⟨why, perform_of_link?_of_error hl ho⟩
    | ok o => exact Or.inl ⟨l, o, rfl, ho⟩

theorem replaced_next (hl : d.link? c.depth = some l) (ho : l.perform c.request 0 = .ok o) :
    Replaced d c.depth o.state (d.next c) := by
  obtain ⟨d', hd', hreplaced⟩ := perform_of_link?_of_ok hl ho
  rwa [next_of_ok hd']

/-- Where a link comes from that a definition has after a call. -/
inductive Origin (d : Draft) (c : Call) : Nat → Draft → Prop
  /-- The call reached nothing. -/
  | missed {n : Nat} {x : Draft} {why : Misaddressed}
      (h : d.perform c.request c.depth = .error why) (hx : d.link? n = some x) : Origin d c n x
  /-- The call was made on another link. -/
  | kept {n : Nat} {x y : Draft} (hn : n ≠ c.depth) (hx : d.link? n = some x) (h : x.Alike y) :
      Origin d c n y
  /-- The call was made on this link. -/
  | called {l : Draft} {o : Outcome Draft (Option Declaration)} (hl : d.link? c.depth = some l)
      (ho : l.perform c.request 0 = .ok o) : Origin d c c.depth o.state
  /-- The call started this link, behind the last. -/
  | started {l y : Draft} {o : Outcome Draft (Option Declaration)}
      (hl : d.link? c.depth = some l) (hlast : l.inner? = none)
      (ho : l.perform c.request 0 = .ok o) (hy : o.state.inner? = some y) :
      Origin d c (c.depth + 1) y

/-- **A link was there before the call, or the call started it.** -/
theorem origin (h : (d.next c).link? n = some y) : Origin d c n y := by
  rcases reached_or_missed d c with ⟨l, o, hl, ho⟩ | ⟨why, hmissed⟩
  · have hreplaced := replaced_next hl ho
    rcases Nat.lt_trichotomy n c.depth with hn | rfl | hn
    · obtain ⟨x, y', hx, hy', halike⟩ := hreplaced.outward n hn
      obtain rfl := Option.some.inj (hy'.symm.trans h)
      exact .kept (Nat.ne_of_lt hn) hx halike
    · have hcalled := hreplaced.inward 0
      rw [Nat.add_zero, h] at hcalled
      obtain rfl := Option.some.inj hcalled
      exact .called hl ho
    · obtain ⟨k, rfl⟩ := Nat.exists_eq_add_of_lt hn
      rw [Nat.add_assoc, hreplaced.inward] at h
      obtain ⟨z, hz, hzy⟩ := Option.bind_eq_some_iff.mp h
      cases hinner : l.inner? with
      | some x =>
        obtain rfl := Option.some.inj (((effect_of_perform ho).inner?_eq hinner).symm.trans hz)
        refine .kept (Nat.ne_of_gt hn) ?_ ⟨rfl, rfl⟩
        rw [Nat.add_assoc, link?_add hl, link?_succ hinner, hzy]
      | none =>
        have hfresh := ((effect_of_perform ho).begun hinner hz).inner?_eq
        cases k with
        | zero =>
          obtain rfl := Option.some.inj hzy
          exact .started hl hinner ho hz
        | succ k =>
          rw [link?, hfresh] at hzy
          exact absurd hzy (by simp)
  · rw [next_of_error hmissed] at h
    exact .missed hmissed h

/-- **No call takes a link away.** -/
theorem link?_next (h : d.link? n = some x) (c : Call) : ∃ y, (d.next c).link? n = some y := by
  rcases reached_or_missed d c with ⟨l, o, hl, ho⟩ | ⟨why, hmissed⟩
  · have hreplaced := replaced_next hl ho
    rcases Nat.lt_trichotomy n c.depth with hn | rfl | hn
    · obtain ⟨x, y, -, hy, -⟩ := hreplaced.outward n hn
      exact ⟨y, hy⟩
    · exact ⟨o.state, hreplaced.inward 0⟩
    · obtain ⟨k, rfl⟩ := Nat.exists_eq_add_of_lt hn
      rw [Nat.add_assoc] at h ⊢
      rw [link?_add hl] at h
      obtain ⟨z, hz, hzx⟩ := Option.bind_eq_some_iff.mp h
      exact ⟨x, by rw [hreplaced.inward, link?_succ ((effect_of_perform ho).inner?_eq hz), hzx]⟩
  · exact ⟨x, by rw [next_of_error hmissed, h]⟩

theorem link?_after (h : d.link? n = some x) (cs : List Call) :
    ∃ y, (d.after cs).link? n = some y := by
  induction cs generalizing d x with
  | nil => exact ⟨x, h⟩
  | cons c cs ih =>
    obtain ⟨y, hy⟩ := link?_next h c
    exact ih hy

/-- **A law about links holds along a run** if it does not depend on what stands inside a link, and
every call keeps it on its own link and hands it on to a link that it starts. -/
theorem forall_link_after {I : Nat → Draft → Prop} (halike : ∀ n x y, I n x → x.Alike y → I n y)
    (heffect : ∀ n l c o, c ∈ cs → I n l → Effect l c.request o → I n o.state)
    (hbegun : ∀ n x y, I n x → BegunIn x y → I (n + 1) y)
    (hd : ∀ n x, d.link? n = some x → I n x) :
    ∀ n x, (d.after cs).link? n = some x → I n x := by
  induction cs using List.reverseRecOn with
  | nil => exact hd
  | append_singleton cs c ih =>
    have ih := ih fun n l c' o hc' => heffect n l c' o (List.mem_append_left _ hc')
    have hc : c ∈ cs ++ [c] := List.mem_append_right _ List.mem_cons_self
    intro n y hy
    rw [after_concat] at hy
    cases origin hy with
    | missed _ hx => exact ih n y hx
    | kept _ hx hxy => exact halike n _ y (ih n _ hx) hxy
    | called hl ho => exact heffect _ _ c _ hc (ih _ _ hl) (effect_of_perform ho)
    | started hl hlast ho hy =>
      have he := effect_of_perform ho
      exact hbegun _ _ y (heffect _ _ c _ hc (ih _ _ hl) he) (he.begun hlast hy)

/-! ## Where a link is started -/

/-- The scope in which a link was started, as it was then: the one where the definition was begun,
or that of the link around it right after the call that put a link inside. -/
inductive StartedIn (parent : Scope) (opening : Opening) (cs : List Call) : Nat → Scope → Prop
  | outermost : StartedIn parent opening cs 0 parent
  | inner {before later : List Call} {c : Call} {n : Nat} {l : Draft}
      (hcs : cs = before ++ c :: later)
      (hbefore : ((start parent opening).after before).link? (n + 1) = none)
      (hafter : ((start parent opening).after (before ++ [c])).link? (n + 1) ≠ none)
      (hl : ((start parent opening).after (before ++ [c])).link? n = some l) :
      StartedIn parent opening cs (n + 1) l.scope

section StartedIn

variable {parent s s' : Scope} {opening : Opening}

theorem StartedIn.concat (h : StartedIn parent opening cs n s) (c : Call) :
    StartedIn parent opening (cs ++ [c]) n s := by
  cases h with
  | outermost => exact .outermost
  | @inner before later c' n l hcs hbefore hafter hl =>
    have hlonger : cs ++ [c] = before ++ c' :: (later ++ [c]) := by
      rw [hcs, List.append_assoc, List.cons_append]
    exact .inner hlonger hbefore hafter hl

/-- **A link is started once.** -/
theorem StartedIn.unique (h : StartedIn parent opening cs n s)
    (h' : StartedIn parent opening cs n s') : s = s' := by
  -- a link that a call has started is there from then on
  have hle : ∀ {before before' later later' : List Call} {c c' : Call} {n : Nat},
      before ++ c :: later = before' ++ c' :: later' →
      ((start parent opening).after (before ++ [c])).link? (n + 1) ≠ none →
      ((start parent opening).after before').link? (n + 1) = none →
      before'.length ≤ before.length := by
    intro before before' later later' c c' n heq hafter hbefore
    by_contra hlt
    have hstarted : before ++ [c] <+: before ++ c :: later := ⟨later, by simp⟩
    have hprefix : before ++ [c] <+: before' := by
      refine List.prefix_of_prefix_length_le hstarted ⟨c' :: later', heq.symm⟩ ?_
      rw [List.length_append, List.length_singleton]
      omega
    obtain ⟨rest, rfl⟩ := hprefix
    obtain ⟨x, hx⟩ := Option.ne_none_iff_exists'.mp hafter
    obtain ⟨y, hy⟩ := link?_after hx rest
    rw [← after_append, hbefore] at hy
    exact absurd hy (by simp)
  cases h with
  | outermost => cases h'; rfl
  | @inner before later c n l hcs hbefore hafter hl =>
    cases h' with
    | @inner before' later' c' _ l' hcs' hbefore' hafter' hl' =>
      have heq := hcs.symm.trans hcs'
      have hlength := Nat.le_antisymm (hle heq.symm hafter' hbefore) (hle heq hafter hbefore')
      obtain ⟨rfl, htail⟩ := List.append_inj heq hlength
      rw [(List.cons.inj htail).1, hl'] at hl
      rw [Option.some.inj hl]

/-- **The scope of a link is a child of the one that it was started in, as that was then**, but for
the bindings that were declared in it since. -/
theorem child_of_startedIn (parent : Scope) (opening : Opening) (cs : List Call) :
    ∀ n x, ((start parent opening).after cs).link? n = some x →
      ∃ s, StartedIn parent opening cs n s ∧ x.pristine.scope = s.child x.pristine.label := by
  induction cs using List.reverseRecOn with
  | nil =>
    intro n x hx
    obtain ⟨rfl, rfl⟩ := eq_of_link? inner?_start hx
    exact ⟨parent, .outermost, by cases opening <;> rfl⟩
  | append_singleton cs c ih =>
    intro n y hy
    have hlink := hy
    rw [after_concat] at hy
    cases origin hy with
    | missed _ hx =>
      obtain ⟨s, hs, hchild⟩ := ih n y hx
      exact ⟨s, hs.concat c, hchild⟩
    | kept _ hx hxy =>
      obtain ⟨s, hs, hchild⟩ := ih n _ hx
      exact ⟨s, hs.concat c, pristine_eq_of_bare_eq hxy.bare_eq ▸ hchild⟩
    | called hl ho =>
      obtain ⟨s, hs, hchild⟩ := ih _ _ hl
      exact ⟨s, hs.concat c, (effect_of_perform ho).pristine_eq ▸ hchild⟩
    | started hl hlast ho hy =>
      have hnone : ((start parent opening).after cs).link? (c.depth + 1) = none := by
        rw [link?_succ_eq_bind, hl, Option.bind_some, hlast]
      have houter := (replaced_next hl ho).inward 0
      rw [Nat.add_zero, ← after_concat] at houter
      refine ⟨_, .inner rfl hnone (by rw [hlink]; simp) houter, ?_⟩
      obtain ⟨opening', rfl⟩ := ((effect_of_perform ho).begun hlast hy).eq_start
      cases opening' <;> rfl

/-- **A link sees what was visible where it was started, as it was then**, and its own bindings. -/
theorem inherited_eq_of_startedIn (parent : Scope) (opening : Opening) (cs : List Call) (n : Nat)
    (x : Draft) (hx : ((start parent opening).after cs).link? n = some x) :
    ∃ s, StartedIn parent opening cs n s ∧ x.scope.inherited = s.visible := by
  obtain ⟨s, hs, hchild⟩ := child_of_startedIn parent opening cs n x hx
  exact ⟨s, hs, (inherited_pristine x).symm.trans (congrArg Scope.inherited hchild)⟩

end StartedIn

/-! ## The log of a run -/

/-- A call with what it answered and what it let be observed. -/
structure Entry where
  call : Call
  answer : Except Misaddressed (Except Fault (Option Declaration))
  events : List Event

/-- Whether a call did what was asked. -/
def Entry.granted (e : Entry) : Bool :=
  match e.answer with
  | .ok (.ok _) => true
  | _ => false

/-- A call with what it answers. -/
def enter (d : Draft) (c : Call) : Entry :=
  match d.perform c.request c.depth with
  | .ok o => ⟨c, .ok o.answer, o.events⟩
  | .error why => ⟨c, .error why, []⟩

/-- The calls of a run, each with what it answers when its turn comes. -/
def log : Draft → List Call → List Entry
  | _, [] => []
  | d, c :: cs => d.enter c :: (d.next c).log cs

theorem log_append (d : Draft) (cs cs' : List Call) :
    d.log (cs ++ cs') = d.log cs ++ (d.after cs).log cs' := by
  induction cs generalizing d with
  | nil => rfl
  | cons c cs ih => rw [List.cons_append, log, log, ih, after_cons, List.cons_append]

theorem log_concat (d : Draft) (cs : List Call) (c : Call) :
    d.log (cs ++ [c]) = d.log cs ++ [(d.after cs).enter c] := log_append d cs [c]

/-- An entry of the log of a run stands for one of its calls. -/
theorem mem_log {e : Entry} (h : e ∈ d.log cs) :
    ∃ before c later, cs = before ++ c :: later ∧ e = (d.after before).enter c := by
  induction cs generalizing d with
  | nil => exact absurd h List.not_mem_nil
  | cons c cs ih =>
    rcases List.mem_cons.mp h with rfl | h
    · exact ⟨[], c, cs, rfl, rfl⟩
    · obtain ⟨before, c', later, rfl, he⟩ := ih h
      exact ⟨c :: before, c', later, rfl, he⟩

theorem enter_of_error (h : d.perform c.request c.depth = .error why) :
    d.enter c = ⟨c, .error why, []⟩ := by
  rw [enter, h]

theorem enter_of_link? (hl : d.link? c.depth = some l) (ho : l.perform c.request 0 = .ok o) :
    d.enter c = ⟨c, .ok o.answer, o.events⟩ := by
  obtain ⟨d', hd', -⟩ := perform_of_link?_of_ok hl ho
  rw [enter, hd']

@[simp] theorem call_enter (d : Draft) (c : Call) : (d.enter c).call = c := by
  unfold enter
  split <;> rfl

/-! ## What a link gathers from the calls that are made on it -/

section Gathered

variable {β γ : Type} {f : Entry → Option β} {A : Draft → γ} {first : γ} {step : γ → β → γ}

/-- What an entry tells, if its call was made at a depth. -/
def Entry.toldAt (f : Entry → Option β) (n : Nat) (e : Entry) : Option β :=
  if e.call.depth = n then f e else none

/-- What a log tells of the calls at one depth. -/
def readAt (f : Entry → Option β) (n : Nat) (log : List Entry) : List β :=
  log.filterMap (Entry.toldAt f n)

/-- What the link at a depth has gathered; before it is started, that is what it starts with. -/
def gatheredAt (A : Draft → γ) (first : γ) (n : Nat) (d : Draft) : γ :=
  ((d.link? n).map A).getD first

/-- Something that a link gathers: every call on the link adds what its entry tells. -/
structure Gathered (A : Draft → γ) (first : γ) (f : Entry → Option β) (step : γ → β → γ) :
    Prop where
  missed : ∀ c why events, f ⟨c, .error why, events⟩ = none
  alike : ∀ x y, x.Alike y → A x = A y
  effect : ∀ l c o, Effect l c.request o →
    A o.state = (f ⟨c, .ok o.answer, o.events⟩).toList.foldl step (A l)
  start : ∀ parent opening, A (start parent opening) = first

theorem readAt_cons (e : Entry) (log : List Entry) :
    readAt f n (e :: log) = (e.toldAt f n).toList ++ readAt f n log := by
  rw [readAt, List.filterMap_cons]
  cases e.toldAt f n <;> rfl

theorem readAt_singleton (e : Entry) : readAt f n [e] = (e.toldAt f n).toList :=
  (readAt_cons e []).trans (List.append_nil _)

theorem readAt_append (log log' : List Entry) :
    readAt f n (log ++ log') = readAt f n log ++ readAt f n log' := List.filterMap_append

theorem gatheredAt_of_link? (h : d.link? n = some x) : gatheredAt A first n d = A x := by
  rw [gatheredAt, h]
  rfl

theorem gatheredAt_of_eq_none (h : d.link? n = none) : gatheredAt A first n d = first := by
  rw [gatheredAt, h]
  rfl

theorem Gathered.gatheredAt_start (h : Gathered A first f step) (parent : Scope)
    (opening : Opening) (n : Nat) : gatheredAt A first n (Draft.start parent opening) = first := by
  cases hl : (Draft.start parent opening).link? n with
  | none => exact gatheredAt_of_eq_none hl
  | some l =>
    obtain ⟨-, rfl⟩ := eq_of_link? inner?_start hl
    rw [gatheredAt_of_link? hl, h.start]

/-- A call at another depth adds nothing, not even by starting a link. -/
theorem Gathered.next_of_ne (h : Gathered A first f step) (hn : n ≠ c.depth) :
    gatheredAt A first n (d.next c) = gatheredAt A first n d := by
  cases hy : (d.next c).link? n with
  | none =>
    have hx : d.link? n = none := by
      by_contra hsome
      obtain ⟨x, hx⟩ := Option.ne_none_iff_exists'.mp hsome
      obtain ⟨y, hy'⟩ := link?_next hx c
      exact absurd (hy.symm.trans hy') (by simp)
    rw [gatheredAt_of_eq_none hy, gatheredAt_of_eq_none hx]
  | some y =>
    rw [gatheredAt_of_link? hy]
    cases origin hy with
    | missed _ hx => rw [gatheredAt_of_link? hx]
    | kept _ hx hxy => rw [gatheredAt_of_link? hx, h.alike _ y hxy]
    | called => exact absurd rfl hn
    | started hl hlast ho hy =>
      have hx : d.link? (c.depth + 1) = none := by
        rw [link?_succ_eq_bind, hl, Option.bind_some, hlast]
      obtain ⟨opening, rfl⟩ := ((effect_of_perform ho).begun hlast hy).eq_start
      rw [gatheredAt_of_eq_none hx, h.start]

/-- **A call adds what its entry tells of the depth.** -/
theorem Gathered.next (h : Gathered A first f step) (d : Draft) (c : Call) (n : Nat) :
    gatheredAt A first n (d.next c) =
      ((d.enter c).toldAt f n).toList.foldl step (gatheredAt A first n d) := by
  rw [Entry.toldAt, call_enter]
  by_cases hn : n = c.depth
  · subst hn
    rw [if_pos rfl]
    rcases reached_or_missed d c with ⟨l, o, hl, ho⟩ | ⟨why, hmissed⟩
    · have hcalled := (replaced_next hl ho).inward 0
      rw [Nat.add_zero] at hcalled
      rw [gatheredAt_of_link? hcalled, gatheredAt_of_link? hl, enter_of_link? hl ho]
      exact h.effect l c o (effect_of_perform ho)
    · rw [next_of_error hmissed, enter_of_error hmissed, h.missed]
      rfl
  · rw [if_neg (Ne.symm hn), h.next_of_ne hn]
    rfl

/-- **What a link has gathered is what the log tells of its depth.** -/
theorem Gathered.after (h : Gathered A first f step) (d : Draft) (cs : List Call) (n : Nat) :
    gatheredAt A first n (d.after cs) =
      (readAt f n (d.log cs)).foldl step (gatheredAt A first n d) := by
  induction cs generalizing d with
  | nil => rfl
  | cons c cs ih => rw [after_cons, ih, h.next, log, readAt_cons, List.foldl_append]

/-- What is gathered in a list is, after a run, what the log tells. -/
theorem Gathered.eq_readAt {A : Draft → List β} (h : Gathered A [] f fun bs b => bs ++ [b])
    (parent : Scope) (opening : Opening) (cs : List Call) (n : Nat) :
    gatheredAt A [] n ((Draft.start parent opening).after cs) =
      readAt f n ((Draft.start parent opening).log cs) := by
  rw [h.after, h.gatheredAt_start, List.foldl_append_eq_append, ← List.flatMap_def,
    List.flatMap_singleton', List.nil_append]

end Gathered

end AggregateRules.Draft
