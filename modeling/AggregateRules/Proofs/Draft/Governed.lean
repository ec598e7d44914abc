import Mathlib.Order.Monotone.Basic
import AggregateRules.Proofs.Draft.Mirror
import AggregateRules.Proofs.Draft.Run

/-!
# Proofs/Draft/Governed — which selections a policy lets through

Six requests select a factory, and all of them fill the one slot of their link
(`Effect.selects_or_not`).  So the slot holds what was selected last (`factoryAt_after`).  A policy
is copied to every link that is started, and only a configuration changes it (`overwrite_after`):
from the moment the outermost link has its policy, the whole chain is under it.  Where the policy
rejects, a selection goes through only if the slot is empty, so the slot keeps what it holds or gets
first (`factoryAt_after_of_reject`).

A selection is told under the path of its link.  The paths along a chain grow (`pathAt`), so what is
told under one path is what was selected at one depth (`announced`).

**Main statement** (`selections_governed`): all this of a run in which the policy is put in place
while the outermost link stands alone.  What was selected before stays, even where it replaced
something that the policy would have kept (`late_reject_keeps_replacement`).
-/

namespace AggregateRules

namespace Draft

variable {d l : Draft} {c : Call} {cs : List Call} {n : Nat}
  {o : Outcome Draft (Option Declaration)}

/-! ## The slot of a link -/

/-- The factory that a link holds. -/
def factory? : Draft → Option SharedFactory
  | aggregate d => d.factory
  | pattern _ => none

/-- The factory that a call has selected. -/
def Entry.selected? (e : Entry) : Option SharedFactory :=
  match e.call.request, e.answer with
  | .toAggregate request, .ok (.ok _) => request.offer?.bind Except.toOption
  | _, _ => none

/-- The factories selected at one depth, in order. -/
def selectedAt (n : Nat) (log : List Entry) : List SharedFactory := readAt Entry.selected? n log

/-- The factory held at a depth. -/
def factoryAt (n : Nat) (d : Draft) : Option SharedFactory := gatheredAt factory? none n d

theorem factoryAt_of_link? (h : d.link? n = some l) : factoryAt n d = l.factory? :=
  gatheredAt_of_link? h

/-- The event that tells a selection in the scope of a path. -/
def announcement (path : String) (factory : SharedFactory) (replaced : Bool) : Event :=
  .strategySelected path factory.factory.kind factory.factory.name replaced

/-- **A call selects a factory**, and tells it, in a slot that it may fill; or it leaves the slot as
it is, and tells no selection. -/
theorem Effect.selects_or_not (he : Effect l c.request o) :
    (∃ factory, (Entry.mk c (.ok o.answer) o.events).selected? = some factory ∧
      o.state.factory? = some factory ∧ (l.factory? = none ∨ l.policy.overwrite = .allow) ∧
      o.events = [announcement l.path factory l.factory?.isSome]) ∨
    ((Entry.mk c (.ok o.answer) o.events).selected? = none ∧ o.state.factory? = l.factory? ∧
      ∀ event ∈ o.events, ∀ path, event.isSelectionIn path = false) := by
  rcases c with ⟨depth, request⟩
  cases he with
  | refused hevents => exact Or.inr ⟨by simp [Entry.selected?], rfl, hevents⟩
  | @selected _ _ factory hoffer hfree =>
    exact Or.inl ⟨factory, by simp [Entry.selected?, hoffer, Except.toOption], rfl, hfree, rfl⟩
  | _ => exact Or.inr ⟨rfl, rfl, by simp [Event.isSelectionIn]⟩

theorem factory_gathered :
    Gathered factory? none Entry.selected? fun _ factory => some factory where
  missed c why events := by simp [Entry.selected?]
  alike x y hxy := hxy.congr fun z => by cases z <;> rfl
  effect l c o he := by
    rcases he.selects_or_not with ⟨factory, htold, hheld, -⟩ | ⟨htold, hheld, -⟩
    · rw [htold, hheld]
      rfl
    · rw [htold, hheld]
      rfl
  start parent opening := by cases opening <;> rfl

/-- **The slot holds what was selected last.** -/
theorem factoryAt_after (d : Draft) (cs : List Call) (n : Nat) :
    factoryAt n (d.after cs) = (selectedAt n (d.log cs)).getLast?.or (factoryAt n d) := by
  have hlast : ∀ (held : Option SharedFactory) (fs : List SharedFactory),
      fs.foldl (fun _ factory => some factory) held = fs.getLast?.or held := fun held fs => by
    induction fs using List.reverseRecOn with
    | nil => rfl
    | append_singleton fs factory => simp
  exact (factory_gathered.after d cs n).trans (hlast _ _)

/-! ## Under one policy -/

/-- **A policy is handed on to every link that is started**, and stays until another is put in its
place. -/
theorem overwrite_after {overwrite : Overwrite} (hcs : ∀ c ∈ cs, ∀ p, c.request ≠ .configure p)
    (hd : ∀ n x, d.link? n = some x → x.policy.overwrite = overwrite) :
    ∀ n x, (d.after cs).link? n = some x → x.policy.overwrite = overwrite := by
  refine forall_link_after (fun _ x y hx hxy => ?_) (fun _ l c o hc hl he => ?_)
    (fun _ x y hx hxy => hxy.policy_eq ▸ hx) hd
  · have hpolicy : x.policy = y.policy := hxy.congr fun z => by cases z <;> rfl
    exact hpolicy ▸ hx
  · have hrequest := hcs c hc
    rcases c with ⟨depth, request⟩
    cases he with
    | aggregateConfigured | patternConfigured => exact absurd rfl (hrequest _)
    | _ => exact hl

/-- A call that selects finds an empty slot where the policy rejects. -/
theorem factoryAt_next_of_reject (hd : ∀ n x, d.link? n = some x → x.policy.overwrite = .reject)
    (c : Call) (n : Nat) :
    factoryAt n (d.next c) = (factoryAt n d).or ((d.enter c).toldAt Entry.selected? n) := by
  rw [factoryAt, factory_gathered.next, ← factoryAt, Entry.toldAt, call_enter]
  split
  case isFalse => simp
  case isTrue hdepth =>
    subst hdepth
    rcases reached_or_missed d c with ⟨l, o, hl, ho⟩ | ⟨why, hmissed⟩
    · rw [enter_of_link? hl ho, factoryAt_of_link? hl]
      rcases (effect_of_perform ho).selects_or_not with ⟨factory, htold, -, hfree, -⟩ | ⟨htold, -⟩
      · have hempty : l.factory? = none := hfree.resolve_right (by simp [hd _ l hl])
        rw [htold, hempty]
        rfl
      · rw [htold, Option.or_none]
        rfl
    · rw [enter_of_error hmissed, factory_gathered.missed, Option.or_none]
      rfl

/-- **Where the policy rejects, the slot keeps what it holds**, or gets first. -/
theorem factoryAt_after_of_reject (hcs : ∀ c ∈ cs, ∀ p, c.request ≠ .configure p)
    (hd : ∀ n x, d.link? n = some x → x.policy.overwrite = .reject) (n : Nat) :
    factoryAt n (d.after cs) = (factoryAt n d).or (selectedAt n (d.log cs)).head? := by
  induction cs generalizing d with
  | nil => exact (Option.or_none).symm
  | cons c cs ih =>
    obtain ⟨hc, hcs⟩ := List.forall_mem_cons.mp hcs
    have hnext : ∀ n x, (d.next c).link? n = some x → x.policy.overwrite = .reject :=
      overwrite_after (List.forall_mem_singleton.mpr hc) hd
    rw [after_cons, ih hcs hnext, factoryAt_next_of_reject hd, Option.or_assoc, log, selectedAt,
      selectedAt, readAt_cons, List.head?_append, Option.head?_toList]

/-- **Where the policy rejects, a selection is turned down** if the slot is filled, whatever way its
factory was found. -/
theorem answer_enter_of_reject {a : AggregateDraft} {request : AggregateRequest}
    {factory : SharedFactory} (hl : d.link? c.depth = some (.aggregate a))
    (hreject : a.policy.overwrite = .reject) (hfilled : a.factory ≠ none)
    (hrequest : c.request = .toAggregate request) (hoffer : request.offer? = some (.ok factory)) :
    (d.enter c).answer = .ok (.error (.factoryAlreadyConfigured a.scope.path)) := by
  have hrun := AggregateDraft.run_attempt_of_offer (d := a) hoffer
  rw [if_pos ⟨Option.isSome_iff_ne_none.mpr hfilled, hreject⟩] at hrun
  have hperform : (aggregate a).perform c.request 0 =
      .ok ⟨.error (.factoryAlreadyConfigured a.scope.path), aggregate a, []⟩ := by
    rw [hrequest, perform_toAggregate, hrun]
    rfl
  rw [enter_of_link? hl hperform]

/-- Only a link with a filled slot, under a policy that rejects, turns a selection down for that. -/
theorem Effect.rejects {request : Request} (he : Effect l request o) {path : String}
    (h : o.answer = .error (.factoryAlreadyConfigured path)) : l.Rejects := by
  cases he with
  | refused _ hfault => exact hfault path (Except.error.inj h)
  | _ => exact absurd h (by simp)

theorem Rejects.overwrite_eq (h : l.Rejects) : l.policy.overwrite = .reject := by
  cases l with
  | aggregate => exact h.2
  | pattern => exact h.elim

/-- **Where the policy allows, no selection is turned down** for a slot that is filled. -/
theorem answer_ne_of_allow (hcs : ∀ c ∈ cs, ∀ p, c.request ≠ .configure p)
    (hd : ∀ n x, d.link? n = some x → x.policy.overwrite = .allow) {e : Entry} (h : e ∈ d.log cs)
    (path : String) : e.answer ≠ .ok (.error (.factoryAlreadyConfigured path)) := by
  obtain ⟨before, c, later, rfl, rfl⟩ := mem_log h
  rcases reached_or_missed (d.after before) c with ⟨l, o, hl, ho⟩ | ⟨why, hmissed⟩
  · rw [enter_of_link? hl ho]
    intro hanswer
    have hallow := overwrite_after (fun c hc => hcs c (List.mem_append_left _ hc)) hd _ l hl
    have hreject := ((effect_of_perform ho).rejects (Except.ok.inj hanswer)).overwrite_eq
    exact absurd (hallow.symm.trans hreject) (by simp)
  · rw [enter_of_error hmissed]
    simp

/-! ## The paths along a chain -/

theorem path_eq_scope (x : Draft) : x.path = x.scope.path := by
  cases x <;> rfl

/-- The label of the link at a depth. -/
def labelAt (parent : Scope) (opening : Opening) : Nat → String
  | 0 => (start parent opening).label
  | n + 1 => innerLabel (labelAt parent opening n)

/-- The path of the link at a depth. -/
def pathAt (parent : Scope) (opening : Opening) : Nat → String
  | 0 => parent.path ++ scopeSeparator ++ labelAt parent opening 0
  | n + 1 => pathAt parent opening n ++ scopeSeparator ++ labelAt parent opening (n + 1)

/-- **Paths grow along a chain.** -/
theorem pathAt_injective (parent : Scope) (opening : Opening) :
    Function.Injective (pathAt parent opening) := by
  have hgrow : StrictMono fun n => (pathAt parent opening n).length := by
    refine strictMono_nat_of_lt_succ fun n => ?_
    have hseparator : scopeSeparator.length = 1 := rfl
    simp only [pathAt, String.length_append, hseparator]
    omega
  exact fun m n h => hgrow.injective (congrArg String.length h)

theorem path_eq_pathAt (parent : Scope) (opening : Opening) (cs : List Call) :
    ∀ n x, ((start parent opening).after cs).link? n = some x →
      x.path = pathAt parent opening n := by
  have hboth : ∀ n x, ((start parent opening).after cs).link? n = some x →
      x.label = labelAt parent opening n ∧ x.path = pathAt parent opening n := by
    refine forall_link_after (fun n x y hx hxy => ?_) (fun n l c o _ hl he => ?_)
      (fun n x y hx hxy => ?_) (fun n x hx => ?_)
    · have hlabel : x.label = y.label := hxy.congr fun z => by cases z <;> rfl
      have hpath : x.path = y.path := hxy.congr fun z => by cases z <;> rfl
      exact ⟨hlabel ▸ hx.1, hpath ▸ hx.2⟩
    · rcases c with ⟨depth, request⟩
      cases he <;> exact hl
    · have hlabel : y.label = labelAt parent opening (n + 1) := by
        rw [hxy.label_eq, hx.1, labelAt]
      rw [path_eq_scope, hxy.scope_eq, Scope.path_child, pathAt, ← hlabel, ← path_eq_scope, hx.2]
      exact ⟨rfl, rfl⟩
    · obtain ⟨rfl, rfl⟩ := eq_of_link? inner?_start hx
      cases opening <;> exact ⟨rfl, rfl⟩
  exact fun n x hx => (hboth n x hx).2

/-! ## What is told of the selections -/

/-- What is to be told of the factories selected at a path, in order: all but the first replace
one. -/
def announcements (path : String) (factories : List SharedFactory) : List Event :=
  factories.mapIdx fun i factory => announcement path factory (i != 0)

theorem announcements_concat (path : String) (factories : List SharedFactory)
    (factory : SharedFactory) :
    announcements path (factories ++ [factory]) =
      announcements path factories ++ [announcement path factory (factories.length != 0)] :=
  List.mapIdx_concat

theorem factoryAt_start (parent : Scope) (opening : Opening) (n : Nat) :
    factoryAt n (start parent opening) = none := factory_gathered.gatheredAt_start parent opening n

/-- A call tells its selection under the path of its depth. -/
theorem filter_events_enter (parent : Scope) (opening : Opening) (cs : List Call) (c : Call)
    (n : Nat) :
    (((start parent opening).after cs).enter c).events.filter
        (Event.isSelectionIn (pathAt parent opening n)) =
      ((((start parent opening).after cs).enter c).toldAt Entry.selected? n).toList.map
        fun factory => announcement (pathAt parent opening n) factory
          (factoryAt n ((start parent opening).after cs)).isSome := by
  rw [Entry.toldAt, call_enter]
  rcases reached_or_missed ((start parent opening).after cs) c with ⟨l, o, hl, ho⟩ | ⟨why, hmissed⟩
  · rw [enter_of_link? hl ho]
    rcases (effect_of_perform ho).selects_or_not with
      ⟨factory, htold, -, -, hevents⟩ | ⟨htold, -, hevents⟩
    · rw [htold, hevents, path_eq_pathAt parent opening cs _ l hl]
      by_cases hn : c.depth = n
      · subst hn
        rw [if_pos rfl, factoryAt_of_link? hl]
        simp [announcement, Event.isSelectionIn]
      · have hpath : pathAt parent opening c.depth ≠ pathAt parent opening n :=
          (pathAt_injective parent opening).ne hn
        rw [if_neg hn]
        simp [announcement, Event.isSelectionIn, hpath]
    · have hnone : o.events.filter (Event.isSelectionIn (pathAt parent opening n)) = [] :=
        List.filter_eq_nil_iff.mpr fun event hevent => by simp [hevents event hevent]
      rw [htold, ite_self, hnone]
      rfl
  · rw [enter_of_error hmissed, factory_gathered.missed, ite_self]
    rfl

/-- **Under the path of a depth, the selections at that depth are told**, and nothing else. -/
theorem announced (parent : Scope) (opening : Opening) (cs : List Call) (n : Nat) :
    (((start parent opening).log cs).flatMap Entry.events).filter
        (Event.isSelectionIn (pathAt parent opening n)) =
      announcements (pathAt parent opening n) (selectedAt n ((start parent opening).log cs)) := by
  induction cs using List.reverseRecOn with
  | nil => rfl
  | append_singleton cs c ih =>
    have hreplaced : (factoryAt n ((start parent opening).after cs)).isSome =
        ((selectedAt n ((start parent opening).log cs)).length != 0) := by
      rw [factoryAt_after, factoryAt_start, Option.or_none, Bool.eq_iff_iff, List.getLast?_isSome,
        bne_iff_ne, Ne, Ne, List.length_eq_zero_iff]
    rw [log_concat, List.flatMap_append, List.filter_append, ih, List.flatMap_singleton,
      filter_events_enter, hreplaced, selectedAt, selectedAt, readAt_append, readAt_singleton]
    cases (((start parent opening).after cs).enter c).toldAt Entry.selected? n with
    | none => rw [Option.toList_none, List.append_nil, List.map_nil, List.append_nil]
    | some factory => rw [Option.toList_some, announcements_concat, List.map_singleton]

end Draft

open Draft

/-- **What a policy makes of the selections of a run**, if it is in place after the calls `early`
and stays there. -/
structure Governed (d : Draft) (early late : List Call) : Prop where
  /-- Where it rejects, a factory that is held never changes. -/
  keeps : (d.after early).policy.overwrite = .reject →
    ∀ before later, late = before ++ later → ∀ n factory,
      factoryAt n (d.after (early ++ before)) = some factory →
        factoryAt n (d.after (early ++ late)) = some factory
  /-- Where it rejects, an offer to a link that holds a factory is turned down, in the name of the
  link's scope. -/
  turnsDown : (d.after early).policy.overwrite = .reject →
    ∀ before c later, late = before ++ c :: later → ∀ a request factory,
      (d.after (early ++ before)).link? c.depth = some (.aggregate a) → a.factory ≠ none →
      c.request = .toAggregate request → request.offer? = some (.ok factory) →
        ((d.after (early ++ before)).enter c).answer =
          .ok (.error (.factoryAlreadyConfigured a.scope.path))
  /-- Where it rejects, a frozen aggregate carries the factory that its link held when the policy
  was put in place; if there was none, the first one selected since. -/
  carriesFirst : (d.after early).policy.overwrite = .reject →
    ∀ e n a, (d.after (early ++ late)).freeze.answer = .ok e → e.walk[n]? = some (.aggregate a) →
      some a.factory =
        (factoryAt n (d.after early)).or (selectedAt n ((d.after early).log late)).head?
  /-- Where it allows, no selection is turned down for the factory that is held. -/
  turnsNoneDown : (d.after early).policy.overwrite = .allow →
    ∀ e ∈ (d.after early).log late, ∀ path,
      e.answer ≠ .ok (.error (.factoryAlreadyConfigured path))
  /-- Where it allows, and elsewhere, a frozen aggregate carries the factory selected last. -/
  carriesLast : ∀ e n a, (d.after (early ++ late)).freeze.answer = .ok e →
    e.walk[n]? = some (.aggregate a) →
      some a.factory = (selectedAt n (d.log (early ++ late))).getLast?
  /-- Under the path of a link, its selections are told in order, and nothing else. -/
  tells : ∀ n l, (d.after (early ++ late)).link? n = some l →
    ((d.log (early ++ late)).flatMap Entry.events).filter (Event.isSelectionIn l.path) =
      announcements l.path (selectedAt n (d.log (early ++ late)))
  /-- A call on one link leaves the factories of the others alone. -/
  apart : ∀ before c later, early ++ late = before ++ c :: later → ∀ n, n ≠ c.depth →
    factoryAt n (d.after (before ++ [c])) = factoryAt n (d.after before)

/-- The factory of a frozen aggregate is the one that its link holds. -/
theorem factoryAt_of_walk {d : Draft} {e : Element} {a : AggregateElement} {n : Nat}
    (he : d.freeze.answer = .ok e) (ha : e.walk[n]? = some (.aggregate a)) :
    factoryAt n d = some a.factory := by
  obtain ⟨l, p, hl, -, hfactory, -⟩ := aggregate_of_walk he ha
  exact (factoryAt_of_link? hl).trans hfactory

/-- **One policy governs the whole chain** of a run in which it is put in place while the outermost
link stands alone. -/
theorem selections_governed (parent : Scope) (opening : Opening) (early late : List Call)
    (hearly : ((start parent opening).after early).inner? = none)
    (hlate : ∀ c ∈ late, ∀ p, c.request ≠ .configure p) :
    Governed (start parent opening) early late := by
  have hpolicy : ∀ overwrite, ((start parent opening).after early).policy.overwrite = overwrite →
      ∀ n x, ((start parent opening).after early).link? n = some x →
        x.policy.overwrite = overwrite := by
    intro overwrite h n x hx
    obtain ⟨-, rfl⟩ := eq_of_link? hearly hx
    exact h
  have hunder : ∀ before later overwrite, late = before ++ later →
      ((start parent opening).after early).policy.overwrite = overwrite →
      ∀ n x, (((start parent opening).after early).after before).link? n = some x →
        x.policy.overwrite = overwrite := by
    rintro before later overwrite rfl h
    exact overwrite_after (fun c hc => hlate c (List.mem_append_left _ hc)) (hpolicy _ h)
  refine ⟨fun hreject before later hlater n factory hheld => ?_,
    fun hreject before c later hlater a request factory hl hfilled hrequest hoffer => ?_,
    fun hreject e n a he ha => ?_, fun hallow e he path => ?_, fun e n a he ha => ?_,
    fun n l hl => ?_, fun before c later h n hn => ?_⟩
  · have hrest : ∀ c ∈ later, ∀ p, c.request ≠ .configure p := fun c hc =>
      hlate c (hlater ▸ List.mem_append_right _ hc)
    rw [after_append] at hheld
    rw [hlater, after_append, after_append,
      factoryAt_after_of_reject hrest (hunder before later _ hlater hreject), hheld,
      Option.some_or]
  · rw [after_append] at hl ⊢
    have hrejects : a.policy.overwrite = .reject := hunder before _ _ hlater hreject _ _ hl
    exact answer_enter_of_reject hl hrejects hfilled hrequest hoffer
  · rw [← factoryAt_of_walk he ha, after_append,
      factoryAt_after_of_reject hlate (hpolicy _ hreject)]
  · exact answer_ne_of_allow hlate (hpolicy _ hallow) he path
  · rw [← factoryAt_of_walk he ha, factoryAt_after, factoryAt_start, Option.or_none]
  · rw [path_eq_pathAt parent opening _ n l hl]
    exact announced parent opening _ n
  · rw [after_concat]
    exact factory_gathered.next_of_ne hn

/-- An aggregate around another, with two selections on the inner one. -/
def twoSelections : List Call :=
  [⟨0, .toAggregate (.groupBy .identity .identity)⟩,
    ⟨0, .toAggregate (.declareSource (.named "Order") (some "order"))⟩,
    ⟨1, .toPattern (.nest (.named "Order"))⟩,
    ⟨2, .toAggregate (.project .identity)⟩,
    ⟨2, .toAggregate (.groupBy .identity .identity)⟩,
    ⟨2, .toAggregate (.declareSource (.named "Line") (some "line"))⟩]

/-- Under a policy that rejects, the inner aggregate carries the first of the two. -/
theorem selections_governed_nested :
    (startSum.after [⟨0, .configure ⟨.reject⟩⟩]).inner? = none ∧
      (∀ c ∈ twoSelections, ∀ p, c.request ≠ .configure p) ∧
      ∃ e a, (startSum.after ([⟨0, .configure ⟨.reject⟩⟩] ++ twoSelections)).freeze.answer = .ok e ∧
        e.walk[2]? = some (.aggregate a) ∧ a.factory.factory.kind = .projection ∧
        some a.factory = (selectedAt 2
          ((startSum.after [⟨0, .configure ⟨.reject⟩⟩]).log twoSelections)).head? := by
  have hlate : ∀ c ∈ twoSelections, ∀ p, c.request ≠ .configure p := by simp [twoSelections]
  refine ⟨rfl, hlate, _, _, rfl, rfl, rfl, ?_⟩
  exact (selections_governed (.root "Rule") (.aggregate (.named "Sum") {})
    [⟨0, .configure ⟨.reject⟩⟩] twoSelections rfl hlate).carriesFirst rfl _ 2 _ rfl rfl

/-- Two selections, and after them a policy that rejects. -/
def lateReject : List Call :=
  [⟨0, .toAggregate (.groupBy .identity .identity)⟩, ⟨0, .toAggregate (.project .identity)⟩,
    ⟨0, .configure ⟨.reject⟩⟩]

/-- The source of an aggregate, declared. -/
def orderSource : List Call :=
  [⟨0, .toAggregate (.declareSource (.named "Order") (some "order"))⟩]

/-- **A policy that rejects does not undo what was replaced before it**: the outermost link stands
alone when it is put in place, and yet the aggregate does not carry the first selection. -/
theorem late_reject_keeps_replacement :
    (startSum.after lateReject).inner? = none ∧
      (startSum.after lateReject).policy.overwrite = .reject ∧
      ∃ a, (startSum.after (lateReject ++ orderSource)).freeze.answer = .ok (.aggregate a) ∧
        (selectedAt 0 (startSum.log (lateReject ++ orderSource))).head? ≠ some a.factory := by
  refine ⟨rfl, rfl, _, rfl, fun h => ?_⟩
  have hkind : some AggregatorKind.groupBy = some .projection :=
    congrArg (Option.map fun f : SharedFactory => f.factory.kind) h
  exact absurd hkind (by decide)

end AggregateRules
