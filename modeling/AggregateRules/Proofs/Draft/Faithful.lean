import AggregateRules.Proofs.Draft.Governed

/-!
# Proofs/Draft/Faithful — a frozen definition against the calls that made it

Freezing happens once, at the end; the definition was made by calls that came in any order, on any
of its links.  Between the two stands the link: what it has gathered is what the log tells of its
depth (`Gathered.eq_readAt`), and the part at a place of the walk takes it from there
(`link_of_walk`).

What a part is about is not its own link's doing.  The outermost is about what the definition was
begun with, any other about what a call on the link around it has put inside.  A link takes one
thing inside, and refuses the rest; so the first that the log tells of is the one (`subjectAt`).

**Main statement** (`frozen_mirrors`): a frozen definition has a part for each link, and each part
is what the log tells of its depth; and the paths of the links follow the nesting.
-/

namespace AggregateRules

/-- What a part of a rule is about: the binding that a pattern matches, or the type of what an
aggregate produces. -/
inductive Subject where
  | pattern (declaration : Declaration)
  | aggregate (resultType : DataType)

/-- What a finished part is about. -/
def Element.subject : Element → Subject
  | pattern p => .pattern p.declaration
  | aggregate a => .aggregate a.resultType

namespace Draft

variable {d l x y : Draft} {e : Element} {parent : Scope} {opening : Opening} {c : Call}
  {cs : List Call} {n : Nat}

/-- What a definition is begun with. -/
def Opening.subject : Opening → Subject
  | aggregate resultType _ => .aggregate resultType
  | pattern declaration _ => .pattern declaration

/-- What a link is about. -/
def subject : Draft → Subject
  | aggregate a => .aggregate a.resultType
  | pattern p => .pattern p.declaration

theorem Alike.subject_eq (h : x.Alike y) : x.subject = y.subject :=
  h.congr fun z => by cases z <;> rfl

@[simp] theorem subject_pristine (x : Draft) : x.pristine.subject = x.subject := by
  cases x <;> rfl

@[simp] theorem subject_start : (start parent opening).subject = opening.subject := by
  cases opening <;> rfl

/-- **A part is about what its link is about.** -/
theorem subject_of_freeze (h : d.freeze.answer = .ok e) : e.subject = d.subject := by
  cases d with
  | aggregate a =>
    obtain ⟨el, rfl, ha⟩ := freeze_aggregate_eq_ok h
    obtain ⟨factory, p, source, -, -, -, rfl⟩ := AggregateDraft.freeze_eq_ok ha
    rfl
  | pattern p =>
    obtain ⟨el, rfl, hp⟩ := freeze_pattern_eq_ok h
    exact congrArg Subject.pattern (PatternDraft.freeze_eq_ok hp).1

/-! ## What is started inside a link -/

/-- What a call has started inside its link. -/
def Entry.started? (e : Entry) : Option Subject :=
  match e.call.request, e.answer with
  | .toAggregate (.declareSource ..), .ok (.ok b?) => b?.map .pattern
  | .toAggregate (.sourceOf b), .ok (.ok _) => some (.pattern b)
  | .toPattern (.nest resultType), .ok (.ok _) => some (.aggregate resultType)
  | _, _ => none

/-- What was started inside the link at a depth, in order. -/
def startedAt (n : Nat) (log : List Entry) : List Subject := readAt Entry.started? n log

/-- What stands right inside a link. -/
def inside (x : Draft) : List Subject := (x.inner?.map subject).toList

theorem inside_gathered : Gathered inside [] Entry.started? fun bs b => bs ++ [b] where
  missed c why events := by simp [Entry.started?]
  alike x y hxy := by
    have hinner := congrArg (Option.map subject) hxy.inner_eq
    simp only [Option.map_map, Function.comp_def, subject_pristine] at hinner
    rw [inside, inside, hinner]
  effect l c o he := by
    rcases c with ⟨depth, request⟩
    cases he with
    | refused => simp [Entry.started?]
    | sourceDeclared hnone | sourceBound hnone | nested hnone =>
      simp [inside, inner?, hnone, Entry.started?, subject, AggregateDraft.start,
        PatternDraft.start]
    | @selected d request factory hoffer =>
      cases request with
      | declareSource | sourceOf => exact absurd hoffer (by simp [AggregateRequest.offer?])
      | _ => rfl
    | _ => rfl
  start parent opening := by simp [inside]

/-- **What was started inside a link stands there**, and nothing else. -/
theorem startedAt_log (parent : Scope) (opening : Opening) (cs : List Call) (n : Nat) :
    startedAt n ((start parent opening).log cs) =
      ((((start parent opening).after cs).link? (n + 1)).map subject).toList := by
  rw [startedAt, ← inside_gathered.eq_readAt, link?_succ_eq_bind, gatheredAt]
  cases ((start parent opening).after cs).link? n <;> rfl

/-- Where something was started, a link has it inside. -/
theorem exists_inner_of_started {s : Subject}
    (h : s ∈ startedAt n ((start parent opening).log cs)) :
    ∃ l x, ((start parent opening).after cs).link? n = some l ∧ l.inner? = some x ∧
      x.subject = s := by
  rw [startedAt_log, Option.mem_toList, Option.map_eq_some_iff, link?_succ_eq_bind] at h
  obtain ⟨x, hx, hsubject⟩ := h
  obtain ⟨l, hl, hx⟩ := Option.bind_eq_some_iff.mp hx
  exact ⟨l, x, hl, hx, hsubject⟩

/-- **An aggregate takes one source**, whichever way it is asked. -/
theorem answer_enter_of_source {b : Declaration}
    (h : .pattern b ∈ startedAt c.depth ((start parent opening).log cs))
    (hrequest : (∃ type name?, c.request = .toAggregate (.declareSource type name?)) ∨
      ∃ b', c.request = .toAggregate (.sourceOf b')) :
    (((start parent opening).after cs).enter c).answer =
      .ok (.error .aggregateSingleSource) := by
  obtain ⟨l, x, hl, hx, hsubject⟩ := exists_inner_of_started h
  cases l with
  | pattern p =>
    obtain ⟨a, -, rfl⟩ := Option.map_eq_some_iff.mp hx
    exact absurd hsubject (by simp [subject])
  | aggregate a =>
    have hsource : a.source ≠ none := fun hnone => absurd hx (by simp [inner?, hnone])
    have hperform : (aggregate a).perform c.request 0 =
        .ok ⟨.error .aggregateSingleSource, aggregate a, []⟩ := by
      rcases hrequest with ⟨type, name?, hrequest⟩ | ⟨b', hrequest⟩
      · rw [hrequest, perform_toAggregate, AggregateDraft.attempt,
          Attempt.run_bind_of_error (AggregateDraft.run_declareSource_of_some hsource)]
        rfl
      · rw [hrequest, perform_toAggregate, AggregateDraft.attempt,
          Attempt.run_bind_of_error (AggregateDraft.run_sourceOf_of_some hsource)]
        rfl
    rw [enter_of_link? hl hperform]

/-- **A pattern takes one source.** -/
theorem answer_enter_of_nest {t resultType : DataType}
    (h : .aggregate t ∈ startedAt c.depth ((start parent opening).log cs))
    (hrequest : c.request = .toPattern (.nest resultType)) :
    (((start parent opening).after cs).enter c).answer = .ok (.error .patternSingleSource) := by
  obtain ⟨l, x, hl, hx, hsubject⟩ := exists_inner_of_started h
  cases l with
  | aggregate a =>
    obtain ⟨p, -, rfl⟩ := Option.map_eq_some_iff.mp hx
    exact absurd hsubject (by simp [subject])
  | pattern p =>
    have hsource : p.source ≠ none := fun hnone => absurd hx (by simp [inner?, hnone])
    have hperform : (pattern p).perform c.request 0 =
        .ok ⟨.error .patternSingleSource, pattern p, []⟩ := by
      rw [hrequest, perform_toPattern, PatternDraft.attempt,
        Attempt.run_bind_of_error (PatternDraft.run_nest_of_some hsource)]
      rfl
    rw [enter_of_link? hl hperform]

/-! ## What the log tells of the link at a depth -/

/-- What the log tells that the link at a depth is about: what the definition was begun with, or
what was started first inside the link around it. -/
def subjectAt (opening : Opening) (log : List Entry) : Nat → Option Subject
  | 0 => some opening.subject
  | n + 1 => (startedAt n log).head?

/-- The outermost link is about what the definition was begun with. -/
theorem subject_after (parent : Scope) (opening : Opening) (cs : List Call) :
    ((start parent opening).after cs).subject = opening.subject := by
  refine forall_link_after (I := fun n x => n = 0 → x.subject = opening.subject)
    (fun n x y hx hxy hn => hxy.subject_eq ▸ hx hn) (fun n l c o _ hl he hn => ?_)
    (fun n x y _ _ hn => absurd hn (Nat.succ_ne_zero n)) (fun n x hx _ => ?_) 0 _ rfl rfl
  · rw [← subject_pristine, he.pristine_eq, subject_pristine, hl hn]
  · obtain ⟨-, rfl⟩ := eq_of_link? inner?_start hx
    exact subject_start

/-- **A link is about what the log tells that it is about.** -/
theorem subjectAt_log (parent : Scope) (opening : Opening) (cs : List Call) (n : Nat) :
    subjectAt opening ((start parent opening).log cs) n =
      (((start parent opening).after cs).link? n).map subject := by
  cases n with
  | zero => rw [subjectAt, link?, Option.map_some, subject_after]
  | succ n => rw [subjectAt, startedAt_log, Option.head?_toList]

/-- The condition that a call has appended. -/
def Entry.condition? (e : Entry) : Option Condition :=
  match e.call.request, e.answer with
  | .toPattern (.condition condition), .ok (.ok _) => some condition
  | _, _ => none

/-- The conditions appended at one depth, in order. -/
def conditionsAt (n : Nat) (log : List Entry) : List Condition := readAt Entry.condition? n log

/-- The conditions of a link, if it is a pattern. -/
def conditions : Draft → List Condition
  | aggregate _ => []
  | pattern p => p.conditions

theorem conditions_gathered : Gathered conditions [] Entry.condition? fun bs b => bs ++ [b] where
  missed c why events := by simp [Entry.condition?]
  alike x y hxy := hxy.congr fun z => by cases z <;> rfl
  effect l c o he := by
    rcases c with ⟨depth, request⟩
    cases he with
    | refused => simp [Entry.condition?]
    | _ => rfl
  start parent opening := by cases opening <;> rfl

/-- **The conditions of a pattern are those that were appended to it.** -/
theorem conditions_eq_conditionsAt (hx : ((start parent opening).after cs).link? n = some x) :
    x.conditions = conditionsAt n ((start parent opening).log cs) :=
  (gatheredAt_of_link? hx).symm.trans (conditions_gathered.eq_readAt parent opening cs n)

/-! ## The paths of the links -/

/-- A link further in is started in the scope of the link around it, under the path it has. -/
theorem path_of_startedIn {s : Scope} (h : StartedIn parent opening cs (n + 1) s) :
    s.path = pathAt parent opening n := by
  cases h with
  | @inner before later c _ l _ _ _ hl =>
    rw [← path_eq_scope, path_eq_pathAt parent opening (before ++ [c]) n l hl]

/-- **The path of a link is that of the scope it was started in**, and its label. -/
theorem exists_startedIn_path (hx : ((start parent opening).after cs).link? n = some x) :
    ∃ s, StartedIn parent opening cs n s ∧ x.path = s.path ++ scopeSeparator ++ x.label := by
  obtain ⟨s, hs, hchild⟩ := child_of_startedIn parent opening cs n x hx
  refine ⟨s, hs, ?_⟩
  rw [path_eq_scope, ← path_pristine, hchild, Scope.path_child, label_pristine]

end Draft

open Draft

/-- **What a frozen definition takes from the run that made it.** -/
structure Mirrors (parent : Scope) (opening : Opening) (cs : List Call) (e : Element) : Prop where
  /-- There is a part for each link. -/
  depth : e.walk.length = ((start parent opening).after cs).links.length
  /-- An aggregate produces the type it was started with, by the factory that its link holds, from
  the source that was started first. -/
  aggregates : ∀ n a, e.walk[n]? = some (.aggregate a) →
    subjectAt opening ((start parent opening).log cs) n = some (.aggregate a.resultType) ∧
    factoryAt n ((start parent opening).after cs) = some a.factory ∧
    (startedAt n ((start parent opening).log cs)).head? = some (.pattern a.source.declaration)
  /-- A pattern is over the binding it was started with, under the conditions that were appended to
  it, in order, and is fed by the aggregate that was started first, if any was. -/
  patterns : ∀ n p, e.walk[n]? = some (.pattern p) →
    subjectAt opening ((start parent opening).log cs) n = some (.pattern p.declaration) ∧
    p.conditions = conditionsAt n ((start parent opening).log cs) ∧
    (startedAt n ((start parent opening).log cs)).head? =
      p.source.map fun source => .aggregate source.resultType

/-- **What is kept of the calls of a run**, in the links and in what they freeze to. -/
structure Faithful (parent : Scope) (opening : Opening) (cs : List Call) : Prop where
  /-- If it can be frozen, the definition is mirrored. -/
  mirrors : ∀ e, ((start parent opening).after cs).freeze.answer = .ok e →
    Mirrors parent opening cs e
  /-- Once an aggregate has a source, a call that would start another is refused. -/
  sourceOnce : ∀ before c later b, cs = before ++ c :: later →
    .pattern b ∈ startedAt c.depth ((start parent opening).log before) →
    ((∃ type name?, c.request = .toAggregate (.declareSource type name?)) ∨
      ∃ b', c.request = .toAggregate (.sourceOf b')) →
    (((start parent opening).after before).enter c).answer = .ok (.error .aggregateSingleSource)
  /-- Once a pattern has a source, a call that would start another is refused. -/
  nestOnce : ∀ before c later t resultType, cs = before ++ c :: later →
    .aggregate t ∈ startedAt c.depth ((start parent opening).log before) →
    c.request = .toPattern (.nest resultType) →
    (((start parent opening).after before).enter c).answer = .ok (.error .patternSingleSource)
  /-- The path of a link is that of the scope it was started in, and the label of its kind. -/
  startedIn : ∀ n x, ((start parent opening).after cs).link? n = some x →
    ∃ s, StartedIn parent opening cs n s ∧ x.path = s.path ++ scopeSeparator ++ x.label
  /-- That is the path of the link around it, unless it is the outermost. -/
  enclosed : ∀ n x y, ((start parent opening).after cs).link? n = some x →
    ((start parent opening).after cs).link? (n + 1) = some y →
    y.path = x.path ++ scopeSeparator ++ y.label

theorem mirrors_of_freeze {parent : Scope} {opening : Opening} {cs : List Call} {e : Element}
    (he : ((start parent opening).after cs).freeze.answer = .ok e) :
    Mirrors parent opening cs e := by
  have hsubject : ∀ n part, e.walk[n]? = some part →
      subjectAt opening ((start parent opening).log cs) n = some part.subject := by
    intro n part hpart
    obtain ⟨l, hl, hfrozen⟩ := link_of_walk he hpart
    rw [subjectAt_log, hl, Option.map_some, subject_of_freeze hfrozen]
  refine ⟨length_walk he, fun n a ha => ⟨hsubject n _ ha, factoryAt_of_walk he ha, ?_⟩,
    fun n p hp => ⟨hsubject n _ hp, ?_⟩⟩
  · obtain ⟨l, p, hl, hp, -, hdeclaration, -⟩ := aggregate_of_walk he ha
    rw [startedAt_log, Option.head?_toList, link?_succ_eq_bind, hl, Option.bind_some, inner?, hp,
      hdeclaration]
    rfl
  · obtain ⟨l, hl, -, hconditions, hsource⟩ := pattern_of_walk he hp
    refine ⟨hconditions.trans (conditions_eq_conditionsAt hl), ?_⟩
    rw [startedAt_log, Option.head?_toList, link?_succ_eq_bind, hl, Option.bind_some, inner?]
    rcases hsource with ⟨hnone, hp⟩ | ⟨a, source, ha, hp, hfrozen⟩
    · rw [hnone, hp]
      rfl
    · have hresult : (Element.aggregate source).subject = (aggregate a).subject :=
        subject_of_freeze (by rw [freeze, hfrozen]; rfl)
      rw [ha, hp]
      exact congrArg some hresult.symm

/-- **Freezing loses and invents nothing**, whatever calls were made, in whatever order and on
whatever links. -/
theorem frozen_mirrors (parent : Scope) (opening : Opening) (cs : List Call) :
    Faithful parent opening cs := by
  refine ⟨fun e he => mirrors_of_freeze he, ?_, ?_, fun n x hx => exists_startedIn_path hx, ?_⟩
  · rintro before c later b - hstarted hrequest
    exact answer_enter_of_source hstarted hrequest
  · rintro before c later t resultType - hstarted hrequest
    exact answer_enter_of_nest hstarted hrequest
  · intro n x y hx hy
    obtain ⟨s, hs, hpath⟩ := exists_startedIn_path hy
    rw [hpath, path_of_startedIn hs, path_eq_pathAt parent opening cs n x hx]

/-- A pattern that is begun in a root scope, over a binding made elsewhere. -/
def startOrders : Draft :=
  start (.root "Rule") (.pattern ⟨"order", .named "Order", "Other"⟩ {})

/-- A pattern that is fed by an aggregate: conditions on it and on the source of the aggregate in
turn, and after them a second aggregate. -/
def interleavedCalls : List Call :=
  [⟨0, .toPattern (.nest (.named "Order"))⟩,
    ⟨1, .toAggregate (.project .identity)⟩,
    ⟨0, .toPattern (.condition ⟨"day", .ne, .null⟩)⟩,
    ⟨1, .toAggregate (.declareSource (.named "Line") (some "line"))⟩,
    ⟨2, .toPattern (.condition ⟨"price", .ne, .null⟩)⟩,
    ⟨0, .toPattern (.condition ⟨"week", .ne, .null⟩)⟩,
    ⟨0, .toPattern (.nest (.named "Line"))⟩]

/-- The pattern keeps its two conditions in order and the first aggregate; the second is refused. -/
theorem frozen_mirrors_interleaved :
    ∃ p, (startOrders.after interleavedCalls).freeze.answer = .ok (.pattern p) ∧
      p.walk.length = (startOrders.after interleavedCalls).links.length ∧
      p.conditions = conditionsAt 0 (startOrders.log interleavedCalls) ∧
      p.conditions.map Condition.field = ["day", "week"] ∧
      (startedAt 0 (startOrders.log interleavedCalls)).head? =
        p.source.map (fun source => .aggregate source.resultType) ∧
      ((startOrders.after (interleavedCalls.take 6)).enter
        ⟨0, .toPattern (.nest (.named "Line"))⟩).answer = .ok (.error .patternSingleSource) := by
  have hfaithful := frozen_mirrors (.root "Rule")
    (.pattern ⟨"order", .named "Order", "Other"⟩ {}) interleavedCalls
  have hmirrors := hfaithful.mirrors _ rfl
  have hstarted : startedAt 0 (startOrders.log (interleavedCalls.take 6)) =
      [.aggregate (.named "Order")] := rfl
  obtain ⟨-, hconditions, hsource⟩ := hmirrors.patterns 0 _ rfl
  refine ⟨_, rfl, hmirrors.depth, hconditions, rfl, hsource, ?_⟩
  exact hfaithful.nestOnce (interleavedCalls.take 6) ⟨0, .toPattern (.nest (.named "Line"))⟩ []
    (.named "Order") (.named "Line") (List.take_append_drop 6 interleavedCalls).symm
    (hstarted ▸ List.mem_singleton_self _) rfl

end AggregateRules
