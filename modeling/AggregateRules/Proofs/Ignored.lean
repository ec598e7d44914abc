import AggregateRules.Proofs.Firsts
import AggregateRules.Proofs.Grouping.Coherence
import AggregateRules.Proofs.InPlace.Step

/-!
# Proofs/Ignored — facts that are not known

A fact may come to be modified or removed that was never added, or that was removed before, perhaps
by the same batch.  Such a step does not count (`Step.counts`), wherever in the batch it stands.

What a strategy does in a batch is a walk through its steps, from one intermediate state to the
next.  A step that does not count leaves the intermediate state as it is, with all that it has
gathered to be told; so the walk through the steps that count ends where the walk through all of
them does (`Skips.foldl_counting`).  Which steps count changes on the way, but for one batch it can
be said beforehand: modifications of live facts, and the first removal of each (`counting_modify`,
`counting_remove`).

**Main statement** (`unknown_ignored`): no strategy tells or leaves anything else when the facts
that do not count are left out of a batch.
-/

namespace AggregateRules

variable {live : List Fact} {s : Step} {f : Fact}

/-! ## The steps that count -/

/-- Whether a step is about a fact that is there for it. -/
def Step.counts (live : List Fact) : Step → Bool
  | .add _ => true
  | .modify f => decide (f.id ∈ live.map Fact.id)
  | .remove f => decide (f.id ∈ live.map Fact.id)

/-- The steps that count, each where it stands. -/
def counting : List Fact → List Step → List Step
  | _, [] => []
  | live, s :: ss =>
      if s.counts live then s :: counting (s.live live) ss else counting (s.live live) ss

/-- **A step that does not count is about a fact that is not live.** -/
theorem notMem_of_not_counts (h : s.counts live = false) : s.id ∉ live.map Fact.id := by
  cases s with
  | add f => exact absurd h (by simp [Step.counts])
  | modify f => exact of_decide_eq_false h
  | remove f => exact of_decide_eq_false h

/-- A walk through steps that keeps its state to the live facts, and that passes over the steps that
do not count. -/
structure Skips {τ : Type} (step : τ → Step → τ) (Inv : τ → List Fact → Prop) : Prop where
  /-- Every step keeps the state to the live facts. -/
  keeps : ∀ {t live} s, Inv t live → Inv (step t s) (s.live live)
  /-- A step that does not count leaves the state as it is. -/
  skips : ∀ {t live s}, Inv t live → s.counts live = false → step t s = t

/-- **A walk through the steps that count ends where the walk through all of them does.** -/
theorem Skips.foldl_counting {τ : Type} {step : τ → Step → τ} {Inv : τ → List Fact → Prop}
    (hw : Skips step Inv) : ∀ (ss : List Step) {t : τ} {live : List Fact}, Inv t live →
      (counting live ss).foldl step t = ss.foldl step t
  | [], _, _, _ => rfl
  | s :: ss, t, live, h => by
      have ih := hw.foldl_counting ss (hw.keeps s h)
      rw [counting, List.foldl_cons]
      cases hcounts : s.counts live with
      | true => exact ih
      | false =>
        -- `ih` starts from the state after the step, which is the state before it
        rw [hw.skips h hcounts] at ih ⊢
        exact ih

/-! ## What is known of a batch -/

/-- The facts whose identities are live. -/
def known (live facts : List Fact) : List Fact :=
  facts.filter fun f => decide (f.id ∈ live.map Fact.id)

theorem known_cons_of_live (h : f.id ∈ live.map Fact.id) (facts : List Fact) :
    known live (f :: facts) = f :: known live facts :=
  List.filter_cons_of_pos (by simpa using h)

theorem known_cons_of_notLive (h : f.id ∉ live.map Fact.id) (facts : List Fact) :
    known live (f :: facts) = known live facts :=
  List.filter_cons_of_neg (by simpa using h)

/-- **A modification leaves the same identities live**, so it makes nothing known or unknown. -/
theorem known_live_modify (live : List Fact) (f : Fact) (facts : List Fact) :
    known (Step.live live (.modify f)) facts = known live facts := by
  rw [Step.live]
  split
  case isFalse => rfl
  case isTrue hf =>
    have hsame : ∀ id, id ∈ (others f.id live ++ [f]).map Fact.id ↔ id ∈ live.map Fact.id := by
      intro id
      rw [mem_map_others_append]
      exact or_iff_right_of_imp fun hid => hid ▸ hf
    simp only [known, hsame]

/-- After a removal the facts of other identities are known, of those that were. -/
theorem known_live_remove (live : List Fact) (f : Fact) (facts : List Fact) :
    known (Step.live live (.remove f)) facts =
      (known live facts).filter fun f' => !decide (f'.id = f.id) := by
  rw [known, known, List.filter_filter]
  refine List.filter_congr fun f' _ => ?_
  rw [Step.live, decide_eq_decide.mpr mem_map_others, Bool.decide_and, Bool.and_comm, decide_not]

/-- **The modifications that count are those of live facts.** -/
theorem counting_modify (live facts : List Fact) :
    counting live (facts.map .modify) = (known live facts).map .modify := by
  induction facts generalizing live with
  | nil => rfl
  | cons f facts ih =>
    rw [List.map_cons, counting, ih, known_live_modify, Step.counts]
    by_cases h : f.id ∈ live.map Fact.id
    · rw [known_cons_of_live h, if_pos (decide_eq_true h), List.map_cons]
    · rw [known_cons_of_notLive h, if_neg (by simpa using h)]

/-- **The removals that count are the first of each live fact.** -/
theorem counting_remove (live facts : List Fact) :
    counting live (facts.map .remove) = (firstsBy Fact.id (known live facts)).map .remove := by
  induction facts generalizing live with
  | nil => rfl
  | cons f facts ih =>
    rw [List.map_cons, counting, ih, Step.counts]
    by_cases h : f.id ∈ live.map Fact.id
    · rw [known_cons_of_live h, if_pos (decide_eq_true h), known_live_remove, firstsBy_cons_filter,
        List.map_cons]
    · rw [known_cons_of_notLive h, if_neg (by simpa using h), Step.live, others_of_notMem h]

/-! ## The three strategies -/

/-- **What is not known of a batch is ignored**, by a state that has some facts live: without it
the batch has the same report. -/
structure IgnoresUnknown {σ : Type} [Aggregation σ] (live : List Fact) (s : σ) : Prop where
  /-- Facts that are not live are not modified. -/
  modify : ∀ facts, consume (.modify (known live facts)) s = consume (.modify facts) s
  /-- Facts that are not live are not removed, nor is a fact removed twice. -/
  remove : ∀ facts,
    consume (.remove (firstsBy Fact.id (known live facts))) s = consume (.remove facts) s
  /-- A batch of which nothing is known tells nothing and changes nothing. -/
  nothing : ∀ facts, known live facts = [] →
    consume (.modify facts) s = ⟨s, []⟩ ∧ consume (.remove facts) s = ⟨s, []⟩

/-- A report that is read off the steps of a batch that count. -/
theorem IgnoresUnknown.of_counting {σ : Type} [Aggregation σ] {s : σ}
    (h : ∀ b b' : Batch, b'.steps = counting live b.steps → consume b' s = consume b s)
    (hnil : consume (.remove []) s = ⟨s, []⟩) : IgnoresUnknown live s where
  modify facts := h (.modify facts) (.modify _) (counting_modify live facts).symm
  remove facts := h (.remove facts) (.remove _) (counting_remove live facts).symm
  nothing facts hnone := by
    have hempty : ∀ b : Batch, counting live b.steps = [] → consume b s = ⟨s, []⟩ :=
      fun b hb => (h b (.remove []) hb.symm).symm.trans hnil
    constructor
    · exact hempty (.modify facts) ((counting_modify live facts).trans (by rw [hnone]; rfl))
    · exact hempty (.remove facts) ((counting_remove live facts).trans (by rw [hnone]; rfl))

/-- **The steps that find something to do are those that count**, in a map of the live facts. -/
theorem Holds.reaches_eq {m : OrderedMap FactId Value} (h : Holds m live) (s : Step) :
    s.reaches m = s.counts live := by
  have hcontains : ∀ id, m.contains id = decide (id ∈ live.map Fact.id) :=
    fun id => decide_eq_decide.mpr (h id)
  cases s with
  | add f => rfl
  | modify f => exact hcontains f.id
  | remove f => exact hcontains f.id

theorem Collection.skips : Skips noting fun walked live => Holds walked.1 live where
  keeps s h := h.store s
  skips {walked _ s} h hcounts := by
    have hreaches := (h.reaches_eq s).trans hcounts
    rw [noting, store_of_not_reaches hreaches, hreaches, Bool.or_false]

theorem Collection.ignoresUnknown (element : DataType) (bs : List Batch) :
    IgnoresUnknown (liveAfter bs) (Aggregation.after bs (fresh element)) := by
  have hshown : Shown (Aggregation.after bs (fresh element)) := (shown_fresh element).after bs
  refine .of_counting (fun b b' hb => ?_) rfl
  have hwalk := skips.foldl_counting b.steps (t := (_, false)) (holds_after element bs)
  rw [← hb, foldl_noting, foldl_noting, Prod.mk.injEq, Bool.false_or, Bool.false_or] at hwalk
  refine (hshown.consume_eq b').trans (Eq.trans ?_ (hshown.consume_eq b).symm)
  rw [advance, advance, hwalk.1, hwalk.2]

theorem Grouping.skips :
    Skips Pending.take fun p live => Indexed p.grouping ∧ Tracks p.grouping live where
  keeps {p _} s h := by
    rw [grouping_take]
    exact ⟨h.1.advance s, h.2.advance h.1 s⟩
  skips {p _ s} h hcounts := by
    have hunknown := h.2.unknown_iff.mpr (notMem_of_not_counts hcounts)
    cases s with
    | add f => exact absurd hcounts (by simp [Step.counts])
    | modify f => exact move_of_unknown hunknown
    | remove f => exact congrArg Prod.snd (detach_of_unknown hunknown)

theorem Grouping.ignoresUnknown (key element : Selector) (bs : List Batch) :
    IgnoresUnknown (liveAfter bs) (Aggregation.after bs (fresh key element)) := by
  refine .of_counting (fun b b' hb => ?_) rfl
  have hwalk := skips.foldl_counting b.steps (t := ⟨_, ∅⟩)
    ⟨indexed_after key element bs, tracks_after key element bs⟩
  rw [← hb, ← pending_eq, ← pending_eq] at hwalk
  exact congrArg settle hwalk

theorem Projection.skips : Skips takeOne fun r live => Holds r.state.projected live where
  keeps {r _} s h := by
    rw [takeOne_eq]
    exact h.store s
  skips {_ _ s} h hcounts := takeOne_of_not_reaches ((h.reaches_eq s).trans hcounts)

theorem Projection.ignoresUnknown (selector : Selector) (bs : List Batch) :
    IgnoresUnknown (liveAfter bs) (Aggregation.after bs (fresh selector)) := by
  refine .of_counting (fun b b' hb => ?_) rfl
  have hwalk := skips.foldl_counting b.steps (t := ⟨_, []⟩) (holds_after selector bs)
  rwa [← hb, ← consume_eq_foldl, ← consume_eq_foldl] at hwalk

/-- **Unknown facts are ignored** by every strategy, in every state that a run leads to: what a
batch tells and what it leaves is the same without the facts that are not live when their turn
comes. -/
theorem unknown_ignored (element : DataType) (key member selector : Selector) (bs : List Batch) :
    IgnoresUnknown (liveAfter bs) (Aggregation.after bs (Collection.fresh element)) ∧
      IgnoresUnknown (liveAfter bs) (Aggregation.after bs (Grouping.fresh key member)) ∧
      IgnoresUnknown (liveAfter bs) (Aggregation.after bs (Projection.fresh selector)) :=
  ⟨Collection.ignoresUnknown element bs, Grouping.ignoresUnknown key member bs,
    Projection.ignoresUnknown selector bs⟩

end AggregateRules
