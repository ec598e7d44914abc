import Mathlib.Data.List.Forall2
import AggregateRules.Proofs.Draft.Links

/-!
# Proofs/Draft/Mirror — what a frozen part takes from its link

A successful freezing answers a part for each link (`forall₂_walk`): the part at a place of the walk
is what the link at that depth freezes to (`link_of_walk`), and `freeze_eq_ok` says what it takes
from the link itself.
-/

namespace AggregateRules

theorem Frozen.andThen_eq_ok {α β : Type} {x : Frozen α} {whole : α → β} {event : α → Event} {b : β}
    (h : (x.andThen whole event).answer = .ok b) : ∃ a, x.answer = .ok a ∧ b = whole a := by
  rw [andThen] at h
  split at h
  case h_1 a ha => exact ⟨a, ha, (Except.ok.inj h).symm⟩
  case h_2 => exact absurd h (by simp)

theorem AggregateDraft.freeze_eq_ok {d : AggregateDraft} {a : AggregateElement}
    (h : d.freeze.answer = .ok a) :
    ∃ factory p source, d.factory = some factory ∧ d.source = some p ∧
      p.freeze.answer = .ok source ∧ a = close d.scope d.resultType factory source := by
  rcases d with ⟨scope, resultType, _ | factory, _ | p, policy⟩
  · exact absurd h (by simp [freeze, Frozen.refuse])
  · exact absurd h (by simp [freeze, Frozen.refuse])
  · exact absurd h (by simp [freeze, Frozen.refuse])
  · rw [freeze] at h
    obtain ⟨source, hsource, rfl⟩ := Frozen.andThen_eq_ok h
    exact ⟨factory, p, source, rfl, rfl, hsource, rfl⟩

theorem PatternDraft.freeze_eq_ok {d : PatternDraft} {p : PatternElement}
    (h : d.freeze.answer = .ok p) :
    p.declaration = d.declaration ∧ p.conditions = d.conditions ∧ p.declarations = d.scope.own ∧
      ((d.source = none ∧ p.source = none) ∨
        ∃ a source, d.source = some a ∧ p.source = some source ∧ a.freeze.answer = .ok source) := by
  rcases d with ⟨scope, declaration, conditions, _ | a, policy⟩
  · rw [freeze] at h
    obtain rfl := Except.ok.inj h
    exact ⟨rfl, rfl, rfl, Or.inl ⟨rfl, rfl⟩⟩
  · rw [freeze] at h
    obtain ⟨source, hsource, rfl⟩ := Frozen.andThen_eq_ok h
    exact ⟨rfl, rfl, rfl, Or.inr ⟨a, source, rfl, rfl, hsource⟩⟩

namespace Draft

variable {d : Draft} {e part : Element}

theorem freeze_aggregate_eq_ok {a : AggregateDraft} (h : (aggregate a).freeze.answer = .ok e) :
    ∃ el, e = .aggregate el ∧ a.freeze.answer = .ok el := by
  cases ha : a.freeze.answer with
  | error => exact absurd h (by simp [freeze, ha, Except.map])
  | ok el =>
    rw [freeze, ha] at h
    exact ⟨el, (Except.ok.inj h).symm, rfl⟩

theorem freeze_pattern_eq_ok {p : PatternDraft} (h : (pattern p).freeze.answer = .ok e) :
    ∃ el, e = .pattern el ∧ p.freeze.answer = .ok el := by
  cases hp : p.freeze.answer with
  | error => exact absurd h (by simp [freeze, hp, Except.map])
  | ok el =>
    rw [freeze, hp] at h
    exact ⟨el, (Except.ok.inj h).symm, rfl⟩

/-- A frozen part is walked before the part of the link inside. -/
theorem walk_of_freeze (h : d.freeze.answer = .ok e) :
    (d.inner? = none ∧ e.walk = [e]) ∨
      ∃ x e', d.inner? = some x ∧ x.freeze.answer = .ok e' ∧ e.walk = e :: e'.walk := by
  cases d with
  | aggregate a =>
    obtain ⟨el, rfl, ha⟩ := freeze_aggregate_eq_ok h
    obtain ⟨factory, p, source, -, hp, hsource, rfl⟩ := AggregateDraft.freeze_eq_ok ha
    refine Or.inr ⟨pattern p, .pattern source, ?_, ?_, AggregateElement.walk_eq _⟩
    · rw [inner?, hp]
      rfl
    · rw [freeze, hsource]
      rfl
  | pattern p =>
    obtain ⟨el, rfl, hp⟩ := freeze_pattern_eq_ok h
    obtain ⟨-, -, -, ⟨hnone, hel⟩ | ⟨a, source, ha, hel, hsource⟩⟩ := PatternDraft.freeze_eq_ok hp
    · refine Or.inl ⟨by rw [inner?, hnone]; rfl, ?_⟩
      rw [Element.walk, PatternElement.walk_eq, hel]
      rfl
    · refine Or.inr ⟨aggregate a, .aggregate source, by rw [inner?, ha]; rfl, ?_, ?_⟩
      · rw [freeze, hsource]
        rfl
      · rw [Element.walk, PatternElement.walk_eq, hel]
        rfl

/-- **A walk goes through what the links freeze to**, from the outside in. -/
theorem forall₂_walk (h : d.freeze.answer = .ok e) :
    List.Forall₂ (fun l part => l.freeze.answer = .ok part) d.links e.walk := by
  -- by induction on the list of links, as the links themselves are of two kinds in turn
  induction hlinks : d.links generalizing d e with
  | nil => exact absurd hlinks (by rw [links_eq]; simp)
  | cons l ls ih =>
    rw [links_eq] at hlinks
    obtain ⟨rfl, hls⟩ := List.cons.inj hlinks
    rcases walk_of_freeze h with ⟨hlast, hwalk⟩ | ⟨x, e', hx, he', hwalk⟩
    · rw [hlast] at hls
      rw [hwalk, ← hls]
      exact .cons h .nil
    · rw [hx] at hls
      rw [hwalk]
      exact .cons h (ih he' hls)

/-- There is a part for each link. -/
theorem length_walk (h : d.freeze.answer = .ok e) : e.walk.length = d.links.length :=
  (forall₂_walk h).length_eq.symm

/-- **The part at a place of the walk is what the link at that depth freezes to.** -/
theorem link_of_walk {n : Nat} (h : d.freeze.answer = .ok e) (hpart : e.walk[n]? = some part) :
    ∃ l, d.link? n = some l ∧ l.freeze.answer = .ok part := by
  obtain ⟨hn, rfl⟩ := List.getElem?_eq_some_iff.mp hpart
  have hn' : n < d.links.length := length_walk h ▸ hn
  exact ⟨d.links[n], by rw [← getElem?_links, List.getElem?_eq_getElem hn'],
    (forall₂_walk h).get hn' hn⟩

/-- **A frozen aggregate is closed over its link**, around what the link's source freezes to. -/
theorem aggregate_of_walk {n : Nat} {a : AggregateElement} (h : d.freeze.answer = .ok e)
    (ha : e.walk[n]? = some (.aggregate a)) :
    ∃ (l : AggregateDraft) (p : PatternDraft), d.link? n = some (.aggregate l) ∧
      l.source = some p ∧ l.factory = some a.factory ∧
      a.source.declaration = p.declaration ∧ a.source.declarations = p.scope.own ∧
      a.declarations = (AggregateDraft.closingScope l.scope a.source).visible := by
  obtain ⟨l, hl, hfrozen⟩ := link_of_walk h ha
  cases l with
  | pattern p =>
    obtain ⟨_, hpart, -⟩ := freeze_pattern_eq_ok hfrozen
    exact absurd hpart (by simp)
  | aggregate l =>
    obtain ⟨_, hpart, hfrozen⟩ := freeze_aggregate_eq_ok hfrozen
    obtain rfl := Element.aggregate.inj hpart
    obtain ⟨factory, p, source, hfactory, hp, hsource, rfl⟩ := AggregateDraft.freeze_eq_ok hfrozen
    obtain ⟨hdeclaration, -, hdeclarations, -⟩ := PatternDraft.freeze_eq_ok hsource
    exact ⟨l, p, hl, hp, hfactory, hdeclaration, hdeclarations, rfl⟩

/-- **A frozen pattern holds what its link holds**, and is fed by what the link's source freezes
to. -/
theorem pattern_of_walk {n : Nat} {p : PatternElement} (h : d.freeze.answer = .ok e)
    (hp : e.walk[n]? = some (.pattern p)) :
    ∃ l : PatternDraft, d.link? n = some (.pattern l) ∧ p.declaration = l.declaration ∧
      p.conditions = l.conditions ∧
      ((l.source = none ∧ p.source = none) ∨
        ∃ a source, l.source = some a ∧ p.source = some source ∧ a.freeze.answer = .ok source) := by
  obtain ⟨l, hl, hfrozen⟩ := link_of_walk h hp
  cases l with
  | aggregate a =>
    obtain ⟨_, hpart, -⟩ := freeze_aggregate_eq_ok hfrozen
    exact absurd hpart (by simp)
  | pattern l =>
    obtain ⟨_, hpart, hfrozen⟩ := freeze_pattern_eq_ok hfrozen
    obtain rfl := Element.pattern.inj hpart
    obtain ⟨hdeclaration, hconditions, -, hsource⟩ := PatternDraft.freeze_eq_ok hfrozen
    exact ⟨l, hl, hdeclaration, hconditions, hsource⟩

end Draft

end AggregateRules
