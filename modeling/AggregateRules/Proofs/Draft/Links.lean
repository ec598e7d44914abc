import AggregateRules.Draft.Chain

/-!
# Proofs/Draft/Links — the chain of a definition, as a list

A request is addressed by counting links from the outside (`Draft.link?`), a freezing goes through
all of them.  `Draft.links` lists them, and `getElem?_links` says that the list is addressed by the
same count.
-/

namespace AggregateRules

/-! ## Links -/

mutual

/-- The links of an aggregate, the outermost first. -/
def AggregateDraft.links : AggregateDraft → List Draft
  | ⟨scope, resultType, factory, none, policy⟩ =>
      [.aggregate ⟨scope, resultType, factory, none, policy⟩]
  | ⟨scope, resultType, factory, some source, policy⟩ =>
      .aggregate ⟨scope, resultType, factory, some source, policy⟩ :: source.links

/-- The links of a pattern, the outermost first. -/
def PatternDraft.links : PatternDraft → List Draft
  | ⟨scope, declaration, conditions, none, policy⟩ =>
      [.pattern ⟨scope, declaration, conditions, none, policy⟩]
  | ⟨scope, declaration, conditions, some source, policy⟩ =>
      .pattern ⟨scope, declaration, conditions, some source, policy⟩ :: source.links

end

theorem AggregateDraft.links_eq (d : AggregateDraft) :
    d.links = .aggregate d :: (d.source.map PatternDraft.links).getD [] := by
  rcases d with ⟨_, _, _, _ | _, _⟩ <;> simp [AggregateDraft.links]

theorem PatternDraft.links_eq (d : PatternDraft) :
    d.links = .pattern d :: (d.source.map AggregateDraft.links).getD [] := by
  rcases d with ⟨_, _, _, _ | _, _⟩ <;> simp [PatternDraft.links]

namespace Draft

/-- The links of a definition, the outermost first. -/
def links : Draft → List Draft
  | aggregate d => d.links
  | pattern d => d.links

/-- The path of the scope of a link. -/
def path : Draft → String
  | aggregate d => d.scope.path
  | pattern d => d.scope.path

theorem links_eq (d : Draft) : d.links = d :: (d.inner?.map links).getD [] := by
  cases d with
  | aggregate d =>
    rw [links, AggregateDraft.links_eq, inner?, Option.map_map]
    rfl
  | pattern d =>
    rw [links, PatternDraft.links_eq, inner?, Option.map_map]
    rfl

/-- **The links are addressed from the outside in.** -/
theorem getElem?_links : ∀ (n : Nat) (d : Draft), d.links[n]? = d.link? n
  | 0, d => by rw [links_eq]; rfl
  | n + 1, d => by
      rw [links_eq, List.getElem?_cons_succ, link?]
      cases d.inner? with
      | none => rfl
      | some d' => exact getElem?_links n d'

/-- The aggregate at a link. -/
def aggregate? : Draft → Option AggregateDraft
  | aggregate d => some d
  | pattern _ => none

/-- The aggregates of a definition, the outermost first. -/
def aggregates (d : Draft) : List AggregateDraft := d.links.filterMap aggregate?

end Draft

end AggregateRules
