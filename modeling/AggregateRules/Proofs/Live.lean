import AggregateRules.Aggregator.Contract
import Mathlib.Data.List.Nodup

/-!
# Proofs/Live — the facts that are live

A run of batches is one sequence of steps, each about one fact.  A fact is live from the addition of
its identity to the removal; it carries the value it was last added or modified with, and the live
facts stand in the order in which that last happened (`Step.live`).

`EachAdd` states a condition on every addition of a run, beside the facts that are live when it is
made: this is how a statement says which runs it is about.
-/

namespace AggregateRules

/-! ## Steps -/

/-- One fact of a batch, with what it came for. -/
inductive Step where
  | add (f : Fact)
  | modify (f : Fact)
  | remove (f : Fact)
  deriving DecidableEq

/-- The identity of the fact that a step is about. -/
def Step.id : Step → FactId
  | .add f => f.id
  | .modify f => f.id
  | .remove f => f.id

/-- The steps of a batch: its facts, one after the other. -/
def Batch.steps : Batch → List Step
  | .add facts => facts.map .add
  | .modify facts => facts.map .modify
  | .remove facts => facts.map .remove

/-- The steps of a run. -/
def stepsOf (bs : List Batch) : List Step := bs.flatMap Batch.steps

@[simp] theorem stepsOf_nil : stepsOf [] = [] := rfl

@[simp] theorem stepsOf_cons (b : Batch) (bs : List Batch) :
    stepsOf (b :: bs) = b.steps ++ stepsOf bs := rfl

@[simp] theorem stepsOf_append (bs cs : List Batch) :
    stepsOf (bs ++ cs) = stepsOf bs ++ stepsOf cs := List.flatMap_append

/-! ## Live facts -/

/-- The facts of other identities. -/
def others (id : FactId) (facts : List Fact) : List Fact := facts.filter fun f => f.id ≠ id

@[simp] theorem mem_others {id : FactId} {facts : List Fact} {f : Fact} :
    f ∈ others id facts ↔ f ∈ facts ∧ f.id ≠ id := by simp [others]

theorem others_of_notMem {id : FactId} {facts : List Fact} (h : id ∉ facts.map Fact.id) :
    others id facts = facts :=
  List.filter_eq_self.mpr fun f hf => by
    have : f.id ≠ id := fun hid => h (List.mem_map.mpr ⟨f, hf, hid⟩)
    simpa using this

/-- Another identity is live if it was before. -/
theorem mem_map_others {id id' : FactId} {facts : List Fact} :
    id' ∈ (others id facts).map Fact.id ↔ id' ∈ facts.map Fact.id ∧ id' ≠ id := by
  constructor
  · intro h
    obtain ⟨f, hf, rfl⟩ := List.mem_map.mp h
    exact ⟨List.mem_map_of_mem (mem_others.mp hf).1, (mem_others.mp hf).2⟩
  · rintro ⟨h, hne⟩
    obtain ⟨f, hf, rfl⟩ := List.mem_map.mp h
    exact List.mem_map_of_mem (mem_others.mpr ⟨hf, hne⟩)

theorem mem_map_others_append {id : FactId} {facts : List Fact} {f : Fact} :
    id ∈ (others f.id facts ++ [f]).map Fact.id ↔ id = f.id ∨ id ∈ facts.map Fact.id := by
  rw [List.map_append, List.mem_append, mem_map_others, List.map_singleton, List.mem_singleton]
  tauto

theorem notMem_others (id : FactId) (facts : List Fact) : id ∉ (others id facts).map Fact.id :=
  fun h => (mem_map_others.mp h).2 rfl

theorem others_others (id : FactId) (facts : List Fact) :
    others id (others id facts) = others id facts := others_of_notMem (notMem_others id facts)

/-- The live facts after one more step.  A fact that is not live cannot be modified. -/
def Step.live (facts : List Fact) : Step → List Fact
  | .add f => others f.id facts ++ [f]
  | .modify f => if f.id ∈ facts.map Fact.id then others f.id facts ++ [f] else facts
  | .remove f => others f.id facts

/-- **A live fact is modified by removing it and adding it again.** -/
theorem live_modify_of_live {facts : List Fact} {f : Fact} (h : f.id ∈ facts.map Fact.id) :
    Step.live facts (.modify f) = Step.live (Step.live facts (.remove f)) (.add f) := by
  simp only [Step.live, if_pos h, others_others]

theorem live_modify_of_notLive {facts : List Fact} {f : Fact} (h : f.id ∉ facts.map Fact.id) :
    Step.live facts (.modify f) = facts := if_neg h

/-- The live facts after a run, the one that was last added or modified last. -/
def liveAfter (bs : List Batch) : List Fact := (stepsOf bs).foldl Step.live []

theorem nodup_others (id : FactId) {facts : List Fact} (h : (facts.map Fact.id).Nodup) :
    ((others id facts).map Fact.id).Nodup :=
  h.sublist (List.filter_sublist.map Fact.id)

theorem nodup_others_append (f : Fact) {facts : List Fact} (h : (facts.map Fact.id).Nodup) :
    ((others f.id facts ++ [f]).map Fact.id).Nodup := by
  rw [List.map_append, List.nodup_append]
  refine ⟨nodup_others f.id h, by simp, fun id hid id' hid' he => ?_⟩
  obtain rfl : id' = f.id := by simpa using hid'
  exact notMem_others f.id facts (he ▸ hid)

theorem nodup_live {facts : List Fact} (h : (facts.map Fact.id).Nodup) (s : Step) :
    ((Step.live facts s).map Fact.id).Nodup := by
  cases s with
  | add f => exact nodup_others_append f h
  | modify f =>
    rw [Step.live]
    split
    · exact nodup_others_append f h
    · exact h
  | remove f => exact nodup_others f.id h

theorem nodup_foldl_live : ∀ (ss : List Step) {facts : List Fact}, (facts.map Fact.id).Nodup →
    ((ss.foldl Step.live facts).map Fact.id).Nodup
  | [], _, h => h
  | s :: ss, _, h => nodup_foldl_live ss (nodup_live h s)

/-- **No two live facts share an identity.** -/
theorem nodup_liveAfter (bs : List Batch) : ((liveAfter bs).map Fact.id).Nodup :=
  nodup_foldl_live (stepsOf bs) List.nodup_nil

/-- **Removing facts leaves the live facts of other identities.** -/
theorem mem_foldl_remove {f' : Fact} : ∀ (fs : List Fact) (facts : List Fact),
    f' ∈ (fs.map Step.remove).foldl Step.live facts ↔ f' ∈ facts ∧ ∀ f ∈ fs, f'.id ≠ f.id
  | [], _ => by simp
  | f :: fs, facts => by
      rw [List.map_cons, List.foldl_cons, mem_foldl_remove fs]
      simp [Step.live, and_assoc]

/-! ## Conditions on additions -/

section EachAdd

variable (P : List Fact → Fact → Prop)

/-- Every addition among the steps meets a condition, beside the facts that are live when it is
made. -/
def EachAdd : List Fact → List Step → Prop
  | _, [] => True
  | facts, s :: ss => (∀ f, s = .add f → P facts f) ∧ EachAdd (s.live facts) ss

variable {P}

theorem eachAdd_append : ∀ (ss : List Step) (facts : List Fact) (ss' : List Step),
    EachAdd P facts (ss ++ ss') ↔ EachAdd P facts ss ∧ EachAdd P (ss.foldl Step.live facts) ss'
  | [], _, _ => by simp [EachAdd]
  | s :: ss, _, _ => by simp [EachAdd, eachAdd_append ss, and_assoc]

/-- Steps that add nothing meet every condition on additions. -/
theorem eachAdd_of_notAdd : ∀ {ss : List Step} {facts : List Fact},
    (∀ f, .add f ∉ ss) → EachAdd P facts ss
  | [], _, _ => trivial
  | s :: _, _, h =>
      ⟨fun f hs => absurd (hs ▸ List.mem_cons_self) (h f),
        eachAdd_of_notAdd fun f hf => h f (List.mem_cons_of_mem s hf)⟩

instance decidableAdded (Q : Fact → Prop) [DecidablePred Q] :
    ∀ s : Step, Decidable (∀ f, s = .add f → Q f)
  | .add f => decidable_of_iff (Q f) (by simp)
  | .modify _ => isTrue (by simp)
  | .remove _ => isTrue (by simp)

instance decidableEachAdd [∀ facts, DecidablePred (P facts)] :
    ∀ (facts : List Fact) (ss : List Step), Decidable (EachAdd P facts ss)
  | _, [] => isTrue trivial
  | facts, s :: ss =>
      have := decidableEachAdd (s.live facts) ss
      inferInstanceAs (Decidable (_ ∧ _))

end EachAdd

/-! ## Additions of facts that are not live -/

/-- A fact's identity is not live. -/
def NotLive (facts : List Fact) (f : Fact) : Prop := f.id ∉ facts.map Fact.id

instance (facts : List Fact) : DecidablePred (NotLive facts) := fun _ =>
  inferInstanceAs (Decidable (¬ _))

/-- No addition of a run is of a live identity. -/
def AddsFresh (bs : List Batch) : Prop := EachAdd NotLive [] (stepsOf bs)

instance (bs : List Batch) : Decidable (AddsFresh bs) := decidableEachAdd [] (stepsOf bs)

/-- **Facts of distinct identities can be added at once**, and are then the live facts. -/
theorem eachAdd_notLive_of_nodup : ∀ (fs facts : List Fact),
    ((facts ++ fs).map Fact.id).Nodup →
      EachAdd NotLive facts (fs.map .add) ∧ (fs.map Step.add).foldl Step.live facts = facts ++ fs
  | [], _, _ => ⟨trivial, by simp⟩
  | f :: fs, facts, h => by
      have hf : NotLive facts f := by
        rw [List.map_append, List.nodup_append] at h
        exact fun hid => h.2.2 _ hid f.id (by simp) rfl
      have ih := eachAdd_notLive_of_nodup fs (facts ++ [f]) (by rwa [List.append_assoc])
      rw [List.append_assoc] at ih
      rw [List.map_cons, List.foldl_cons, Step.live, others_of_notMem hf]
      refine ⟨⟨fun f' hf' => by rw [← Step.add.inj hf']; exact hf, ?_⟩, ih.2⟩
      rw [Step.live, others_of_notMem hf]
      exact ih.1

/-- Facts of distinct identities, added at once, are the live facts. -/
theorem liveAfter_add {fs : List Fact} (h : (fs.map Fact.id).Nodup) :
    AddsFresh [.add fs] ∧ liveAfter [.add fs] = fs := by
  have := eachAdd_notLive_of_nodup fs [] h
  rw [List.nil_append] at this
  rw [AddsFresh, liveAfter, stepsOf_cons, stepsOf_nil, List.append_nil]
  exact this

end AggregateRules
