import Mathlib.Algebra.Ring.Nat
import AggregateRules.Delivery.Lexical

/-!
# Proofs/Delivery/Spent — a program comes to its end in as many steps as it is long

Of sinks that go through reactions, every reaction is used up when it is run.  So the size of the
program that is still to run and of the reactions that are left bounds the steps of a run
(`spent_run`): the reactions of a sink are part of the program that installs it, and pass from the
one to the other.
-/

namespace AggregateRules.Delivery

variable {fuel number : Nat} {s : Stage} {sink : Sink}

/-- The size of the reactions that the sinks have left. -/
def Stage.due (s : Stage) : Nat := (s.sinks.map fun sink => sizeAll sink.reactions).sum

@[simp] theorem Stage.due_tell (s : Stage) (happening : Happening) :
    (s.tell happening).due = s.due := rfl

@[simp] theorem Stage.due_install (s : Stage) (sink : Sink) :
    (s.install sink).2.due = s.due + sizeAll sink.reactions := by
  simp [Stage.due, Stage.install]

@[simp] theorem Stage.due_settleGuard (s : Stage) (stop : Stop) :
    (s.settleGuard stop).2.due = s.due := by
  cases stop <;> rfl

theorem sum_map_modify {α : Type} (g : α → Nat) (f : α → α) {a : α} :
    ∀ {l : List α} {i : Nat}, l[i]? = some a →
      ((l.modify i f).map g).sum + g a = (l.map g).sum + g (f a)
  | b :: l, 0, h => by
      obtain rfl : b = a := by simpa using h
      simp only [List.modify_zero_cons, List.map_cons, List.sum_cons]
      omega
  | b :: l, i + 1, h => by
      have ih := sum_map_modify g f (l := l) (i := i) (by simpa using h)
      simp only [List.modify_succ_cons, List.map_cons, List.sum_cons]
      omega

theorem size_pos : ∀ body : List Step, 0 < size body
  | [] => Nat.one_pos
  | step :: rest => by
      have := size_pos rest
      rw [size]
      omega

/-- A reaction that is run is no longer due. -/
theorem Stage.due_deliver (hsink : s.sinks[number]? = some sink) (event : Event) :
    size (scripted s sink event) + (s.deliver number sink event).due ≤ s.due + 1 := by
  have hsum := sum_map_modify (fun sink => sizeAll sink.reactions)
    (fun sink => { sink with reactions := sink.reactions.tail }) hsink
  change (s.deliver number sink event).due + _ = s.due + _ at hsum
  cases hreactions : sink.reactions with
  | nil =>
    simp only [hreactions, List.tail_nil] at hsum
    simp only [scripted, hreactions, List.headD_nil, size]
    omega
  | cons reaction rest =>
    simp only [hreactions, List.tail_cons, sizeAll] at hsum
    simp only [scripted, hreactions, List.headD_cons]
    omega

/-- A run that was given enough steps, and used up some of what was due. -/
def Spent (bound : Nat) (r : Stop × Stage) : Prop := r.1 ≠ .exhausted ∧ r.2.due < bound

theorem Spent.mono {bound bound' : Nat} {r : Stop × Stage} (h : Spent bound r)
    (hle : bound ≤ bound') : Spent bound' r := ⟨h.1, Nat.lt_of_lt_of_le h.2 hle⟩

theorem Spent.settle {bound : Nat} {r : Stop × Stage} (h : Spent bound r) (sink : Sink) :
    Spent bound (sink.settle r.1, r.2) := ⟨Sink.settle_ne h.1 Stop.noConfusion, h.2⟩

theorem Spent.settleGuard {bound : Nat} {r : Stop × Stage} (h : Spent bound r) :
    Spent bound (r.2.settleGuard r.1) :=
  ⟨Stage.settleGuard_ne h.1 Stop.noConfusion, (Stage.due_settleGuard ..).symm ▸ h.2⟩

section Step

variable {run : Option Nat → List Step → Stage → Stop × Stage}
  (h : ∀ current body (s : Stage), size body + s.due ≤ fuel →
    Spent (size body + s.due) (run current body s))

include h

theorem spent_emit (hfuel : s.due < fuel) (current : Option Nat) (event : Event) :
    Spent (s.due + 1) (emitLexical scripted run current event s) := by
  cases current with
  | none => exact ⟨Stop.noConfusion, Nat.lt_succ_self _⟩
  | some number =>
    cases hsink : s.sinks[number]? with
    | none =>
      rw [emitLexical_of_missing _ _ hsink]
      exact ⟨Stop.noConfusion, Nat.lt_succ_self _⟩
    | some sink =>
      have hdue := Stage.due_deliver (s := s.tell (.emitted event)) hsink event
      rw [Stage.due_tell] at hdue
      have hrun := h (some number) _ _ (Nat.le_trans hdue hfuel)
      rw [emitLexical_of_installed _ _ hsink]
      exact (hrun.mono hdue).settle sink

theorem spent_step (step : Step) (hfuel : step.size + s.due ≤ fuel) (current : Option Nat) :
    Spent (step.size + s.due) (stepLexical scripted run current step s) := by
  cases step with
  | emit event =>
    change 1 + s.due ≤ fuel at hfuel
    change Spent (1 + s.due) (emitLexical scripted run current event s)
    rw [Nat.add_comm] at hfuel ⊢
    exact spent_emit h hfuel current event
  | within name reactions panics body =>
    rw [Step.size] at hfuel ⊢
    have hrun := h (some s.sinks.length) body
      ((s.install ⟨name, reactions, panics⟩).2.tell (.opened s.sinks.length name))
    simp only [Stage.due_tell, Stage.due_install] at hrun
    exact (hrun (by omega)).mono (by omega)
  | guard body =>
    rw [Step.size] at hfuel ⊢
    exact ((h current body s (by omega)).mono (by omega)).settleGuard
  | panic => exact ⟨Stop.noConfusion, by simp [Step.size, stepLexical]⟩

end Step

/-- **The size of a program and of the reactions due are steps enough.** -/
theorem spent_run : ∀ (fuel : Nat) (current : Option Nat) (body : List Step) (s : Stage),
    size body + s.due ≤ fuel → Spent (size body + s.due) (runLexical scripted fuel current body s)
  | 0, _, body, s, hfuel => by
      have := size_pos body
      omega
  | fuel + 1, _, [], s, _ => ⟨Stop.noConfusion, by simp [size, runLexical]⟩
  | fuel + 1, current, step :: rest, s, hfuel => by
      have hrest := size_pos rest
      rw [size] at hfuel ⊢
      have hstep := spent_step (spent_run fuel) step (s := s) (by omega) current
      rw [runLexical]
      generalize stepLexical scripted (runLexical scripted fuel) current step s = r at hstep
      obtain ⟨stop, s'⟩ := r
      obtain ⟨hstop, hdue⟩ := hstep
      dsimp only at hstop hdue
      cases stop with
      | done => exact (spent_run fuel current rest s' (by omega)).mono (by omega)
      | exhausted => exact absurd rfl hstop
      | _ => exact ⟨Stop.noConfusion, by dsimp only; omega⟩

end AggregateRules.Delivery
