import AggregateRules.Delivery.Lexical

/-!
# Proofs/Delivery/Routed — histories in which every event goes to the innermost sink in force

`Routed` is the grammar of histories in which every emission is followed at once by its one
delivery, to the innermost sink in force, and in which sinks go out of force in the reverse of the
order in which they came into force.  It knows nothing of programs: the sinks in force are read off
the history.  What an observer sees of such a history is each event that was emitted, once and in
the order of the emissions (`Routed.deliveries_eq`, `Stage.deliveries_seen`).

Two stages are `Led` from one to the other if what was written between them is routed.
-/

namespace AggregateRules.Delivery

variable {s s' s'' : Stage}

/-! ## Routed histories -/

/-- The sinks in force, the innermost first, each by its number and its name. -/
abbrev InForce : Type := List (Nat × String)

/-- The number of the innermost sink in force. -/
def InForce.innermost (o : InForce) : Option Nat := o.head?.map Prod.fst

/-- Histories in which every event that is emitted goes, at once and once, to the innermost sink in
force, or to the log if none is; nothing else is delivered, and sinks go out of force in the reverse
of the order in which they came into force.  The sinks in force before and after are listed. -/
inductive Routed : InForce → List Happening → InForce → Prop
  | nil (o : InForce) : Routed o [] o
  | opened {o o' : InForce} {es : List Happening} {number : Nat} {name : String} :
      Routed ((number, name) :: o) es o' → Routed o (.opened number name :: es) o'
  | closed {o o' : InForce} {es : List Happening} {number : Nat} {name : String} :
      Routed o es o' → Routed ((number, name) :: o) (.closed number name :: es) o'
  | logged {o' : InForce} {es : List Happening} {event : Event} :
      Routed [] es o' → Routed [] (.emitted event :: .logged event :: es) o'
  | received {o o' : InForce} {es : List Happening} {number : Nat} {name : String} {event : Event} :
      Routed ((number, name) :: o) es o' →
        Routed ((number, name) :: o) (.emitted event :: .received number name event :: es) o'
  | finished {o o' : InForce} {es : List Happening} :
      Routed o es o' → Routed o (.finished :: es) o'
  | caught {o o' : InForce} {es : List Happening} :
      Routed o es o' → Routed o (.caught :: es) o'

/-- The event that is emitted. -/
def Happening.emission? : Happening → Option Event
  | .emitted event => some event
  | _ => none

/-- The event that is delivered, with the name of the sink it goes to, or none if it goes to the
log. -/
def Happening.delivery? : Happening → Option (Option String × Event)
  | .logged event => some (none, event)
  | .received _ sink event => some (some sink, event)
  | _ => none

/-- The event that is seen to be delivered, with the sink it is seen to go to. -/
def Entry.delivery? : Entry → Option (Option String × Event)
  | .logged event => some (none, event)
  | .received sink event => some (some sink, event)
  | _ => none

namespace Routed

variable {o o' o'' : InForce} {es es' : List Happening}

theorem append (h : Routed o es o') (h' : Routed o' es' o'') : Routed o (es ++ es') o'' := by
  induction h with
  | nil => exact h'
  | opened _ ih => exact opened (ih h')
  | closed _ ih => exact closed (ih h')
  | logged _ ih => exact logged (ih h')
  | received _ ih => exact received (ih h')
  | finished _ ih => exact finished (ih h')
  | caught _ ih => exact caught (ih h')

/-- **Every event is delivered exactly once**, in the order of the emissions. -/
theorem deliveries_eq (h : Routed o es o') :
    (es.filterMap Happening.delivery?).map Prod.snd = es.filterMap Happening.emission? := by
  induction h with
  | nil => rfl
  | opened _ ih => exact ih
  | closed _ ih => exact ih
  | logged _ ih => exact congrArg (_ :: ·) ih
  | received _ ih => exact congrArg (_ :: ·) ih
  | finished _ ih => exact ih
  | caught _ ih => exact ih

end Routed

/-! ## What is seen -/

/-- **Deliveries are seen**, each with the sink that received the event. -/
theorem Stage.deliveries_seen (s : Stage) :
    s.seen.filterMap Entry.delivery? = s.history.filterMap Happening.delivery? := by
  rw [Stage.seen, List.filterMap_filterMap]
  refine congrArg (List.filterMap · s.history) (funext fun happening => ?_)
  cases happening <;> rfl

theorem Stage.deliveries_shown (s : Stage) (stop : Stop) :
    (s.shown stop).filterMap Entry.delivery? = s.history.filterMap Happening.delivery? := by
  cases stop with
  | unwound => rw [Stage.shown, List.filterMap_append, s.deliveries_seen]; exact List.append_nil _
  | _ => exact s.deliveries_seen

/-! ## From one stage to another -/

/-- The stage after more has happened, with the same sinks. -/
def Stage.extended (s : Stage) (es : List Happening) : Stage :=
  { s with history := s.history ++ es }

theorem Stage.tell_eq_extended (s : Stage) (happening : Happening) :
    s.tell happening = s.extended [happening] := rfl

theorem Stage.extended_extended (s : Stage) (es es' : List Happening) :
    (s.extended es).extended es' = s.extended (es ++ es') := by
  rw [Stage.extended, Stage.extended, Stage.extended, List.append_assoc]

/-- The sinks in force are installed, each under its number and with its name. -/
def Stage.Knows (s : Stage) (o : InForce) : Prop :=
  ∀ p ∈ o, (s.sinks.map Sink.name)[p.1]? = some p.2

/-- What happened between two stages was routed, and the sinks are where they were. -/
structure Led (o : InForce) (s s' : Stage) : Prop where
  names : s.sinks.map Sink.name <+: s'.sinks.map Sink.name
  routed : ∃ es, s'.history = s.history ++ es ∧ Routed o es o

namespace Led

variable {o : InForce}

protected theorem refl (o : InForce) (s : Stage) : Led o s s :=
  ⟨List.prefix_rfl, [], (List.append_nil _).symm, .nil o⟩

protected theorem trans (h : Led o s s') (h' : Led o s' s'') : Led o s s'' := by
  obtain ⟨es, hes, hrouted⟩ := h.routed
  obtain ⟨es', hes', hrouted'⟩ := h'.routed
  refine ⟨h.names.trans h'.names, es ++ es', ?_, hrouted.append hrouted'⟩
  rw [hes', hes, List.append_assoc]

theorem knows (h : Led o s s') {o' : InForce} (hs : s.Knows o') : s'.Knows o' := by
  intro p hp
  obtain ⟨names, hnames⟩ := h.names
  obtain ⟨hlt, hname⟩ := List.getElem?_eq_some_iff.mp (hs p hp)
  rw [← hnames, List.getElem?_append_left hlt]
  exact hs p hp

/-- What happens while the sinks stay as they are. -/
theorem extended {es : List Happening} (h : Led o s s') (hrouted : Routed o es o) :
    Led o s (s'.extended es) := h.trans ⟨List.prefix_rfl, es, rfl, hrouted⟩

/-- The sinks keep their names when a reaction is used up. -/
theorem react (h : Led o s s') (number : Nat) : Led o s (s'.react number) where
  names := by
    have hsame : (s'.react number).sinks.map Sink.name = s'.sinks.map Sink.name := by
      refine List.ext_getElem? fun i => ?_
      simp only [Stage.react, List.getElem?_map, List.getElem?_modify]
      cases s'.sinks[i]? with
      | none => rfl
      | some other => by_cases hi : number = i <;> simp [hi]
    exact hsame ▸ h.names
  routed := h.routed

/-- A program that was run under a new sink. -/
theorem within {sink : Sink} {number : Nat} {name : String}
    (h : Led ((number, name) :: o) ⟨s.sinks ++ [sink], s.history ++ [.opened number name]⟩ s') :
    Led o s (s'.extended [.closed number name]) := by
  obtain ⟨es, hes, hrouted⟩ := h.routed
  refine ⟨(List.IsPrefix.map Sink.name (List.prefix_append ..)).trans h.names,
    .opened number name :: (es ++ [.closed number name]), ?_,
    .opened (hrouted.append (.closed (.nil o)))⟩
  simp only [Stage.extended, hes, List.append_assoc, List.cons_append, List.nil_append]

end Led

end AggregateRules.Delivery
