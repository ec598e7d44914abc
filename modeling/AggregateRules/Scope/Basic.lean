import AggregateRules.Attempt
import AggregateRules.Scope.Declaration

/-!
# Scope/Basic — one level of a hierarchy of names

A scope sees the bindings that were visible in its parent when it was derived, and after them its
own.  A binding never leaks outwards, unless the enclosing scope adopts it.  A name is resolved from
the innermost binding outwards; no name can be declared that is visible already.

A binding declared without a name gets one: `generatedName n` for the least number `n` above the
number of visible bindings whose name is free.  The search is bounded, for among one candidate more
than there are visible names one must be free.
-/

namespace AggregateRules

/-- One level of a hierarchy of names. -/
structure Scope where
  path : String
  inherited : Declarations
  own : Declarations
  deriving DecidableEq, Inhabited

namespace Scope

/-- A scope that sees nothing. -/
def root (label : String) : Scope := ⟨label, [], []⟩

/-- The bindings visible in a scope, the enclosing ones first. -/
def visible (s : Scope) : Declarations := s.inherited ++ s.own

/-- A scope inside, which sees what is visible here now. -/
def child (s : Scope) (label : String) : Scope :=
  ⟨s.path ++ scopeSeparator ++ label, s.visible, []⟩

/-- The binding that a short name resolves to, the innermost winning. -/
def lookup (s : Scope) (name : String) : Option Declaration := s.visible.findLast name

/-! ## Generated names -/

/-- The generated name of a number. -/
def generatedName (n : Nat) : String := "$var" ++ toString n ++ "$"

/-- The least number from `start` on whose generated name is free, looking at `fuel` candidates. -/
def freeNumber (taken : String → Bool) : (fuel start : Nat) → Nat
  | 0, start => start
  | fuel + 1, start =>
      if taken (generatedName start) then freeNumber taken fuel (start + 1) else start

/-- The name of the next binding declared without one. -/
def nextName (s : Scope) : String :=
  let count := s.visible.length
  generatedName (freeNumber (fun name => (s.lookup name).isSome) (count + 1) (count + 1))

/-! ## Declaring and adopting -/

/-- The name under which a binding is to be declared. -/
def freshName (s : Scope) : Option String → Except Fault String
  | none => .ok s.nextName
  | some name =>
      if name = "" then .error .emptyName
      else if (s.lookup name).isSome then .error (.duplicateDeclaration name s.path)
      else .ok name

/-- Declare a binding. -/
def declare (type : DataType) (name? : Option String) : Attempt Scope Declaration := do
  let s ← Attempt.state
  match s.freshName name? with
  | .error fault => Attempt.refuse fault
  | .ok name =>
      let d : Declaration := ⟨name, type, s.path⟩
      Attempt.put { s with own := s.own ++ [d] }
      return d

/-- Whether a binding of that name from that scope is visible. -/
def sees (s : Scope) (d : Declaration) : Bool :=
  s.visible.any fun e => e.name == d.name && e.scope == d.scope

/-- Adopt one binding, unless it is visible already. -/
def adoptOne (s : Scope) (d : Declaration) : Scope :=
  if s.sees d then s else { s with own := s.own ++ [d] }

/-- Adopt bindings in order. -/
def adopt (s : Scope) (ds : Declarations) : Scope := ds.foldl adoptOne s

/-! ## What the operations do to the visible bindings -/

@[simp] theorem visible_root (label : String) : (root label).visible = [] := rfl

/-- **A child sees what its parent sees.** -/
@[simp] theorem visible_child (s : Scope) (label : String) : (s.child label).visible = s.visible :=
  List.append_nil _

@[simp] theorem path_child (s : Scope) (label : String) :
    (s.child label).path = s.path ++ scopeSeparator ++ label := rfl

@[simp] theorem adopt_nil (s : Scope) : s.adopt [] = s := rfl

@[simp] theorem adopt_cons (s : Scope) (d : Declaration) (ds : Declarations) :
    s.adopt (d :: ds) = (s.adoptOne d).adopt ds := rfl

/-- **Adopting one list and then another is adopting both.** -/
theorem adopt_append (s : Scope) (ds es : Declarations) :
    s.adopt (ds ++ es) = (s.adopt ds).adopt es := List.foldl_append

@[simp] theorem path_adoptOne (s : Scope) (d : Declaration) : (s.adoptOne d).path = s.path := by
  unfold adoptOne; split <;> rfl

@[simp] theorem inherited_adoptOne (s : Scope) (d : Declaration) :
    (s.adoptOne d).inherited = s.inherited := by
  unfold adoptOne; split <;> rfl

theorem visible_adoptOne (s : Scope) (d : Declaration) :
    (s.adoptOne d).visible = s.visible ++ if s.sees d then [] else [d] := by
  unfold adoptOne visible
  split <;> simp

/-- **Declaring answers the binding and puts it last**, under the name that was asked for or
generated. -/
theorem run_declare_of_ok {s : Scope} {type : DataType} {name? : Option String} {name : String}
    (h : s.freshName name? = .ok name) :
    (declare type name?).run s =
      ⟨.ok ⟨name, type, s.path⟩, { s with own := s.own ++ [⟨name, type, s.path⟩] }, []⟩ := by
  simp [declare, Attempt.run_bind, h]

/-- **A refused declaration leaves no trace.** -/
theorem run_declare_of_error {s : Scope} {type : DataType} {name? : Option String} {fault : Fault}
    (h : s.freshName name? = .error fault) : (declare type name?).run s = ⟨.error fault, s, []⟩ := by
  simp [declare, Attempt.run_bind, h]

end Scope

end AggregateRules
