import AggregateRules.Strategy.Factory

/-!
# Strategy/Descriptor — what is known of a type that might aggregate

A descriptor names a candidate type.  If the type keeps the contract of an aggregator it has a
capability, and the capability has a constructor if an aggregator can be made without arguments.  A
type that is known from the start has an identity; one that is bound late, by name, has none.
-/

namespace AggregateRules

/-- The identity of a type that is known from the start. -/
inductive TypeIdentity where
  | collection
  | counting
  | threshold
  /-- A type of any other kind, by name. -/
  | other (name : String)
  deriving DecidableEq

/-- What a type that keeps the contract of an aggregator can do. -/
structure Capability where
  kind : AggregatorKind
  constructor : Option Blueprint

instance : Inspect Capability where
  inspect c := Inspect.record "AggregatorCapability"
    [("kind", inspect c.kind), ("default_constructible", inspect c.constructor.isSome)]

/-- What is known of a candidate type. -/
structure Descriptor where
  name : String
  identity : Option TypeIdentity
  capability : Option Capability

namespace Descriptor

/-- A type that does not aggregate. -/
def plain (name : String) : Descriptor := ⟨name, some (.other name), none⟩

/-- An aggregator type that can be made without arguments. -/
def constructible (name : String) (identity : TypeIdentity) (constructor : Blueprint) :
    Descriptor :=
  ⟨name, some identity, some ⟨.custom, some constructor⟩⟩

/-- An aggregator type that needs arguments. -/
def withArguments (name : String) (identity : TypeIdentity) : Descriptor :=
  ⟨name, some identity, some ⟨.custom, none⟩⟩

/-- The collection type of an element type, named after it. -/
def collection (element : DataType) : Descriptor where
  name := "CollectionAggregator<" ++ element.display ++ ">"
  identity := some .collection
  capability := some ⟨.collection, some (.collection element)⟩

/-- A type bound late, with the capability that is claimed for it. -/
def lateBound (name : String) (capability : Option Capability) : Descriptor :=
  ⟨name, none, capability⟩

/-- The descriptor under another name. -/
def rename (d : Descriptor) (name : String) : Descriptor := { d with name }

/-- What can be made from the descriptor alone. -/
def constructor? (d : Descriptor) : Option Blueprint := d.capability.bind Capability.constructor

/-- Whether the type is known from the start. -/
def isKnown (d : Descriptor) : Bool := d.identity.isSome

/-- Whether the type is known from the start as the collection type. -/
def isCollection (d : Descriptor) : Bool := d.identity == some .collection

/-- The structural text of a type bound late. -/
def inspectLateBound (d : Descriptor) : String :=
  Inspect.record "TypeDescriptor"
    [("name", inspect d.name), ("type_id", Inspect.optional none),
      ("capability", Inspect.optional (d.capability.map inspect))]

end Descriptor

end AggregateRules
