import AggregateRules.DataType.Tagged
import AggregateRules.OrderedMap
import AggregateRules.Value.Order
import AggregateRules.Value.Tagged
import AggregateRules.Aggregator.Basic
import AggregateRules.Scope.Basic
import AggregateRules.Strategy.Registry
import AggregateRules.Draft.Chain
import AggregateRules.Delivery.Cell
import AggregateRules.Delivery.Lexical
import AggregateRules.Policy.Schema
import AggregateRules.Proofs.Grouping.Step
import AggregateRules.Proofs.Grouping.NetChange
import AggregateRules.Proofs.Grouping.Coherence
import AggregateRules.Proofs.Grouping.FromScratch
import AggregateRules.Proofs.Grouping.Position
import AggregateRules.Proofs.Scope.Names
import AggregateRules.Proofs.Scope.Generated
import AggregateRules.Proofs.Scope.Family
import AggregateRules.Proofs.Scope.Orderly
import AggregateRules.Proofs.Scope.Adopted
import AggregateRules.Proofs.Draft.Links
import AggregateRules.Proofs.Draft.Outcome
import AggregateRules.Proofs.Draft.Atomic
import AggregateRules.Proofs.Draft.Mirror
import AggregateRules.Proofs.Draft.Visible
import AggregateRules.Proofs.Draft.Governed
import AggregateRules.Proofs.InPlace.Kept
import AggregateRules.Proofs.InPlace.Balance
import AggregateRules.Proofs.InPlace.LastTold
import AggregateRules.Proofs.Draft.Faithful
import AggregateRules.Proofs.Delivery.Lexical
import AggregateRules.Proofs.Scope.Newcomers
import AggregateRules.Proofs.Scope.Resolution
import AggregateRules.Proofs.Undo
import AggregateRules.Proofs.Ignored
import AggregateRules.Proofs.ByteOrder
import AggregateRules.Proofs.Order
import AggregateRules.Proofs.Fields
import AggregateRules.Proofs.Records
import AggregateRules.Proofs.Notation
import AggregateRules.Proofs.Grouping.Guards
import AggregateRules.Proofs.Scope.FullNames
import AggregateRules.Proofs.Written
import AggregateRules.Proofs.Documents
import AggregateRules.Proofs.Policy
