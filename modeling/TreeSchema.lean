import TreeSchema.Document.Equality
import TreeSchema.Json
import TreeSchema.Lookup
import TreeSchema.Path.Reading
import TreeSchema.Proofs.Document.Allocation
import TreeSchema.Proofs.Document.Arena
import TreeSchema.Proofs.Document.Canonical
import TreeSchema.Proofs.Document.Descent
import TreeSchema.Proofs.Document.Diagnostics
import TreeSchema.Proofs.Document.Faults
import TreeSchema.Proofs.Document.FixedShape
import TreeSchema.Proofs.Document.Fragment
import TreeSchema.Proofs.Document.Lookup
import TreeSchema.Proofs.Document.Numbering
import TreeSchema.Proofs.Document.Paths
import TreeSchema.Proofs.Document.Places
import TreeSchema.Proofs.Document.Reachable
import TreeSchema.Proofs.Document.Recursion
import TreeSchema.Proofs.Document.References
import TreeSchema.Proofs.Document.Reordering
import TreeSchema.Proofs.Document.RoundTrip
import TreeSchema.Proofs.Document.Shape
import TreeSchema.Proofs.Document.Termination
import TreeSchema.Proofs.Document.Unfolding
import TreeSchema.Proofs.Follows
import TreeSchema.Proofs.Json.RoundTrip
import TreeSchema.Proofs.Json.Transport
import TreeSchema.Proofs.Mapping.History
import TreeSchema.Proofs.Number.Rounding
import TreeSchema.Proofs.Number.Text
import TreeSchema.Proofs.Path.Errors
import TreeSchema.Proofs.Path.Grammar
import TreeSchema.Proofs.Path.RoundTrip
import TreeSchema.Proofs.Path.Unambiguity
import TreeSchema.Proofs.Restriction.Conforming
import TreeSchema.Proofs.Restriction.Cycles
import TreeSchema.Proofs.Restriction.Descent
import TreeSchema.Proofs.Restriction.Equations
import TreeSchema.Proofs.Restriction.Failure
import TreeSchema.Proofs.Restriction.Fill
import TreeSchema.Proofs.Restriction.FillCalls
import TreeSchema.Proofs.Restriction.Filling
import TreeSchema.Proofs.Restriction.Idempotence
import TreeSchema.Proofs.Restriction.Marks
import TreeSchema.Proofs.Restriction.Outcome
import TreeSchema.Proofs.Restriction.Pruning
import TreeSchema.Proofs.Restriction.Removal
import TreeSchema.Proofs.Restriction.Reordering
import TreeSchema.Proofs.Restriction.Scalars
import TreeSchema.Proofs.Restriction.Totality
import TreeSchema.Proofs.Scalar.Coercion
import TreeSchema.Proofs.Scalar.Inverse
import TreeSchema.Proofs.Schema.Canonical
import TreeSchema.Proofs.Schema.Diagnostics
import TreeSchema.Proofs.Schema.Layer
import TreeSchema.Proofs.Schema.Marks
import TreeSchema.Proofs.Schema.Places
import TreeSchema.Proofs.Schema.Reordering
import TreeSchema.Proofs.Schema.RoundTrip
import TreeSchema.Proofs.Schema.Source
import TreeSchema.Proofs.Time.Calendar
import TreeSchema.Proofs.Time.Millis
import TreeSchema.Proofs.Time.Text
import TreeSchema.Proofs.Validation.Conformance
import TreeSchema.Proofs.Validation.Descent
import TreeSchema.Proofs.Validation.Origins
import TreeSchema.Proofs.Validation.Parts
import TreeSchema.Proofs.Validation.Relocation
import TreeSchema.Proofs.Validation.Reordering
import TreeSchema.Proofs.Value.Equality
import TreeSchema.Proofs.Value.Numbers
import TreeSchema.Restriction.Basic
import TreeSchema.Scalar.Coercion
