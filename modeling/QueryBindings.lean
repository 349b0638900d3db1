import QueryBindings.Main
import QueryBindings.Proofs.Shape.Merging
import QueryBindings.Proofs.Shape.Selected
import QueryBindings.Proofs.Shape.Resolution
import QueryBindings.Proofs.Shape.Compatible
import QueryBindings.Proofs.Shape.FieldMerging
import QueryBindings.Proofs.Search
import QueryBindings.Proofs.Shape.Spreads
import QueryBindings.Proofs.Bindings.Extraction
import QueryBindings.Proofs.Bindings.Closure
import QueryBindings.Proofs.Bindings.Defined
import QueryBindings.Proofs.Shape.Rules
import QueryBindings.Proofs.Shape.Tags
import QueryBindings.Proofs.Module.Properties
import QueryBindings.Proofs.Module.Declared
import QueryBindings.Proofs.Lookup
import QueryBindings.Proofs.Text.Pieces
import QueryBindings.Proofs.Files.Order
import QueryBindings.Proofs.Files.Places
import QueryBindings.Proofs.Files.Walk
import QueryBindings.Proofs.Files.Collect
import QueryBindings.Proofs.Document.Offsets
import QueryBindings.Proofs.Document.Positions
import QueryBindings.Proofs.Document.Slices
import QueryBindings.Proofs.Document.Passages
import QueryBindings.Proofs.Document.Sources
import QueryBindings.Proofs.Module.Closed
import QueryBindings.Proofs.Module.Names
import QueryBindings.Proofs.Shape.Origins
import QueryBindings.Proofs.Search.Levels
import QueryBindings.Proofs.Bindings.InputTypes
import QueryBindings.Proofs.Shape.Conditions
import QueryBindings.Proofs.Bindings.Linking
import QueryBindings.Proofs.Bindings.Order
import QueryBindings.Proofs.Bindings.Additions
import QueryBindings.Proofs.Schema.Outlines
import QueryBindings.Proofs.Schema.Described
import QueryBindings.Proofs.Schema.Reordering
import QueryBindings.Proofs.Schema.Contents
import QueryBindings.Proofs.Schema.Keyed
import QueryBindings.Proofs.Schema.Failures
import QueryBindings.Proofs.Shape.WellFormed
import QueryBindings.Proofs.Bindings.WellFormed
import QueryBindings.Proofs.Shape.Defects
import QueryBindings.Proofs.Search.Distance
import QueryBindings.Proofs.Bindings.TransitiveSpreads
import QueryBindings.Proofs.Module.Template
import QueryBindings.Proofs.Module.TypeText
import QueryBindings.Proofs.Syntax.Reading
import QueryBindings.Proofs.Schema.AnnotationText
import QueryBindings.Proofs.Shape.Variants
