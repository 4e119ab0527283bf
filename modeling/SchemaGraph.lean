import SchemaGraph.Main
import SchemaGraph.Proofs.Graph.Acceptance
import SchemaGraph.Proofs.Graph.HeaderTypes
import SchemaGraph.Proofs.Graph.ListItems
import SchemaGraph.Proofs.Graph.SerializedTypes
import SchemaGraph.Proofs.Linking.Descendants
import SchemaGraph.Proofs.Linking.NearestTypes
import SchemaGraph.Proofs.Resolution.Attributes
import SchemaGraph.Proofs.Resolution.Choices
import SchemaGraph.Proofs.Resolution.Collections
import SchemaGraph.Proofs.Resolution.Decisions
import SchemaGraph.Proofs.Resolution.Disjointness
import SchemaGraph.Proofs.Resolution.LeftOut
import SchemaGraph.Proofs.Resolution.Mixture
import SchemaGraph.Proofs.Resolution.Sharing
import SchemaGraph.Proofs.Resolution.Substitutes
import SchemaGraph.Proofs.Linking.Additions
import SchemaGraph.Proofs.Linking.Rejected
import SchemaGraph.Proofs.Linking.Offered
import SchemaGraph.Proofs.Graph.TextAttributes
import SchemaGraph.Proofs.Linking.Reading
import SchemaGraph.Proofs.Linking.Loaded
import SchemaGraph.Proofs.Resolution.Foreign
import SchemaGraph.Proofs.Service.PortTypes
import SchemaGraph.Proofs.Declaration.Presentation
import SchemaGraph.Proofs.Declaration.EmptyDefault
import SchemaGraph.Proofs.Naming.Notations
import SchemaGraph.Proofs.Markup.Scoping
import SchemaGraph.Proofs.Markup.RoundTrip
import SchemaGraph.Proofs.Artifact.EmittedNames
import SchemaGraph.Proofs.Artifact.Tables
import SchemaGraph.Proofs.Code.EnumerationNames
import SchemaGraph.Proofs.Code.Enclosure
import SchemaGraph.Proofs.Resolution.Subtraction
import SchemaGraph.Proofs.Code.Statics
import SchemaGraph.Proofs.Code.Matching
