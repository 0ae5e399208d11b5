import SchemaLineage.Command.Directory
import SchemaLineage.Guard.Flatten
import SchemaLineage.Main
import SchemaLineage.Proofs.Histories
import SchemaLineage.Proofs.Placement
import SchemaLineage.Proofs.FieldOrdering
import SchemaLineage.Proofs.FlatNamespace
import SchemaLineage.Proofs.Cases
import SchemaLineage.Proofs.MergeParts
import SchemaLineage.Proofs.Evaluation
import SchemaLineage.Proofs.Coverage
import SchemaLineage.Proofs.Mergeability
import SchemaLineage.Proofs.GuardPlacement
import SchemaLineage.Proofs.StubExpressions
import SchemaLineage.Proofs.StubReading
import SchemaLineage.Proofs.StubLines
import SchemaLineage.Proofs.StubCode
import SchemaLineage.Proofs.StubMeaning
import SchemaLineage.Proofs.StubLayout
import SchemaLineage.Proofs.StubBlocks
import SchemaLineage.Proofs.InputOrder
import SchemaLineage.Proofs.Grammar
import SchemaLineage.Proofs.GrammarReading
import SchemaLineage.Proofs.Lexemes
import SchemaLineage.Proofs.Spelling
import SchemaLineage.Proofs.VersionSpelling
import SchemaLineage.Proofs.SchemaText
import SchemaLineage.Proofs.CommentScan
import SchemaLineage.Proofs.NearestVersions
import SchemaLineage.Proofs.MergedItems
import SchemaLineage.Proofs.UnobservedVersions
import SchemaLineage.Proofs.Restriction
import SchemaLineage.Proofs.LeastOrder
import SchemaLineage.Proofs.Visibility
import SchemaLineage.Proofs.SchemaDocument
import SchemaLineage.Proofs.CommandOutput
import SchemaLineage.Proofs.NormalForm
import SchemaLineage.Proofs.ExactConditions
import SchemaLineage.Proofs.CasePartition
import SchemaLineage.Proofs.FaultPosition
import SchemaLineage.Proofs.LocatedTokens
import SchemaLineage.Proofs.DataclassFields
import SchemaLineage.Proofs.DeclaredClasses
import SchemaLineage.Proofs.TreeViews
import SchemaLineage.Proofs.VersionRoundTrip
import SchemaLineage.Proofs.CheckVerdicts
import SchemaLineage.Proofs.InputDigest
import SchemaLineage.Proofs.IndexedEntries
import SchemaLineage.Proofs.VisitOrder
