import NestedStyles.CommandLine.FileTree
import NestedStyles.Main
import NestedStyles.Proofs.Css.Flattening
import NestedStyles.Proofs.Json.Merge
import NestedStyles.Proofs.Css.Decoding
import NestedStyles.Proofs.Sheet.Violations
import NestedStyles.Proofs.Style.Agreement
import NestedStyles.Proofs.Css.Agreement
import NestedStyles.Proofs.Json.Reading
import NestedStyles.Proofs.Json.Integer
import NestedStyles.Proofs.Numeric.Rank
import NestedStyles.Proofs.Sheet.Embedding
import NestedStyles.Proofs.Sheet.Documents
import NestedStyles.Proofs.Sheet.Loaders
import NestedStyles.Proofs.Sheet.Reports
import NestedStyles.Proofs.CommandLine.Surfaces
import NestedStyles.Proofs.CommandLine.Worlds
import NestedStyles.Proofs.CommandLine.Effects
import NestedStyles.Proofs.CommandLine.OutputPath
import NestedStyles.Proofs.Keyed.Writes
import NestedStyles.Proofs.Sheet.Writes
import NestedStyles.Proofs.Sheet.Conversion
import NestedStyles.Proofs.Css.Ampersands
import NestedStyles.Proofs.Numeric.Denotation
import NestedStyles.Proofs.Numeric.Layout
import NestedStyles.Proofs.Css.Descendants
import NestedStyles.Proofs.Css.Padding
import NestedStyles.Proofs.Css.Interleaving
import NestedStyles.Proofs.Style.Places
import NestedStyles.Proofs.Css.Editing
import NestedStyles.Proofs.Css.Records
import NestedStyles.Proofs.Css.Pruning
import NestedStyles.Proofs.Numeric.Integers
import NestedStyles.Proofs.Sheet.Positions
import NestedStyles.Proofs.Json.Soundness
import NestedStyles.Proofs.Css.Trimmed
import NestedStyles.Proofs.Style.Equality
import NestedStyles.Proofs.Sheet.Duplicates
import NestedStyles.Proofs.Sheet.Calls
