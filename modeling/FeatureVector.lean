import FeatureVector.Script.Run
import FeatureVector.Proofs.EditLaws
import FeatureVector.Proofs.CacheCoherence
import FeatureVector.Proofs.Copies
import FeatureVector.Proofs.Json.Texts
import FeatureVector.Proofs.Json.Words
import FeatureVector.Proofs.WindowCopy
import FeatureVector.Proofs.Json.Lexing
import FeatureVector.Proofs.Json.Building
import FeatureVector.Proofs.Binary64.Reals
import FeatureVector.Proofs.Binary64.Rounding
import FeatureVector.Proofs.Binary64.Bits
import FeatureVector.Proofs.Binary64.SameNumber
import FeatureVector.Proofs.Binary64.Operations
import FeatureVector.Proofs.Binary64.Roots
import FeatureVector.Proofs.Shortest
import FeatureVector.Proofs.Json.Floats
import FeatureVector.Proofs.Reading
import FeatureVector.Proofs.ShortDecimals
import FeatureVector.Proofs.Records
import FeatureVector.Proofs.TextRoundTrip
import FeatureVector.Proofs.CheckedEdits
import FeatureVector.Proofs.NestedWindows
import FeatureVector.Proofs.InBounds
import FeatureVector.Proofs.Assignments
import FeatureVector.Proofs.Accumulation
import FeatureVector.Proofs.Arithmetic
import FeatureVector.Proofs.Addition
import FeatureVector.Proofs.Elementwise
import FeatureVector.Proofs.SlotwiseAssignment
import FeatureVector.Proofs.Equality
import FeatureVector.Proofs.Hashing
import FeatureVector.Proofs.Numerals
import FeatureVector.Proofs.Labels
import FeatureVector.Proofs.CanonicalText
import FeatureVector.Proofs.Normalization
import FeatureVector.Proofs.Erasure
import FeatureVector.Proofs.TwinRuns
import FeatureVector.Proofs.Binary64.Sums
import FeatureVector.Proofs.SquaredLengths
import FeatureVector.Proofs.FaithfulClones
import FeatureVector.Proofs.Binary64.Order
import FeatureVector.Proofs.Maximum
import FeatureVector.Proofs.FirstMaximum
import FeatureVector.Proofs.Cursors
import FeatureVector.Proofs.NonZeroWalks
import FeatureVector.Proofs.MatrixCells
import FeatureVector.Proofs.MatrixRuns
import FeatureVector.Proofs.OuterProducts
import FeatureVector.Proofs.Equivalences
import FeatureVector.Proofs.LabelRuns
import FeatureVector.Proofs.RecordContent
import FeatureVector.Proofs.Distances
import FeatureVector.Proofs.Binary64.Negation
import FeatureVector.Proofs.Subtraction
import FeatureVector.Proofs.Derivations
import FeatureVector.Proofs.FilledCaches
import FeatureVector.Proofs.Displays
