import MetricLang.Language
import MetricLang.Proofs.Alike
import MetricLang.Proofs.Closed
import MetricLang.Proofs.Derivation
import MetricLang.Proofs.ExpressionRoundTrip
import MetricLang.Proofs.FilterRoundTrip
import MetricLang.Proofs.QueryReads
import MetricLang.Proofs.QueryRoundTrip
import MetricLang.Proofs.ReadLegible
import MetricLang.Proofs.Sources
import MetricLang.Proofs.Tiling
import MetricLang.Proofs.Transport
import MetricLang.Proofs.CanonicalText
import MetricLang.Proofs.Statements
import MetricLang.Proofs.Formulas
import MetricLang.Proofs.FormulaText
import MetricLang.Proofs.Layout
import MetricLang.Proofs.Alternatives
import MetricLang.Proofs.Embedding
import MetricLang.Proofs.ErrorPlaces
import MetricLang.Proofs.Canonical
import MetricLang.Proofs.Gluing
import MetricLang.Proofs.Exactness
import MetricLang.Proofs.Signs
import MetricLang.Proofs.Precedence
import MetricLang.Proofs.Captured
import MetricLang.Proofs.GluedValues
import MetricLang.Proofs.Comments
import MetricLang.Proofs.LetterCase
import MetricLang.Proofs.VariableNames
import MetricLang.Proofs.Stability
