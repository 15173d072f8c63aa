import NullSafe.Proofs.WordOperators
import NullSafe.Proofs.Composition
import NullSafe.Proofs.FailedRequests
import NullSafe.Proofs.Interference
import NullSafe.Proofs.LoneNames
import NullSafe.Proofs.Tables
import NullSafe.Proofs.Spacing
import NullSafe.Proofs.Items
import NullSafe.Proofs.MissingOperands
import NullSafe.Proofs.WholeNumbers
import NullSafe.Proofs.ReadingBack
import NullSafe.Proofs.Order
import NullSafe.Proofs.Refusals
import NullSafe.Proofs.Effects
import NullSafe.Proofs.LogFields
