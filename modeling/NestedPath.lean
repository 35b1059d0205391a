import NestedPath.Version
import NestedPath.Wire.Cursor
import NestedPath.Operation.Build
import NestedPath.Inspect
import NestedPath.Main
import NestedPath.Proofs.Reading
import NestedPath.Proofs.Headers
import NestedPath.Proofs.Value.Order
import NestedPath.Proofs.Base64
import NestedPath.Proofs.Expr.Injective
import NestedPath.Proofs.Path.Restore
import NestedPath.Proofs.Path.Parts
import NestedPath.Proofs.Expr.Object
import NestedPath.Proofs.Operation.Agreement
import NestedPath.Proofs.Path.Framing
import NestedPath.Proofs.Operation.Replacement
import NestedPath.Proofs.Incomplete
import NestedPath.Proofs.Value.Framed
import NestedPath.Proofs.Truncation
import NestedPath.Proofs.Forms
import NestedPath.Proofs.Packed
import NestedPath.Proofs.Path.Grammar
import NestedPath.Proofs.Path.Limits
import NestedPath.Proofs.Value.Entries
import NestedPath.Proofs.Value.Keys
import NestedPath.Proofs.Value.Levels
import NestedPath.Proofs.Extent
import NestedPath.Proofs.Value.Cost
import NestedPath.Proofs.Path.Frame
import NestedPath.Proofs.Operation.Fingerprint
import NestedPath.Proofs.Expr.Writing
import NestedPath.Proofs.Expr.Accessor
import NestedPath.Proofs.Numbers
import NestedPath.Proofs.Progress
