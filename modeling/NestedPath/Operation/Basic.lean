import NestedPath.Sha256
import NestedPath.Value.Basic

/-!
Operations on one bin of a record.
-/

namespace NestedPath

namespace Operation

inductive Kind where
  | pathRead | pathModify | evalRead | evalModify
  deriving DecidableEq

def Kind.code : Kind → UInt8
  | pathRead => 3
  | pathModify => 4
  | evalRead => 7
  | evalModify => 8

/-- Operations of this kind may change the record. -/
def Kind.writes : Kind → Bool
  | pathModify | evalModify => true
  | pathRead | evalRead => false

end Operation

structure Operation where
  bin : String
  kind : Operation.Kind
  payload : Bytes
  deriving DecidableEq

namespace Operation

/-- Payloads go out as blobs. -/
def particle (_ : Operation) : ParticleType := .blob

/--
What the fingerprint is taken of: the code, the length of the name in four bytes, the name and the
payload.
-/
def preimage (op : Operation) : Bytes :=
  op.kind.code :: (bigEndian 4 op.bin.utf8ByteSize ++ utf8 op.bin ++ op.payload)

/-- A digest by which prepared operations may be kept. -/
def fingerprint (op : Operation) : Bytes := Sha256.digest op.preimage

end Operation

end NestedPath
