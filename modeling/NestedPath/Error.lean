import NestedPath.Base64
import NestedPath.Hex

/-!
Why a path or an operation cannot be written, and why stored bytes cannot be read.

Each cause has a message, which starts with its result code.
-/

namespace NestedPath

inductive ResultCode where
  /-- An argument is not acceptable. -/
  | parameter
  /-- A part cannot be put into the wire format. -/
  | serialize
  /-- Stored bytes cannot be read. -/
  | parse
  deriving DecidableEq

def ResultCode.number : ResultCode → Int
  | parameter => 4
  | serialize => -10
  | parse => -2

inductive Task where
  /-- Select the elements that a path leads to. -/
  | select
  /-- Replace the elements that a path leads to. -/
  | modify
  /-- Write the path alone. -/
  | encode
  /-- Write the path in front of a command. -/
  | frame
  /-- Write the path as text to be stored. -/
  | store
  deriving DecidableEq

def Task.label : Task → String
  | select => "select_by_path"
  | modify => "modify_by_path"
  | encode => "encode_ctx"
  | frame => "encode_context_eval"
  | store => "ctx_to_base64"

inductive EncodeError where
  | emptyPath (task : Task)
  | tooLong (field : String) (length max : Nat)
  | tooDeep (max : Nat)
  /-- The bytes of a program are not one packed object. -/
  | malformedProgram
  deriving DecidableEq

namespace EncodeError

def code : EncodeError → ResultCode
  | malformedProgram => .serialize
  | _ => .parameter

def message : EncodeError → String
  | emptyPath task => s!"[4] {task.label} requires a non-empty context chain"
  | tooLong field length max => s!"[4] {field} length {length} exceeds maximum {max}"
  | tooDeep max => s!"[4] nesting depth exceeds maximum {max}"
  | malformedProgram => "[-10] compiled expression is not a single packed object"

end EncodeError

/-- In the messages `reading` says what was being read. -/
inductive DecodeError where
  | base64 (cause : Base64.Error)
  | endOfInput (reading : String)
  | marker (byte : UInt8) (reading : String)
  | utf8 (field : String)
  | particle (byte : UInt8)
  | notAPath
  | oddLength (length : Nat)
  | emptyPath
  | segmentId (id : Int64)
  | tooDeep (max : Nat)
  | tooLong (field : String) (length max : Nat)
  | duplicateKey
  | trailing (count : Nat)
  deriving DecidableEq

namespace DecodeError

def code (_ : DecodeError) : ResultCode := .parse

def message : DecodeError → String
  | base64 cause => s!"[-2] invalid base64: {cause.message}"
  | endOfInput reading => s!"[-2] unexpected end of input while reading {reading}"
  | marker byte reading =>
    "[-2] unexpected marker 0x" ++ hexByte byte ++ s!" while reading {reading}"
  | utf8 field => s!"[-2] invalid UTF-8 in {field}"
  | particle byte => s!"[-2] unknown particle type {byte}"
  | notAPath => "[-2] persisted context is not a list"
  | oddLength length => s!"[-2] persisted context has odd element count {length}"
  | emptyPath => "[-2] persisted context is empty"
  | segmentId id => s!"[-2] context id {id} is not a valid segment id"
  | tooDeep max => s!"[-2] nesting depth exceeds maximum {max}"
  | tooLong field length max => s!"[-2] {field} length {length} exceeds maximum {max}"
  | duplicateKey => "[-2] map contains a duplicate key"
  | trailing count => s!"[-2] {count} trailing bytes after packed context"

end DecodeError

end NestedPath
