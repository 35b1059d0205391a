import NestedPath.Double.Fixed
import NestedPath.Path.Text
import NestedPath.Value.Pack

/-!
A stored path shown for people, a line for each segment.
-/

namespace NestedPath.Inspect

/-- Characters of a text that are shown. -/
def previewLength : Nat := 40

/-- A text between quotes, cut short if it is long. -/
def quoted (s : String) : String :=
  let cs := s.toList
  let front := String.ofList (cs.take previewLength)
  if previewLength < cs.length then "\"" ++ front ++ "...\"" else "\"" ++ front ++ "\""

def value : Value → String
  | .nil => "nil"
  | .bool b => toString b
  | .int n => toString n
  | .float d => d.toFixed 6
  | .string s => quoted s
  | .blob bytes => s!"BYTES[{bytes.length}]"
  | .geo json => "GEOJSON(" ++ json ++ ")"
  | .list vs => "[" ++ ", ".intercalate (vs.map fun v => value v) ++ "]"
  | .map es =>
    "\x7b" ++ ", ".intercalate (es.map fun e => value e.1 ++ ": " ++ value e.2) ++ "\x7d"
termination_by v => sizeOf v
decreasing_by
  · have := List.sizeOf_lt_of_mem ‹v ∈ vs›
    simp only [Value.list.sizeOf_spec]
    omega
  · exact Value.sizeOf_fst_lt ‹e ∈ es›
  · exact Value.sizeOf_snd_lt ‹e ∈ es›

def payload : Segment.Payload → String
  | .literal v => value v
  | .filter p =>
    if p = .always then "*" else "filter[" ++ " ".intercalate (p.bytes.map hexByte) ++ "]"

def padLeft (width : Nat) (s : String) : String := String.ofList (s.toList.leftpad width ' ')

def padRight (width : Nat) (s : String) : String := String.ofList (s.toList.rightpad width ' ')

def line (index : Nat) (s : Segment) : String :=
  "  " ++ padLeft 3 (toString index) ++ "  0x" ++ hexNumber s.id.toNat ++ "  " ++
    padRight 12 s.kind.name ++ " " ++ payload s.payload ++
    (if s.creates then " (create)" else "") ++ "\n"

def lines (p : Path) : String :=
  s!"=== Context ({p.length} segments) ===\n" ++
    String.join (p.zipIdx.map fun (s, i) => line i s)

/-- What a run of the command leaves behind. -/
structure Outcome where
  exitCode : UInt32
  output : String
  errors : String

/-- Shows the path that the first argument holds. -/
def run : List String → Outcome
  | [] => ⟨2, "", "usage: inspect_ctx <base64>\n"⟩
  | text :: _ =>
    match Path.ofText .standard text with
    | .ok p => ⟨0, lines p, ""⟩
    | .error e => ⟨1, "", s!"error: {e.message} (code {e.code.number})\n"⟩

end NestedPath.Inspect
