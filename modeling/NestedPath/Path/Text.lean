import NestedPath.Path.Decode
import NestedPath.Path.Encode

/-!
Paths as text to be stored: the packed path in Base64.
-/

namespace NestedPath.Path

def toText (p : Path) : Except EncodeError String := do
  check .store p
  return Base64.encode (Item.pack (Path.items 0 p))

/-- The path that a text holds. Blanks around the text do not matter. -/
def ofText (limits : ReadLimits) (text : String) : Except DecodeError Path := do
  let bs ← (Base64.decode text).mapError .base64
  decode limits bs

end NestedPath.Path
