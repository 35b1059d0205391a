/-!
The version of the library.
-/

namespace NestedPath

def version : String := "0.1.0"

end NestedPath
