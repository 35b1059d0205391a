import NestedPath.Inspect

/-!
The command line: shows the path that is stored in its first argument.
-/

open NestedPath

def main (args : List String) : IO UInt32 := do
  let outcome := Inspect.run args
  IO.print outcome.output
  IO.eprint outcome.errors
  return outcome.exitCode
