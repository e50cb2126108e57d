import TriStore.CommandLine.Session

/-!
# The program

The files that the arguments name are read before the session, and its texts are printed after it.
All else is in `CommandLine.run`.
-/

namespace TriStore.CommandLine

def contentOf (path : String) : IO (Option ByteArray) :=
  try return some (← IO.FS.readBinFile path) catch _ => return none

end TriStore.CommandLine

open TriStore.CommandLine in
def main (args : List String) : IO UInt32 := do
  let paths := match Arguments.read args with
    | .ok arguments => paths arguments
    | .error _ => []
  let contents ← paths.mapM fun path => return (path, ← contentOf path)
  let outcome := run (fun path => (contents.lookup path).join) args
  IO.print outcome.output
  IO.eprint outcome.errors
  return outcome.code
