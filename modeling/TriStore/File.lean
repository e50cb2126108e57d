import TriStore.Wire

/-!
# Files

Files are read whole. Their contents are texts in UTF-8. A configuration may come from a file that holds
it as JSON.
-/

namespace TriStore

/-- The contents of the files that there are, by path. -/
abbrev Files := String → Option ByteArray

inductive FileFault where
  | missing
  | notText
  deriving DecidableEq

def FileFault.message : FileFault → String
  | missing => "no such file"
  | notText => "the file is not valid UTF-8"

def readText (content : Option ByteArray) : Except FileFault String :=
  match content with
  | none => .error .missing
  | some bytes =>
    match String.fromUTF8? bytes with
    | some s => .ok s
    | none => .error .notText

namespace Config

inductive LoadFault where
  | file (fault : FileFault)
  | json (fault : Json.Fault)
  deriving DecidableEq

def LoadFault.error : LoadFault → Error
  | file fault => .file fault.message
  | json fault => .json ⟨fault.message, none⟩

/-- The configuration in a file, if there is one. Whether a store can be built with it is another
question. -/
def load (content : Option ByteArray) : Except LoadFault Config := do
  let text ← (readText content).mapError .file
  (Config.codec.decode text).mapError .json

end Config

end TriStore
