import TriStore.Table
import TriStore.Json.Complaint

/-!
# Errors

All that can go wrong, with the text in which it is reported. Each part of the library has causes of
its own and words them; here they meet.
-/

namespace TriStore

inductive Error where
  | refused (cause : Refusal)
  | command (text : String)
  | config (text : String)
  /-- A name or number that cannot be read. -/
  | parsing (text : String)
  /-- A structure that is not what it should be. -/
  | corrupted (text : String)
  | file (text : String)
  | json (complaint : Json.Complaint)
  | other (text : String)

def Refusal.message : Refusal → String
  | keyExists => "Key already exists"
  | keyNotFound => "Key not found"
  | storeFull => "storage full"

def Error.message : Error → String
  | refused cause => cause.message
  | command text => text
  | config text => "invalid configuration: " ++ text
  | parsing text => "parsing error: " ++ text
  | corrupted text => "corrupted store: " ++ text
  | file text => text
  | json complaint => complaint.message
  | other text => text

end TriStore
