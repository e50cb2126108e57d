import TriStore.Executor
import TriStore.Text

/-!
# Scripts

A script is a list of lines. Most are requests; when lines are run one after another they may also
ask for the stats or for all records of a table. Each line is answered by lines of text.
-/

namespace TriStore.CommandLine

inductive Statement where
  | stats
  | scan (name : Option String)
  | request (r : Request)

namespace Statement

def ofLine (line : String) : Statement :=
  let words := Text.words line
  let keyword := Text.upper (words.headD "")
  if keyword = "STATS" then .stats
  else if keyword = "SCAN" then .scan words[1]?
  else .request (.ofLine line)

/-- The lines that list the records of a table, or say that there is no such table. -/
def listing (s : Store) (name : Option String) : List String :=
  match name with
  | none => [(Response.plain .error "Target required").line]
  | some name =>
    match Target.ofName? name with
    | some target => (s.toList target).map fun r => r.key ++ " " ++ r.value
    | none => [(Response.plain .error ("Unknown target: " ++ name)).line]

def run (s : Store) : Statement → List String × Store
  | .stats => (s.stats.report, s)
  | .scan name => (listing s name, s)
  | .request r =>
    let (response, s') := s.execute r
    ([response.line], s')

end Statement

/-- Runs lines one after another. Blank ones do nothing. -/
def exec (s : Store) : List String → List String × Store
  | [] => ([], s)
  | line :: lines =>
    if (Text.trim line).isEmpty then exec s lines
    else
      let (answer, next) := (Statement.ofLine (Text.trim line)).run s
      let (answers, last) := exec next lines
      (answer ++ answers, last)

/-- The requests in the text of a script: its lines, but for blank ones and comments. -/
def requests (script : String) : List Request :=
  (((Text.lines script).map Text.trim).filter fun line =>
    !line.isEmpty && !line.startsWith "#").map Request.ofLine

/-- Runs the requests of a script on a pool. Gives the lines of the responses, and of the stats
after them. -/
def replay (e : Executor) (script : String) : List String :=
  let (responses, e') := e.executeAll (requests script)
  responses.map (·.line) ++ e'.shared.stats.report

end TriStore.CommandLine
