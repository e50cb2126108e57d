import TriStore.CommandLine.Options
import TriStore.CommandLine.Script

/-!
# Sessions

A session is one run of the program, from its arguments to the texts that it prints and the code
with which it ends.
-/

namespace TriStore.CommandLine

structure Outcome where
  code : UInt32
  output : String
  errors : String

namespace Outcome

def done (lines : List String) : Outcome := ⟨0, String.join (lines.map (· ++ "\n")), ""⟩

def failed (message : String) : Outcome := ⟨1, "", message ++ "\n"⟩

end Outcome

def usage : List String :=
  ["kvstores [OPTIONS] exec <COMMAND>...",
    "kvstores [OPTIONS] replay <FILE> [--threads N] [--pool shared|rayon]",
    "kvstores [OPTIONS] stats",
    "OPTIONS: --config FILE, --array-capacity N, --hash-capacity N, --rbtree-capacity N,",
    "--hash-buckets N, --log-level LEVEL"]

def act (files : Files) (o : Options) : Except Error (List String) := do
  let store ← (Store.ofConfig o.config).mapError (·.error)
  match o.action with
  | .exec lines => return (exec store lines).1
  | .replay path threads =>
    let executor ← Pool.ofThreads threads store
    let script ← (readText (files path)).mapError fun fault => .file fault.message
    return replay executor script
  | .stats => return store.stats.report

def paths (args : Arguments) : List String :=
  (generalForm.value? args.general "config").toList ++
    match args.subcommand with
    | .replay => args.own.operands
    | _ => []

def Stop.outcome : Stop → Outcome
  | help => .done usage
  | version text => .done [text]
  | misuse text => .failed ("error: " ++ text ++ "\nFor more information try --help")

def run (files : Files) (args : List String) : Outcome :=
  match Arguments.read args with
  | .error stop => stop.outcome
  | .ok arguments =>
    match (Options.read files arguments).bind (act files) with
    | .ok lines => .done lines
    | .error e => .failed e.message

end TriStore.CommandLine
