import TriStore.CommandLine.Arguments
import TriStore.File
import TriStore.Text

/-!
# Options

The arguments of the program as a whole: a configuration, which settings put together from a file
and from sizes that go before those in the file, and what to do with the store.
-/

namespace TriStore.CommandLine

def standardThreads : String := "4"

def generalForm : Form where
  version := "kvstores 0.1.0"
  settings :=
    [⟨"config", none, []⟩, ⟨"array-capacity", none, []⟩, ⟨"hash-capacity", none, []⟩,
      ⟨"rbtree-capacity", none, []⟩, ⟨"hash-buckets", none, []⟩, ⟨"log-level", some "warn", []⟩]
  operands := .none
  commands := ["exec", "replay", "stats", "help"]

def execForm : Form := ⟨"kvstores-exec ", [], .many, []⟩

def replayForm : Form where
  version := "kvstores-replay "
  settings := [⟨"threads", some standardThreads, []⟩, ⟨"pool", some "shared", ["shared", "rayon"]⟩]
  operands := .one
  commands := []

def statsForm : Form := ⟨"kvstores-stats ", [], .none, []⟩

inductive Subcommand where
  | exec
  | replay
  | stats

structure Arguments where
  general : Given
  subcommand : Subcommand
  own : Given

def readOwn (form : Form) (args : List String) : Except Stop Given := do
  let (given, _) ← form.read .empty args
  form.check given
  return given

/-- How a call for help ends a reading. It may name one command and takes nothing else. -/
def helpStop : List String → Stop
  | [] => .help
  | [name] => if generalForm.commands.contains name then .help else .misuse ("no command: " ++ name)
  | names => .misuse ("no command: " ++ " ".intercalate names)

/-- Reads and checks the name and the arguments of a command. Without a command, stats are asked for.
-/
def readCommand : List String → Except Stop (Subcommand × Given)
  | [] => .ok (.stats, .empty)
  | name :: args =>
    if name = "exec" then return (.exec, ← readOwn execForm args)
    else if name = "replay" then return (.replay, ← readOwn replayForm args)
    else if name = "stats" then return (.stats, ← readOwn statsForm args)
    else .error (helpStop args)

/-- Reads and checks all arguments, those of the command before those in front of it. -/
def Arguments.read (args : List String) : Except Stop Arguments := do
  let (general, rest) ← generalForm.read .empty args
  let (subcommand, own) ← readCommand rest
  generalForm.check general
  return ⟨general, subcommand, own⟩

structure Overrides where
  arrayCapacity : Option Nat
  hashCapacity : Option Nat
  treeCapacity : Option Nat
  hashBuckets : Option Nat

/-- The configuration with the sizes given in place of its own. -/
def Overrides.apply (o : Overrides) (c : Config) : Config where
  arrayCapacity := o.arrayCapacity.getD c.arrayCapacity
  hashCapacity := o.hashCapacity.getD c.hashCapacity
  treeCapacity := o.treeCapacity.getD c.treeCapacity
  hashBuckets := o.hashBuckets <|> c.hashBuckets

def readSize (general : Given) (name : String) : Except Error (Option Nat) :=
  match generalForm.value? general name with
  | none => .ok none
  | some s =>
    match Text.number? 0xffffffffffffffff s with
    | some n => .ok (some n)
    | none => .error (.parsing ("could not parse " ++ s ++ " into a " ++ name))

def Overrides.read (general : Given) : Except Error Overrides := do
  return {
    arrayCapacity := ← readSize general "array-capacity"
    hashCapacity := ← readSize general "hash-capacity"
    treeCapacity := ← readSize general "rbtree-capacity"
    hashBuckets := ← readSize general "hash-buckets" }

/-- The configuration in the file that is named, or the standard one. -/
def readConfigFile (files : Files) (general : Given) : Except Error Config :=
  match generalForm.value? general "config" with
  | some path => (Config.load (files path)).mapError (·.error)
  | none => .ok .standard

/-- Whether a text is a level of logging: its name, or its number from 1 for errors only to 5. -/
def isLogLevel (s : String) : Bool :=
  match Text.number? 0xffffffffffffffff s with
  | some n => 1 ≤ n && n ≤ 5
  | none => ["error", "warn", "info", "debug", "trace"].contains (Text.lower s)

/-- Checks the level of logging. The program logs nothing whatever it is. -/
def checkLogLevel (general : Given) : Except Error Unit :=
  match generalForm.value? general "log-level" with
  | none => .ok ()
  | some s => if isLogLevel s then .ok () else .error (.parsing ("invalid log level: " ++ s))

def readThreads (own : Given) : Except Error Nat :=
  let s := (replayForm.value? own "threads").getD standardThreads
  match Text.number? 0xffffffff s with
  | none =>
    .error (.parsing ("error: Invalid value: The argument '" ++ s ++ "' isn't a valid value"))
  | some 0 => .error (.parsing "threads must be positive")
  | some n => .ok n

inductive Action where
  | exec (lines : List String)
  | replay (path : String) (threads : Nat)
  | stats

def readAction (args : Arguments) : Except Error Action :=
  match args.subcommand with
  | .exec => .ok (.exec args.own.operands)
  | .replay => do return .replay (args.own.operands.headD "") (← readThreads args.own)
  | .stats => .ok .stats

structure Options where
  config : Config
  action : Action

def Options.read (files : Files) (args : Arguments) : Except Error Options := do
  let file ← readConfigFile files args.general
  let overrides ← Overrides.read args.general
  checkLogLevel args.general
  return ⟨overrides.apply file, ← readAction args⟩

end TriStore.CommandLine
