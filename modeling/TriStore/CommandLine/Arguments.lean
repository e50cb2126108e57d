import TriStore.Text

/-!
# Arguments

The arguments of a command are settings, each with a value, and operands. They are read from left to
right, up to the name of another command. An argument that has no place where it stands ends the
reading, and so does a call for help or for the version. What is given twice, without a value or not
at all comes out at the end.
-/

namespace TriStore.CommandLine

inductive Stop where
  | help
  | version (text : String)
  | misuse (text : String)

structure Setting where
  name : String
  standard : Option String
  /-- The values allowed, in any case. If there are none, all are. -/
  choices : List String

def Setting.allows (setting : Setting) (value : String) : Bool :=
  setting.choices.isEmpty || setting.choices.any (Text.lower · == Text.lower value)

inductive Operands where
  | none
  | one
  | many

namespace Operands

def admits : Operands → Nat → Bool
  | none, _ => false
  | one, n => n == 0
  | many, _ => true

def enough : Operands → Nat → Bool
  | none, _ => true
  | one, n => 0 < n
  | many, n => 0 < n

end Operands

/-- What may stand in the arguments of a command. -/
structure Form where
  version : String
  settings : List Setting
  operands : Operands
  commands : List String

structure Given where
  /-- The settings in the order in which they stand, with their values where they have one. -/
  settings : List (String × Option String)
  operands : List String

namespace Given

def empty : Given := ⟨[], []⟩

def add (given : Given) (name : String) (value : Option String) : Given :=
  { given with settings := given.settings ++ [(name, value)] }

end Given

/-- An argument that starts with a dash, and is not just a dash, is no value and no operand. -/
def isMarked (arg : String) : Bool :=
  match arg.toList with
  | '-' :: _ :: _ => true
  | _ => false

namespace Form

/-- Reads an argument after its two dashes: the name of a setting and the value after an equals
sign. Further dashes and equals signs do not count. -/
def readLong (form : Form) (cs : List Char) : Except Stop (String × Option String) :=
  let cs := cs.dropWhile (· == '-')
  let name := String.ofList (cs.takeWhile (· != '='))
  let value := match cs.dropWhile (· != '=') with
    | [] => none
    | rest => some (String.ofList (rest.dropWhile (· == '=')))
  if form.settings.any (·.name == name) then .ok (name, value)
  else if name = "help" then .error .help
  else if name = "version" then .error (.version form.version)
  else .error (.misuse ("unknown option: --" ++ name))

def readMarked (form : Form) (arg : String) : Except Stop (String × Option String) :=
  match arg.toList with
  | '-' :: '-' :: cs => form.readLong cs
  | '-' :: 'h' :: _ => .error .help
  | '-' :: 'V' :: _ => .error (.version form.version)
  | _ => .error (.misuse ("unknown option: " ++ arg))

def addOperand (form : Form) (given : Given) (arg : String) : Except Stop Given :=
  if form.operands.admits given.operands.length then
    .ok { given with operands := given.operands ++ [arg] }
  else .error (.misuse ("unexpected argument: " ++ arg))

/-- Reads arguments, and gives those that are left: the name of a command and its arguments, or
none. A value stands behind its setting unless the next argument is marked. Two dashes make operands
of all that follows. -/
def read (form : Form) (given : Given) : List String → Except Stop (Given × List String)
  | [] => .ok (given, [])
  | arg :: args =>
    if arg = "--" then do return (← args.foldlM form.addOperand given, [])
    else if isMarked arg then
      match form.readMarked arg with
      | .error stop => .error stop
      | .ok (name, some value) => form.read (given.add name (some value)) args
      | .ok (name, none) =>
        match args with
        | [] => .ok (given.add name none, [])
        | value :: args =>
          if isMarked value then form.read (given.add name none) (value :: args)
          else form.read (given.add name (some value)) args
    else if form.commands.contains arg then .ok (given, arg :: args)
    else do form.read (← form.addOperand given arg) args

/-- The value of a setting: the one given, or else the standard one. -/
def value? (form : Form) (given : Given) (name : String) : Option String :=
  match (given.settings.lookup name).join with
  | some value => some value
  | none => (form.settings.find? (·.name == name)).bind (·.standard)

def checkSetting (form : Form) (given : Given) (setting : Setting) : Except Stop Unit :=
  match form.value? given setting.name with
  | none => .error (.misuse ("no value: --" ++ setting.name))
  | some value =>
    if 1 < given.settings.countP (·.1 == setting.name) then
      .error (.misuse ("given twice: --" ++ setting.name))
    else if setting.allows value then .ok ()
    else .error (.misuse ("not a value of --" ++ setting.name ++ ": " ++ value))

def check (form : Form) (given : Given) : Except Stop Unit := do
  if !form.operands.enough given.operands.length then .error (.misuse "an argument is missing")
  form.settings.forM fun setting =>
    if given.settings.any (·.1 == setting.name) then form.checkSetting given setting else .ok ()

end Form

end TriStore.CommandLine
