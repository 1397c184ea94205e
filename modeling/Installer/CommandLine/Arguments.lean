/-!
# Arguments

A command line names one command with its manifest. Switches and options stand before or behind the
manifest; a value stands behind its option, is attached to it, or follows an equals sign. The
switches that hold for every command may also stand before the command. Behind `--` all is taken for
what it is.
-/

namespace Installer.CommandLine

/-- A command with its own options. -/
inductive Command where
  | build (output : Option String) (stdout : Bool)
  | inspect
  | ids (kind : Option String)
deriving DecidableEq

/-- A command, its manifest, and the switches that hold for every command. -/
structure Invocation where
  command : Command
  manifest : String
  verbose : Bool
  json : Bool
deriving DecidableEq

inductive Flag where
  | verbose
  | json
  | stdout
  | output
  | kind
deriving DecidableEq

def Flag.takesValue : Flag → Bool
  | .output => true
  | .kind => true
  | _ => false

/-- The value of the option must not be empty, since it is a path. -/
def Flag.takesPath : Flag → Bool
  | .output => true
  | _ => false

inductive CommandName where
  | build
  | inspect
  | ids
deriving DecidableEq

def CommandName.ofText? : String → Option CommandName
  | "build" => some .build
  | "inspect" => some .inspect
  | "ids" => some .ids
  | _ => none

/-- The long switches and options that hold in a place: before the command, or behind it. -/
def longFlag? (place : Option CommandName) (name : String) : Option Flag :=
  match place, name with
  | _, "verbose" => some .verbose
  | _, "json" => some .json
  | some .build, "stdout" => some .stdout
  | some .build, "output" => some .output
  | some .ids, "kind" => some .kind
  | _, _ => none

/-- The short switches and options that hold in a place. -/
def shortFlag? (place : Option CommandName) (letter : Char) : Option Flag :=
  match place, letter with
  | _, 'v' => some .verbose
  | some .build, 'o' => some .output
  | some .ids, 'k' => some .kind
  | _, _ => none

/-- What was said in one place: switches, options with their values, and the other arguments. -/
structure Said where
  flags : List (Flag × String) := []
  operands : List String := []

namespace Said

/-- What was said with one more flag, which may be said once. -/
def add (s : Said) (f : Flag) (value : String) : Option Said :=
  if s.flags.any (·.1 == f) || (f.takesPath && value.isEmpty) then none
  else some { s with flags := s.flags ++ [(f, value)] }

/-- What was said with one more argument that is no flag. -/
def operand (s : Said) (value : String) : Said :=
  { s with operands := s.operands ++ [value] }

def has (s : Said) (f : Flag) : Bool :=
  s.flags.any (·.1 == f)

def value? (s : Said) (f : Flag) : Option String :=
  (s.flags.find? (·.1 == f)).map (·.2)

end Said

/-- A value without the equals sign in front of it. -/
def attached : List Char → String
  | '=' :: cs => String.ofList cs
  | cs => String.ofList cs

/-- What was said with a row of short flags. An option takes what is left of the row for its value,
or still needs one. -/
def addShort (place : Option CommandName) (s : Said) : List Char → Option (Said × Option Flag)
  | [] => some (s, none)
  | c :: cs => do
      let f ← shortFlag? place c
      if f.takesValue then
        if cs.isEmpty then return (s, some f)
        else return (← s.add f (attached cs), none)
      else addShort place (← s.add f "") cs

/-- What was said with a long flag, and the option that still needs a value. -/
def addLong (place : Option CommandName) (s : Said) (cs : List Char) :
    Option (Said × Option Flag) := do
  let name := cs.takeWhile (· != '=')
  let rest := cs.drop name.length
  let f ← longFlag? place (String.ofList name)
  match f.takesValue, rest with
  | true, [] => return (s, some f)
  | true, rest => return (← s.add f (attached rest), none)
  | false, [] => return (← s.add f "", none)
  | false, _ => none

def isOperand (arg : String) : Bool :=
  match arg.toList with
  | '-' :: _ :: _ => false
  | _ => true

/-- What was said with an argument that begins with a dash. -/
def addFlag (place : Option CommandName) (s : Said) (arg : String) : Option (Said × Option Flag) :=
  match arg.toList with
  | '-' :: '-' :: cs => addLong place s cs
  | '-' :: cs => addShort place s cs
  | _ => none

/-- What is said behind a command. `waiting` is an option that still needs its value. -/
def readArguments (place : CommandName) (s : Said) (waiting : Option Flag) :
    List String → Option Said
  | [] => if waiting.isSome then none else some s
  | arg :: args =>
      if arg == "--" then
        if waiting.isSome then none else some (args.foldl Said.operand s)
      else if isOperand arg then
        match waiting with
        | some f => do readArguments place (← s.add f arg) none args
        | none => readArguments place (s.operand arg) none args
      else if waiting.isSome then none
      else do
        let (s, waiting) ← addFlag (some place) s arg
        readArguments place s waiting args

/-- What is said before the command, the command, and what is said behind it. -/
def readCommand (s : Said) : List String → Option (Said × CommandName × Said)
  | [] => none
  | arg :: args =>
      match CommandName.ofText? arg with
      | some name => do return (s, name, ← readArguments name {} none args)
      | none =>
          if arg == "--" || isOperand arg then none
          else do
            let (s, _) ← addFlag none s arg
            readCommand s args

/-- The command with its options. A document goes to a file or to standard output, not to both. -/
def CommandName.withOptions (name : CommandName) (s : Said) : Option Command :=
  match name with
  | .build =>
      if s.has .stdout && s.has .output then none
      else some (.build (s.value? .output) (s.has .stdout))
  | .inspect => some .inspect
  | .ids => some (.ids (s.value? .kind))

def parse (args : List String) : Option Invocation := do
  let (before, name, behind) ← readCommand {} args
  let command ← name.withOptions behind
  match behind.operands with
  | [manifest] =>
      if manifest.isEmpty then none
      else return {
        command, manifest
        verbose := before.has .verbose || behind.has .verbose
        json := before.has .json || behind.has .json }
  | _ => none

end Installer.CommandLine
