import Containerfile.Text

/-!
# The command line

The arguments of the tool are one input, options with a value, and switches.  They are taken from
left to right.  An option waits for its value in the next argument, and is settled only when another
option, a switch or an input comes, or the arguments end; a fault of the value shows then.  An
argument that is not known is refused at once.

## Main definitions

* `Invocation` — what the command line asks for.
* `Refusal` — why a command line is refused.
* `Invocation.ofArguments` — the invocation that a list of arguments means.
-/

namespace Containerfile

/-- What the command line asks for. -/
structure Invocation where
  /-- The path of the file to be read. -/
  input : Text
  /-- The path of the file to be written, unless it is the standard output. -/
  output : Option Text
  /-- The path of the configuration. -/
  config : Option Text
  /-- Build arguments with their values, if they have any. -/
  buildArgs : List (Text × Option Text)
  /-- The references are resolved. -/
  resolve : Bool
  /-- The stages are listed. -/
  stages : Bool
  logLevel : Text
deriving DecidableEq, Repr

/-- Why a command line is refused, or what is shown in its place. -/
inductive Refusal where
  /-- The input is missing. -/
  | missingInput
  /-- There is no such option, or one input too many. -/
  | unknownArgument
  /-- Two arguments exclude each other, or one is given twice. -/
  | conflict
  /-- A value is not acceptable. -/
  | badValue
  /-- An option has no value. -/
  | missingValue
  /-- A switch has a value. -/
  | unwantedValue
  /-- The help is asked for. -/
  | help
  /-- The version is asked for. -/
  | version
deriving DecidableEq, Repr

namespace Invocation

/-! ## Options and switches -/

/-- The options with a value. -/
inductive Key where
  | output
  | config
  | buildArg
  | logLevel
deriving DecidableEq, Repr

/-- The switches. -/
inductive Switch where
  | resolve
  | stages
  | help
  | version
deriving DecidableEq, Repr

/-- What a name stands for. -/
inductive Name where
  | key (key : Key)
  | switch (switch : Switch)
deriving DecidableEq, Repr

/-- The meaning of a long name. -/
def ofLong? (name : Text) : Option Name :=
  match String.ofList name with
  | "output" => some (.key .output)
  | "config" => some (.key .config)
  | "build-arg" => some (.key .buildArg)
  | "log-level" => some (.key .logLevel)
  | "resolve" => some (.switch .resolve)
  | "stages" => some (.switch .stages)
  | "help" => some (.switch .help)
  | "version" => some (.switch .version)
  | _ => none

/-- The meaning of a letter. -/
def ofShort? : Char → Option Name
  | 'o' => some (.key .output)
  | 'c' => some (.key .config)
  | 'h' => some (.switch .help)
  | 'V' => some (.switch .version)
  | _ => none

/-! ## Taking arguments -/

/-- The variables of the environment. -/
abbrev Environment := List (Text × Text)

/-- The value of a variable of the environment. -/
def Environment.value? (env : Environment) (name : Text) : Option Text :=
  (env.find? fun p => p.1 == name).map Prod.snd

/-- What has been taken so far. -/
structure Progress where
  input : Option Text := none
  output : Option Text := none
  config : Option Text := none
  buildArgs : List (Text × Option Text) := []
  resolve : Bool := false
  stages : Bool := false
  logLevel : Option Text := none
  /-- The option that is not settled yet, and its value if that has come. -/
  pending : Option (Key × Option Text) := none
  /-- Two dashes have come, and all further arguments are inputs. -/
  inputsOnly : Bool := false
deriving DecidableEq, Repr

/-- A build argument: a name and a value, or a name whose value the environment has. -/
def buildArg? (env : Environment) (s : Text) : Option (Text × Option Text) :=
  let name := s.takeWhile (· != '=')
  if name.isEmpty then none
  else
    match s.dropWhile (· != '=') with
    | [] => some (name, env.value? name)
    | _ :: value => some (name, some value)

/-- A value in a place that is still free. -/
def once (current : Option Text) (value : Text) : Except Refusal (Option Text) :=
  if current.isSome then .error .conflict else .ok (some value)

/-- Gives an option its value. -/
def setKey (env : Environment) (p : Progress) (key : Key) (value : Text) :
    Except Refusal Progress :=
  match key with
  | .output => do
    let output ← once p.output value
    return { p with output }
  | .config => do
    let config ← once p.config value
    return { p with config }
  | .logLevel => do
    let logLevel ← once p.logLevel value
    return { p with logLevel }
  | .buildArg =>
    match buildArg? env value with
    | some arg => .ok { p with buildArgs := p.buildArgs ++ [arg] }
    | none => .error .badValue

/-- Settles the option that waits. -/
def settle (env : Environment) (p : Progress) : Except Refusal Progress :=
  match p.pending with
  | none => .ok p
  | some (_, none) => .error .missingValue
  | some (key, some value) => setKey env { p with pending := none } key value

/-- Turns a switch on. -/
def turnOn (env : Environment) (p : Progress) (switch : Switch) : Except Refusal Progress := do
  let p ← settle env p
  match switch with
  | .resolve => if p.resolve then .error .conflict else .ok { p with resolve := true }
  | .stages => if p.stages then .error .conflict else .ok { p with stages := true }
  | .help => .error .help
  | .version => .error .version

/-- Takes an option, with its value if that is attached to it. -/
def takeKey (env : Environment) (p : Progress) (key : Key) (attached : Option Text) :
    Except Refusal Progress := do
  let p ← settle env p
  match attached with
  | some value => setKey env p key value
  | none => return { p with pending := some (key, none) }

/-- Takes an argument that starts with two dashes. -/
def takeLong (env : Environment) (p : Progress) (s : Text) : Except Refusal Progress :=
  let attached :=
    match s.dropWhile (· != '=') with
    | [] => none
    | _ :: value => some value
  match ofLong? (s.takeWhile (· != '=')), attached with
  | none, _ => .error .unknownArgument
  | some (.key key), attached => takeKey env p key attached
  | some (.switch _), some _ => .error .unwantedValue
  | some (.switch switch), none => turnOn env p switch

/-- Takes the letters behind one dash.  What follows the letter of an option is its value. -/
def takeShort (env : Environment) (p : Progress) : Text → Except Refusal Progress
  | [] => .ok p
  | c :: s =>
    match ofShort? c, s with
    | none, _ => .error .unknownArgument
    | some (.switch switch), s => do
      let p ← turnOn env p switch
      takeShort env p s
    | some (.key key), [] => takeKey env p key none
    | some (.key key), '=' :: value => takeKey env p key (some value)
    | some (.key key), value => takeKey env p key (some value)

/-- Takes an input.  There can be only one. -/
def takeInput (env : Environment) (p : Progress) (s : Text) : Except Refusal Progress :=
  if p.input.isSome then .error .unknownArgument
  else do
    let p ← settle env p
    return { p with input := some s }

/-- Takes a value for the option that waits for one, or else an input. -/
def takeValue (env : Environment) (p : Progress) (s : Text) : Except Refusal Progress :=
  match p.pending with
  | some (key, none) => .ok { p with pending := some (key, some s) }
  | _ => takeInput env p s

/-- Takes one argument. -/
def take (env : Environment) (p : Progress) (s : Text) : Except Refusal Progress :=
  if p.inputsOnly then takeInput env p s
  else
    match s with
    | ['-', '-'] => .ok { p with inputsOnly := true }
    | '-' :: '-' :: name => takeLong env p name
    | '-' :: c :: letters => takeShort env p (c :: letters)
    | s => takeValue env p s

/-- Takes all arguments. -/
def takeAll (env : Environment) : Progress → List Text → Except Refusal Progress
  | p, [] => settle env p
  | p, s :: ss => do
    let p ← take env p s
    takeAll env p ss

/-- What has been taken, if it is complete and free of contradiction. -/
def finish (p : Progress) : Except Refusal Invocation :=
  if p.resolve && p.stages then .error .conflict
  else
    match p.input with
    | none => .error .missingInput
    | some input =>
      .ok {
        input
        output := p.output
        config := p.config
        buildArgs := p.buildArgs
        resolve := p.resolve
        stages := p.stages
        logLevel := p.logLevel.getD "info".toList }

/-- The invocation that a list of arguments means, in an environment. -/
def ofArguments (env : Environment) (arguments : List Text) : Except Refusal Invocation := do
  let p ← takeAll env {} arguments
  finish p

end Invocation

end Containerfile
