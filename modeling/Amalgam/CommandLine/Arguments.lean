import Amalgam.Manifest
import Amalgam.Path

/-!
Reading the arguments of the command line.

Options may be shortened as long as the short form fits one option only, and single-letter flags may be joined. An
argument is an option if it begins with a dash, unless it is a dash alone, a negative number, or contains a blank; after
two dashes there are no more options.
-/

namespace Amalgam.CommandLine

/-- What an option does. -/
inductive OptionKind where
  | flag
  | value
  | help
  | version
  deriving DecidableEq, Repr

/-- An option by its long name, and its letter if it has one. -/
structure OptionSpec where
  name : String
  letter : Option Char := none
  kind : OptionKind
  deriving Repr

/-- How an argument is to be taken. -/
inductive Token where
  | positional (text : String)
  /-- An option and the value joined to it, if there is one. -/
  | option (spec : OptionSpec) (joined : Option String)
  /-- A letter with more letters joined to it. -/
  | letters (spec : OptionSpec) (more : List Char)
  | unknown (text : String)
  | ambiguous
  | dashes
  deriving Repr

/-- Digits with at most one dot, and a digit behind it. -/
def isNumber (cs : List Char) : Bool :=
  let rest := cs.dropWhile Char.isDigit
  match rest with
  | [] => !cs.isEmpty
  | '.' :: more => !more.isEmpty && more.all Char.isDigit
  | _ => false

/-- Splits an argument at its first equals sign. -/
def splitValue (text : String) : String × Option String :=
  match Text.splitFirst '=' text with
  | some (name, value) => (name, some value)
  | none => (text, none)

/-- Reads one argument in front of any two dashes. -/
def token (specs : List OptionSpec) (text : String) : Token :=
  match text.toList with
  | '-' :: c :: rest =>
    if c == '-' && rest.isEmpty then .dashes
    else
      let (name, joined) := splitValue text
      if c == '-' then
        match specs.find? fun s => s.name == name with
        | some s => .option s joined
        | none =>
          match specs.filter fun s => s.name.startsWith name with
          | [s] => .option s joined
          | _ :: _ :: _ => .ambiguous
          | [] => if text.toList.contains ' ' then .positional text else .unknown text
      else
        match specs.find? fun s => s.letter == some c with
        | some s =>
          match rest with
          | [] => .option s none
          | '=' :: value => .option s (some (String.ofList value))
          | more => .letters s more
        | none =>
          if isNumber (c :: rest) || text.toList.contains ' ' then .positional text else .unknown text
  | _ => .positional text

/-- Whether an argument can be the value of an option. -/
def isValue (specs : List OptionSpec) (text : String) : Bool :=
  match token specs text with
  | .positional _ => true
  | _ => false

/-- What the arguments of one command say. -/
structure Given where
  flags : List String := []
  values : List (String × String) := []
  positionals : List String := []
  /-- Whether something is left that nothing takes. -/
  hasRest : Bool := false

/-- How the reading of arguments ends. -/
inductive Ending where
  | done (given : Given)
  /-- At the first argument that is not an option, with all from there on. -/
  | command (given : Given) (args : List String)
  | help
  | version
  | misuse

/-- What joined letters stand for: flags all of them, or help at the end. -/
def lettersEnd (specs : List OptionSpec) (g : Given) : OptionSpec → List Char → Ending
  | s, [] =>
    match s.kind with
    | .flag => .done { g with flags := g.flags ++ [s.name] }
    | .help => .help
    | .version => .version
    | .value => .misuse
  | s, c :: more =>
    match specs.find? fun t => t.letter == some c, s.kind with
    | some t, .flag => lettersEnd specs { g with flags := g.flags ++ [s.name] } t more
    | _, _ => .misuse

/-- Reads arguments in order; `stops` at the first that is no option, or takes as many as there are. -/
def readArgs (specs : List OptionSpec) (stops : Bool) : Given → List String → Ending
  | g, [] => .done g
  | g, a :: rest =>
    match token specs a with
    | .positional t => if stops then .command g (a :: rest) else readArgs specs stops { g with positionals := g.positionals ++ [t] } rest
    | .dashes => if stops then .misuse else .done { g with positionals := g.positionals ++ rest }
    | .ambiguous => .misuse
    | .unknown _ => readArgs specs stops { g with hasRest := true } rest
    | .letters s more =>
      match lettersEnd specs g s more with
      | .done g => readArgs specs stops g rest
      | ending => ending
    | .option s joined =>
      match s.kind, joined with
      | .help, none => .help
      | .version, none => .version
      | .flag, none => readArgs specs stops { g with flags := g.flags ++ [s.name] } rest
      | .value, some v => readArgs specs stops { g with values := g.values ++ [(s.name, v)] } rest
      | .value, none =>
        match rest with
        | v :: rest => if isValue specs v then readArgs specs stops { g with values := g.values ++ [(s.name, v)] } rest else .misuse
        | [] => .misuse
      | _, some _ => .misuse

/-- What the program is asked to do. -/
inductive Command where
  | render (definition : Path) (out : Option Path) (isStrict : Bool)
  | inspect (target : String) (role : Option Role)
  | schema
  deriving Repr

/-- A command and what holds for all of them. -/
structure Invocation where
  isVerbose : Bool := false
  /-- Directories to import from, before all others. -/
  importPaths : List Path := []
  command : Command
  deriving Repr

/-- What a command line asks for. -/
inductive Reading where
  | run (i : Invocation)
  | help
  | version
  | misuse
  deriving Repr

def helpOption : OptionSpec := { name := "--help", letter := some 'h', kind := .help }

/-- The options that stand in front of the command. -/
def commonOptions : List OptionSpec :=
  [helpOption, { name := "--version", kind := .version }, { name := "--verbose", letter := some 'v', kind := .flag },
   { name := "--path", kind := .value }]

def renderOptions : List OptionSpec :=
  [helpOption, { name := "--out", kind := .value }, { name := "--strict", kind := .flag }]

def inspectOptions : List OptionSpec := [helpOption, { name := "--role", kind := .value }]

/-- The last value of an option. -/
def Given.value? (g : Given) (name : String) : Option String :=
  ((g.values.filter fun v => v.1 == name).getLast?).map Prod.snd

/-- A role by its name. -/
def role? (name : String) : Option Role := Role.all.find? fun r => r.text == name

/-- The command of the arguments after its name. -/
def commandOf (name : String) (g : Given) : Option Command :=
  if g.hasRest then none
  else
    match name, g.positionals with
    | "render", [definition] =>
      some (.render (Path.ofString definition) ((g.value? "--out").map Path.ofString) (g.flags.contains "--strict"))
    | "inspect", [target] =>
      match g.value? "--role" with
      | none => some (.inspect target none)
      | some name => (role? name).map fun r => .inspect target (some r)
    | "schema", [] => some .schema
    | _, _ => none

/-- The options of a command. -/
def optionsOf? : String → Option (List OptionSpec)
  | "render" => some renderOptions
  | "inspect" => some inspectOptions
  | "schema" => some [helpOption]
  | _ => none

/-- Whether all roles given are known. -/
def hasKnownRoles (g : Given) : Bool := g.values.all fun v => v.1 != "--role" || (role? v.2).isSome

/-- Reads a command line. -/
def read (args : List String) : Reading :=
  if (args.takeWhile (· != "--")).any fun a => match token commonOptions a with
    | .ambiguous => true
    | _ => false
  then .misuse
  else
    match readArgs commonOptions true {} args with
    | .help => .help
    | .version => .version
    | .command g (name :: rest) =>
      match optionsOf? name with
      | none => .misuse
      | some specs =>
        match readArgs specs false {} rest with
        | .help => .help
        | .done h =>
          if g.hasRest || !hasKnownRoles h then .misuse
          else
            match commandOf name h with
            | some command =>
              .run
                { isVerbose := g.flags.contains "--verbose"
                  importPaths := (g.values.filter fun v => v.1 == "--path").map fun v => Path.ofString v.2
                  command }
            | none => .misuse
        | _ => .misuse
    | _ => .misuse

end Amalgam.CommandLine
