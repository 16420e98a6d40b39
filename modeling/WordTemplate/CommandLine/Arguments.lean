import WordTemplate.Host.Basic

/-!
# Arguments of the command line

Arguments are read in two steps: first each is recognised as a flag, a setting with its value or a
template (`readArguments`), then they are collected (`RenderOptions.ofArguments`). No option is
given twice, and there is exactly one template.
-/

namespace WordTemplate.CommandLine

/-- Why a command line is not understood. -/
inductive UsageError where
  | missingCommand
  | unknownCommand (name : String)
  | unknownOption (name : String)
  | missingValue (name : String)
  /-- A value for an option that takes none. -/
  | unexpectedValue (name : String)
  | emptyPath
  | repeatedOption
  | missingTemplate
  | unexpectedArgument (argument : String)
  deriving DecidableEq, Repr

def UsageError.message : UsageError → String
  | missingCommand => "a command is missing"
  | unknownCommand name => "unknown command " ++ name
  | unknownOption name => "unknown option " ++ name
  | missingValue name => "a value is missing for option " ++ name
  | unexpectedValue name => "option " ++ name ++ " takes no value"
  | emptyPath => "a path is empty"
  | repeatedOption => "an option is given twice"
  | missingTemplate => "the template is missing"
  | unexpectedArgument argument => "unexpected argument " ++ argument

/-! ## Options -/

/-- An option without a value. -/
inductive Flag where
  | keepEmptyParagraphs
  | trimLineBreaks
  | validate
  | skipBindingErrors
  | verbose
  deriving DecidableEq, Repr

/-- An option whose value is a path. -/
inductive Setting where
  | model
  | output
  | config
  deriving DecidableEq, Repr

inductive OptionKind where
  | flag (f : Flag)
  | setting (s : Setting)
  | help
  deriving DecidableEq, Repr

/-- The option with a long name. -/
def OptionKind.ofLong? : String → Option OptionKind
  | "keep-empty-paragraphs" => some (flag .keepEmptyParagraphs)
  | "trim-line-breaks" => some (flag .trimLineBreaks)
  | "validate" => some (flag .validate)
  | "skip-binding-errors" => some (flag .skipBindingErrors)
  | "verbose" => some (flag .verbose)
  | "model" => some (setting .model)
  | "output" => some (setting .output)
  | "config" => some (setting .config)
  | "help" => some help
  | _ => none

/-- The option with a name of one letter. -/
def OptionKind.ofShort? : Char → Option OptionKind
  | 'v' => some (flag .verbose)
  | 'm' => some (setting .model)
  | 'o' => some (setting .output)
  | 'c' => some (setting .config)
  | 'h' => some help
  | _ => none

/-! ## Recognising arguments -/

inductive Argument where
  | flag (f : Flag)
  | setting (s : Setting) (value : Host.Path)
  | template (path : Host.Path)
  /-- A request for help. What follows it is not read. -/
  | help
  deriving DecidableEq, Repr

/-- Whether an argument holds options. A hyphen alone is an ordinary argument. -/
def isOption (argument : String) : Bool :=
  match argument.toList with
  | '-' :: _ :: _ => true
  | _ => false

/-- An option, written with its long name and perhaps a value. The second part of the result is a
setting whose value is still to come. -/
def readLong (written : List Char) : Except UsageError (List Argument × Option Setting) :=
  let name := String.ofList (written.takeWhile (· ≠ '='))
  match OptionKind.ofLong? name, written.dropWhile (· ≠ '=') with
  | some (.flag f), [] => .ok ([.flag f], none)
  | some (.setting s), [] => .ok ([], some s)
  | some (.setting s), _ :: value => .ok ([.setting s (String.ofList value)], none)
  | some .help, [] => .ok ([.help], none)
  | some _, _ => .error (.unexpectedValue ("--" ++ name))
  | none, _ => .error (.unknownOption ("--" ++ name))

/-- Letters that are options. The value of a setting follows its letter, perhaps after an equals
sign, unless the letter is the last one. -/
def readShort : List Char → Except UsageError (List Argument × Option Setting)
  | [] => .ok ([], none)
  | c :: rest =>
    match OptionKind.ofShort? c with
    | some (.flag f) => (readShort rest).map fun (arguments, open?) => (.flag f :: arguments, open?)
    | some (.setting s) =>
      match rest with
      | [] => .ok ([], some s)
      | '=' :: value => .ok ([.setting s (String.ofList value)], none)
      | value => .ok ([.setting s (String.ofList value)], none)
    | some .help => .ok ([.help], none)
    | none => .error (.unknownOption ("-" ++ c.toString))

/-- The options in one argument. -/
def readOption (argument : String) : Except UsageError (List Argument × Option Setting) :=
  match argument.toList with
  | '-' :: '-' :: written => readLong written
  | written => readShort (written.drop 1)

/-- Recognises arguments. Two hyphens alone end the options. -/
def readArguments : List String → Except UsageError (List Argument)
  | [] => .ok []
  | argument :: rest =>
    if argument = "--" then .ok (rest.map .template)
    else if isOption argument then do
      let (found, open?) ← readOption argument
      if found.contains .help then return found
      else match open? with
        | none => return found ++ (← readArguments rest)
        | some s =>
          match rest with
          | [] => throw (.missingValue argument)
          | value :: rest =>
            if isOption value then throw (.missingValue argument)
            else return found ++ .setting s value :: (← readArguments rest)
    else (readArguments rest).map (.template argument :: ·)

/-! ## Collecting arguments -/

def Argument.flag? : Argument → Option Flag
  | flag f => some f
  | _ => none

def Argument.setting? : Argument → Option (Setting × Host.Path)
  | setting s value => some (s, value)
  | _ => none

def Argument.template? : Argument → Option Host.Path
  | template path => some path
  | _ => none

/-- What to render and how. -/
structure RenderOptions where
  template : Host.Path
  settings : List (Setting × Host.Path)
  flags : List Flag
  deriving DecidableEq, Repr

namespace RenderOptions

variable (o : RenderOptions)

/-- The value of a setting. -/
def path? (s : Setting) : Option Host.Path :=
  o.settings.lookup s

def has (f : Flag) : Bool :=
  o.flags.contains f

/-- The options of a rendering, or nothing if help is asked for. The environment may name the
configuration file if the arguments do not. -/
def ofArguments (config? : Option Host.Path) (arguments : List Argument) :
    Except UsageError (Option RenderOptions) :=
  let flags := arguments.filterMap Argument.flag?
  let given := arguments.filterMap Argument.setting?
  let settings := match config?, given.lookup .config with
    | some path, none => (.config, path) :: given
    | _, _ => given
  let templates := arguments.filterMap Argument.template?
  if ¬ flags.Nodup ∨ ¬ (given.map Prod.fst).Nodup then .error .repeatedOption
  else if "" ∈ templates ∨ "" ∈ settings.map Prod.snd then .error .emptyPath
  else match templates with
    | _ :: extra :: _ => .error (.unexpectedArgument extra)
    | [template] => .ok (if .help ∈ arguments then none else some { template, settings, flags })
    | [] => if .help ∈ arguments then .ok none else .error .missingTemplate

end RenderOptions

/-! ## Commands -/

inductive Command where
  | version
  | help
  | render (options : RenderOptions)
  deriving DecidableEq, Repr

/-- The command that a command line asks for. -/
def Command.ofArguments (config? : Option Host.Path) : List String → Except UsageError Command
  | [] => .error .missingCommand
  | "render" :: rest => do
    let arguments ← readArguments rest
    match ← RenderOptions.ofArguments config? arguments with
    | some options => return .render options
    | none => return .help
  | ["help"] | ["help", "render"] | ["help", "help"] => .ok .help
  | first :: _ =>
    match first.toList with
    | '-' :: 'V' :: _ => .ok .version
    | '-' :: 'h' :: _ => .ok .help
    | _ =>
      if first = "--version" then .ok .version
      else if first = "--help" then .ok .help
      else if isOption first then .error (.unknownOption first)
      else .error (.unknownCommand first)

end WordTemplate.CommandLine
