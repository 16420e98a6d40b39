import WordTemplate.CommandLine.Run

/-!
# The program

Looks up the files and variables that a run can ask for, and does what its outcome says.
-/

namespace WordTemplate.CommandLine

/-- What a failure to read says about a path. The error number of a directory is 21. -/
def entryOf : IO.Error → Except Host.FileError Host.Entry
  | .noFileOrDirectory .. => .error .notFound
  | .inappropriateType _ code _ => if code = 21 then .ok .directory else .error .notADirectory
  | e => .error (.other (toString e))

def lookUp (path : Host.Path) : IO (Except Host.FileError Host.Entry) := do
  try
    return .ok (.file (← IO.FS.readFile path))
  catch e =>
    return entryOf e

/-- The files at these paths. -/
def lookUpAll (paths : List Host.Path) : IO Host.Files := do
  let found ← paths.mapM fun path => return (path, ← lookUp path)
  return fun path => (found.lookup path).getD (.error .notFound)

/-- The values of these variables. -/
def lookUpVariables (names : List String) : IO (String → Option String) := do
  let found ← names.mapM fun name => return (name, ← IO.getEnv name)
  return fun name => (found.lookup name).getD none

/-- The variables that the configuration of a rendering refers to. -/
def variablesFor (o : RenderOptions) (host : Host) : List String :=
  let text? := ((o.path? .config).or (Config.discover? host)).bind fun path =>
    (host.files.read path).toOption
  ((text?.bind Config.parse?).bind Config.modelSetting).elim [] Config.variableNames

/-- The paths that matter to a rendering besides its configuration. -/
def pathsFor (o : RenderOptions) (host : Host) : List Host.Path :=
  let model? := (o.loadConfig host).toOption.bind Config.model
  let outputs := (o.path? .output).toList
  o.template :: model?.toList ++ outputs ++ outputs.map fun p => (Host.Path.divide p).1

/-- The host, as far as a rendering can see it. -/
def lookUpHost (arguments : List String) : IO Host := do
  let directory := toString (← IO.currentDir)
  let ownVariables ← lookUpVariables [configVariable]
  let host : Host :=
    { files := fun _ => .error .notFound, directory, environment := ownVariables }
  match Command.ofHost host arguments with
  | .ok (.render o) =>
    let configPaths := (o.path? .config).toList ++ Config.candidates directory
    let host := { host with files := ← lookUpAll configPaths }
    let names := configVariable :: variablesFor o host
    let host := { host with environment := ← lookUpVariables names }
    return { host with files := ← lookUpAll (configPaths ++ pathsFor o host) }
  | _ => return host

/-- Does what an outcome says. -/
def Outcome.perform (o : Outcome) : IO UInt32 := do
  match o.file? with
  | some (path, content) => IO.FS.writeFile path content
  | none => pure ()
  IO.print o.output
  (← IO.getStdout).flush
  IO.eprint o.messages
  return o.exitCode

/-- Runs the program with these arguments. -/
def start (arguments : List String) : IO UInt32 := do
  try
    (run (← lookUpHost arguments) arguments).perform
  catch e =>
    IO.eprintln ("Error: " ++ toString e)
    return 1

end WordTemplate.CommandLine

def main (arguments : List String) : IO UInt32 :=
  WordTemplate.CommandLine.start arguments
