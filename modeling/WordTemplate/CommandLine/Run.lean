import WordTemplate.CommandLine.Arguments
import WordTemplate.Config.Loading
import WordTemplate.Json.Reading
import WordTemplate.Processing
import WordTemplate.Xml.Markup
import WordTemplate.Xml.Reading

/-!
# Running the program

A run reads files and the environment of its host, and leaves an exit code, texts for the two
outputs, and at most one file to be written.
-/

namespace WordTemplate.CommandLine

/-! ## Rendering -/

/-- Why nothing is rendered. -/
inductive Failure where
  | config (cause : Config.Error)
  | noModel
  | file (cause : Host.FileError)
  | model
  | template (cause : Xml.Error)
  | processing (cause : Error)
  deriving DecidableEq, Repr

def Failure.message : Failure → String
  | config cause => cause.message
  | noModel => "No data model given (use --model or set render.model in docstamp.toml)"
  | file cause => cause.message
  | model => "Invalid model: the file is not JSON"
  | template cause => "Invalid template: " ++ cause.message
  | processing cause => cause.message

/-- The settings that flags and options take the place of. -/
def RenderOptions.overrides (o : RenderOptions) : Config.Overrides where
  stripEmptyParagraphs := if o.has .keepEmptyParagraphs then some false else none
  trimLineBreaks := if o.has .trimLineBreaks then some true else none
  validate := if o.has .validate then some true else none
  onError := if o.has .skipBindingErrors then some .skip else none
  model := o.path? .model

def RenderOptions.loadConfig (o : RenderOptions) (host : Host) : Except Config.Error Config :=
  Config.load host (o.path? .config) o.overrides

/-- The settings for processing a template. Anchors are checked unless that is turned off. -/
def settingsOf (c : Config) : Settings where
  stripEmptyParagraphs := c.stripEmptyParagraphs
  trimLineBreaks := c.trimLineBreaks
  validate := c.validate.getD true

/-- The document in which the directives of a template have been replaced with what a model says. -/
def renderText (c : Config) (template model : String) : Except Failure String :=
  match Json.read? model with
  | none => .error .model
  | some model => do
    let document ← (Xml.readDocument template).mapError .template
    let binding : Binding.ModelBinding := { onError := c.onError }
    match process (settingsOf c) binding.driver ⟨document, Binding.Scopes.ofModel model⟩ with
    | .ok _ final => return final.document.serialize
    | .error cause _ => throw (.processing cause)

/-- The rendered template. -/
def render (host : Host) (o : RenderOptions) : Except Failure String := do
  let c ← (o.loadConfig host).mapError .config
  match c.model with
  | none => throw .noModel
  | some path =>
    let template ← (host.files.read o.template).mapError .file
    let model ← (host.files.read path).mapError .file
    let rendered ← renderText c template model
    match o.path? .output with
    | none => return rendered
    | some output =>
      (host.files.checkWritable output).mapError .file
      return rendered

/-! ## Runs -/

/-- What a run leaves. -/
structure Outcome where
  exitCode : UInt32 := 0
  /-- The text for the standard output. -/
  output : String := ""
  /-- The text for the error output. -/
  messages : String := ""
  /-- A file to be written, and its content. -/
  file? : Option (Host.Path × String) := none
  deriving DecidableEq, Repr

def version : String := "docstamp 0.1.0\n"

def usage : String := "usage: docstamp render [OPTIONS] TEMPLATE\n"

/-- The variable of the environment that names the configuration file. -/
def configVariable : String := "DOCSTAMP_CONFIG"

def Command.ofHost (host : Host) (arguments : List String) : Except UsageError Command :=
  Command.ofArguments (host.environment configVariable) arguments

/-- Renders a template to a file or to the standard output. -/
def runRender (host : Host) (o : RenderOptions) : Outcome :=
  match render host o, o.path? .output with
  | .error failure, _ => { exitCode := 1, messages := "Error: " ++ failure.message ++ "\n" }
  | .ok rendered, some path =>
    { messages := "Rendered " ++ o.template ++ " -> " ++ path ++ "\n"
      file? := some (path, rendered) }
  | .ok rendered, none => { output := rendered, messages := "Rendered " ++ o.template ++ "\n" }

def run (host : Host) (arguments : List String) : Outcome :=
  match Command.ofHost host arguments with
  | .error e => { exitCode := 2, messages := "error: " ++ e.message ++ "\n" ++ usage }
  | .ok .version => { output := version }
  | .ok .help => { output := usage }
  | .ok (.render o) => runRender host o

end WordTemplate.CommandLine
