import WordTemplate.Config.Decoding
import WordTemplate.Config.Expansion
import WordTemplate.Toml.Reading

/-!
# Loading configurations

A configuration comes from a file that is named, or from the nearest file named `docstamp.toml` in
the directory of the program and the directories above it, or is the default one. Then other
settings may override it.
-/

namespace WordTemplate.Config

def fileName : String := "docstamp.toml"

/-- The files that are looked for from a directory, nearest first. -/
def candidates (directory : Host.Path) : List Host.Path :=
  let names := Host.Path.names directory
  ([] :: Host.FileTree.beginnings names).reverse.map fun above =>
    Host.Path.join (Host.Path.ofNames above) fileName

/-- The configuration that is written in a text. -/
def parse? (text : String) : Option Config :=
  (Toml.read? text).bind ofToml?

/-- The configuration that is written in a text, with the values of its variables. -/
def ofText (environment : String → Option String) (text : String) : Except Error Config := do
  match parse? text with
  | none => throw .malformed
  | some c =>
    let modelSetting ← (c.modelSetting.mapM (expand environment)).mapError .unset
    let c := { c with modelSetting }
    c.check
    return c

/-- The configuration in a file. -/
def read (host : Host) (path : Host.Path) : Except Error Config := do
  let text ← (host.files.read path).mapError .unreadable
  let c ← ofText host.environment text
  let directory := (Host.Path.parent? path).getD "."
  return { c with model := c.modelSetting.map (Host.Path.join directory), source := some path }

/-- The file that is read if none is named. -/
def discover? (host : Host) : Option Host.Path :=
  (candidates host.directory).find? host.files.doesExist

/-- The configuration before other settings override it. -/
def loadFile (host : Host) (path? : Option Host.Path) : Except Error Config :=
  match path? with
  | some path => if host.files.doesExist path then read host path else .error (.notFound path)
  | none => (discover? host).elim (.ok {}) (read host)

/-- The configuration of a program, with the settings that override it. -/
def load (host : Host) (path? : Option Host.Path) (overrides : Overrides) : Except Error Config :=
  (loadFile host path?).map (·.override overrides)

end WordTemplate.Config
