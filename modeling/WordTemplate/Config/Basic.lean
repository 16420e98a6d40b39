import WordTemplate.Binding.Model
import WordTemplate.Host.Basic

/-!
# Configurations

What can be set in a configuration file, the settings of the command line that take its place, and
the reasons for which there is no configuration.
-/

namespace WordTemplate

structure Config where
  stripEmptyParagraphs : Bool := true
  trimLineBreaks : Bool := false
  /-- Left open, it is decided where the settings are used. -/
  validate : Option Bool := none
  onError : Binding.OnError := .fail
  /-- The model as the file names it, with the values of its variables. -/
  modelSetting : Option String := none
  /-- Where the model is: a name in the file is seen from the directory of the file. -/
  model : Option Host.Path := none
  /-- The file that was read. -/
  source : Option Host.Path := none
  deriving DecidableEq, Repr

namespace Config

/-- Why there is no configuration. -/
inductive Error where
  | notFound (path : Host.Path)
  | unreadable (cause : Host.FileError)
  /-- The text is no TOML, or has settings of another type. -/
  | malformed
  /-- The model has an empty name. -/
  | emptyModel
  /-- The model refers to a variable that is not set. -/
  | unset (name : String)
  deriving DecidableEq, Repr

def Error.message : Error → String
  | notFound path => "Configuration file not found: " ++ path
  | unreadable cause => "I/O error: " ++ cause.message
  | malformed => "TOML parse error: no settings can be read from the file"
  | emptyModel => "Configuration error: render.model cannot be empty"
  | unset name =>
    "Environment variable error in render.model: $\x7b" ++ name ++ "\x7d not set"

/-- A configuration may not name an empty model. -/
def check (c : Config) : Except Error Unit :=
  if c.modelSetting = some "" then .error .emptyModel else .ok ()

/-- Settings that take the place of those in a configuration. -/
structure Overrides where
  stripEmptyParagraphs : Option Bool := none
  trimLineBreaks : Option Bool := none
  validate : Option Bool := none
  onError : Option Binding.OnError := none
  model : Option Host.Path := none
  deriving DecidableEq, Repr

/-- The configuration with the overriding settings. -/
def override (c : Config) (o : Overrides) : Config :=
  { c with
    stripEmptyParagraphs := o.stripEmptyParagraphs.getD c.stripEmptyParagraphs
    trimLineBreaks := o.trimLineBreaks.getD c.trimLineBreaks
    validate := o.validate.or c.validate
    onError := o.onError.getD c.onError
    model := o.model.or c.model }

@[simp] theorem override_empty (c : Config) : c.override {} = c := rfl

end Config

end WordTemplate
