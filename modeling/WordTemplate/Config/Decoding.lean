import WordTemplate.Config.Basic
import WordTemplate.Toml.Value

/-!
# Settings in TOML

| Table     | Settings                                                               |
|-----------|------------------------------------------------------------------------|
| `process` | `strip_empty_paragraphs`, `trim_line_breaks`, `validate_insertion_points` |
| `binding` | `on_error`                                                             |
| `render`  | `model`                                                                |

Everything may be missing, and what has another name is ignored. An array in the place of a table
has the settings in the order of this list.
-/

namespace WordTemplate.Config

def boolean? : Toml → Option Bool
  | .boolean value => some value
  | _ => none

def string? : Toml → Option String
  | .string value => some value
  | _ => none

/-- Whether settings can be read from a value. A date counts as a table without entries. -/
def holdsSettings : Toml → Bool
  | .table _ | .array _ | .date _ => true
  | _ => false

/-- The setting with this name and place. -/
def setting? (name : String) (place : Nat) : Toml → Option Toml
  | .table entries => entries.lookup name
  | .array items => items[place]?
  | _ => none

/-- Reads a setting that may be missing. -/
def decodeSetting? {α : Type} (decode? : Toml → Option α) (name : String) (place : Nat)
    (missing : α) (settings : Toml) : Option α :=
  match setting? name place settings with
  | none => some missing
  | some value => decode? value

def onErrorOfName? : String → Option Binding.OnError
  | "fail" => some .fail
  | "skip" => some .skip
  | _ => none

/-- A way to treat errors is given by its name, or by a table or array without content under its
name. -/
def onError? : Toml → Option Binding.OnError
  | .string name => onErrorOfName? name
  | .table [(name, .table [])] => onErrorOfName? name
  | .table [(name, .array [])] => onErrorOfName? name
  | _ => none

def decodeProcess? (c : Config) (settings : Toml) : Option Config :=
  if holdsSettings settings then do
    let strip ← decodeSetting? boolean? "strip_empty_paragraphs" 0 c.stripEmptyParagraphs settings
    let trim ← decodeSetting? boolean? "trim_line_breaks" 1 c.trimLineBreaks settings
    let validate ← decodeSetting? (boolean? · |>.map some) "validate_insertion_points" 2 c.validate
      settings
    return { c with stripEmptyParagraphs := strip, trimLineBreaks := trim, validate }
  else none

def decodeBinding? (c : Config) (settings : Toml) : Option Config :=
  if holdsSettings settings then do
    return { c with onError := ← decodeSetting? onError? "on_error" 0 c.onError settings }
  else none

def decodeRender? (c : Config) (settings : Toml) : Option Config :=
  if holdsSettings settings then do
    let model ← decodeSetting? (string? · |>.map some) "model" 0 c.modelSetting settings
    return { c with modelSetting := model }
  else none

/-- The configuration that a document describes. -/
def ofToml? (document : Toml) : Option Config := do
  let c ← decodeSetting? (decodeProcess? {}) "process" 0 {} document
  let c ← decodeSetting? (decodeBinding? c) "binding" 1 c document
  decodeSetting? (decodeRender? c) "render" 2 c document

end WordTemplate.Config
