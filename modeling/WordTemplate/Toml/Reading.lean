import WordTemplate.Toml.Quoted
import WordTemplate.Toml.Scalar
import WordTemplate.Toml.Table

/-!
# Reading TOML

`Toml.read?` reads a document: lines with a key and a value each, under headers. Readers return what
they have read and the rest of the text. Reading ends because every step takes up characters; the
steps are counted down from a number that the length of the text gives.
-/

namespace WordTemplate.Toml

/-! ## Blanks and comments -/

def dropBlanks (s : List Char) : List Char :=
  s.dropWhile isBlank

/-- What follows blanks and a comment. A comment reaches to the first control character. -/
def dropComment (s : List Char) : List Char :=
  match dropBlanks s with
  | '#' :: rest => rest.dropWhile (!isControl ·)
  | s => s

/-- What follows the rest of a line on which there is nothing else. -/
def endLine? (s : List Char) : Option (List Char) :=
  match dropComment s with
  | [] => some []
  | s => dropLineEnd? s

/-- What follows lines on which there is nothing else, and blanks. -/
def dropLines (fuel : Nat) (s : List Char) : List Char :=
  match fuel, endLine? s with
  | fuel + 1, some rest => dropLines fuel rest
  | _, _ => dropBlanks s

/-- What follows blanks, line ends and comments. -/
def dropGap (s : List Char) : List Char :=
  dropLines s.length s

/-! ## Keys -/

/-- The characters of names without quotes. -/
def isNameCharacter (c : Char) : Bool :=
  c.isAlphanum || c == '_' || c == '-'

/-- A name, with or without quotes. -/
def readName? (s : List Char) : Option (String × List Char) :=
  match s with
  | [] => none
  | c :: rest =>
    if isQuote c then readQuoted? c 1 rest
    else
      let name := s.takeWhile isNameCharacter
      if name.isEmpty then none else some (String.ofList name, s.dropWhile isNameCharacter)

/-- At most `count` names with points between them, and the blanks after them. -/
def readNames? (count : Nat) (s : List Char) : Option (Key × List Char) :=
  match count with
  | 0 => none
  | count + 1 => do
    let (name, rest) ← readName? s
    match dropBlanks rest with
    | '.' :: rest =>
      let (key, rest) ← readNames? count (dropBlanks rest)
      return (⟨name :: key.way, key.name⟩, rest)
    | rest => return (⟨[], name⟩, rest)

/-- How deep a key may lead, and how deep arrays and tables may be nested in one value. -/
def maxDepth : Nat := 80

/-- A key of at most `maxDepth` names. -/
def readKey? (s : List Char) : Option (Key × List Char) :=
  readNames? maxDepth s

/-- A key and the sign behind it. -/
def readKeyAndSign? (s : List Char) : Option (Key × List Char) := do
  let (key, rest) ← readKey? s
  match rest with
  | '=' :: rest => return (key, dropBlanks rest)
  | _ => none

/-! ## Values -/

mutual

/-- A value at the front of `s`, with arrays and tables nested at most `depth` times. -/
def readValueWith? (fuel depth : Nat) (s : List Char) : Option (Toml × List Char) :=
  match fuel with
  | 0 => none
  | fuel + 1 =>
    match s with
    | [] => none
    | c :: rest =>
      if c = '[' ∨ c = '\x7b' then
        match depth with
        | 0 => none
        | depth + 1 =>
          if c = '[' then readItems? fuel depth [] (dropGap rest)
          else readPairs? fuel depth [] (dropGap rest)
      else if isQuote c then
        (readString? s).map fun (content, rest) => (.string content, rest)
      else readScalar? s

/-- The rest of an array after `items`, which are kept backwards. -/
def readItems? (fuel depth : Nat) (items : List Toml) (s : List Char) :
    Option (Toml × List Char) :=
  match fuel, s with
  | 0, _ => none
  | _, ']' :: rest => some (.array items.reverse, rest)
  | fuel + 1, s => do
    let (item, rest) ← readValueWith? fuel depth s
    match dropGap rest with
    | ',' :: rest => readItems? fuel depth (item :: items) (dropGap rest)
    | ']' :: rest => return (.array (item :: items).reverse, rest)
    | _ => none

/-- The rest of a table after `pairs`, which are kept backwards. -/
def readPairs? (fuel depth : Nat) (pairs : List Pair) (s : List Char) :
    Option (Toml × List Char) :=
  match fuel, s with
  | 0, _ => none
  | _, '\x7d' :: rest => (ofPairs? pairs.reverse).map (·, rest)
  | fuel + 1, s => do
    let (key, rest) ← readKeyAndSign? s
    let (value, rest) ← readValueWith? fuel depth rest
    let pairs := ⟨key, value⟩ :: pairs
    match dropGap rest with
    | ',' :: rest => readPairs? fuel depth pairs (dropGap rest)
    | '\x7d' :: rest => (ofPairs? pairs.reverse).map (·, rest)
    | _ => none

end

/-- The value at the front of `s`. -/
def readValue? (s : List Char) : Option (Toml × List Char) :=
  readValueWith? (2 * s.length + 2) maxDepth s

/-! ## Documents -/

/-- A line with a key and a value. -/
def readPair? (s : List Char) : Option (Pair × List Char) := do
  let (key, rest) ← readKeyAndSign? s
  let (value, rest) ← readValue? rest
  return (⟨key, value⟩, ← endLine? rest)

/-- A line with a header. -/
def readHeader? (s : List Char) : Option (Header × List Char) :=
  match s with
  | '[' :: '[' :: rest => do
    let (key, rest) ← readKey? (dropBlanks rest)
    let rest ← [']', ']'].isPrefixOf? rest
    return (.item key, ← endLine? rest)
  | '[' :: rest => do
    let (key, rest) ← readKey? (dropBlanks rest)
    let rest ← [']'].isPrefixOf? rest
    return (.table key, ← endLine? rest)
  | _ => none

/-- The pairs up to the next header. -/
def readPairLines? (fuel : Nat) (s : List Char) : Option (List Pair × List Char) :=
  match fuel, dropGap s with
  | _, [] => some ([], [])
  | _, '[' :: rest => some ([], '[' :: rest)
  | 0, _ => none
  | fuel + 1, s => do
    let (pair, rest) ← readPair? s
    let (pairs, rest) ← readPairLines? fuel rest
    return (pair :: pairs, rest)

/-- Headers with their pairs, up to the end of the text. -/
def readSections? (fuel : Nat) (s : List Char) : Option (List (Header × List Pair)) :=
  match fuel, s with
  | _, [] => some []
  | 0, _ => none
  | fuel + 1, s => do
    let (header, rest) ← readHeader? s
    let (pairs, rest) ← readPairLines? rest.length rest
    let sections ← readSections? fuel rest
    return (header, pairs) :: sections

/-- The table that a document describes. A byte order mark in front is ignored. -/
def read? (document : String) : Option Toml := do
  let s := match document.toList with
    | '\uFEFF' :: rest => rest
    | s => s
  let (pairs, rest) ← readPairLines? s.length s
  ofSections? pairs (← readSections? rest.length rest)

end WordTemplate.Toml
