import WordTemplate.Text.Numeral

/-!
# Strings of TOML

A string is enclosed in quotes or apostrophes. Between quotes a backslash begins an escape; between
apostrophes every character stands for itself. Three quotes or apostrophes enclose a text that may
have several lines. A line end right after them does not belong to the text, and between quotes a
backslash at the end of a line takes away the line end and all blanks and line ends that follow.
-/

namespace WordTemplate.Toml

def isBlank (c : Char) : Bool :=
  c == ' ' || c == '\t'

/-- The control characters but the tab. -/
def isControl (c : Char) : Bool :=
  (c.toNat < 0x20 && c != '\t') || c == '\x7f'

/-- What follows the line end at the front. -/
def dropLineEnd? : List Char → Option (List Char)
  | '\n' :: rest => some rest
  | '\r' :: '\n' :: rest => some rest
  | _ => none

/--
The text up to `count` quotes in a row, and what follows these. Of more quotes in a row up to
`count - 1` belong to the text. Between double quotes a character after a backslash ends nothing.
-/
def cutQuoted? (quote : Char) (count : Nat) : List Char → Option (List Char × List Char)
  | [] => none
  | c :: rest =>
    let run := ((c :: rest).takeWhile (· == quote)).length
    if count ≤ run then
      let extra := min (count - 1) (run - count)
      some (List.replicate extra quote, (c :: rest).drop (count + extra))
    else if c = '\\' ∧ quote = '"' then
      match rest with
      | [] => none
      | d :: rest =>
        (cutQuoted? quote count rest).map fun (text, rest) => (c :: d :: text, rest)
    else (cutQuoted? quote count rest).map fun (text, rest) => (c :: text, rest)

/-- Whether the text has no control characters; with `lines`, none but line ends. -/
def isClean (lines : Bool) : List Char → Bool
  | [] => true
  | '\r' :: '\n' :: rest => lines && isClean lines rest
  | c :: rest => (!isControl c || (lines && c == '\n')) && isClean lines rest

/-- What a backslash and this character stand for. -/
def simpleEscape? : Char → Option Char
  | 'b' => some '\x08'
  | 't' => some '\t'
  | 'n' => some '\n'
  | 'f' => some '\x0c'
  | 'r' => some '\r'
  | 'e' => some '\x1b'
  | '"' => some '"'
  | '\\' => some '\\'
  | _ => none

/-- The character that hexadecimal digits stand for. -/
def hexEscape? (digits : List Char) : Option Char :=
  (Text.readDigits? 16 digits).bind Text.charOfCode?

/-- Resolves escapes. Blanks and line ends are dropped as long as `skipping` holds. -/
def unescape? (skipping : Bool) : List Char → Option (List Char)
  | [] => some []
  | '\\' :: 'x' :: a :: b :: rest => do
    return (← hexEscape? [a, b]) :: (← unescape? false rest)
  | '\\' :: 'u' :: a :: b :: c :: d :: rest => do
    return (← hexEscape? [a, b, c, d]) :: (← unescape? false rest)
  | '\\' :: 'U' :: a :: b :: c :: d :: e :: f :: g :: h :: rest => do
    return (← hexEscape? [a, b, c, d, e, f, g, h]) :: (← unescape? false rest)
  | '\\' :: c :: rest =>
    match simpleEscape? c with
    | some character => (unescape? false rest).map (character :: ·)
    | none =>
      if (dropLineEnd? ((c :: rest).dropWhile isBlank)).isSome then unescape? true rest else none
  | c :: rest =>
    if skipping && (isBlank c || isControl c) then unescape? true rest
    else (unescape? false rest).map (c :: ·)

/-- A string after the quotes that open it, of which there were `count`. -/
def readQuoted? (quote : Char) (count : Nat) (s : List Char) : Option (String × List Char) := do
  let (raw, rest) ← cutQuoted? quote count s
  if !isClean (count != 1) raw then none
  else
    let raw := if count = 1 then raw else (dropLineEnd? raw).getD raw
    let content ← if quote = '"' then unescape? false raw else some raw
    return (String.ofList content, rest)

/-- Whether a string begins with this character. -/
def isQuote (c : Char) : Bool :=
  c == '"' || c == '\''

/-- The string at the front of `s`. -/
def readString? : List Char → Option (String × List Char)
  | [] => none
  | quote :: rest =>
    if !isQuote quote then none
    else match [quote, quote].isPrefixOf? rest with
      | some rest => readQuoted? quote 3 rest
      | none => readQuoted? quote 1 rest

end WordTemplate.Toml
