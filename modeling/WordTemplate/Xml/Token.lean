import WordTemplate.Text.Blank
import WordTemplate.Text.Pieces
import WordTemplate.Xml.Tag

/-!
# Tokens of XML

`tokens` cuts a text into tags, character data and declarations. Comments, processing instructions
and document type declarations give no token. A fault gives a last token `failure`, because what
comes before it has still to be looked at.

Each kind of markup has a function that takes the text after its first characters and returns a
token, or none, with the rest of the text. `next?_length` says that a token always takes something
away, so the cutting ends.
-/

namespace WordTemplate.Xml

inductive Token where
  | declaration
  /-- A start tag; an empty one stands for the end tag as well. -/
  | startTag (tag : Element) (empty : Bool)
  | endTag (name : String)
  /-- A stretch of character data: plain characters, one reference, or one CDATA section. -/
  | text (content : String)
  | failure (cause : Error)
  deriving DecidableEq, Repr

namespace Token

/-- A failure ends the text. -/
def fail (cause : Error) : Option Token × List Char :=
  (some (failure cause), [])

/-- A failure for something not finished. -/
def failSyntax (cause : SyntaxError) : Option Token × List Char :=
  fail (.syntaxError cause)

/-! ## Comments, sections and instructions -/

/-- The text after the first `mark`, if `mark` occurs. -/
def after? (mark : String) (s : List Char) : Option (List Char) :=
  (Text.cut? mark.toList s).map Prod.snd

/-- `s` follows `<!-`. -/
def comment : List Char → Option Token × List Char
  | '-' :: s =>
    match after? "-->" s with
    | some rest => (none, rest)
    | none => failSyntax .comment
  | _ => failSyntax .comment

/-- `s` follows `<![`. -/
def cdata (s : List Char) : Option Token × List Char :=
  match "CDATA[".toList.isPrefixOf? s with
  | none => failSyntax .cdata
  | some s =>
    match Text.cut? "]]>".toList s with
    | some (content, rest) => (some (text (String.ofList content)), rest)
    | none => failSyntax .cdata

/-- Where the scan of a document type declaration stands. -/
inductive DoctypePlace where
  /-- Before the brackets of the internal subset. -/
  | outer
  | outerQuote (quote : Char)
  /-- Between the brackets. -/
  | subset
  /-- In a declaration between the brackets that can have quotes. -/
  | entry
  | entryQuote (quote : Char)
  /-- Between the brackets, in something that ends with `mark`. -/
  | awaiting (mark : List Char)
  /-- At a character to be passed over, with `more` after it, before the scan goes on at `next`. -/
  | passing (more : Nat) (next : DoctypePlace)
  /-- Behind the brackets. -/
  | closing
  deriving DecidableEq

/-- The place `next`, with `count` characters to be passed over before. -/
def DoctypePlace.skip (count : Nat) (next : DoctypePlace) : DoctypePlace :=
  match count with
  | 0 => next
  | more + 1 => passing more next

/-- How the declarations begin in which a `>` within quotes does not count. -/
def quotingDeclarations : List String :=
  ["!ENTITY", "!ATTLIST", "!NOTATION"]

/-- Where the scan stands after the character `c`, which `cs` follows. -/
def DoctypePlace.step (c : Char) (cs : List Char) : DoctypePlace → DoctypePlace
  | outer =>
    if c = '[' then subset else if c = '"' ∨ c = '\'' then outerQuote c else outer
  | outerQuote quote => if c = quote then outer else outerQuote quote
  | subset =>
    if c = ']' then closing
    else if c ≠ '<' then subset
    else if "!--".toList.isPrefixOf cs then skip 3 (awaiting "-->".toList)
    else if "?".toList.isPrefixOf cs then skip 1 (awaiting "?>".toList)
    else if quotingDeclarations.any (·.toList.isPrefixOf cs) then entry
    else awaiting ">".toList
  | entry =>
    if c = '>' then subset else if c = '"' ∨ c = '\'' then entryQuote c else entry
  | entryQuote quote => if c = quote then entry else entryQuote quote
  | awaiting mark =>
    if mark.isPrefixOf (c :: cs) then skip (mark.length - 1) subset else awaiting mark
  | passing more next => skip more next
  | closing => closing

/-- The text after the `>` that ends a document type declaration. -/
def afterDoctype? (place : DoctypePlace) : List Char → Option (List Char)
  | [] => none
  | c :: cs =>
    if (place = .outer ∨ place = .closing) ∧ c = '>' then some cs
    else afterDoctype? (place.step c cs) cs

/-- `s` follows `<!`; its first character is a `d` of either case. -/
def doctype (s : List Char) : Option Token × List Char :=
  if (s.take 7).map Char.toLower = "doctype".toList then
    match afterDoctype? .outer (s.drop 7) with
    | none => failSyntax .doctype
    | some rest =>
      if ['>'].isPrefixOf ((s.drop 7).dropWhile isSpace) then fail (.illFormed .doctypeName)
      else (none, rest)
  else failSyntax .doctype

/-- Whether an instruction with this content is an XML declaration. -/
def isDeclaration (content : List Char) : Bool :=
  match "xml".toList.isPrefixOf? content with
  | none => false
  | some [] => true
  | some (c :: _) => isSpace c

/-- `s` follows `<?`. The question mark of `<?` does not end an instruction. -/
def instruction (s : List Char) : Option Token × List Char :=
  match s with
  | '>' :: _ => failSyntax .instruction
  | _ =>
    match Text.cut? "?>".toList s with
    | some (content, rest) => (if isDeclaration content then some declaration else none, rest)
    | none =>
      failSyntax (if isDeclaration (s.takeWhile (· != '?')) then .declaration else .instruction)

/-! ## Tags -/

/-- What is before the `>` that ends a tag, and the text after it. That `>` is not within quotes.
If there is none, the quote that is open at the end. -/
def splitTag (quote : Option Char) : List Char → Except (Option Char) (List Char × List Char)
  | [] => .error quote
  | c :: cs =>
    let go (quote : Option Char) := (splitTag quote cs).map fun (tag, rest) => (c :: tag, rest)
    match quote with
    | none =>
      if c = '>' then .ok ([], cs)
      else if c = '"' ∨ c = '\'' then go (some c)
      else go none
    | some q => go (if c = q then none else some q)

/-- Reads a tag with `read`; `s` follows its first characters. -/
def tag (read : List Char → Token) (s : List Char) : Option Token × List Char :=
  match splitTag none s with
  | .ok (inside, rest) => (some (read inside), rest)
  | .error none => failSyntax .tag
  | .error (some quote) => failSyntax (.attributeValue quote)

def readEnd (inside : List Char) : Token :=
  endTag (String.ofList (Text.dropEndWhile isSpace inside))

def readStart (inside : List Char) : Token :=
  let (inside, empty) :=
    match Text.dropTail? ['/'] inside with
    | some before => (before, true)
    | none => (inside, false)
  match readTag inside with
  | .ok tag => startTag tag empty
  | .error cause => failure (.badAttribute cause)

/-! ## Character data -/

/-- `s` follows `&`. A reference that stands for nothing is kept as it is written. -/
def reference (s : List Char) : Option Token × List Char :=
  let body := s.takeWhile fun c => c != ';' && c != '&' && c != '<'
  match s.drop body.length with
  | ';' :: rest =>
    let content :=
      match textReference? body with
      | some c => [c]
      | none => '&' :: body ++ [';']
    (some (text (String.ofList content)), rest)
  | _ => fail (.illFormed .reference)

/-- A character that begins markup or a reference. -/
def isSpecial (c : Char) : Bool :=
  c == '<' || c == '&'

/-! ## All tokens -/

/-- The first token, if what is first gives one, and the rest of the text. -/
def next? : List Char → Option (Option Token × List Char)
  | [] => none
  | '<' :: '!' :: '-' :: s => some (comment s)
  | '<' :: '!' :: '[' :: s => some (cdata s)
  | '<' :: '!' :: s =>
    match s with
    | 'd' :: _ | 'D' :: _ => some (doctype s)
    | _ => some (failSyntax .unknownMarkup)
  | '<' :: '?' :: s => some (instruction s)
  | '<' :: '/' :: s => some (tag readEnd s)
  | '<' :: s => some (tag readStart s)
  | '&' :: s => some (reference s)
  | c :: s =>
    some (some (text (String.ofList (c :: s.takeWhile (!isSpecial ·)))), s.dropWhile (!isSpecial ·))

/-! ## What is taken away -/

theorem length_after? {mark : String} {s rest : List Char} (h : after? mark s = some rest) :
    rest.length ≤ s.length := by
  obtain ⟨⟨before, after⟩, hc, rfl⟩ := Option.map_eq_some_iff.mp h
  rw [Text.eq_append_of_cut? hc]
  simp only [List.length_append]
  omega

theorem length_comment (s : List Char) : (comment s).2.length ≤ s.length := by
  unfold comment
  split
  · split
    · next h => exact Nat.le_succ_of_le (length_after? h)
    · simp [failSyntax, fail]
  · simp [failSyntax, fail]

theorem length_cdata (s : List Char) : (cdata s).2.length ≤ s.length := by
  unfold cdata
  split
  · simp [failSyntax, fail]
  · next h =>
    rw [Text.eq_append_of_isPrefixOf? h]
    split
    · next hc =>
      rw [Text.eq_append_of_cut? hc]
      simp only [List.length_append]
      omega
    · simp [failSyntax, fail]

theorem length_afterDoctype? {place : DoctypePlace} {s rest : List Char}
    (h : afterDoctype? place s = some rest) : rest.length ≤ s.length := by
  induction s generalizing place with
  | nil => simp [afterDoctype?] at h
  | cons c cs ih =>
    unfold afterDoctype? at h
    split at h
    · simp only [Option.some.injEq] at h
      simp [← h]
    · exact Nat.le_succ_of_le (ih h)

theorem length_doctype (s : List Char) : (doctype s).2.length ≤ s.length := by
  unfold doctype
  split
  · split
    · simp [failSyntax, fail]
    · next h =>
      have := length_afterDoctype? h
      rw [List.length_drop] at this
      split
      · simp [fail]
      · simp only
        omega
  · simp [failSyntax, fail]

theorem length_instruction (s : List Char) : (instruction s).2.length ≤ s.length := by
  unfold instruction
  split
  · simp [failSyntax, fail]
  · split
    · next h =>
      rw [Text.eq_append_of_cut? h]
      simp only [List.length_append]
      omega
    · simp [failSyntax, fail]

theorem length_splitTag {quote : Option Char} {s inside rest : List Char}
    (h : splitTag quote s = .ok (inside, rest)) : rest.length ≤ s.length := by
  induction s generalizing quote inside rest with
  | nil => simp [splitTag] at h
  | cons c cs ih =>
    have step {quote : Option Char}
        (h : (splitTag quote cs).map (fun p => (c :: p.1, p.2)) = .ok (inside, rest)) :
        rest.length ≤ (c :: cs).length := by
      cases hs : splitTag quote cs with
      | error e => rw [hs] at h; simp [Except.map] at h
      | ok r =>
        obtain ⟨inside', rest'⟩ := r
        rw [hs] at h
        simp only [Except.map, Except.ok.injEq, Prod.mk.injEq] at h
        rw [← h.2]
        exact Nat.le_succ_of_le (ih hs)
    unfold splitTag at h
    dsimp only at h
    split at h
    · split at h
      · simp only [Except.ok.injEq, Prod.mk.injEq] at h
        rw [h.2]
        simp
      · split at h <;> exact step h
    · exact step h

theorem length_tag (read : List Char → Token) (s : List Char) :
    (tag read s).2.length ≤ s.length := by
  unfold tag
  split
  · next h => exact length_splitTag h
  · simp [failSyntax, fail]
  · simp [failSyntax, fail]

theorem length_reference (s : List Char) : (reference s).2.length ≤ s.length := by
  unfold reference
  dsimp only
  split
  · next rest h =>
    have := congrArg List.length h
    rw [List.length_drop, List.length_cons] at this
    simp only
    omega
  · simp [fail]

/-- What is first in a text takes at least one character of it. -/
theorem length_next? {s rest : List Char} {token : Option Token}
    (h : next? s = some (token, rest)) : rest.length < s.length := by
  unfold next? at h
  split at h
  · simp at h
  · next s =>
    have := length_comment s
    grind
  · next s =>
    have := length_cdata s
    grind
  · next s _ _ =>
    split at h
    · have := length_doctype ('d' :: by assumption)
      grind
    · have := length_doctype ('D' :: by assumption)
      grind
    · grind [failSyntax, fail]
  · next s =>
    have := length_instruction s
    grind
  · next s =>
    have := length_tag readEnd s
    grind
  · next s _ _ _ _ _ =>
    have := length_tag readStart s
    grind
  · next s =>
    have := length_reference s
    grind
  · next c s _ _ _ _ _ _ _ =>
    have := length_dropWhile_le (!isSpecial ·) s
    grind

end Token

/-- The tokens of a text, in order. -/
def tokens (s : List Char) : List Token :=
  match _h : Token.next? s with
  | none => []
  | some (token, rest) => token.toList ++ tokens rest
  termination_by s.length
  decreasing_by exact Token.length_next? _h

end WordTemplate.Xml
