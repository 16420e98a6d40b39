import WordTemplate.Text.Numeral
import WordTemplate.Xml.Error
import WordTemplate.Xml.Label

/-!
# Tags

The inside of a start tag: a name, then attributes. The reader is lenient. A name is everything up
to the first space, attributes need no space between them, and names may hold any character.

Positions are byte offsets in UTF-8, counted from the first character of the name.
-/

namespace WordTemplate.Xml

/-- The characters that separate the parts of a tag. -/
def isSpace (c : Char) : Bool :=
  c == ' ' || c == '\t' || c == '\n' || c == '\r'

/-- The number of bytes of `s` in UTF-8. -/
def byteLength (s : List Char) : Nat :=
  s.foldl (fun length c => length + c.utf8Size) 0

/-! ## References -/

/-- The characters with names of their own. -/
def namedCharacter? (name : List Char) : Option Char :=
  if name = "lt".toList then some '<'
  else if name = "gt".toList then some '>'
  else if name = "amp".toList then some '&'
  else if name = "apos".toList then some '\''
  else if name = "quot".toList then some '"'
  else none

/-- What a reference in an attribute value stands for, given what is between `&` and `;`. -/
def attributeReference? (body : List Char) : Option Char :=
  let character? (radix : Nat) (digits : List Char) : Option Char :=
    ((Text.readDigits? radix digits).filter (· ≠ 0)).bind Text.charOfCode?
  match body with
  | '#' :: 'x' :: digits => character? 16 digits
  | '#' :: digits => character? 10 digits
  | name => namedCharacter? name

/--
What a reference in a text stands for. Here a plus sign may precede the digits, the `x` may be a
capital, and the character may be NUL.
-/
def textReference? (body : List Char) : Option Char :=
  let character? (radix : Nat) (digits : List Char) : Option Char :=
    (Text.readNatural? radix Text.bound32 digits).bind Text.charOfCode?
  match body with
  | '#' :: 'x' :: digits => character? 16 digits
  | '#' :: 'X' :: digits => character? 16 digits
  | '#' :: digits => character? 10 digits
  | name => namedCharacter? name

/-- Replaces the references in `s`; nothing if one of them is not complete or stands for nothing.
`reference` is what was read of a reference that is not complete yet, backwards. -/
def resolveReferences? (reference : Option (List Char)) : List Char → Option (List Char)
  | [] => if reference.isSome then none else some []
  | c :: cs =>
    match reference with
    | none =>
      if c = '&' then resolveReferences? (some []) cs
      else (resolveReferences? none cs).map (c :: ·)
    | some body =>
      if c = '&' then none
      else if c = ';' then
        (attributeReference? body.reverse).bind fun r =>
          (resolveReferences? none cs).map (r :: ·)
      else resolveReferences? (some (c :: body)) cs

/-- An attribute value. If some reference in it is not valid, it is taken as it stands. -/
def attributeValue (raw : List Char) : String :=
  String.ofList ((resolveReferences? none raw).getD raw)

/-! ## Attributes -/

/-- An attribute with the position of its key, and what follows it in the tag. -/
structure AttributeRead where
  key : List Char
  value : String
  position : Nat
  /-- The position of `rest`. -/
  next : Nat
  rest : List Char

/-- Skips spaces; `position` is the position of the first character. -/
def skipSpaces (position : Nat) (s : List Char) : Nat × List Char :=
  (position + (s.takeWhile isSpace).length, s.dropWhile isSpace)

/-- The characters of a key; the first one is taken whatever it is. -/
def splitKey : List Char → List Char × List Char
  | [] => ([], [])
  | c :: cs =>
    let ends (c : Char) : Bool := c == '=' || isSpace c
    (c :: cs.takeWhile (!ends ·), cs.dropWhile (!ends ·))

/-- Reads the value of an attribute: `s` begins after the equals sign, at `position`. -/
def readValue (position : Nat) (s : List Char) :
    Except AttributeError (String × Nat × List Char) :=
  match skipSpaces position s with
  | (here, []) => .error (.missingValue here)
  | (here, quote :: cs) =>
    if quote = '"' ∨ quote = '\'' then
      let raw := cs.takeWhile (· ≠ quote)
      match cs.dropWhile (· ≠ quote) with
      | [] => .error (.missingQuote (here + 1 + byteLength cs) quote)
      | _ :: rest => .ok (attributeValue raw, here + 1 + byteLength raw + 1, rest)
    else .error (.unquotedValue here)

/--
Reads the attribute at the front of `s`, which does not begin with a space. `seen` holds the keys
read before it, with their positions.
-/
def readAttribute (seen : List (List Char × Nat)) (position : Nat) (s : List Char) :
    Except AttributeError AttributeRead :=
  let (key, afterKey) := splitKey s
  match skipSpaces (position + byteLength key) afterKey with
  | (here, '=' :: afterEquals) =>
    match seen.lookup key with
    | some previous => .error (.duplicate position previous)
    | none => (readValue (here + 1) afterEquals).map fun (value, next, rest) =>
        ⟨key, value, position, next, rest⟩
  | (here, _) => .error (.missingEquals here)

theorem length_dropWhile_le (p : Char → Bool) (s : List Char) :
    (s.dropWhile p).length ≤ s.length := by
  induction s with
  | nil => simp
  | cons c cs ih =>
    rw [List.dropWhile_cons]
    split
    · exact Nat.le_succ_of_le ih
    · exact Nat.le_refl _

theorem readValue_length {position : Nat} {s : List Char} {value : String} {next : Nat}
    {rest : List Char} (h : readValue position s = .ok (value, next, rest)) :
    rest.length ≤ s.length := by
  have hs : (skipSpaces position s).2.length ≤ s.length := length_dropWhile_le _ _
  unfold readValue at h
  split at h
  · simp at h
  · next here quote cs hsk =>
    rw [hsk] at hs
    simp only [List.length_cons] at hs
    split at h
    · have hd := length_dropWhile_le (· ≠ quote) cs
      dsimp only at h
      split at h
      · simp at h
      · next r rest' hdr =>
        rw [hdr] at hd
        simp only [List.length_cons] at hd
        simp only [Except.ok.injEq, Prod.mk.injEq] at h
        rw [← h.2.2]
        omega
    · simp at h

/-- Every attribute read leaves less of the tag. -/
theorem readAttribute_length {seen : List (List Char × Nat)} {position : Nat} {s : List Char}
    {a : AttributeRead} (hs : s ≠ []) (h : readAttribute seen position s = .ok a) :
    a.rest.length < s.length := by
  cases s with
  | nil => exact absurd rfl hs
  | cons c cs =>
    unfold readAttribute splitKey at h
    dsimp only at h
    split at h
    · next here afterEquals hsk =>
      have h1 := length_dropWhile_le (fun c => !(c == '=' || isSpace c)) cs
      have h2 := length_dropWhile_le isSpace (cs.dropWhile fun c => !(c == '=' || isSpace c))
      have h3 : ('=' :: afterEquals) = (skipSpaces _ _).2 := (congrArg Prod.snd hsk).symm
      simp only [skipSpaces] at h3
      rw [← h3] at h2
      split at h
      · simp at h
      · cases hv : readValue (here + 1) afterEquals with
        | error e => rw [hv] at h; simp [Except.map] at h
        | ok r =>
          obtain ⟨value, next, rest⟩ := r
          rw [hv] at h
          simp only [Except.map, Except.ok.injEq] at h
          have := readValue_length hv
          subst h
          simp only [List.length_cons] at *
          omega
    · simp at h

/-- The attributes in `s`, in order; `seen` holds the keys read before with their positions. -/
def readAttributes (seen : List (List Char × Nat)) (position : Nat) (s : List Char) :
    Except AttributeError (List Attribute) :=
  match _hs : skipSpaces position s with
  | (_, []) => .ok []
  | (here, c :: cs) =>
    match _h : readAttribute seen here (c :: cs) with
    | .error e => .error e
    | .ok a =>
      (readAttributes ((a.key, a.position) :: seen) a.next a.rest).map
        ((String.ofList a.key, a.value) :: ·)
  termination_by s.length
  decreasing_by
    have h1 := readAttribute_length (by simp) _h
    have h2 : (skipSpaces position s).2.length ≤ s.length := length_dropWhile_le _ _
    rw [_hs] at h2
    exact Nat.lt_of_lt_of_le h1 h2

/-- Name and attributes of a tag, given what is between its angle brackets. -/
def readTag (s : List Char) : Except AttributeError Element :=
  let name := s.takeWhile (!isSpace ·)
  (readAttributes [] (byteLength name) (s.dropWhile (!isSpace ·))).map (⟨String.ofList name, ·⟩)

end WordTemplate.Xml
