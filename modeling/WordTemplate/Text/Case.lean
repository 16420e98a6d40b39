import WordTemplate.Text.Alphanumeric
import WordTemplate.Text.CaseTable

/-!
# Upper and lower case

Case conversion of whole texts. A letter may become several characters, and a capital sigma becomes
a final sigma at the end of a word.
-/

namespace WordTemplate.Text

/-- The other case of `c` that a run gives, if the run has one for it. -/
def CaseRun.map? (r : CaseRun) (c : Char) : Option Char :=
  if r.first ≤ c.toNat ∧ c.toNat ≤ r.last ∧ (c.toNat - r.first) % r.step = 0 then
    some (Char.ofNat (Int.ofNat c.toNat + r.distance).toNat)
  else none

/-- The other case of a character; a character without one stays. -/
def mapCase (expansions : List (Nat × List Nat)) (runs : List CaseRun) (c : Char) : List Char :=
  match expansions.lookup c.toNat with
  | some several => several.map Char.ofNat
  | none => [(runs.findSome? (·.map? c)).getD c]

def toUpper (s : List Char) : List Char :=
  s.flatMap (mapCase upperExpansions upperRuns)

/-- Whether the first character that is not passed over is cased. -/
def startsCased (s : List Char) : Bool :=
  match s.dropWhile (inRanges caseIgnorableRanges) with
  | c :: _ => inRanges casedRanges c
  | [] => false

/-- The lower case of the characters that follow `before`, which is backwards. -/
def toLowerAfter (before : List Char) : List Char → List Char
  | [] => []
  | c :: cs =>
    let lower :=
      if c = 'Σ' then [if startsCased before && !startsCased cs then 'ς' else 'σ']
      else mapCase lowerExpansions lowerRuns c
    lower ++ toLowerAfter (c :: before) cs

def toLower (s : List Char) : List Char :=
  toLowerAfter [] s

end WordTemplate.Text
