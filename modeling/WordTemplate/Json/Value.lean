/-!
# JSON values

The members of an object are kept in the order of their names, each name once. Integers are kept
apart from floats: the integer `1` and the float `1.0` are different values.
-/

namespace WordTemplate

/-- A number is an integer that fits 64 bits, with or without sign, or a float. -/
inductive Json.Number where
  | integer (value : Int)
  | float (value : Float)
  deriving BEq, Repr, Inhabited

inductive Json where
  | null
  | bool (value : Bool)
  | number (value : Json.Number)
  | string (value : String)
  | array (items : List Json)
  /-- Members in the order of their names. -/
  | object (members : List (String × Json))
  deriving BEq, Repr, Inhabited

namespace Json

/-- Gives the name `key` the value `value`, in place of a value it has already. -/
def putMember (key : String) (value : Json) :
    List (String × Json) → List (String × Json)
  | [] => [(key, value)]
  | (k, v) :: rest =>
    if key < k then (key, value) :: (k, v) :: rest
    else if key = k then (key, value) :: rest
    else (k, v) :: putMember key value rest

/-- The object with these members; of several with one name the last counts. -/
def ofMembers (members : List (String × Json)) : Json :=
  .object (members.foldl (fun found (key, value) => putMember key value found) [])

def ofNat (n : Nat) : Json :=
  .number (.integer n)

/-- The member `key` of an object. -/
def member? (key : String) : Json → Option Json
  | object members => members.lookup key
  | _ => none

/-- The float nearest to a number. -/
def Number.toFloat : Number → Float
  | integer (.ofNat n) => Float.ofScientific n false 0
  | integer (.negSucc n) => -Float.ofScientific (n + 1) false 0
  | float x => x

end Json

end WordTemplate
