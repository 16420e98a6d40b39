/-!
# Kinds of directives

What a directive does, and the names by which marked text and insertion points refer to it.
`ofName?_name` says that a kind can be found again by its name.
-/

namespace WordTemplate.Directive

inductive Kind where
  | placeholder
  | conditionStart
  | conditionElse
  | conditionEnd
  | collectionStart
  | collectionSeparator
  | collectionEnd
  | inlineKeyword
  | ignoreStart
  | ignoreEnd
  /-- The main section of a block. No directive in a text is of this kind. -/
  | content
  deriving DecidableEq, Repr, Inhabited

namespace Kind

def all : List Kind :=
  [placeholder, conditionStart, conditionElse, conditionEnd, collectionStart, collectionSeparator,
    collectionEnd, inlineKeyword, ignoreStart, ignoreEnd, content]

def name : Kind → String
  | placeholder => "Variable"
  | conditionStart => "ConditionStart"
  | conditionElse => "ConditionElse"
  | conditionEnd => "ConditionEnd"
  | collectionStart => "CollectionStart"
  | collectionSeparator => "CollectionSeparator"
  | collectionEnd => "CollectionEnd"
  | inlineKeyword => "InlineKeyword"
  | ignoreStart => "IgnoreStart"
  | ignoreEnd => "IgnoreEnd"
  | content => "None"

/-- The kind with this name. -/
def ofName? (name : String) : Option Kind :=
  all.find? (·.name == name)

theorem ofName?_name (k : Kind) : ofName? k.name = some k := by
  cases k <;> decide

/-- Whether a directive of this kind opens a block. -/
def isBlockStart : Kind → Bool
  | conditionStart | collectionStart | ignoreStart | inlineKeyword => true
  | _ => false

/-- Whether a directive of this kind closes a block. -/
def isBlockEnd : Kind → Bool
  | conditionEnd | collectionEnd | ignoreEnd => true
  | _ => false

/-- Whether a directive of this kind begins another section of a block. -/
def isSeparator : Kind → Bool
  | conditionElse | collectionSeparator => true
  | _ => false

end Kind

end WordTemplate.Directive
