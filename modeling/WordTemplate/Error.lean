import WordTemplate.Binding.Driver

/-!
# Errors of processing templates

Why a template cannot be processed, and the wording of each reason.
-/

namespace WordTemplate

inductive Error where
  /-- A directive that ends or separates sections is not in a block. -/
  | unbalanced (directive : String)
  /-- Blocks that are still open at the end, outermost first. -/
  | unclosed (directives : List String)
  /-- Nothing is above both the start and the end of a block. -/
  | disjoint (directive : String)
  /-- The insertion point of a block is not where it is looked for. -/
  | insertionPointMissing (id : String)
  /-- The insertion point of a block is not in the content of the block around it. -/
  | insertionPointMisplaced (id directive : String)
  | unknownKeyword (keyword : String)
  | binding (cause : Binding.Error)
  deriving DecidableEq, Repr

def Error.message : Error → String
  | unbalanced directive => "unbalanced block directive " ++ directive
  | unclosed directives => "unclosed block directives: " ++ ", ".intercalate directives
  | disjoint directive => "block " ++ directive ++ " spans disjoint parts of the document"
  | insertionPointMissing id => "insertion point " ++ id ++ " not found"
  | insertionPointMisplaced id directive =>
    "insertion point " ++ id ++ " of " ++ directive ++ " is not part of its parent block"
  | unknownKeyword keyword => "unknown keyword " ++ keyword
  | binding cause => cause.message

end WordTemplate
