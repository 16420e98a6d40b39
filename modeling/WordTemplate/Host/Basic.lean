import WordTemplate.Host.FileTree

/-!
# The machine a program runs on
-/

namespace WordTemplate

/-- What a program sees of the machine it runs on. -/
structure Host where
  files : Host.Files
  /-- The absolute path of the directory that paths start from. -/
  directory : Host.Path
  /-- The values of the environment variables that are set. -/
  environment : String → Option String

end WordTemplate
