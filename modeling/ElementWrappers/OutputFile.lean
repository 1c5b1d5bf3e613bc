/-!
# Output files
-/

namespace ElementWrappers

/-- A file of a pass, its path in normal form. -/
structure OutputFile where
  path : String
  content : String
  deriving DecidableEq, Repr

end ElementWrappers
