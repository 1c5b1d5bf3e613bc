/-!
# Version
-/

namespace ElementWrappers

/-- The version of the library and of its command. -/
def version : String := "0.1.0"

end ElementWrappers
