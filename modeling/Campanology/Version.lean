/-!
# Version

The version of the library, for programs that tell it to their users.
-/

namespace Campanology

/-- The version of the library. -/
def version : String := "0.4.0"

end Campanology
