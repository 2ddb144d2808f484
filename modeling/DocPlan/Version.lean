/-!
# The version of the program
-/

namespace DocPlan

def version : String := "0.1.0"

/-- The program's name and version. -/
def versionText : String := "dtsdoc " ++ version

end DocPlan
