/-!
# Lines of text
-/

namespace DocPlan.Text

/-- Lines, each with its end. -/
def unlines (lines : List String) : String :=
  String.join (lines.map (· ++ "\n"))

end DocPlan.Text
