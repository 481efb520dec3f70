/-!
# Indentation

Nested texts are indented by two spaces for each level.
-/

namespace Laminate.Text

/-- A line break and the indentation of a level. -/
def newline (level : Nat) : String :=
  String.ofList ('\n' :: List.replicate (2 * level) ' ')

end Laminate.Text
