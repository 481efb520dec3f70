import Laminate.Yaml.Token.Basic

/-!
# Line folding

Inside a scalar that runs over several lines, the first line break between two words counts as a
space and each further one as itself; blanks around line breaks do not count.
-/

namespace Laminate.Yaml

/-- What stands between two words of a scalar. -/
structure Gap where
  /-- The blanks before the first line break. -/
  blanks : List Char := []
  /-- Whether the gap runs over a line end, so that blanks do not count. -/
  folded : Bool := false
  /-- Whether there is a line break that counts as a space. -/
  firstBreak : Bool := false
  /-- The number of further line breaks. -/
  breaks : Nat := 0
deriving Repr

namespace Gap

/-- Line breaks. -/
def lines (count : Nat) : List Char :=
  List.replicate count '\n'

/-- What a gap counts as. -/
def text (g : Gap) : List Char :=
  if g.folded then
    if g.firstBreak ∧ g.breaks = 0 then [' '] else lines g.breaks
  else g.blanks

/-- The gap after a blank. -/
def addBlank (g : Gap) (c : Char) : Gap :=
  if g.folded then g else { g with blanks := g.blanks ++ [c] }

/-- The gap after a line break. -/
def addBreak (g : Gap) : Gap :=
  if g.folded then { g with breaks := g.breaks + 1 }
  else { g with blanks := [], folded := true, firstBreak := true }

end Gap

end Laminate.Yaml
