import Laminate.Yaml.Character

/-!
# Reading positions

The text that is still to be read, and where it starts. A text ends at its first NUL character.
Readers are computations on such a position that may give up; they are named for what they read.
-/

namespace Laminate.Yaml

/-- A place in a text: lines count from one, columns and offsets from zero. -/
structure Place where
  offset : Nat
  line : Nat
  column : Nat
deriving DecidableEq, Repr, Inhabited

/-- Why a text is no YAML. -/
inductive Problem
  | badCharacter
  | badIndentation
  | tabIndentation
  | commentNeedsBlank
  | blankExpected
  | contentAfterEnd
  | badDirective
  | badTag
  | badAnchor
  | badEscape
  | badBlockHeader
  | badBlockIndentation
  | quoteUnclosed
  | contentAfterQuote
  | badPlainScalar
  | entryNotAllowed
  | keyNotAllowed
  | valueNotAllowed
  | keyExpected
  | nestedTooDeep
  | unexpectedToken
  | unknownAnchor
  | unknownTagHandle
  | repeatedDirective
  | endOfTokens
deriving DecidableEq, Repr

/-- The rest of a text. -/
structure Input where
  rest : List Char
  place : Place
  /-- Whether only blanks stand between the last line break and this place. -/
  fresh : Bool
deriving Repr

namespace Input

/-- The start of a text. -/
def ofText (text : String) : Input where
  rest := text.toList.takeWhile fun c => c.toNat ≠ 0
  place := ⟨0, 1, 0⟩
  fresh := true

/-- The character a number of places ahead. -/
def peek (i : Input) (ahead : Nat) : Option Char :=
  i.rest[ahead]?

/-- The next character. -/
def next (i : Input) : Option Char :=
  i.rest.head?

/-- The column of the next character. -/
def column (i : Input) : Int :=
  i.place.column

/-- Goes on within the line. -/
def forward (i : Input) (count : Nat) : Input :=
  { i with
    rest := i.rest.drop count
    place := { i.place with
      offset := i.place.offset + count
      column := i.place.column + count } }

/-- Skips characters of which at least one is no blank. -/
def skip (i : Input) (count : Nat) : Input :=
  { i.forward count with fresh := false }

/-- Goes on behind a line break of a number of characters. -/
def newline (i : Input) (count : Nat) : Input where
  rest := i.rest.drop count
  place := ⟨i.place.offset + count, i.place.line + 1, 0⟩
  fresh := true

/-- Skips a line break, if there is one. -/
def skipBreak (i : Input) : Input :=
  match i.rest with
  | '\r' :: '\n' :: _ => i.newline 2
  | c :: _ => if isBreak c then i.newline 1 else i
  | [] => i

/-- The characters from here on that are in a class. -/
def span (i : Input) (inClass : Char → Bool) : List Char :=
  i.rest.takeWhile inClass

/-- Skips characters of a class of which none is a blank or a line break. -/
def skipSpan (i : Input) (inClass : Char → Bool) : Input :=
  let count := (i.span inClass).length
  if count = 0 then i else i.skip count

/-- Skips blanks. -/
def skipBlanks (i : Input) : Input :=
  i.forward (i.span isBlank).length

/-- Skips everything up to the end of the line. -/
def skipLine (i : Input) : Input :=
  i.skipSpan fun c => !isBreak c

/-- Whether three equal characters stand at the start of a line, as a word of their own. -/
def marksDocument (i : Input) (c : Char) : Bool :=
  i.place.column == 0 && i.peek 0 == some c && i.peek 1 == some c && i.peek 2 == some c
    && atGap (i.peek 3)

/-- Whether a mark of a document stands here: its start or its end. -/
def atDocumentMark (i : Input) : Bool :=
  i.marksDocument '-' || i.marksDocument '.'

end Input

/-- A computation that reads on and may give up. -/
abbrev Reading := StateT Input (Except Problem)

namespace Reading

/-- The next character. -/
def next : Reading (Option Char) := do
  pure (← get).next

/-- Reads the characters of a class. -/
def word (inClass : Char → Bool) : Reading (List Char) := do
  let i ← get
  set (i.skipSpan inClass)
  pure (i.span inClass)

/-- Skips characters. -/
def skip (count : Nat) : Reading PUnit :=
  modify (·.skip count)

/-- Gives up unless a condition holds. -/
def require (condition : Bool) (problem : Problem) : Reading PUnit :=
  if condition then pure ⟨⟩ else throw problem

/-- What stood between a word and the end of blanks on its line. -/
structure Blanks where
  tab : Bool
  space : Bool
deriving Repr

/-- Skips blanks, and a comment after them. A comment needs a blank before it. Tabs are blanks
only if `tabs` says so. -/
def restOfLine (tabs : Bool) : Reading Blanks := do
  let i ← get
  let gap := i.span fun c => c == ' ' || (tabs && c == '\t')
  let found : Blanks := ⟨gap.contains '\t', gap.contains ' '⟩
  let after := i.forward gap.length
  if after.next = some '#' then
    require (found.tab || found.space) .commentNeedsBlank
    set after.skipLine
  else set after
  pure found

end Reading

end Laminate.Yaml
