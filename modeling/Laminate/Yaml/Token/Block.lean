import Laminate.Yaml.Token.Folding

/-!
# Block scalars

A block scalar is a header line and the lines below it that are indented deep enough. Literal
scalars keep their line breaks; folded ones fold them between lines that start with no blank. The
header may fix the indentation, and says what becomes of the line breaks at the end.

The loops count down the rest of the text, which every round but the last one shortens.
-/

namespace Laminate.Yaml.Block

/-- What becomes of the line breaks at the end. -/
inductive Chomping
  | strip
  | clip
  | keep
deriving DecidableEq, Repr

/-- The header of a block scalar. -/
structure Header where
  chomping : Chomping
  /-- The indentation relative to the surrounding block; zero if it is to be found out. -/
  increment : Nat
deriving Repr

/-- Reads the sign for chomping, if there is one. -/
def chomping? : Reading (Option Chomping) := do
  match ← Reading.next with
  | some '+' => do
    Reading.skip 1
    pure (some .keep)
  | some '-' => do
    Reading.skip 1
    pure (some .strip)
  | _ => pure none

/-- Reads the digit for the indentation, if there is one. -/
def increment? : Reading (Option Nat) := do
  match ← Reading.next with
  | some c =>
    if c.isDigit then do
      Reading.require (c ≠ '0') .badBlockHeader
      Reading.skip 1
      pure (some (c.toNat - '0'.toNat))
    else pure none
  | none => pure none

/-- Reads the signs of a header in either order. -/
def header : Reading Header := do
  match ← chomping? with
  | some chomping => pure ⟨chomping, (← increment?).getD 0⟩
  | none => do
    match ← increment? with
    | some increment => pure ⟨(← chomping?).getD .clip, increment⟩
    | none => pure ⟨.clip, 0⟩

/-- Skips indentation up to a column and empty lines, which are counted. -/
def skipIndentation (indent : Nat) : Nat → Reading Nat
  | 0 => pure 0
  | steps + 1 => do
    let i ← get
    let spaces := ((i.span (· == ' ')).take (indent - i.place.column)).length
    let after := i.forward spaces
    if atBreak after.next then do
      set after.skipBreak
      (· + 1) <$> skipIndentation indent steps
    else do
      set after
      pure 0

/-- Skips empty lines and the indentation of the first other one; gives the deepest column that
was met and the number of empty lines. -/
def findIndentation : Nat → Reading (Nat × Nat)
  | 0 => pure (0, 0)
  | steps + 1 => do
    let i ← get
    let after := i.forward (i.span (· == ' ')).length
    if atBreak after.next then do
      set after.skipBreak
      let (deepest, lines) ← findIndentation steps
      pure (max after.place.column deepest, lines + 1)
    else do
      set after
      pure (after.place.column, 0)

/-- What has been read of a scalar. -/
structure Lines where
  text : List Char := []
  /-- Whether there is a line break after the last line. -/
  ended : Bool := false
  /-- The number of empty lines after it. -/
  emptyLines : Nat := 0
  /-- Whether the last line starts with a blank. -/
  blankStart : Bool := false

/-- What stands between the last line and one that starts with a given character. -/
def Lines.separator (literal : Bool) (ls : Lines) (blankStart : Bool) : List Char :=
  if !literal && ls.ended && !ls.blankStart && !blankStart then
    if ls.emptyLines = 0 then [' '] else Gap.lines ls.emptyLines
  else Gap.lines ((if ls.ended then 1 else 0) + ls.emptyLines)

/-- Reads the lines of a scalar. -/
def lines (literal : Bool) (indent : Nat) : Nat → Lines → Reading Lines
  | 0, ls => pure ls
  | steps + 1, ls => do
    let i ← get
    if i.place.column ≠ indent || i.next.isNone || (indent == 0 && i.marksDocument '.') then
      pure ls
    else do
      let blankStart := atBlank i.next
      let content := i.span fun c => !isBreak c
      let text := ls.text ++ ls.separator literal blankStart ++ content
      let after := i.skipLine
      if after.next.isNone then do
        set after
        pure { text, blankStart }
      else do
        set after.skipBreak
        let emptyLines ← skipIndentation indent (after.rest.length + 1)
        lines literal indent steps { text, ended := true, emptyLines, blankStart }

/-- The text of a scalar whose lines have been read, as its chomping says. -/
def Lines.finish (ls : Lines) (chomping : Chomping) (indent : Nat) (after : Input) : List Char :=
  let tail := Gap.lines (if ls.ended then 1 else 0)
  let cut := Gap.lines (if after.next.isNone && max indent 1 ≤ after.place.column then 1 else 0)
  match chomping with
  | .strip => ls.text
  | .clip => ls.text ++ tail ++ cut
  | .keep => ls.text ++ tail ++ cut ++ Gap.lines ls.emptyLines

/-- The text of a scalar without lines at the end of a text: only a line break after the header
and empty lines below it can count. -/
def emptyText (chomping : Chomping) (sameLine : Bool) (headerBreak emptyLines : Nat) :
    List Char :=
  if sameLine then []
  else
    match chomping with
    | .strip => []
    | .clip => Gap.lines headerBreak
    | .keep => Gap.lines (if emptyLines = 0 then headerBreak else emptyLines)

/-- Reads a block scalar in a block that is indented to a column, from its first sign on. -/
def read (literal : Bool) (block : Int) : Reading String := do
  let start ← get
  Reading.skip 1
  let head ← header
  let _ ← Reading.restOfLine true
  let lineEnd ← get
  Reading.require (atLineEnd lineEnd.next) .badBlockHeader
  let headerBreak := if atBreak lineEnd.next then 1 else 0
  set lineEnd.skipBreak
  Reading.require ((← Reading.next) ≠ some '\t') .badBlockIndentation
  let below ← get
  let (indent, emptyLines) ←
    if head.increment = 0 then do
      let (deepest, emptyLines) ← findIndentation (below.rest.length + 1)
      let indent := max deepest (block + 1).toNat
      pure (if 0 < block then max indent 1 else indent, emptyLines)
    else do
      let indent := if 0 ≤ block then (block + head.increment).toNat else head.increment
      let emptyLines ← skipIndentation indent (below.rest.length + 1)
      pure (indent, emptyLines)
  let first ← get
  if first.next.isNone then
    pure (String.ofList (emptyText head.chomping (first.place.line == start.place.line)
      headerBreak emptyLines))
  else do
    Reading.require (!(first.place.column < indent && block < first.column)) .badBlockIndentation
    let ls ← lines literal indent (first.rest.length + 1) { emptyLines }
    pure (String.ofList (ls.finish head.chomping indent (← get)))

end Laminate.Yaml.Block
