import Laminate.Yaml.Token.Folding

/-!
# Plain scalars

A scalar without quotes goes on until a comment, a colon before a blank, or a line that is not
indented far enough; in a flow collection it also ends at the characters of such collections.

The loops count down the rest of the text, which every round but the last one shortens.
-/

namespace Laminate.Yaml.Plain

/-- Whether a character goes on with a scalar, given the character after it. -/
def continues (inFlow : Bool) (c : Char) (after : Option Char) : Bool :=
  if c = ':' then !(atGap after || (inFlow && atFlow after)) else !(inFlow && isFlow c)

/-- The number of characters up to the next gap or the end of the scalar. -/
def wordLength (inFlow : Bool) : List Char → Nat
  | [] => 0
  | c :: cs =>
    if isBlank c || isBreak c || !continues inFlow c cs.head? then 0
    else wordLength inFlow cs + 1

/-- Reads blanks and line breaks. A tab may not stand for indentation. -/
def gap (indent : Int) : Nat → Gap → Reading Gap
  | 0, g => pure g
  | steps + 1, g => do
    let i ← get
    match i.next with
    | none => pure g
    | some c =>
      if isBlank c then
        if i.fresh && c == '\t' && i.column < indent then do
          let _ ← Reading.restOfLine true
          Reading.require (atLineEnd (← Reading.next)) .tabIndentation
          gap indent steps g
        else do
          set (i.forward 1)
          gap indent steps (g.addBlank c)
      else if isBreak c then do
        set i.skipBreak
        gap indent steps g.addBreak
      else pure g

/-- Reads the words of a scalar after a gap. A gap with nothing behind it is no part of it. -/
def words (indent : Int) (inFlow : Bool) : Nat → List Char → Reading (List Char)
  | 0, _ => pure []
  | steps + 1, before => do
    let i ← get
    if i.atDocumentMark || i.next == some '#' then pure []
    else do
      Reading.require (!(inFlow && i.next == some '-' && atFlow (i.peek 1))) .badPlainScalar
      let length := wordLength inFlow i.rest
      let chars := i.rest.take length
      let text := if length = 0 then [] else before ++ chars
      if length ≠ 0 then set (i.skip length)
      let after ← get
      if after.next.any fun c => isBlank c || isBreak c then do
        let g ← gap indent (after.rest.length + 1) { folded := after.fresh }
        let start ← get
        if !inFlow && start.column < indent then pure text
        else do
          let more ← words indent inFlow steps g.text
          pure (text ++ more)
      else pure text

/-- Reads a plain scalar in a block that is indented to a column. -/
def read (block : Int) (inFlow : Bool) : Reading String := do
  let indent := block + 1
  let start ← get
  Reading.require (!(inFlow && start.column < indent)) .badIndentation
  String.ofList <$> words indent inFlow (start.rest.length + 1) []

end Laminate.Yaml.Plain
