import Laminate.Yaml.Token.Folding

/-!
# Quoted scalars

Between single quotes a quote is written twice and nothing else is special. Between double quotes
a backslash starts an escape, and a backslash at the end of a line joins the next line to it.

The loops count down the rest of the text, which every round but the last one shortens.
-/

namespace Laminate.Yaml.Quoted

/-- The characters that a one-letter escape stands for. -/
def escapes : List (Char × Char) :=
  [ ('0', '\x00'), ('a', '\x07'), ('b', '\x08'), ('t', '\t'), ('\t', '\t'), ('n', '\n'),
    ('v', '\x0b'), ('f', '\x0c'), ('r', '\r'), ('e', '\x1b'), (' ', ' '), ('"', '"'),
    ('/', '/'), ('\\', '\\'), ('N', '\u0085'), ('_', '\u00a0'), ('L', '\u2028'),
    ('P', '\u2029') ]

/-- The number of hexadecimal digits of an escape by number. -/
def hexLengths : List (Char × Nat) :=
  [('x', 2), ('u', 4), ('U', 8)]

/-- The character with a number, if there is one. -/
def charOfNumber? (n : Nat) : Option Char :=
  if n.isValidChar then some (Char.ofNat n) else none

/-- Reads an escape, from its backslash on. -/
def escape : Reading Char := do
  let i ← get
  let letter := (i.peek 1).getD ' '
  Reading.require (i.peek 1).isSome .badEscape
  match escapes.lookup letter, hexLengths.lookup letter with
  | some c, _ => do
    set (i.skip 2)
    pure c
  | none, some length => do
    let after := i.skip 2
    let digits := after.rest.take length
    Reading.require (digits.length == length && digits.all isHex) .badEscape
    match charOfNumber? (digits.foldl (fun n c => 16 * n + hexValue c) 0) with
    | some c => do
      set (after.skip length)
      pure c
    | none => throw .badEscape
  | none, none => throw .badEscape

/-- A word between blanks, and whether it ends with an escaped line break. -/
structure Word where
  chars : List Char
  joined : Bool

/-- The word with another character before it. -/
def Word.cons (c : Char) (w : Word) : Word :=
  { w with chars := c :: w.chars }

/-- Reads up to the next blank, line break or closing quote. -/
def word (single : Bool) : Nat → Reading Word
  | 0 => pure ⟨[], false⟩
  | steps + 1 => do
    let i ← get
    match i.next with
    | none => pure ⟨[], false⟩
    | some c =>
      if isBlank c || isBreak c then pure ⟨[], false⟩
      else if single && c == '\'' then
        if i.peek 1 = some '\'' then do
          set (i.skip 2)
          Word.cons '\'' <$> word single steps
        else pure ⟨[], false⟩
      else if !single && c == '"' then pure ⟨[], false⟩
      else if !single && c == '\\' then
        if atBreak (i.peek 1) then do
          set (i.skip 1).skipBreak
          pure ⟨[], true⟩
        else do
          let e ← escape
          Word.cons e <$> word single steps
      else do
        set (i.skip 1)
        Word.cons c <$> word single steps

/-- Reads blanks and line breaks. -/
def gap (indent : Int) : Nat → Gap → Reading Gap
  | 0, g => pure g
  | steps + 1, g => do
    let i ← get
    match i.next with
    | none => pure g
    | some c =>
      if isBlank c then do
        Reading.require (!(g.folded && c == '\t' && i.column < indent)) .tabIndentation
        set (i.forward 1)
        gap indent steps (g.addBlank c)
      else if isBreak c then do
        set i.skipBreak
        gap indent steps g.addBreak
      else pure g

/-- Reads words and gaps up to the closing quote. -/
def body (single : Bool) (indent : Int) : Nat → Reading (List Char)
  | 0 => throw .quoteUnclosed
  | steps + 1 => do
    let i ← get
    Reading.require (!i.atDocumentMark && i.next.isSome) .quoteUnclosed
    Reading.require (indent ≤ i.column) .badIndentation
    let w ← word single (i.rest.length + 1)
    let after ← get
    if after.next = some (if single then '\'' else '"') then pure w.chars
    else do
      let g ← gap indent (after.rest.length + 1) { folded := w.joined }
      let more ← body single indent steps
      pure (w.chars ++ g.text ++ more)

/-- Whether a quoted scalar may stand before what follows it on its line. -/
def mayPrecede (inFlow sameLine : Bool) (c : Option Char) : Bool :=
  atLineEnd c || (inFlow && c.any fun c => isFlow c && c != '[' && c != '\x7b')
    || (c == some ':' && (inFlow || sameLine))

/-- Reads a quoted scalar, from its opening quote on. -/
def read (single : Bool) (indent : Int) (inFlow : Bool) : Reading String := do
  let start ← get
  set (start.skip 1)
  let chars ← body single indent (start.rest.length + 1)
  Reading.skip 1
  let _ ← Reading.restOfLine true
  let after ← get
  Reading.require (mayPrecede inFlow (start.place.line == after.place.line) after.next)
    .contentAfterQuote
  pure (String.ofList chars)

end Laminate.Yaml.Quoted
