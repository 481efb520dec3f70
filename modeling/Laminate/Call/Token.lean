import Laminate.Fault
import Laminate.Text.Blank

/-!
# Words of an argument text

Arguments are words separated by blanks. Quotes keep blanks together and may open in the middle
of a word; a backslash takes the next character as it is, inside quotes and outside. A word with
quotes anywhere in it is a literal, any other word is a reference.
-/

namespace Laminate

/-- A word of an argument text. -/
inductive Token
  | literal (text : String)
  | reference (text : String)
deriving DecidableEq, Repr

namespace Token

/-- The text of a word, quotes and escapes resolved. -/
def text : Token → String
  | literal text => text
  | reference text => text

/-- A word that is being read: its characters, and whether it had a quote. -/
structure Word where
  chars : List Char
  quoted : Bool
deriving DecidableEq, Repr

/-- A finished word. -/
def Word.token (w : Word) : Token :=
  if w.quoted then literal (String.ofList w.chars) else reference (String.ofList w.chars)

/-- The state of reading: the words so far, the word being read, and the position of the quote
that is open. -/
structure Reader where
  tokens : List Token
  word : Option Word
  quote : Option Nat
deriving DecidableEq, Repr

namespace Reader

/-- Nothing read yet. -/
def start : Reader := ⟨[], none, none⟩

/-- The word being read, an empty one if there is none. -/
def current (r : Reader) : Word :=
  r.word.getD ⟨[], false⟩

/-- Adds a character to the word. -/
def push (r : Reader) (c : Char) : Reader :=
  { r with word := some { r.current with chars := r.current.chars ++ [c] } }

/-- Opens or closes a quote. -/
def toggle (r : Reader) (position : Nat) : Reader :=
  { r with
    word := some { r.current with quoted := true }
    quote := match r.quote with
      | some _ => none
      | none => some position }

/-- Ends the word. -/
def flush (r : Reader) : Reader :=
  match r.word with
  | some w => { r with tokens := r.tokens ++ [w.token], word := none }
  | none => r

/-- Ends the text. -/
def finish (r : Reader) : Except SyntaxFault (List Token) :=
  match r.quote with
  | some position => .error ⟨.unclosedQuote, position⟩
  | none => .ok r.flush.tokens

/-- Reads the characters from a position on. A backslash at the very end stands for itself. -/
def read (r : Reader) (position : Nat) : List Char → Except SyntaxFault (List Token)
  | [] => r.finish
  | '\\' :: [] => (r.push '\\').finish
  | '\\' :: c :: cs => (r.push c).read (position + 2) cs
  | c :: cs =>
    if c = '"' then (r.toggle position).read (position + 1) cs
    else if Text.isBlank c ∧ r.quote = none then r.flush.read (position + 1) cs
    else (r.push c).read (position + 1) cs

end Reader

/-- The words of an argument text. -/
def readAll (args : String) : Except SyntaxFault (List Token) :=
  Reader.start.read 0 args.toList

end Token

end Laminate
