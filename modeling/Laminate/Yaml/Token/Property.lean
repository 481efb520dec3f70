import Laminate.Yaml.Token.Basic

/-!
# Anchors, tags and directives

The properties that may stand before a node, and the lines that may stand before a document.
-/

namespace Laminate.Yaml.Property

/-- Reads the name of an anchor or of a reference to one, from its sign on. -/
def anchorName : Reading String := do
  Reading.skip 1
  let name ← Reading.word isAnchorChar
  Reading.require (name ≠ []) .badAnchor
  pure (String.ofList name)

/-! ## Tags -/

/-- The number of bytes of a character in UTF-8, by its first byte. -/
def byteCount? (byte : Nat) : Option Nat :=
  if byte < 0x80 then some 1
  else if byte < 0xC0 then none
  else if byte < 0xE0 then some 2
  else if byte < 0xF0 then some 3
  else if byte < 0xF8 then some 4
  else none

/-- Reads a byte written as a percent sign and two hexadecimal digits. -/
def escapedByte : Reading Nat := do
  let i ← get
  match i.rest with
  | '%' :: a :: b :: _ =>
    if isHex a && isHex b then do
      set (i.skip 3)
      pure (16 * hexValue a + hexValue b)
    else throw .badTag
  | _ => throw .badTag

/-- Reads the further bytes of an escaped character. -/
def trailingBytes : Nat → Nat → Reading Nat
  | 0, code => pure code
  | count + 1, code => do
    let byte ← escapedByte
    Reading.require (0x80 ≤ byte && byte < 0xC0) .badTag
    trailingBytes count (code * 256 + byte)

/-- Reads an escaped character: the number that its bytes make up one after the other. -/
def escapedChar : Reading Char := do
  let first ← escapedByte
  match byteCount? first with
  | none => throw .badTag
  | some count => do
    let code ← trailingBytes (count - 1) first
    Reading.require (decide code.isValidChar) .badTag
    pure (Char.ofNat code)

/-- Reads characters of a class with escapes among them. -/
def uriText (inClass : Char → Bool) : Nat → Reading (List Char)
  | 0 => pure []
  | steps + 1 => do
    match ← Reading.next with
    | none => pure []
    | some c =>
      if !inClass c then pure []
      else if c == '%' then do
        let e ← escapedChar
        (e :: ·) <$> uriText inClass steps
      else do
        Reading.skip 1
        (c :: ·) <$> uriText inClass steps

/-- Reads characters of a class with escapes among them, as far as they go. -/
def uri (inClass : Char → Bool) : Reading (List Char) := do
  uriText inClass ((← get).rest.length + 1)

/-- Reads the handle of a tag: an exclamation mark, a word and another mark if there is one. -/
def tagHandle (inDirective : Bool) : Reading String := do
  Reading.require ((← Reading.next) == some '!') .badTag
  Reading.skip 1
  let word ← Reading.word isWord
  if (← Reading.next) == some '!' then do
    Reading.skip 1
    pure (String.ofList ('!' :: word ++ ['!']))
  else do
    Reading.require (!inDirective || word.isEmpty) .badTag
    pure (String.ofList ('!' :: word))

/-- Whether a text is a handle and not the beginning of a suffix. -/
def isHandle (text : String) : Bool :=
  let cs := text.toList
  2 ≤ cs.length && cs.head? == some '!' && cs.getLast? == some '!'

/-- Reads a tag between angle brackets. -/
def verbatimTag : Reading Token := do
  Reading.skip 2
  let suffix ← uri isUriChar
  Reading.require ((← Reading.next) == some '>') .badTag
  Reading.skip 1
  pure (.tag "" (String.ofList suffix))

/-- Reads a tag with a handle, or with an exclamation mark alone. -/
def shorthandTag : Reading Token := do
  let handle ← tagHandle false
  let rest ← uri isTagChar
  if isHandle handle then do
    Reading.require (rest ≠ []) .badTag
    pure (.tag handle (String.ofList rest))
  else
    match handle.toList.drop 1 ++ rest with
    | [] => pure (.tag "" "!")
    | suffix => pure (.tag "!" (String.ofList suffix))

/-- Reads a tag, from its exclamation mark on. -/
def tag (inFlow : Bool) : Reading Token := do
  let token ← if (← get).peek 1 == some '<' then verbatimTag else shorthandTag
  let after ← Reading.next
  Reading.require (atGap after || (inFlow && atFlow after)) .badTag
  pure token

/-! ## Directives -/

/-- Skips blanks. -/
def skipBlanks : Reading PUnit :=
  modify (·.skipBlanks)

/-- Reads a number of a version: at most nine digits. -/
def versionNumber : Reading PUnit := do
  let digits ← Reading.word Char.isDigit
  Reading.require (digits ≠ [] && digits.length ≤ 9) .badDirective

/-- Reads the version that a document is written in; any version will do. -/
def version : Reading Token := do
  skipBlanks
  versionNumber
  Reading.require ((← Reading.next) == some '.') .badDirective
  Reading.skip 1
  versionNumber
  pure .versionDirective

/-- Reads what a handle stands for. -/
def tagExpansion : Reading (List Char) := do
  match ← Reading.next with
  | none => throw .badTag
  | some c =>
    if c == '!' then do
      Reading.skip 1
      ('!' :: ·) <$> uri isUriChar
    else do
      Reading.require (isTagChar c) .badTag
      uri isUriChar

/-- Reads the declaration of a tag handle. -/
def tagDeclaration : Reading Token := do
  skipBlanks
  let handle ← tagHandle true
  skipBlanks
  let expansion ← tagExpansion
  Reading.require (atGap (← Reading.next)) .badDirective
  pure (.tagDirective handle (String.ofList expansion))

/-- Reads a directive, from its percent sign to the end of its line. An unknown directive counts
as the declaration of nothing. -/
def directive : Reading Token := do
  Reading.skip 1
  let name ← Reading.word isWord
  Reading.require (name ≠ [] && atGap (← Reading.next)) .badDirective
  let token ←
    if String.ofList name = "YAML" then version
    else if String.ofList name = "TAG" then tagDeclaration
    else do
      modify (·.skipLine)
      pure (.tagDirective "" "")
  let _ ← Reading.restOfLine true
  Reading.require (atLineEnd (← Reading.next)) .badDirective
  modify (·.skipBreak)
  pure token

end Laminate.Yaml.Property
