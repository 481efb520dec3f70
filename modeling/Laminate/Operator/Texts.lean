import Laminate.Operator.Basic
import Laminate.Text.Split

/-!
# Operators that build texts

* `concat` joins the texts of its arguments.
* `join` joins texts and the elements of lists with a separator between them.
* `vault` looks up a secret; its arguments together give the path of the secret and the key in it.
-/

namespace Laminate.Operator

/-- The name of an argument in faults. -/
def describe : Argument → String
  | .reference path => "`" ++ path.text ++ "`"
  | .literal _ => "a literal"

/-- The text of an argument. -/
def argumentText (tree : Node) (arg : Argument) : Except OperatorFault String :=
  match arg.resolve tree with
  | .ok value => value.textFor (describe arg)
  | .error fault => .error fault

/-- The texts of all arguments, one after the other. -/
def concatText (input : CallInput) : Except OperatorFault String :=
  (input.args.mapM (argumentText input.tree)).map String.join

/-- The joined texts of at least two arguments. -/
def concatValue (input : CallInput) : Except OperatorFault Response :=
  if input.args.length < 2 then .error .concatArguments
  else (concatText input).map fun text => .replace (.string text)

/-- Joins the texts of the arguments. -/
def concat : Operator where
  phase := .eval
  run input := .ofExcept (concatValue input)

/-- The texts of the elements of a list from an index on. -/
def entryTexts (index : Nat) : List Node → Except OperatorFault (List String)
  | [] => .ok []
  | item :: items => do
    let text ← item.textFor ("list entry " ++ Numeral.text index)
    let rest ← entryTexts (index + 1) items
    pure (text :: rest)

/-- The texts that an argument contributes: those of its elements if it is a list. -/
def pieces (tree : Node) (arg : Argument) : Except OperatorFault (List String) := do
  match ← arg.resolve tree with
  | .sequence items => entryTexts 0 items
  | value => do
    let text ← value.textFor "an argument"
    pure [text]

/-- The separator, which has to be a literal. -/
def separatorText : Argument → Except OperatorFault String
  | .literal value => (Node.scalar value).textFor "the separator"
  | .reference _ => .error .joinSeparator

/-- The pieces of all arguments but the first, with the first one between them. -/
def joinValue (input : CallInput) : Except OperatorFault Response :=
  match input.args with
  | separator :: first :: rest => do
    let separator ← separatorText separator
    let parts ← (first :: rest).mapM (pieces input.tree)
    pure (.replace (.string (separator.intercalate parts.flatten)))
  | _ => .error .joinArguments

/-- Joins texts and elements of lists. -/
def join : Operator where
  phase := .eval
  run input := .ofExcept (joinValue input)

/-! ## Secrets -/

/-- What stands for a secret that is not shown. -/
def redacted : String := "REDACTED"

/-- The path and the key that a call to `vault` refers to. -/
def secretTarget (input : CallInput) : Except OperatorFault (String × String) :=
  if input.args.isEmpty then .error (.noArguments "vault")
  else
    match concatText input with
    | .error fault => .error fault
    | .ok target =>
      match Text.splitLast? ':' target.toList with
      | some (path, key) => .ok (String.ofList path, String.ofList key)
      | none => .error (.secretReference target)

/-- The text under a key of the secret at a path. -/
def secretText (path key : String) : Running Response := fun ctx =>
  match ctx.secret path with
  | (.error fault, ctx) => (.error (.secret fault), ctx)
  | (.ok none, ctx) => (.error .noSecretStore, ctx)
  | (.ok (some secret), ctx) =>
    match Entries.get? secret key with
    | some text => (.ok (.replace (.string text)), ctx)
    | none => (.error (.secretKeyMissing path key), ctx)

theorem context_secretText (path key : String) (ctx : Context) :
    (secretText path key ctx).2 = (ctx.secret path).2 := by
  unfold secretText
  split
  · next h => rw [h]
  · next h => rw [h]
  · next h =>
    rw [h]
    split <;> rfl

/-- Looks up a secret; with redaction on, the store is not asked. -/
def vault : Operator where
  phase := .eval
  run input := fun ctx =>
    match secretTarget input with
    | .error fault => (.error fault, ctx)
    | .ok (path, key) =>
      if ctx.redact then (.ok (.replace (.string redacted)), ctx)
      else secretText path key ctx

end Laminate.Operator
