import Laminate.Fault
import Laminate.Text.Printable

/-!
# The context of a run

What a run remembers beside its documents: the answers of the secret store, the addresses it gave
out, and the paths to remove in the end. The store is asked at most once for a path until the
context is reset; the list of requests is never cleared, since it is what the store has seen.
-/

namespace Laminate

/-- An address of a network, and the instance that holds it. -/
structure Claim where
  network : String
  address : IPv4
  owner : String
deriving DecidableEq, Repr

/-- The context of a run. -/
structure Context where
  store : Option SecretStore := none
  /-- Whether secrets are replaced by a placeholder instead of being looked up. -/
  redact : Bool := false
  /-- The paths that the store was asked for, in order. -/
  requests : List String := []
  /-- The answers of the store since the last reset, failures included. -/
  answers : Entries (Except SecretFault Secret) := []
  /-- The addresses given out since the last reset. -/
  claims : List Claim := []
  /-- The paths to remove in the end. -/
  prune : List Cursor := []

namespace Context

/-- Whether there is a secret store. -/
def hasStore (ctx : Context) : Bool :=
  ctx.store.isSome

/-- Forgets all that a run has collected; the store and the redaction flag stay. -/
def reset (ctx : Context) : Context :=
  { ctx with answers := [], claims := [], prune := [] }

/-- Asks a store for a path and remembers the answer. -/
def request (ctx : Context) (store : SecretStore) (path : String) :
    Except SecretFault Secret × Context :=
  let answer := store.answer ctx.requests path
  (answer, { ctx with
    requests := ctx.requests ++ [path]
    answers := Entries.insert ctx.answers path answer })

/-- The secret at a path: the remembered answer, or else that of the store. Without a store there
is no secret. -/
def secret (ctx : Context) (path : String) : Except SecretFault (Option Secret) × Context :=
  match ctx.store with
  | none => (.ok none, ctx)
  | some store =>
    match Entries.get? ctx.answers path with
    | some answer => (answer.map some, ctx)
    | none =>
      let (answer, ctx) := ctx.request store path
      (answer.map some, ctx)

/-- All that asking for a secret can do to a context. -/
theorem secret_cases (ctx : Context) (path : String) :
    (ctx.secret path).2 = ctx ∨
    ∃ store, ctx.store = some store ∧ Entries.get? ctx.answers path = none ∧
      (ctx.secret path).2 = (ctx.request store path).2 := by
  unfold secret
  cases hstore : ctx.store with
  | none => exact Or.inl rfl
  | some store =>
    cases hanswer : Entries.get? ctx.answers path with
    | some answer => exact Or.inl rfl
    | none => exact Or.inr ⟨store, rfl, rfl, rfl⟩

/-- The claim on an address of a network. -/
def holder? (ctx : Context) (network : String) (address : IPv4) : Option Claim :=
  ctx.claims.find? fun c => c.network == network && c.address == address

/-- Claims an address for an owner. An owner may claim its own address again; an address that
another one holds is refused with the name of its holder. -/
def claim (ctx : Context) (network : String) (address : IPv4) (owner : String) :
    Except String Context :=
  match ctx.holder? network address with
  | some c => if c.owner = owner then .ok ctx else .error c.owner
  | none => .ok { ctx with claims := ctx.claims ++ [⟨network, address, owner⟩] }

/-- Marks a path for removal, unless it is marked already. -/
def markPrune (ctx : Context) (path : Cursor) : Context :=
  if path ∈ ctx.prune then ctx else { ctx with prune := ctx.prune ++ [path] }

/-- Marks several paths in order. -/
def markPruneAll (ctx : Context) (paths : List Cursor) : Context :=
  paths.foldl markPrune ctx

theorem mem_prune_markPrune (ctx : Context) (path other : Cursor) :
    other ∈ (ctx.markPrune path).prune ↔ other ∈ ctx.prune ∨ other = path := by
  unfold markPrune
  split
  · next hmem => exact ⟨Or.inl, fun h => h.elim id fun heq => heq ▸ hmem⟩
  · rw [List.mem_append, List.mem_singleton]

theorem mem_prune_markPruneAll (paths : List Cursor) (other : Cursor) : ∀ ctx : Context,
    other ∈ (ctx.markPruneAll paths).prune ↔ other ∈ ctx.prune ∨ other ∈ paths := by
  induction paths with
  | nil => exact fun ctx => by simp [markPruneAll]
  | cons path paths ih =>
    intro ctx
    refine (ih (ctx.markPrune path)).trans ?_
    rw [mem_prune_markPrune, List.mem_cons, or_assoc]

/-! ## Summary -/

/-- A truth value in a summary. -/
def summaryOfBool : Bool → String
  | true => "true"
  | false => "false"

/-- A character inside the quotes of a summary. -/
def summaryChar (c : Char) : List Char :=
  if c = '"' ∨ c = '\\' then ['\\', c]
  else if c = '\n' then ['\\', 'n']
  else if c = '\r' then ['\\', 'r']
  else if c = '\t' then ['\\', 't']
  else if c.toNat = 0 then ['\\', '0']
  else if Text.isPrintable c then [c]
  else ['\\', 'u', '\x7b'] ++ Nat.toDigits 16 c.toNat ++ ['\x7d']

/-- A text in quotes in a summary. -/
def summaryOfText (text : String) : String :=
  String.ofList ('"' :: (text.toList.flatMap summaryChar ++ ['"']))

/-- Texts between brackets in a summary. -/
def summaryOfList (parts : List String) : String :=
  "[" ++ ", ".intercalate parts ++ "]"

/-- A record in a summary: its name and its fields. -/
def summaryOfFields (name : String) (fields : List (String × String)) : String :=
  let parts := fields.map fun f => f.1 ++ ": " ++ f.2
  name ++ " \x7b " ++ ", ".intercalate parts ++ " \x7d"

/-- A path in a summary. -/
def summaryOfCursor (c : Cursor) : String :=
  summaryOfFields "Cursor" [("nodes", summaryOfList (c.components.map summaryOfText))]

/-- A one-line summary of a context that shows no secret: of answers and addresses it gives the
number only. -/
def summary (ctx : Context) : String :=
  summaryOfFields "RunContext"
    [ ("has_secret_store", summaryOfBool ctx.hasStore),
      ("cached_secrets", Numeral.text ctx.answers.length),
      ("used_addresses", Numeral.text ctx.claims.length),
      ("prune", summaryOfList (ctx.prune.map summaryOfCursor)),
      ("redact", summaryOfBool ctx.redact) ]

end Context

end Laminate
