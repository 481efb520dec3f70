import Laminate.Node.Entries

/-!
# Secret stores

A secret is a flat list of named texts under a path. A store is asked for one path at a time and
may answer differently each time, so an answer is a function of the requests made before.
-/

namespace Laminate

/-- The named texts of one secret. -/
abbrev Secret := Entries String

/-- Why a store gives no secret. -/
inductive SecretFault
  | notFound (path : String)
  | transport (reason : String)
  | authentication (reason : String)
deriving DecidableEq, Repr

/-- The message of a store's fault. -/
def SecretFault.message : SecretFault → String
  | .notFound path => "secret `" ++ path ++ "` not found"
  | .transport reason => "secret store transport error: " ++ reason
  | .authentication reason => "secret store authentication failed: " ++ reason

/-- A source of secrets. -/
structure SecretStore where
  /-- The answer to a request for a path, after the given earlier requests. -/
  answer : List String → String → Except SecretFault Secret

namespace SecretStore

/-- A store whose answer depends on the path alone. -/
def ofFunction (find : String → Except SecretFault Secret) : SecretStore :=
  ⟨fun _ path => find path⟩

/-- The store of the given secrets: a path that is not among them is not found. -/
def ofEntries (secrets : Entries Secret) : SecretStore :=
  ofFunction fun path =>
    match Entries.get? secrets path with
    | some secret => .ok secret
    | none => .error (.notFound path)

end SecretStore

end Laminate
