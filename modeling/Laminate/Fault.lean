import Laminate.Address.IPv4
import Laminate.Cursor.Basic
import Laminate.Secret

/-!
# Faults

Everything that can be wrong with a document, a path, an operator call or a merge, and the
message for each cause. A `Fault` is one problem; `Faults` collects the problems of a pass in the
order in which they were met, and is never nested. A `Failure` is what a whole operation reports:
one fault, or a collection of them.

The message of a collection lists the messages in byte order, so it does not depend on the order
in which independent parts of a document were visited.
-/

namespace Laminate

/-! ## Text that breaks its grammar -/

/-- How a text breaks its grammar. -/
inductive SyntaxProblem
  | nestedBracket
  | strayBracket
  | unclosedBracket
  | unclosedQuote
  | described (text : String)
deriving DecidableEq, Repr

/-- The wording of a grammar problem. -/
def SyntaxProblem.text : SyntaxProblem → String
  | .nestedBracket => "unexpected '['"
  | .strayBracket => "unexpected ']'"
  | .unclosedBracket => "unterminated '['"
  | .unclosedQuote => "unterminated quoted string"
  | .described text => text

/-- A text that breaks its grammar, and the offset of the character at fault. -/
structure SyntaxFault where
  problem : SyntaxProblem
  position : Nat
deriving DecidableEq, Repr

/-- The message of a grammar fault. -/
def SyntaxFault.message (f : SyntaxFault) : String :=
  "syntax error: " ++ f.problem.text ++ " at position " ++ Numeral.text f.position

/-! ## Paths that lead nowhere -/

/-- Why a step of a path leads nowhere. -/
inductive Obstacle
  /-- No such key in a mapping, or no element of that name in a sequence. -/
  | missing
  /-- An index past the end of a sequence. -/
  | outOfBounds (index size : Nat)
  /-- A step below a scalar. -/
  | noSubObjects (kind : Kind)
deriving DecidableEq, Repr

/-- A path that leads nowhere, up to and including the component at fault. -/
structure NotFound where
  path : List String
  obstacle : Obstacle
deriving DecidableEq, Repr

namespace NotFound

/-- The same fault seen from one level further up. -/
def within (f : NotFound) (component : String) : NotFound :=
  { f with path := component :: f.path }

/-- The message of a path that leads nowhere. -/
def message (f : NotFound) : String :=
  let path : Cursor := ⟨f.path⟩
  "`" ++ path.qualified ++ "` could not be found in the datastructure" ++
    match f.obstacle with
    | .missing => ""
    | .outOfBounds index size =>
      " (index " ++ Numeral.text index ++ " is out of bounds, list has " ++ Numeral.text size
        ++ " entries)"
    | .noSubObjects kind =>
      " (`" ++ path.parent.qualified ++ "` is a " ++ kind.name ++ " and has no sub-objects)"

end NotFound

/-! ## Merging -/

/-- The two lists of a merge. -/
inductive Side
  | base
  | incoming
deriving DecidableEq, Repr

/-- The name of a side in messages. -/
def Side.name : Side → String
  | .base => "original"
  | .incoming => "new"

/-- What is wrong with the arguments of a list directive. -/
inductive DirectiveProblem
  | invalidIndex (word : String)
  | anchorExpected
  | malformed (name : String)
deriving DecidableEq, Repr

/-- The wording of a directive problem. -/
def DirectiveProblem.text : DirectiveProblem → String
  | .invalidIndex word => "invalid list index `" ++ word ++ "`"
  | .anchorExpected => "expected a list index or a quoted name"
  | .malformed name => "malformed (( " ++ name ++ " )) directive"

/-- A problem with the shape of a document. -/
inductive StructuralProblem
  | misplacedMerge
  | directiveText (fault : SyntaxFault)
  | directive (name args : String) (problem : DirectiveProblem)
  | notMap (side : Side) (kind : Kind)
  | keyMissing (side : Side) (key : String)
  | mixedDirectives
  | entryBeforeDirective
  | deleteWithEntries
  | deleteOutOfBounds (index size : Nat)
  | insertOutOfBounds (index size : Nat)
  | alreadyPresent (key name : String)
  | negativeIndex (index : Int64)
  | anchorMissing (key name : String)
  | rootNotMap (document : Nat) (kind : Kind)
  | injectAtRoot
  | injectOutsideMap
  | described (text : String)
deriving DecidableEq, Repr

/-- The wording of a structural problem. -/
def StructuralProblem.text : StructuralProblem → String
  | .misplacedMerge => "inappropriate use of (( merge )) operator outside of a list"
  | .directiveText fault => fault.message
  | .directive name args problem => "(( " ++ name ++ " " ++ args ++ " )): " ++ problem.text
  | .notMap side kind =>
    side.name ++ " object is a " ++ kind.name ++ ", not a map (cannot merge using keys)"
  | .keyMissing side key =>
    side.name ++ " object does not contain the key '" ++ key ++ "'; cannot merge"
  | .mixedDirectives =>
    "only insert and delete directives may follow an insert or delete directive"
  | .entryBeforeDirective => "list entry precedes any directive"
  | .deleteWithEntries => "(( delete )) directive cannot be followed by list entries"
  | .deleteOutOfBounds index size =>
    "delete index " ++ Numeral.text index ++ " is out of bounds (list has " ++ Numeral.text size
      ++ " entries)"
  | .insertOutOfBounds index size =>
    "insert index " ++ Numeral.text index ++ " is out of bounds (list has " ++ Numeral.text size
      ++ " entries)"
  | .alreadyPresent key name =>
    "unable to insert entry with " ++ key ++ " `" ++ name ++ "`: it already exists in the list"
  | .negativeIndex index => "invalid list index " ++ Numeral.integerText index
  | .anchorMissing key name =>
    "unable to find specified modification point with '" ++ key ++ ": " ++ name ++ "'"
  | .rootNotMap document kind =>
    "document " ++ Numeral.text document ++ " has a " ++ kind.name ++ " at its root, not a map"
  | .injectAtRoot => "(( inject )) cannot replace the document root"
  | .injectOutsideMap => "(( inject )) can only be used as the value of a map key"
  | .described text => text

/-! ## Cycles -/

/-- A computation that would not end. -/
inductive CycleProblem
  /-- A chain of replacements used up its budget. -/
  | budgetExhausted
  /-- Calls that wait for each other, by their paths in byte order. -/
  | dataFlow (paths : List String)
  | described (text : String)
deriving DecidableEq, Repr

/-- The wording of a cycle problem. -/
def CycleProblem.text : CycleProblem → String
  | .budgetExhausted => "possible recursion detected: depth budget exhausted"
  | .dataFlow paths => "cycle detected in operator data-flow graph: " ++ ", ".intercalate paths
  | .described text => text

/-! ## Operators -/

/-- Why one operator call fails. -/
inductive OperatorFault
  | noArguments (name : String)
  | unresolved (reference : Cursor) (fault : NotFound)
  | notFound (fault : NotFound)
  | secret (fault : SecretFault)
  | notText (what : String) (kind : Kind)
  | concatArguments
  | joinArguments
  | joinSeparator
  | parameter (message : String)
  | injectArguments
  | injectKind (reference : Cursor) (kind : Kind)
  | secretReference (target : String)
  | noSecretStore
  | secretKeyMissing (path key : String)
  | invalidAddress (text : String)
  | reversedRange (text : String)
  | noSubnets (network : String)
  | rangeKind (network : String) (kind : Kind)
  | addressesMisplaced
  | invalidOffset
  | instanceCount (job : String)
  | networkMissing (network : String)
  | tooFewOffsets (job : String) (instances offsets : Nat)
  | offsetOutOfRange (offset : Nat) (job network : String) (size : Nat)
  | addressTaken (address : IPv4) (network holder : String)
  | described (text : String)
deriving DecidableEq, Repr

/-- The message of a failed call, without the path of the call. -/
def OperatorFault.message : OperatorFault → String
  | .noArguments name => "no arguments specified to (( " ++ name ++ " ))"
  | .unresolved reference fault =>
    "Unable to resolve `" ++ reference.text ++ "`: " ++ fault.message
  | .notFound fault => fault.message
  | .secret fault => fault.message
  | .notText what kind =>
    "tried to use " ++ what ++ ", which is a " ++ kind.name ++ " and not a string scalar"
  | .concatArguments => "concat operator requires at least two arguments"
  | .joinArguments => "join operator requires at least two arguments"
  | .joinSeparator => "join separator must be a literal string"
  | .parameter message => message
  | .injectArguments => "inject operator requires exactly one path argument"
  | .injectKind reference kind =>
    "cannot inject `" ++ reference.text ++ "`: it is a " ++ kind.name ++ ", not a map"
  | .secretReference target =>
    "invalid secret reference `" ++ target ++ "`: expected <path>:<key>"
  | .noSecretStore => "no secret store configured"
  | .secretKeyMissing path key => "secret `" ++ path ++ "` has no key `" ++ key ++ "`"
  | .invalidAddress text => "`" ++ text ++ "` is not a valid IPv4 address"
  | .reversedRange text => "static range `" ++ text ++ "` ends before it starts"
  | .noSubnets network => "network `" ++ network ++ "` has no subnets"
  | .rangeKind network kind =>
    "static range in network `" ++ network ++ "` is a " ++ kind.name ++ ", not a string"
  | .addressesMisplaced =>
    "(( static_ips )) must be used at <jobs>.<job>.networks.<network>.static_ips"
  | .invalidOffset => "static_ips offsets must be non-negative integers"
  | .instanceCount job => "job `" ++ job ++ "` has no valid instance count"
  | .networkMissing network =>
    "network `" ++ network ++ "` is not defined in the top-level networks"
  | .tooFewOffsets job instances offsets =>
    "job `" ++ job ++ "` has " ++ Numeral.text instances ++ " instances but only "
      ++ Numeral.text offsets ++ " static IP offsets were given"
  | .offsetOutOfRange offset job network size =>
    "request for static_ip(" ++ Numeral.text offset ++ ") in job `" ++ job ++ "` on network `"
      ++ network ++ "` is out of range (pool has " ++ Numeral.text size ++ " addresses)"
  | .addressTaken address network holder =>
    "address " ++ address.text ++ " on network `" ++ network ++ "` is already allocated to "
      ++ holder
  | .described text => text

/-- A problem at the site of an operator call. -/
inductive CallProblem
  | failed (fault : OperatorFault)
  | unknownOperator (name : String)
  | argumentText (fault : SyntaxFault)
  | grabArguments
  | unresolvedPath (path : String) (fault : NotFound)
  | setupFailed (name : String) (fault : OperatorFault)
  | described (text : String)
deriving DecidableEq, Repr

/-- The wording of a problem at a call site. -/
def CallProblem.text : CallProblem → String
  | .failed fault => fault.message
  | .unknownOperator name => "unknown operator '" ++ name ++ "'"
  | .argumentText fault => fault.message
  | .grabArguments => "grab expects exactly one path argument"
  | .unresolvedPath path fault => "Unable to resolve `" ++ path ++ "`: " ++ fault.message
  | .setupFailed name fault => "setup of (( " ++ name ++ " )) failed: " ++ fault.message
  | .described text => text

/-! ## Faults and their collections -/

/-- One problem. The path of a problem in a document is its text in diagnostics. -/
inductive Fault
  | malformed (fault : SyntaxFault)
  | notFound (fault : NotFound)
  | structural (path : String) (problem : StructuralProblem)
  | cycle (path : String) (problem : CycleProblem)
  | operator (path : String) (problem : CallProblem)
  | secret (fault : SecretFault)
deriving DecidableEq, Repr

/-- The message of a fault. -/
def Fault.message : Fault → String
  | .malformed fault => fault.message
  | .notFound fault => fault.message
  | .structural path problem => path ++ ": " ++ problem.text
  | .cycle path problem => path ++ ": " ++ problem.text
  | .operator path problem => path ++ ": " ++ problem.text
  | .secret fault => fault.message

/-- The faults of a pass, in the order in which they were met. -/
structure Faults where
  toList : List Fault
deriving DecidableEq, Repr, Inhabited

/-- What an operation reports when it fails. -/
inductive Failure
  | single (fault : Fault)
  | several (faults : Faults)
deriving DecidableEq, Repr

/-- The faults of a failure, in order. -/
def Failure.faults : Failure → List Fault
  | .single fault => [fault]
  | .several faults => faults.toList

namespace Faults

/-- No faults. -/
def empty : Faults := ⟨[]⟩

/-- Whether there are no faults. -/
def isEmpty (fs : Faults) : Bool :=
  fs.toList.isEmpty

/-- The number of faults. -/
def count (fs : Faults) : Nat :=
  fs.toList.length

/-- Adds what an operation reported; the faults of a collection are added one by one. -/
def append (fs : Faults) (failure : Failure) : Faults :=
  ⟨fs.toList ++ failure.faults⟩

/-- Adds the faults of another collection. -/
def extend (fs other : Faults) : Faults :=
  ⟨fs.toList ++ other.toList⟩

/-- The collection of what one operation reported. -/
def ofFailure (failure : Failure) : Faults :=
  empty.append failure

/-- The line of one fault in the message of a collection. -/
def line (f : Fault) : String :=
  " - " ++ f.message ++ "\n"

/-- The message of a collection: the number of faults, then a line for each in byte order. -/
def message (fs : Faults) : String :=
  let lines := (fs.toList.map line).mergeSort fun a b => decide (a ≤ b)
  Numeral.text fs.count ++ " error(s) detected:\n" ++ String.join lines

/-- A value, unless there are faults. -/
def toExcept {α : Type} (fs : Faults) (value : α) : Except Faults α :=
  if fs.isEmpty then .ok value else .error fs

@[simp] theorem toList_append (fs : Faults) (failure : Failure) :
    (fs.append failure).toList = fs.toList ++ failure.faults := rfl

@[simp] theorem toList_extend (fs other : Faults) :
    (fs.extend other).toList = fs.toList ++ other.toList := rfl

end Faults

/-- The message of a failure. -/
def Failure.message : Failure → String
  | .single fault => fault.message
  | .several faults => faults.message

end Laminate
