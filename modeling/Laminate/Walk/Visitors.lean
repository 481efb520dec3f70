import Laminate.Call.Basic
import Laminate.Call.Token
import Laminate.Node.Dotted
import Laminate.Walk.Basic

/-!
# Visitors

Walks with a purpose: following references, reporting parameters that were never set, and finding
the operator calls of a tree.
-/

namespace Laminate

/-- The message of a parameter that gives none. -/
def defaultParameterMessage : String := "parameter was never overridden"

/-- The operator call that a node is. -/
def Node.call? (n : Node) : Option Call :=
  n.string?.bind Call.parse?

namespace Visitor

/-- The path that a call to `grab` refers to. -/
def grabTarget (call : Call) : Except CallProblem String :=
  match Token.readAll call.args with
  | .ok [.reference target] => .ok target
  | .ok _ => .error .grabArguments
  | .error fault => .error (.argumentText fault)

/-- Replaces calls to `grab` by what they refer to in a tree that stays fixed during the walk. -/
def dereference (snapshot : Node) : Visitor := fun n place =>
  match n.call? with
  | none => .ignore
  | some call =>
    if call.name ≠ "grab" then .ignore
    else
      match grabTarget call with
      | .error problem => .fail (.single (.operator place.path problem))
      | .ok target =>
        match snapshot.resolveDotted target with
        | .ok value => .replace value
        | .error fault =>
          .fail (.single (.operator place.path (.unresolvedPath target fault)))

/-- The message of a call to `param`: its first word. -/
def parameterMessage (call : Call) : String :=
  match Token.readAll call.args with
  | .ok (word :: _) => word.text
  | _ => defaultParameterMessage

/-- Reports every call to `param`. -/
def checkParameters : Visitor := fun n place =>
  match n.call? with
  | none => .ignore
  | some call =>
    if call.name = "param" then
      .fail (.single (.operator place.path (.failed (.parameter (parameterMessage call)))))
    else .ignore

/-- Leaves everything as it is. -/
def ignoreAll : Visitor := fun _ _ => .ignore

/-- Answers by the first rule whose pattern equals the node; without one the node is left. -/
def ofRules (rules : List (Node × Action)) : Visitor := fun n _ =>
  match rules.find? fun rule => rule.1.same n with
  | some rule => rule.2
  | none => .ignore

end Visitor

/-- An operator call and its place in a tree. -/
structure CallSite where
  place : Location
  call : Call
deriving DecidableEq, Repr

namespace CallSite

/-- The call site that a visited node is. -/
def ofVisit? (visit : Node × Location) : Option CallSite :=
  visit.1.call?.map fun call => ⟨visit.2, call⟩

/-- The call sites of a tree, in document order. -/
def collect (tree : Node) (budget : Nat) : Except Faults (List CallSite) :=
  let walked := tree.walk Visitor.ignoreAll budget
  walked.faults.toExcept (walked.visits.filterMap ofVisit?)

end CallSite

end Laminate
