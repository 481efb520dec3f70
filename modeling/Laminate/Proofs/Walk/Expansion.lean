import Laminate.Proofs.Call.BarePath
import Laminate.Proofs.Cursor.Dotted
import Laminate.Proofs.Cursor.WellFormed
import Laminate.Proofs.Node.Entries
import Laminate.Proofs.Walk.CallSites

/-!
# Expansions

A walk that follows references puts in the place of each call what the call refers to in a tree that
stays fixed, and follows the calls in there in turn. `Expands` says the same without a budget: a
node expands to the node in which every call is the expansion of its target. What a walk without
faults computes is the expansion (`expands_of_walk`).

In what expands no chain of references goes on for ever. So what holds of a call whenever it holds
of the calls at and below its target holds of all calls (`Expands.forall_calls`).
-/

namespace Laminate

open Walk

namespace Node

/-- The only calls of a tree are calls to `grab` with a bare path, and no call is or names an
element of a list. -/
structure OnlyGrabs (tree : Node) : Prop where
  calls : ∀ site ∈ tree.callSites, site.call.name = "grab" ∧ BarePath site.call.args
  elements : tree.PlainElements

/-- What a call with a path refers to, and where that stands. -/
structure Refers (tree : Node) (call : Call) (place : List String) (target : Node) : Prop where
  canonical : tree.canonical (DottedPath.steps call.args) = .ok place
  stands : tree.At place target

/-- The second node is the first one with each call replaced by the expansion of its target. -/
inductive Expands (tree : Node) : Node → Node → Prop
  | scalar {s : Scalar} (no_call : (Node.scalar s).call? = none) :
      Expands tree (.scalar s) (.scalar s)
  | call {n target value : Node} {call : Call} {place : List String}
      (is_call : n.call? = some call) (refers : tree.Refers call place target)
      (target_expands : Expands tree target value) : Expands tree n value
  | sequence {items values : List Node} (length_eq : values.length = items.length)
      (items_expand : ∀ (i : Nat) item value, items[i]? = some item → values[i]? = some value →
        Expands tree item value) : Expands tree (.sequence items) (.sequence values)
  | mapping {es values : Entries Node} (keys_eq : Entries.keys values = Entries.keys es)
      (values_expand : ∀ key n value, Entries.get? es key = some n →
        Entries.get? values key = some value → Expands tree n value) :
      Expands tree (.mapping es) (.mapping values)

end Node

open Node

variable {tree : Node}

theorem Node.OnlyGrabs.of_call (h : tree.OnlyGrabs) {n : Node} {path : List String} {call : Call}
    (hat : tree.At path n) (hcall : n.call? = some call) :
    call.name = "grab" ∧ BarePath call.args := by
  obtain ⟨text, rfl, hparse⟩ := call?_eq_some hcall
  obtain ⟨site, hsite, rfl, -⟩ := exists_callSite hat hparse
  exact h.calls site hsite

/-- A node that is no call expands to what its children expand to. -/
theorem Node.expands_mapChildren {n : Node} {place : Location} {f : Node → Location → Node}
    (hcall : n.call? = none)
    (hchildren : ∀ c ∈ n.placedChildren place, tree.Expands c.1 (f c.1 c.2)) :
    tree.Expands n (n.mapChildren f place) := by
  cases n with
  | scalar s => exact .scalar hcall
  | sequence items =>
    refine .sequence (by simp) fun i item value hitem hvalue => ?_
    rw [List.getElem?_map, List.getElem?_zipIdx, hitem, Nat.zero_add] at hvalue
    cases hvalue
    exact hchildren (item, place.element i item)
      (List.mem_map.mpr ⟨(item, i), List.mem_zipIdx_iff_getElem?.mpr hitem, rfl⟩)
  | mapping es =>
    refine .mapping (by simp [Entries.keys]) fun key m value hm hvalue => ?_
    rw [Entries.get?_map es fun key m => f m (place.key key), hm] at hvalue
    cases hvalue
    exact hchildren (m, place.key key)
      (List.mem_map.mpr ⟨(key, m), Entries.mem_of_get? hm, rfl⟩)

/-! ## Calls in what expands -/

section Calls

variable (hwf : tree.WellFormed) {P : List String → Call → Prop}
  (hstep : ∀ path n call place target, tree.At path n → n.call? = some call →
    tree.Refers call place target →
    (∀ rest m other, target.At rest m → m.call? = some other → P (place ++ rest) other) →
    P path call)
include hwf hstep

theorem Node.Expands.forall_calls_below {n value : Node} (h : tree.Expands n value) :
    ∀ path, tree.At path n → ∀ rest m call, n.At rest m → m.call? = some call →
      P (path ++ rest) call := by
  induction h with
  | scalar no_call =>
    intro path _ rest m call hm hcall
    cases hm
    rw [no_call] at hcall
    cases hcall
  | @call n target value call place is_call refers _ ih =>
    intro path hat rest m other hm hother
    obtain ⟨text, rfl, -⟩ := call?_eq_some is_call
    obtain rfl := hm.eq_nil_of_scalar
    obtain rfl := hm.unique (.here _)
    rw [is_call] at hother
    cases hother
    rw [List.append_nil]
    exact hstep path _ call place target hat is_call refers (ih place refers.stands)
  | sequence length_eq _ ih =>
    intro path hat rest m call hm hcall
    cases hm with
    | here => cases hcall
    | @item _ i child _ rest bound found below =>
      have hlt := (List.getElem?_eq_some_iff.mp found).1
      have hvalue := List.getElem?_eq_getElem (length_eq ▸ hlt)
      rw [List.append_cons]
      exact ih i child _ found hvalue _ (hat.item_at hwf found) rest m call below hcall
  | mapping keys_eq _ ih =>
    intro path hat rest m call hm hcall
    cases hm with
    | here => cases hcall
    | @key _ key child _ rest found below =>
      obtain ⟨value, hvalue⟩ :=
        Entries.exists_get?_of_mem_keys (keys_eq ▸ Entries.mem_keys_of_get? found)
      rw [List.append_cons]
      exact ih key child value found hvalue _ (hat.value_at found) rest m call below hcall

/-- **In a tree that expands, what holds of a call whenever it holds of the calls at and below its
target holds of all calls.** -/
theorem Node.Expands.forall_calls {value : Node} (h : tree.Expands tree value) {path : List String}
    {n : Node} {call : Call} (hat : tree.At path n) (hcall : n.call? = some call) : P path call :=
  h.forall_calls_below hwf hstep [] (.here tree) path n call hat hcall

end Calls

/-! ## Walks without faults -/

namespace Walk

variable {again : Node → Location → Walked Node}

section Walks

variable (hwf : tree.WellFormed) (htree : tree.OnlyGrabs)
include hwf htree

/-- One generation: a call is followed, and anything else is left to its children. -/
theorem expands_of_walkNode (hagain : ∀ m path, tree.At path m → ∀ place,
      Faultless (again m place) → tree.Expands m (again m place).value) (n : Node) :
    ∀ path, tree.At path n → ∀ place,
      Faultless (walkNode (Visitor.dereference tree) again n place) →
      tree.Expands n (walkNode (Visitor.dereference tree) again n place).value := by
  intro path hat place
  induction n, place using placed_induction generalizing path with
  | node n place ih =>
    intro h
    cases hcall : n.call? with
    | none =>
      have hvisit : Visitor.dereference tree n place = .ignore := by
        simp only [Visitor.dereference, hcall]
      simp only [walkNode_of_ignore hvisit]
      refine expands_mapChildren hcall fun c hc => ?_
      obtain ⟨d, hd, -⟩ := at_of_mem_placedChildren (hwf.resolve hat.resolve) hc
      exact ih c hc _ (hat.append hd) ((faultless_of_ignore hvisit).mp h c hc)
    | some call =>
      obtain ⟨hname, hbare⟩ := htree.of_call hat hcall
      cases hfound : tree.resolveDotted call.args with
      | error fault =>
        have hvisit : Visitor.dereference tree n place
            = .fail (.single (.operator place.path (.unresolvedPath call.args fault))) := by
          simp only [Visitor.dereference, hcall, hname, hbare.grabTarget_eq, hfound]
          rfl
        exact absurd h (not_faultless_of_fail hvisit nofun)
      | ok target =>
        have hvisit : Visitor.dereference tree n place = .replace target := by
          simp only [Visitor.dereference, hcall, hname, hbare.grabTarget_eq, hfound]
          rfl
        obtain ⟨position, hcanonical, htarget⟩ := exists_at_of_resolveSteps hwf htree.elements
          (fun s => hbare.no_bracket) hfound
        rw [walkNode_of_replace hvisit] at h ⊢
        exact .call hcall ⟨hcanonical, htarget⟩ (hagain target position htarget place h)

/-- **A walk that follows references without a fault computes the expansion.** -/
theorem expands_of_walk (budget : Nat) : ∀ n path, tree.At path n → ∀ place,
    Faultless (walk (Visitor.dereference tree) budget n place) →
    tree.Expands n (walk (Visitor.dereference tree) budget n place).value := by
  induction budget with
  | zero =>
    intro n path hat place h
    cases h
  | succ budget ih => exact expands_of_walkNode hwf htree ih

end Walks

end Walk

end Laminate
