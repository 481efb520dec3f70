import Laminate.Proofs.Walk.CallSites

/-!
# What a successful walk leaves

A walk ends at a node only by leaving it, or with a fault. So after a walk without faults the
visitor leaves every node of the result where it stands, those included that came in as replacements
(`leaves_walk`), and to walk the result again is to change nothing (`faultless_walk_is_fixpoint`).

Two things are asked of the visitor. What it says of a scalar must not hang on the place, since an
element that is replaced may take another name, and with it all places below it. And it must not
give a branch up without a fault: such a branch ends the walk of a node that is not left, and
nothing tells (`branch_given_up_in_silence`).
-/

namespace Laminate

namespace Visitor

/-- A visitor of scalars: it leaves all mappings and lists, and a scalar everywhere or nowhere. A
visitor whose answer to a scalar does not depend on the place is one. -/
structure OfScalars (visit : Visitor) : Prop where
  mapping : ∀ es place, visit (.mapping es) place = .ignore
  sequence : ∀ items place, visit (.sequence items) place = .ignore
  scalar : ∀ s place place', visit (.scalar s) place = .ignore → visit (.scalar s) place' = .ignore

/-- A visitor that gives no branch up without a fault. -/
def Reports (visit : Visitor) : Prop :=
  ∀ n place failure, visit n place = .fail failure → failure.faults ≠ []

/-- A visitor leaves a tree if it leaves every node of it, at whatever place. -/
def Leaves (visit : Visitor) (n : Node) : Prop :=
  ∀ start, ∀ v ∈ n.visits start, ∀ place, visit v.1 place = .ignore

end Visitor

namespace Node

theorem exists_of_mem_placedChildren_mapChildren {n : Node} {place start : Location}
    {f : Node → Location → Node} {c : Node × Location}
    (h : c ∈ (n.mapChildren f place).placedChildren start) :
    ∃ child ∈ n.placedChildren place, c.1 = f child.1 child.2 := by
  cases n with
  | scalar s => cases h
  | sequence items =>
    obtain ⟨⟨item, i⟩, hitem, rfl⟩ := List.mem_map.mp h
    obtain ⟨p, hp, rfl⟩ := List.mem_map.mp (List.fst_mem_of_mem_zipIdx hitem)
    exact ⟨_, List.mem_map_of_mem hp, rfl⟩
  | mapping es =>
    obtain ⟨e', he', rfl⟩ := List.mem_map.mp h
    obtain ⟨e, he, rfl⟩ := List.mem_map.mp he'
    exact ⟨_, List.mem_map_of_mem he, rfl⟩

end Node

namespace Walk

variable {visit : Visitor} {again : Node → Location → Walked Node} {n : Node} {place : Location}

/-! ## Nodes that are left -/

section Leaves

variable (hvisit : visit.OfScalars)
include hvisit

/-- A node that is left is left everywhere, also with other children. -/
theorem ignore_mapChildren (h : visit n place = .ignore) (f : Node → Location → Node)
    (place' : Location) : visit (n.mapChildren f place) place' = .ignore := by
  cases n with
  | scalar s => exact hvisit.scalar s place place' h
  | sequence items => exact hvisit.sequence _ place'
  | mapping es => exact hvisit.mapping _ place'

theorem leaves_mapChildren (h : visit n place = .ignore) {f : Node → Location → Node}
    (hchildren : ∀ c ∈ n.placedChildren place, visit.Leaves (f c.1 c.2)) :
    visit.Leaves (n.mapChildren f place) := by
  intro start v hv
  rw [Node.visits_eq] at hv
  rcases List.mem_cons.mp hv with rfl | hv
  · exact ignore_mapChildren hvisit h f
  · obtain ⟨c, hc, hv⟩ := List.mem_flatMap.mp hv
    obtain ⟨child, hchild, heq⟩ := Node.exists_of_mem_placedChildren_mapChildren hc
    rw [heq] at hv
    exact hchildren child hchild _ v hv

variable (hreports : visit.Reports)
include hreports

/-- One generation: the walk goes down nodes that are left, and what is put in their place is left
if the walks of the replacements see to it. -/
theorem leaves_walkNode
    (hagain : ∀ m loc, Faultless (again m loc) → visit.Leaves (again m loc).value)
    (n : Node) (place : Location) (h : Faultless (walkNode visit again n place)) :
    visit.Leaves (walkNode visit again n place).value := by
  induction n, place using Node.placed_induction with
  | node n place ih =>
    cases hanswer : visit n place with
    | ignore =>
      have hchildren : ∀ c ∈ n.placedChildren place,
          visit.Leaves (walkNode visit again c.1 c.2).value := fun c hc =>
        ih c hc ((faultless_of_ignore hanswer).mp h c hc)
      simp only [walkNode_of_ignore hanswer]
      exact leaves_mapChildren hvisit hanswer hchildren
    | replace replacement =>
      rw [walkNode_of_replace hanswer] at h ⊢
      exact hagain replacement place h
    | fail failure =>
      exact absurd h (not_faultless_of_fail hanswer (hreports n place failure hanswer))

/-- **After a walk without faults the visitor leaves every node of the result.** -/
theorem leaves_walk (budget : Nat) : ∀ (n : Node) (place : Location),
    Faultless (walk visit budget n place) → visit.Leaves (walk visit budget n place).value := by
  induction budget with
  | zero =>
    intro n place h
    cases h
  | succ budget ih => exact leaves_walkNode hvisit hreports ih

end Leaves

/-- A tree that a walk does not change: the visitor leaves all its nodes, and a walk with any budget
but zero succeeds and gives the same tree. -/
structure Fixpoint (visit : Visitor) (tree : Node) : Prop where
  left : ∀ v ∈ tree.visits .root, ∀ place, visit v.1 place = .ignore
  walk_again : ∀ budget, 0 < budget →
    Faultless (tree.walk visit budget) ∧ (tree.walk visit budget).value = tree

theorem fixpoint_of_leaves {tree : Node} (h : visit.Leaves tree) : Fixpoint visit tree := by
  refine ⟨h .root, fun budget hbudget => ?_⟩
  obtain ⟨budget, rfl⟩ := Nat.exists_eq_add_one.mpr hbudget
  have hwalk : tree.walk visit (budget + 1) = ⟨tree, (tree.visits .root).map Note.ofVisit⟩ :=
    walkNode_of_left fun v hv => h .root v hv v.2
  rw [hwalk]
  exact ⟨congrArg Faults.toList (faults_map_ofVisit tree _), rfl⟩

/-! ## Following references -/

/-- All that is told of a node which following references leaves alone. -/
theorem dereference_eq_ignore_iff {snapshot : Node} :
    Visitor.dereference snapshot n place = .ignore ↔
      ∀ call, n.call? = some call → call.name ≠ "grab" := by
  unfold Visitor.dereference
  cases n.call? with
  | none => simp
  | some call =>
    by_cases hname : call.name = "grab"
    · simp only [hname, ne_eq, not_true_eq_false, if_false, Option.some.injEq, forall_eq',
        iff_false]
      split
      · nofun
      · split <;> nofun
    · simp [hname]

theorem ofScalars_dereference (snapshot : Node) : (Visitor.dereference snapshot).OfScalars where
  mapping := fun _ _ => dereference_eq_ignore_iff.mpr nofun
  sequence := fun _ _ => dereference_eq_ignore_iff.mpr nofun
  scalar := fun _ _ _ h => dereference_eq_ignore_iff.mpr (dereference_eq_ignore_iff.mp h)

theorem reports_dereference (snapshot : Node) : (Visitor.dereference snapshot).Reports := by
  intro n place failure h
  unfold Visitor.dereference at h
  split at h
  · cases h
  · split at h
    · cases h
    · split at h
      · cases h
        nofun
      · split at h
        · cases h
        · cases h
          nofun

/-- **What a walk without faults gives is a fixpoint of its visitor, if that is a visitor of scalars
which gives no branch up without a fault. In particular no call to `grab` is left where references
have been followed.** -/
theorem faultless_walk_is_fixpoint :
    (∀ visit : Visitor, visit.OfScalars → visit.Reports → ∀ (tree : Node) (budget : Nat),
      Faultless (tree.walk visit budget) → Fixpoint visit (tree.walk visit budget).value) ∧
    ∀ (snapshot tree : Node) (budget : Nat),
      Faultless (tree.walk (.dereference snapshot) budget) →
      ∀ v ∈ (tree.walk (.dereference snapshot) budget).value.visits .root, ∀ call,
        v.1.call? = some call → call.name ≠ "grab" := by
  refine ⟨fun visit hvisit hreports tree budget h => ?_, fun snapshot tree budget h v hv => ?_⟩
  · exact fixpoint_of_leaves (leaves_walk hvisit hreports budget tree .root h)
  · have hleaves := leaves_walk (ofScalars_dereference snapshot) (reports_dereference snapshot)
      budget tree .root h
    exact dereference_eq_ignore_iff.mp (hleaves .root v hv .root)

/-! ## Tables of rules -/

section Rules

variable {rules : List (Node × Action)}

/-- A table of rules for scalars is a visitor of scalars. -/
theorem ofScalars_ofRules (h : ∀ rule ∈ rules, rule.1.isScalar = true) :
    (Visitor.ofRules rules).OfScalars := by
  have hnone : ∀ n : Node, n.isScalar = false →
      rules.find? (fun rule => rule.1.same n) = none := by
    rintro n hn
    refine List.find?_eq_none.mpr ?_
    rintro ⟨pattern, answer⟩ hrule hsame
    cases pattern with
    | scalar s =>
      cases n with
      | scalar t => cases hn
      | _ => simp [Node.same] at hsame
    | _ => cases h _ hrule
  refine ⟨fun es place => ?_, fun items place => ?_, fun s place place' h => h⟩
  · simp only [Visitor.ofRules, hnone (.mapping es) rfl]
  · simp only [Visitor.ofRules, hnone (.sequence items) rfl]

theorem reports_ofRules
    (h : ∀ rule ∈ rules, ∀ failure, rule.2 = .fail failure → failure.faults ≠ []) :
    (Visitor.ofRules rules).Reports := by
  intro n place failure hanswer
  unfold Visitor.ofRules at hanswer
  split at hanswer
  · next rule hrule => exact h rule (List.mem_of_find?_eq_some hrule) failure hanswer
  · cases hanswer

end Rules

/-- Replaces a text by a list with another text in it, and that one by a mapping. -/
def unfoldingRules : List (Node × Action) :=
  [(.string "a", .replace (.sequence [.string "b", .integer 1])),
    (.string "b", .replace (.mapping [("k", .null)]))]

def unfoldedTree : Node :=
  .mapping [("x", .string "a"), ("y", .sequence [.string "b"])]

def chainedGrabs : Node :=
  .mapping [("a", .string "(( grab b ))"), ("b", .string "(( grab c ))"),
    ("c", .sequence [.integer 1])]

theorem fixpoint_of_unfolded :
    Faultless (unfoldedTree.walk (.ofRules unfoldingRules) 3) ∧
    (unfoldedTree.walk (.ofRules unfoldingRules) 3).value =
      .mapping [("x", .sequence [.mapping [("k", .null)], .integer 1]),
        ("y", .sequence [.mapping [("k", .null)]])] ∧
    Fixpoint (.ofRules unfoldingRules) (unfoldedTree.walk (.ofRules unfoldingRules) 3).value ∧
    Faultless (chainedGrabs.walk (.dereference chainedGrabs) 3) ∧
    ∀ v ∈ (chainedGrabs.walk (.dereference chainedGrabs) 3).value.visits .root, ∀ call,
      v.1.call? = some call → call.name ≠ "grab" := by
  have hscalars : (Visitor.ofRules unfoldingRules).OfScalars := ofScalars_ofRules (by decide)
  have hreports : (Visitor.ofRules unfoldingRules).Reports := by
    refine reports_ofRules fun rule hrule failure hfail => ?_
    simp only [unfoldingRules, List.mem_cons, List.not_mem_nil, or_false] at hrule
    rcases hrule with rfl | rfl <;> cases hfail
  have hwalk : Faultless (unfoldedTree.walk (.ofRules unfoldingRules) 3) := rfl
  have hgrabs : Faultless (chainedGrabs.walk (.dereference chainedGrabs) 3) := rfl
  exact ⟨hwalk, rfl, faultless_walk_is_fixpoint.1 _ hscalars hreports _ _ hwalk, hgrabs,
    faultless_walk_is_fixpoint.2 _ _ _ hgrabs⟩

/-- Gives the branch of a text up and names no fault. -/
def silentRules : List (Node × Action) :=
  [(.string "x", .fail (.several .empty))]

/-- The walk succeeds, and yet the visitor does not leave what there is in the end. -/
theorem branch_given_up_in_silence :
    (∀ es place, Visitor.ofRules silentRules (.mapping es) place = .ignore) ∧
    (∀ items place, Visitor.ofRules silentRules (.sequence items) place = .ignore) ∧
    (∀ s place place', Visitor.ofRules silentRules (.scalar s) place
      = Visitor.ofRules silentRules (.scalar s) place') ∧
    Faultless ((Node.string "x").walk (.ofRules silentRules) 1) ∧
    ¬∀ v ∈ ((Node.string "x").walk (.ofRules silentRules) 1).value.visits .root,
      Visitor.ofRules silentRules v.1 v.2 = .ignore := by
  have hscalars : (Visitor.ofRules silentRules).OfScalars := ofScalars_ofRules (by decide)
  refine ⟨hscalars.mapping, hscalars.sequence, fun _ _ _ => rfl, rfl, fun h => ?_⟩
  cases h (.string "x", .root) (List.mem_singleton_self _)

end Walk

end Laminate
