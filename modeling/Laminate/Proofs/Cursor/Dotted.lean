import Laminate.Proofs.Cursor.Position
import Laminate.Proofs.Cursor.Segments
import Laminate.Walk.Visitors

/-!
# Dotted paths as cursors

A dotted path finds elements of a list by their `name` field, a cursor by their `key` and `id`
fields as well. Where no element has a text in one of these two, each step of a dotted path finds
what the component of a cursor finds, or fails for the same reason (`dottedStep_eq`). So a path
without brackets is looked up alike either way, unless its first segment is a dollar sign that a
cursor drops and a dotted path does not (`resolveDotted_eq_resolve`).
-/

namespace Laminate

theorem DottedPath.index?_eq {s : String} (h : '[' ∉ s.toList) :
    DottedPath.index? s = Numeral.index? s.toList := by
  have hunbracketed : DottedPath.unbracketed s.toList = s.toList := by
    unfold DottedPath.unbracketed
    split
    · next heq => exact absurd (heq ▸ List.mem_cons_self) h
    · rfl
  exact congrArg Numeral.index? hunbracketed

namespace Node

/-- An element of a list that has no other name than the one in its `name` field. -/
structure SingleName (item : Node) : Prop where
  no_key : item.field? "key" = none
  no_id : item.field? "id" = none

/-- No element of a list has another name than the one in its `name` field. -/
inductive SinglyNamed : Node → Prop
  | scalar (s : Scalar) : SinglyNamed (.scalar s)
  | sequence {items : List Node} (single : ∀ item ∈ items, item.SingleName)
      (items_single : ∀ item ∈ items, SinglyNamed item) : SinglyNamed (.sequence items)
  | mapping {es : Entries Node} (values_single : ∀ e ∈ es, SinglyNamed e.2) :
      SinglyNamed (.mapping es)

/-- An element of a list that has no other name than its `name` field, and in which no call decides
what that name is. -/
structure PlainElement (item : Node) : Prop where
  no_key : item.field? "key" = none
  no_id : item.field? "id" = none
  no_call : item.call? = none
  name_no_call : ∀ n, item.get? "name" = some n → n.call? = none

/-- All elements of lists are plain. -/
inductive PlainElements : Node → Prop
  | scalar (s : Scalar) : PlainElements (.scalar s)
  | sequence {items : List Node} (plain : ∀ item ∈ items, item.PlainElement)
      (items_plain : ∀ item ∈ items, PlainElements item) : PlainElements (.sequence items)
  | mapping {es : Entries Node} (values_plain : ∀ e ∈ es, PlainElements e.2) :
      PlainElements (.mapping es)

theorem PlainElements.singlyNamed {n : Node} (h : n.PlainElements) : n.SinglyNamed := by
  induction h with
  | scalar s => exact .scalar s
  | sequence plain _ ih =>
    exact .sequence (fun item hitem => ⟨(plain item hitem).no_key, (plain item hitem).no_id⟩) ih
  | mapping _ ih => exact .mapping ih

/-! ## One step -/

theorem SingleName.isNamed_eq {item : Node} (h : item.SingleName) (name : String) :
    item.isNamed name = (item.field? "name" == some name) := by
  simp [isNamed, nameFields, h.no_key, h.no_id]

/-- A list of elements with a single name is searched alike by name. -/
theorem find?_eq_getElem? {items : List Node} (h : ∀ item ∈ items, item.SingleName)
    (name : String) : (items.find? fun item => item.field? "name" == some name)
      = (items.findIdx? fun item => item.isNamed name).bind (items[·]?) := by
  induction items with
  | nil => rfl
  | cons item items ih =>
    obtain ⟨hitem, hitems⟩ := List.forall_mem_cons.mp h
    rw [List.find?_cons, List.findIdx?_cons, hitem.isNamed_eq]
    cases item.field? "name" == some name with
    | true => rfl
    | false =>
      rw [ih hitems]
      cases items.findIdx? fun item => item.isNamed name <;> rfl

/-- A step finds in a list what the component of a cursor finds. -/
theorem dottedStep_sequence {items : List Node} (h : ∀ item ∈ items, item.SingleName) {s : String}
    (hbracket : '[' ∉ s.toList) :
    (sequence items).dottedStep s = ((sequence items).step s).map Prod.snd := by
  simp only [dottedStep, step, elementIndex?, elementObstacle, DottedPath.index?_eq hbracket]
  cases Numeral.index? s.toList with
  | some i =>
    by_cases hi : i < items.length
    · simp [hi, Except.map]
    · simp [hi, Except.map]
  | none =>
    simp only [find?_eq_getElem? h]
    cases hsearch : items.findIdx? fun item => item.isNamed s with
    | none => rfl
    | some i =>
      -- what a search finds is there
      have hi : i < items.length := (List.findIdx?_eq_some_iff_findIdx_eq.mp hsearch).1
      simp [hi, Except.map]

/-- A step without a bracket finds what the component of a cursor finds, or fails for the same
reason. -/
theorem dottedStep_eq {n : Node} (h : n.SinglyNamed) {s : String} (hbracket : '[' ∉ s.toList) :
    n.dottedStep s = (n.step s).map Prod.snd := by
  cases h with
  | scalar s => rfl
  | sequence single _ => exact dottedStep_sequence single hbracket
  | @mapping es _ =>
    simp only [dottedStep, step]
    cases Entries.get? es s <;> rfl

theorem SinglyNamed.step {n child : Node} {c d : String} (h : n.SinglyNamed)
    (hstep : n.step c = .ok (d, child)) : child.SinglyNamed := by
  rcases step_cases hstep with ⟨es, rfl, hget, -⟩ | ⟨items, i, rfl, -, hget, -⟩
  · cases h with
    | mapping values_single => exact values_single _ (Entries.mem_of_get? hget)
  · cases h with
    | sequence _ items_single => exact items_single _ (List.mem_of_getElem? hget)

/-! ## Paths -/

/-- The steps of a dotted path lead where the components of a cursor lead. -/
theorem resolveSteps_eq {steps : List String} : ∀ {n : Node}, n.SinglyNamed →
    (∀ s ∈ steps, '[' ∉ s.toList) → n.resolveSteps steps = n.resolve steps := by
  induction steps with
  | nil => exact fun _ _ => rfl
  | cons s steps ih =>
    intro n h hbracket
    obtain ⟨hs, hsteps⟩ := List.forall_mem_cons.mp hbracket
    simp only [resolveSteps, resolve, dottedStep_eq h hs]
    cases hstep : n.step s with
    | error obstacle => rfl
    | ok found =>
      obtain ⟨d, child⟩ := found
      simp only [Except.map, ih (h.step hstep) hsteps]

/-- **What a dotted path finds stands at the position to which the cursor leads.** -/
theorem exists_at_of_resolveSteps {n m : Node} {steps : List String} (hwf : n.WellFormed)
    (hplain : n.PlainElements) (hbracket : ∀ s ∈ steps, '[' ∉ s.toList)
    (h : n.resolveSteps steps = .ok m) : ∃ c, n.canonical steps = .ok c ∧ n.At c m := by
  rw [resolveSteps_eq hplain.singlyNamed hbracket] at h
  obtain ⟨c, hcanonical⟩ := exists_canonical_of_resolve h
  obtain ⟨m', hat, hresolve⟩ := canonical_at hwf hcanonical
  rw [h] at hresolve
  cases hresolve
  exact ⟨c, hcanonical, hat⟩

/-- **A path without brackets whose first segment is no dollar sign leads as a dotted path where it
leads as a cursor, or fails with the same fault, in every tree in which elements of lists have no
other name than the one in their `name` field.** -/
theorem resolveDotted_eq_resolve {path : String} {tree : Node} (hbracket : NoBracket path.toList)
    (hroot : DottedPath.firstSegment? path ≠ some ['$']) (htree : tree.SinglyNamed) :
    ∃ c, Cursor.parse path = .ok c ∧ tree.resolveDotted path = c.resolve tree := by
  refine ⟨⟨DottedPath.steps path⟩, Cursor.parse_eq_steps hbracket hroot, ?_⟩
  exact resolveSteps_eq htree fun s hs hmem =>
    (hbracket _ (DottedPath.mem_of_mem_steps hs hmem)).1 rfl

/-- A list of servers with names; the `key` of one of them is null and names nothing. -/
def servers : Node :=
  .mapping [("list", .sequence [.mapping [("name", .string "a"), ("key", .null)],
    .mapping [("name", .string "b"), ("ports", .sequence [.integer 80])]])]

theorem resolveDotted_eq_resolve_past_the_end :
    NoBracket "$.$..list.b..ports.+2.x".toList ∧
    DottedPath.firstSegment? "$.$..list.b..ports.+2.x" ≠ some ['$'] ∧ servers.SinglyNamed ∧
    ∃ c, Cursor.parse "$.$..list.b..ports.+2.x" = .ok c ∧
      servers.resolveDotted "$.$..list.b..ports.+2.x" = c.resolve servers ∧
      c.resolve servers = .error ⟨["list", "b", "ports", "+2"], .outOfBounds 2 1⟩ := by
  have hbracket : NoBracket "$.$..list.b..ports.+2.x".toList := by decide
  have hroot : DottedPath.firstSegment? "$.$..list.b..ports.+2.x" ≠ some ['$'] := by decide
  have hports : (Node.sequence [.integer 80]).SinglyNamed :=
    .sequence (List.forall_mem_singleton.mpr ⟨rfl, rfl⟩) (List.forall_mem_singleton.mpr (.scalar _))
  have hfirst : SinglyNamed (.mapping [("name", .string "a"), ("key", .null)]) :=
    .mapping (List.forall_mem_cons.mpr ⟨.scalar _, List.forall_mem_singleton.mpr (.scalar _)⟩)
  have hsecond :
      SinglyNamed (.mapping [("name", .string "b"), ("ports", .sequence [.integer 80])]) :=
    .mapping (List.forall_mem_cons.mpr ⟨.scalar _, List.forall_mem_singleton.mpr hports⟩)
  have hservers : servers.SinglyNamed :=
    .mapping (List.forall_mem_singleton.mpr (.sequence
      (List.forall_mem_cons.mpr ⟨⟨rfl, rfl⟩, List.forall_mem_singleton.mpr ⟨rfl, rfl⟩⟩)
      (List.forall_mem_cons.mpr ⟨hfirst, List.forall_mem_singleton.mpr hsecond⟩)))
  obtain ⟨c, hparse, heq⟩ := resolveDotted_eq_resolve hbracket hroot hservers
  have hcomponents : Cursor.parse "$.$..list.b..ports.+2.x"
      = .ok ⟨["list", "b", "ports", "+2", "x"]⟩ := rfl
  rw [hparse] at hcomponents
  cases hcomponents
  exact ⟨hbracket, hroot, hservers, _, hparse, heq, rfl⟩

end Node

end Laminate
