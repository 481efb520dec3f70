import Laminate.Proofs.Cursor.Wildcards
import Laminate.Proofs.Walk.Steps
import Laminate.Walk.Visitors
import Mathlib.Data.List.Basic

/-!
# Finding calls

A walk that leaves every node as it is visits every node of the tree once, at its position.
`Node.visits` lists the visits of such a walk by plain recursion (`walkNode_of_left`), also of one
that reports faults where nothing is below (`walkNode_of_looks`), and
`collect_succ` says that call sites are collected from exactly these. In a well-formed tree the
visits are the positions (`at_of_mem_visits`, `mem_visits_of_at`), in document order
(`pairwise_visits`).
-/

namespace Laminate

namespace Node

mutual

/-- The nodes of a tree at a place with their places, in document order. -/
def visits : Node → Location → List (Node × Location)
  | .scalar s => fun place => [(.scalar s, place)]
  | .sequence items => fun place => (.sequence items, place) :: visitsOfItems items 0 place
  | .mapping es => fun place => (.mapping es, place) :: visitsOfEntries es place
termination_by structural n => n

/-- The nodes of the items of a sequence from an index on. -/
def visitsOfItems : List Node → Nat → Location → List (Node × Location)
  | [] => fun _ _ => []
  | item :: items => fun index place =>
    visits item (place.element index item) ++ visitsOfItems items (index + 1) place
termination_by structural items => items

/-- The nodes of the values of a mapping. -/
def visitsOfEntries : List (String × Node) → Location → List (Node × Location)
  | [] => fun _ => []
  | (key, n) :: es => fun place => visits n (place.key key) ++ visitsOfEntries es place
termination_by structural es => es

end

theorem visitsOfItems_eq (items : List Node) (index : Nat) (place : Location) :
    visitsOfItems items index place =
      (items.zipIdx index).flatMap fun p => p.1.visits (place.element p.2 p.1) := by
  induction items generalizing index with
  | nil => rfl
  | cons item items ih => simp only [visitsOfItems, ih, List.zipIdx_cons, List.flatMap_cons]

theorem visitsOfEntries_eq (es : Entries Node) (place : Location) :
    visitsOfEntries es place = es.flatMap fun e => e.2.visits (place.key e.1) := by
  induction es with
  | nil => rfl
  | cons e es ih => simp only [visitsOfEntries, ih, List.flatMap_cons]

/-- A node comes before what stands at and below its children. -/
theorem visits_eq (n : Node) (place : Location) :
    n.visits place = (n, place) :: (n.placedChildren place).flatMap fun c => c.1.visits c.2 := by
  cases n with
  | scalar s => rfl
  | sequence items => simp only [visits, visitsOfItems_eq, placedChildren, List.flatMap_map]
  | mapping es => simp only [visits, visitsOfEntries_eq, placedChildren, List.flatMap_map]

/-- The call sites of a tree, in document order. -/
def callSites (tree : Node) : List CallSite :=
  (tree.visits .root).filterMap CallSite.ofVisit?

end Node

/-! ## The walk that changes nothing -/

namespace Walk

/-- The note of a visit. -/
def Note.ofVisit (visit : Node × Location) : Note :=
  .visited visit.1 visit.2

variable {visit : Visitor} {again : Node → Location → Walked Node}

theorem faults_map_ofVisit {α : Type} (value : α) (visits : List (Node × Location)) :
    Walked.faults (⟨value, visits.map Note.ofVisit⟩ : Walked α) = ⟨[]⟩ := by
  rw [Walked.faults, List.flatMap_map]
  simp [Note.ofVisit, Note.faults]

theorem visits_map_ofVisit {α : Type} (value : α) (visits : List (Node × Location)) :
    Walked.visits (⟨value, visits.map Note.ofVisit⟩ : Walked α) = visits := by
  rw [Walked.visits, List.filterMap_map]
  exact List.filterMap_some

/-- The notes of a visit at which nothing is replaced. -/
def notesAt (visit : Visitor) (v : Node × Location) : List Note :=
  match visit v.1 v.2 with
  | .fail failure => [.visited v.1 v.2, .failed failure]
  | _ => [.visited v.1 v.2]

/-- The visitor leaves the node, or gives up where nothing is below. -/
def LooksAt (visit : Visitor) (v : Node × Location) : Prop :=
  visit v.1 v.2 = .ignore ∨ (∃ failure, visit v.1 v.2 = .fail failure) ∧ v.1.placedChildren v.2 = []

/-- If the visitor only looks at the nodes of a tree, the walk changes nothing and visits each of
them, also those behind a fault. -/
theorem walkNode_of_looks {n : Node} : ∀ {place : Location},
    (∀ v ∈ n.visits place, LooksAt visit v) →
    walkNode visit again n place = ⟨n, (n.visits place).flatMap (notesAt visit)⟩ := by
  intro place
  induction n, place using Node.placed_induction with
  | node n place ih =>
    intro h
    rw [Node.visits_eq] at h
    obtain ⟨hhere, hbelow⟩ := List.forall_mem_cons.mp h
    rcases hhere with hignore | ⟨⟨failure, hfail⟩, hleaf⟩
    · have hchild : ∀ c ∈ n.placedChildren place, walkNode visit again c.1 c.2
          = ⟨c.1, (c.1.visits c.2).flatMap (notesAt visit)⟩ := fun c hc =>
        ih c hc fun v hv => hbelow v (List.mem_flatMap.mpr ⟨c, hc, hv⟩)
      have hvalue : n.mapChildren (fun m loc => (walkNode visit again m loc).value) place = n :=
        (Node.mapChildren_congr fun c hc => by rw [hchild c hc]).trans (n.mapChildren_self place)
      have hlog : ((n.placedChildren place).flatMap fun c => (walkNode visit again c.1 c.2).log)
          = (n.placedChildren place).flatMap fun c => (c.1.visits c.2).flatMap (notesAt visit) :=
        List.flatMap_congr fun c hc => by rw [hchild c hc]
      have hnotes : notesAt visit (n, place) = [.visited n place] := by rw [notesAt, hignore]
      rw [walkNode_of_ignore hignore, hvalue, hlog, Node.visits_eq, List.flatMap_cons, hnotes,
        List.flatMap_assoc]
      rfl
    · have hnotes : notesAt visit (n, place) = [.visited n place, .failed failure] := by
        rw [notesAt, hfail]
      rw [walkNode_of_fail hfail, Node.visits_eq, hleaf, List.flatMap_cons, hnotes]
      rfl

/-- If the visitor leaves every node of a tree, the walk changes nothing and visits each of them. -/
theorem walkNode_of_left {n : Node} {place : Location}
    (h : ∀ v ∈ n.visits place, visit v.1 v.2 = .ignore) :
    walkNode visit again n place = ⟨n, (n.visits place).map Note.ofVisit⟩ := by
  rw [walkNode_of_looks fun v hv => Or.inl (h v hv), List.map_eq_flatMap]
  exact congrArg (Logged.mk n) (List.flatMap_congr fun v hv => by rw [notesAt, h v hv]; rfl)

end Walk

namespace CallSite

/-- **With any budget but zero the call sites of a tree are found.** -/
theorem collect_succ (tree : Node) (budget : Nat) :
    collect tree (budget + 1) = .ok tree.callSites := by
  -- the budget counts replacements, and nothing is replaced
  have hwalk : tree.walk Visitor.ignoreAll (budget + 1)
      = ⟨tree, (tree.visits .root).map Walk.Note.ofVisit⟩ := Walk.walkNode_of_left fun _ _ => rfl
  simp only [collect, hwalk, Walk.faults_map_ofVisit, Walk.visits_map_ofVisit]
  rfl

/-- Without a budget nothing is found. -/
theorem collect_zero (tree : Node) :
    collect tree 0 = .error ⟨[.cycle "$" .budgetExhausted]⟩ := rfl

end CallSite

/-! ## Visits and positions -/

namespace Node

variable {n m : Node} {place : Location} {d : String} {path : List String}

/-- The children of a node stand at its place, each with its canonical component behind it. -/
theorem getElem?_placedChildren {i : Nat} {c : Node × Location}
    (h : (n.placedChildren place)[i]? = some c) :
    ∃ d, n.numbered? i = some (d, c.1) ∧
      c.2.cursor.components = place.cursor.components ++ [d] := by
  cases n with
  | scalar s => cases h
  | sequence items =>
    rw [placedChildren, List.getElem?_map, List.getElem?_zipIdx, Option.map_map, Nat.zero_add] at h
    obtain ⟨item, hitem, rfl⟩ := Option.map_eq_some_iff.mp h
    exact ⟨Numeral.text i, by simp [numbered?, hitem], rfl⟩
  | mapping es =>
    rw [placedChildren, List.getElem?_map] at h
    obtain ⟨e, he, rfl⟩ := Option.map_eq_some_iff.mp h
    exact ⟨e.1, he, rfl⟩

/-- Children are listed in the order of their numbers. -/
theorem pairwise_placedChildren (hwf : n.WellFormed) (place : Location) :
    (n.placedChildren place).Pairwise fun a b => ∃ i j d e, i < j ∧ n.Finds d i a.1 ∧
      n.Finds e j b.1 ∧ a.2.cursor.components = place.cursor.components ++ [d] ∧
      b.2.cursor.components = place.cursor.components ++ [e] := by
  rw [List.pairwise_iff_getElem]
  intro i j hi hj hij
  obtain ⟨d, hd, hplace⟩ := getElem?_placedChildren (List.getElem?_eq_getElem hi)
  obtain ⟨e, he, hplace'⟩ := getElem?_placedChildren (List.getElem?_eq_getElem hj)
  exact ⟨i, j, d, e, hij, finds_of_numbered? hwf hd, finds_of_numbered? hwf he, hplace, hplace'⟩

theorem at_of_mem_placedChildren (hwf : n.WellFormed) {c : Node × Location}
    (h : c ∈ n.placedChildren place) :
    ∃ d, n.At [d] c.1 ∧ c.2.cursor.components = place.cursor.components ++ [d] := by
  obtain ⟨i, hi⟩ := List.getElem?_of_mem h
  obtain ⟨d, hd, hplace⟩ := getElem?_placedChildren hi
  rw [← getElem?_children] at hd
  exact ⟨d, (mem_children_iff hwf).mp (List.mem_of_getElem? hd), hplace⟩

theorem exists_mem_placedChildren_of_at (h : n.At [d] m) (place : Location) :
    ∃ loc, (m, loc) ∈ n.placedChildren place ∧
      loc.cursor.components = place.cursor.components ++ [d] := by
  cases h with
  | key found rest =>
    cases rest
    exact ⟨place.key d, List.mem_map.mpr ⟨(d, m), Entries.mem_of_get? found, rfl⟩, rfl⟩
  | @item _ i _ _ _ _ found rest =>
    cases rest
    exact ⟨place.element i m,
      List.mem_map.mpr ⟨(m, i), List.mem_zipIdx_iff_getElem?.mpr found, rfl⟩, rfl⟩

/-- What is visited stands at its position. -/
theorem at_of_mem_visits (hwf : n.WellFormed) {v : Node × Location} (h : v ∈ n.visits place) :
    ∃ path, v.2.cursor.components = place.cursor.components ++ path ∧ n.At path v.1 := by
  induction n, place using placed_induction with
  | node n place ih =>
    rw [visits_eq] at h
    rcases List.mem_cons.mp h with rfl | h
    · exact ⟨[], (List.append_nil _).symm, .here n⟩
    · obtain ⟨c, hc, hv⟩ := List.mem_flatMap.mp h
      obtain ⟨d, hd, hplace⟩ := at_of_mem_placedChildren hwf hc
      obtain ⟨path, hpath, hat⟩ := ih c hc (hwf.resolve hd.resolve) hv
      rw [hplace, List.append_assoc] at hpath
      exact ⟨d :: path, hpath, hd.append hat⟩

/-- What stands at a position is visited. -/
theorem mem_visits_of_at (h : n.At path m) (place : Location) :
    ∃ loc, (m, loc) ∈ n.visits place ∧
      loc.cursor.components = place.cursor.components ++ path := by
  induction path generalizing n place with
  | nil =>
    cases h
    exact ⟨place, by rw [visits_eq]; exact List.mem_cons_self, (List.append_nil _).symm⟩
  | cons d path ih =>
    obtain ⟨child, hd, hat⟩ := at_cons_iff.mp h
    obtain ⟨start, hchild, hstart⟩ := exists_mem_placedChildren_of_at hd place
    obtain ⟨loc, hmem, hcursor⟩ := ih hat start
    rw [hstart, List.append_assoc] at hcursor
    refine ⟨loc, ?_, hcursor⟩
    rw [visits_eq]
    exact List.mem_cons_of_mem _ (List.mem_flatMap.mpr ⟨(child, start), hchild, hmem⟩)

/-! ## Document order -/

/-- The first of two visits below a place is before the second one in document order. -/
def VisitedBefore (n : Node) (place : Location) (v w : Node × Location) : Prop :=
  ∃ path path', v.2.cursor.components = place.cursor.components ++ path ∧
    w.2.cursor.components = place.cursor.components ++ path' ∧ n.Before path path'

theorem exists_leads_of_mem_visits (hwf : n.WellFormed) {v : Node × Location}
    (h : v ∈ n.visits place) : ∃ path spot,
      v.2.cursor.components = place.cursor.components ++ path ∧ n.Leads path spot v.1 := by
  obtain ⟨path, hpath, hat⟩ := at_of_mem_visits hwf h
  obtain ⟨spot, hleads⟩ := exists_leads_of_resolve hat.resolve
  exact ⟨path, spot, hpath, hleads⟩

/-- **The nodes of a tree are visited in document order.** -/
theorem pairwise_visits (n : Node) (place : Location) : n.WellFormed →
    (n.visits place).Pairwise (n.VisitedBefore place) := by
  induction n, place using placed_induction with
  | node n place ih =>
    intro hwf
    have hchild : ∀ c ∈ n.placedChildren place, ∃ i d, n.Finds d i c.1 ∧
        c.2.cursor.components = place.cursor.components ++ [d] := by
      intro c hc
      obtain ⟨i, hi⟩ := List.getElem?_of_mem hc
      obtain ⟨d, hd, hplace⟩ := getElem?_placedChildren hi
      exact ⟨i, d, finds_of_numbered? hwf hd, hplace⟩
    rw [visits_eq, List.pairwise_cons, List.pairwise_flatMap]
    refine ⟨fun v hv => ?_, fun c hc => ?_, ?_⟩
    · -- a node comes before what is below it
      obtain ⟨c, hc, hv⟩ := List.mem_flatMap.mp hv
      obtain ⟨i, d, hfinds, hplace⟩ := hchild c hc
      obtain ⟨path, spot, hpath, hleads⟩ :=
        exists_leads_of_mem_visits (hfinds.wellFormed hwf) hv
      rw [hplace, List.append_assoc] at hpath
      exact ⟨[], d :: path, (List.append_nil _).symm, hpath,
        [], i :: spot, n, v.1, .here n, .step hfinds hleads, .nil⟩
    · -- below one child
      obtain ⟨i, d, hfinds, hplace⟩ := hchild c hc
      refine (ih c hc (hfinds.wellFormed hwf)).imp fun {v w} h => ?_
      obtain ⟨path, path', hpath, hpath', hbefore⟩ := h
      rw [hplace, List.append_assoc] at hpath hpath'
      exact ⟨d :: path, d :: path', hpath, hpath', before_cons hfinds hbefore⟩
    · -- below different children
      refine (pairwise_placedChildren hwf place).imp fun {a b} hab v hv w hw => ?_
      obtain ⟨i, j, d, e, hij, hfinds, hfinds', hplace, hplace'⟩ := hab
      obtain ⟨path, spot, hpath, hleads⟩ :=
        exists_leads_of_mem_visits (hfinds.wellFormed hwf) hv
      obtain ⟨path', spot', hpath', hleads'⟩ :=
        exists_leads_of_mem_visits (hfinds'.wellFormed hwf) hw
      rw [hplace, List.append_assoc] at hpath
      rw [hplace', List.append_assoc] at hpath'
      exact ⟨d :: path, e :: path', hpath, hpath', i :: spot, j :: spot', v.1, w.1,
        .step hfinds hleads, .step hfinds' hleads', .rel hij⟩

/-! ## Call sites and positions -/

theorem mem_callSites {tree : Node} {site : CallSite} :
    site ∈ tree.callSites ↔
      ∃ n, (n, site.place) ∈ tree.visits .root ∧ n.call? = some site.call := by
  rw [callSites, List.mem_filterMap]
  constructor
  · rintro ⟨⟨n, place⟩, hmem, hsite⟩
    obtain ⟨call, hcall, rfl⟩ := Option.map_eq_some_iff.mp hsite
    exact ⟨n, hmem, hcall⟩
  · rintro ⟨n, hmem, hcall⟩
    exact ⟨(n, site.place), hmem, by simp [CallSite.ofVisit?, hcall]⟩

theorem call?_eq_some {n : Node} {call : Call} (h : n.call? = some call) :
    ∃ text, n = .string text ∧ Call.parse? text = some call := by
  obtain ⟨text, htext, hparse⟩ := Option.bind_eq_some_iff.mp h
  cases n with
  | scalar s =>
    cases s with
    | string t =>
      cases htext
      exact ⟨text, rfl, hparse⟩
    | _ => cases htext
  | _ => cases htext

/-- A call that was found stands at its position. -/
theorem exists_at_of_mem_callSites {tree : Node} (hwf : tree.WellFormed) {site : CallSite}
    (h : site ∈ tree.callSites) :
    ∃ n, tree.At site.place.cursor.components n ∧ n.call? = some site.call := by
  obtain ⟨n, hmem, hcall⟩ := mem_callSites.mp h
  obtain ⟨path, hpath, hat⟩ := at_of_mem_visits hwf hmem
  rw [show site.place.cursor.components = path from hpath]
  exact ⟨n, hat, hcall⟩

theorem at_of_mem_callSites {tree : Node} (hwf : tree.WellFormed) {site : CallSite}
    (h : site ∈ tree.callSites) : ∃ text, tree.At site.place.cursor.components (.string text) ∧
      Call.parse? text = some site.call := by
  obtain ⟨n, hat, hcall⟩ := exists_at_of_mem_callSites hwf h
  obtain ⟨text, rfl, hparse⟩ := call?_eq_some hcall
  exact ⟨text, hat, hparse⟩

/-- A call at a position is found. -/
theorem exists_callSite {tree : Node} {path : List String} {text : String} {call : Call}
    (hat : tree.At path (.string text)) (hparse : Call.parse? text = some call) :
    ∃ site ∈ tree.callSites, site.call = call ∧ site.place.cursor = ⟨path⟩ := by
  obtain ⟨loc, hmem, hcursor⟩ := mem_visits_of_at hat .root
  refine ⟨⟨loc, call⟩, mem_callSites.mpr ⟨_, hmem, ?_⟩, rfl, ?_⟩
  · simpa [call?, string?] using hparse
  · exact congrArg Cursor.mk hcursor

/-- Call sites are listed in document order. -/
theorem pairwise_callSites {tree : Node} (hwf : tree.WellFormed) :
    tree.callSites.Pairwise fun a b =>
      tree.Before a.place.cursor.components b.place.cursor.components := by
  refine (pairwise_visits tree .root hwf).filterMap _ fun v w h a ha b hb => ?_
  obtain ⟨call, -, rfl⟩ := Option.map_eq_some_iff.mp ha
  obtain ⟨call', -, rfl⟩ := Option.map_eq_some_iff.mp hb
  obtain ⟨path, path', hpath, hpath', hbefore⟩ := h
  show tree.Before v.2.cursor.components w.2.cursor.components
  rw [hpath, hpath']
  exact hbefore

/-- No two call sites are at the same cursor. -/
theorem nodup_callSites {tree : Node} (hwf : tree.WellFormed) :
    (tree.callSites.map fun site => site.place.cursor).Nodup := by
  refine List.pairwise_map.mpr ((pairwise_callSites hwf).imp fun {a b} h heq => ?_)
  rw [heq] at h
  exact before_irrefl hwf _ h

end Node

end Laminate
