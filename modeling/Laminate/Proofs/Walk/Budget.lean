import Laminate.Proofs.Cursor.Writing
import Laminate.Proofs.Walk.Steps
import Laminate.Walk.Visitors
import Mathlib.Data.List.Perm.Basic

/-!
# What the budget of a walk does

The budget of a walk cuts branches off and does nothing else. To say so, the nodes that a walk comes
to are told apart by the number of replacements made on their branch, and no budget is mentioned:
`reached` are those with none, and `generation k` are the replacements that are the `k`-th on
theirs. A walk with a budget of `b` visits what is reached after fewer than `b` replacements, each
node as often as it is reached, and ends with a fault at the members of generation `b`
(`log_walk_perm`). If there are none, no larger budget makes a difference
(`walk_eq_of_generation_eq_nil`).

A walk comes to an end because each of its calls is for a child of a node that is left, or has a
smaller budget (`wellFounded_calls`).
-/

namespace Laminate

namespace Node

variable {n m : Node} {place : Location} {f : Node → Location → Node}

theorem mapChildren_shape (f : Node → Location → Node) (n : Node) (place : Location) :
    n.mapChildren f place = n ∨ n.SameShape (n.mapChildren f place) := by
  cases n with
  | scalar s => exact .inl rfl
  | sequence items => exact .inr (.sequence (by simp))
  | mapping es => exact .inr (.mapping (by simp [Entries.keys]))

/-- What stands below a changed node stands below one of its children. -/
theorem exists_of_at_mapChildren {d : String} {path : List String}
    (h : (n.mapChildren f place).At (d :: path) m) :
    ∃ c ∈ n.placedChildren place,
      c.2.cursor.components = place.cursor.components ++ [d] ∧ (f c.1 c.2).At path m := by
  cases n with
  | scalar s => cases h
  | sequence items =>
    cases h with
    | @item _ i child _ _ bound found rest =>
      rw [List.getElem?_map, List.getElem?_zipIdx, Option.map_map] at found
      obtain ⟨item, hitem, rfl⟩ := Option.map_eq_some_iff.mp found
      refine ⟨(item, place.element i item), ?_, rfl, by simpa using rest⟩
      exact List.mem_map.mpr ⟨(item, i), List.mem_zipIdx_iff_getElem?.mpr hitem, rfl⟩
  | mapping es =>
    cases h with
    | key found rest =>
      obtain ⟨e, he, heq⟩ := List.mem_map.mp (Entries.mem_of_get? found)
      cases heq
      exact ⟨(e.2, place.key e.1), List.mem_map_of_mem he, rfl, rest⟩

end Node

namespace Walk

/-! ## Generations -/

mutual

/-- The nodes of a tree at a place that a walk comes to before anything is replaced on their branch,
in document order, with their places. -/
def reached (visit : Visitor) : Node → Location → List (Node × Location)
  | .scalar s => fun place => [(.scalar s, place)]
  | .sequence items => fun place => (.sequence items, place) ::
    match visit (.sequence items) place with
    | .ignore => reachedItems visit items 0 place
    | _ => []
  | .mapping es => fun place => (.mapping es, place) ::
    match visit (.mapping es) place with
    | .ignore => reachedEntries visit es place
    | _ => []
termination_by structural n => n

/-- What a walk comes to in the items of a sequence from an index on. -/
def reachedItems (visit : Visitor) : List Node → Nat → Location → List (Node × Location)
  | [] => fun _ _ => []
  | item :: items => fun index place =>
    reached visit item (place.element index item) ++ reachedItems visit items (index + 1) place
termination_by structural items => items

/-- What a walk comes to in the values of a mapping. -/
def reachedEntries (visit : Visitor) : List (String × Node) → Location → List (Node × Location)
  | [] => fun _ => []
  | (key, n) :: es => fun place =>
    reached visit n (place.key key) ++ reachedEntries visit es place
termination_by structural es => es

end

/-- The replacement of a visited node, in its place. -/
def replacement? (visit : Visitor) (v : Node × Location) : Option (Node × Location) :=
  match visit v.1 v.2 with
  | .replace replacement => some (replacement, v.2)
  | _ => none

/-- The replacements that are the first on their branch. -/
def replacements (visit : Visitor) (n : Node) (place : Location) : List (Node × Location) :=
  (reached visit n place).filterMap (replacement? visit)

/-- The replacements that are the `k`-th on their branch; before any there is the tree itself. -/
def generation (visit : Visitor) : Nat → Node → Location → List (Node × Location)
  | 0, n, place => [(n, place)]
  | k + 1, n, place => (replacements visit n place).flatMap fun r => generation visit k r.1 r.2

/-- The nodes that a walk comes to with `k` replacements made on their branch. -/
def reachedAfter (visit : Visitor) (k : Nat) (n : Node) (place : Location) :
    List (Node × Location) :=
  (generation visit k n place).flatMap fun r => reached visit r.1 r.2

/-- The faults with which a visitor gives up the branch of a node. -/
def ownFaults (visit : Visitor) (v : Node × Location) : List Fault :=
  match visit v.1 v.2 with
  | .fail failure => failure.faults
  | _ => []

/-- The fault of a branch whose budget is used up. -/
def exhausted (place : Location) : Fault :=
  .cycle place.path .budgetExhausted

/-- The node at a path of what a walk with a budget makes of `n` lies below `k` replacements: its
branch ends in this node, which was left; or in a node at which the visitor gave the branch up; or
in the replacement with which the budget was used up. In the last two cases the node may lie
somewhere below the end of the branch. -/
inductive LiesBelow (visit : Visitor) (budget : Nat) (n : Node) (start : Location) :
    Nat → List String → Node → Prop
  | left {k : Nat} {m m' : Node} {place : Location}
      (reached : (m, place) ∈ reachedAfter visit k n start)
      (answer : visit m place = .ignore) (shape : m' = m ∨ m.SameShape m') :
      LiesBelow visit budget n start k place.cursor.components m'
  | failed {k : Nat} {m m' : Node} {place : Location} {failure : Failure} {rest : List String}
      (reached : (m, place) ∈ reachedAfter visit k n start)
      (answer : visit m place = .fail failure) (below : m.At rest m') :
      LiesBelow visit budget n start k (place.cursor.components ++ rest) m'
  | exhausted {m m' : Node} {place : Location} {rest : List String}
      (put : (m, place) ∈ generation visit budget n start) (below : m.At rest m') :
      LiesBelow visit budget n start budget (place.cursor.components ++ rest) m'

/-- The calls that the call of a walk for a node, a place and a budget leads to: one for each child
of a node that is left, and one with a smaller budget for a replacement. -/
inductive Calls (visit : Visitor) :
    (Node × Location) × Nat → (Node × Location) × Nat → Prop
  | child {n : Node} {place : Location} {budget : Nat} {c : Node × Location}
      (answer : visit n place = .ignore) (mem : c ∈ n.placedChildren place) :
      Calls visit (c, budget + 1) ((n, place), budget + 1)
  | again {n replacement : Node} {place : Location} {budget : Nat}
      (answer : visit n place = .replace replacement) :
      Calls visit ((replacement, place), budget) ((n, place), budget + 1)

variable {visit : Visitor} {n : Node} {place : Location}

/-! ## One generation -/

theorem reachedItems_eq (items : List Node) (place : Location) : ∀ index : Nat,
    reachedItems visit items index place =
      (items.zipIdx index).flatMap fun p => reached visit p.1 (place.element p.2 p.1) := by
  induction items with
  | nil => exact fun _ => rfl
  | cons item items ih =>
    intro index
    simp only [reachedItems, ih, List.zipIdx_cons, List.flatMap_cons]

theorem reachedEntries_eq (es : Entries Node) (place : Location) :
    reachedEntries visit es place = es.flatMap fun e => reached visit e.2 (place.key e.1) := by
  induction es with
  | nil => rfl
  | cons e es ih => simp only [reachedEntries, ih, List.flatMap_cons]

theorem reached_of_ignore (h : visit n place = .ignore) :
    reached visit n place =
      (n, place) :: (n.placedChildren place).flatMap fun c => reached visit c.1 c.2 := by
  cases n with
  | scalar s => rfl
  | sequence items =>
    simp only [reached, h, reachedItems_eq, Node.placedChildren, List.flatMap_map]
  | mapping es => simp only [reached, h, reachedEntries_eq, Node.placedChildren, List.flatMap_map]

theorem reached_of_replace {replacement : Node} (h : visit n place = .replace replacement) :
    reached visit n place = [(n, place)] := by
  cases n <;> simp [reached, h]

theorem reached_of_fail {failure : Failure} (h : visit n place = .fail failure) :
    reached visit n place = [(n, place)] := by
  cases n <;> simp [reached, h]

theorem mem_reached (n : Node) (place : Location) : (n, place) ∈ reached visit n place := by
  cases n <;> simp [reached]

theorem replacements_of_ignore (h : visit n place = .ignore) :
    replacements visit n place =
      (n.placedChildren place).flatMap fun c => replacements visit c.1 c.2 := by
  simp only [replacements, reached_of_ignore h, List.filterMap_cons, replacement?, h,
    List.filterMap_flatMap]

theorem replacements_of_replace {replacement : Node} (h : visit n place = .replace replacement) :
    replacements visit n place = [(replacement, place)] := by
  simp only [replacements, reached_of_replace h, List.filterMap_cons, replacement?, h,
    List.filterMap_nil]

theorem replacements_of_fail {failure : Failure} (h : visit n place = .fail failure) :
    replacements visit n place = [] := by
  simp only [replacements, reached_of_fail h, List.filterMap_cons, replacement?, h,
    List.filterMap_nil]

/-- Walks go on alike if they treat the first replacements alike. -/
theorem walkNode_congr {again again' : Node → Location → Walked Node} (n : Node)
    (place : Location) (h : ∀ r ∈ replacements visit n place, again r.1 r.2 = again' r.1 r.2) :
    walkNode visit again n place = walkNode visit again' n place := by
  induction n, place using Node.placed_induction with
  | node n place ih =>
    cases hanswer : visit n place with
    | ignore =>
      rw [replacements_of_ignore hanswer] at h
      have hchild : ∀ c ∈ n.placedChildren place,
          walkNode visit again c.1 c.2 = walkNode visit again' c.1 c.2 := fun c hc =>
        ih c hc fun r hr => h r (List.mem_flatMap.mpr ⟨c, hc, hr⟩)
      have hvalue : n.mapChildren (fun m loc => (walkNode visit again m loc).value) place
          = n.mapChildren (fun m loc => (walkNode visit again' m loc).value) place :=
        Node.mapChildren_congr fun c hc => congrArg Logged.value (hchild c hc)
      rw [walkNode_of_ignore hanswer, walkNode_of_ignore hanswer, hvalue,
        List.flatMap_congr fun c hc => congrArg Logged.log (hchild c hc)]
    | replace replacement =>
      rw [replacements_of_replace hanswer] at h
      rw [walkNode_of_replace hanswer, walkNode_of_replace hanswer,
        h _ (List.mem_singleton_self _)]
    | fail failure => rw [walkNode_of_fail hanswer, walkNode_of_fail hanswer]

/-- **If no branch uses the budget up, a larger one makes no difference.** -/
theorem walk_eq_of_generation_eq_nil (more : Nat) : ∀ (budget : Nat) (n : Node) (place : Location),
    generation visit budget n place = [] →
    walk visit (budget + more) n place = walk visit budget n place := by
  intro budget
  induction budget with
  | zero => nofun
  | succ budget ih =>
    intro n place h
    rw [Nat.add_right_comm]
    exact walkNode_congr n place fun r hr => ih r.1 r.2 (List.flatMap_eq_nil_iff.mp h r hr)

/-! ## Notes -/

/-- The notes that a visited node leaves. -/
def ownNotes (visit : Visitor) (v : Node × Location) : List Note :=
  .visited v.1 v.2 :: match visit v.1 v.2 with
    | .fail failure => [.failed failure]
    | _ => []

theorem log_walkNode_perm {again : Node → Location → Walked Node} (n : Node) (place : Location) :
    (walkNode visit again n place).log.Perm
      ((reached visit n place).flatMap (ownNotes visit) ++
        (replacements visit n place).flatMap fun r => (again r.1 r.2).log) := by
  induction n, place using Node.placed_induction with
  | node n place ih =>
    cases hanswer : visit n place with
    | ignore =>
      have hown : ownNotes visit (n, place) = [.visited n place] := by
        simp only [ownNotes, hanswer]
      rw [walkNode_of_ignore hanswer, reached_of_ignore hanswer, replacements_of_ignore hanswer,
        List.flatMap_cons, hown, List.flatMap_assoc, List.flatMap_assoc]
      -- the notes of each child are parted in two, and then brought together over all children
      exact ((List.Perm.flatMap_left _ ih).trans
        (List.flatMap_append_perm _ _ _).symm).cons _
    | replace replacement =>
      rw [walkNode_of_replace hanswer, reached_of_replace hanswer, replacements_of_replace hanswer]
      simp [ownNotes, hanswer]
    | fail failure =>
      rw [walkNode_of_fail hanswer, reached_of_fail hanswer, replacements_of_fail hanswer]
      simp [ownNotes, hanswer]

theorem flatMap_flatMap_perm {α β γ : Type} (as : List α) (bs : List β) (f : α → β → List γ) :
    (as.flatMap fun a => bs.flatMap (f a)).Perm (bs.flatMap fun b => as.flatMap (f · b)) := by
  induction as with
  | nil => simp
  | cons a as ih =>
    simp only [List.flatMap_cons]
    exact (ih.append_left _).trans (List.flatMap_append_perm _ _ _)

theorem reachedAfter_zero (n : Node) (place : Location) :
    reachedAfter visit 0 n place = reached visit n place :=
  List.flatMap_singleton _ _

theorem reachedAfter_succ (k : Nat) (n : Node) (place : Location) :
    reachedAfter visit (k + 1) n place =
      (replacements visit n place).flatMap fun r => reachedAfter visit k r.1 r.2 := by
  simp only [reachedAfter, generation, List.flatMap_assoc]

/-- **A walk notes what it reaches with fewer replacements on the branch than the budget, and that
the budget is used up where there are as many.** -/
theorem log_walk_perm : ∀ (budget : Nat) (n : Node) (place : Location),
    (walk visit budget n place).log.Perm
      (((List.range budget).flatMap fun k => reachedAfter visit k n place).flatMap
          (ownNotes visit) ++
        (generation visit budget n place).map fun r => .failed (.single (exhausted r.2))) := by
  intro budget
  induction budget with
  | zero => exact fun _ _ => .refl _
  | succ budget ih =>
    intro n place
    refine (log_walkNode_perm n place).trans ?_
    rw [List.range_succ_eq_map, List.flatMap_cons, List.flatMap_map, reachedAfter_zero,
      List.flatMap_append, List.append_assoc, generation, List.map_flatMap]
    refine List.Perm.append_left _ ?_
    refine (List.Perm.flatMap_left _ fun r _ => ih r.1 r.2).trans ?_
    refine (List.flatMap_append_perm _ _ _).symm.trans (List.Perm.append_right _ ?_)
    -- over all first replacements, and then over the further ones, or the other way round
    simp only [Nat.succ_eq_add_one, reachedAfter_succ, List.flatMap_assoc]
    exact flatMap_flatMap_perm _ _ _

theorem visits_walk_perm (budget : Nat) (n : Node) (place : Location) :
    (walk visit budget n place).visits.Perm
      ((List.range budget).flatMap fun k => reachedAfter visit k n place) := by
  have hown : ∀ v, (ownNotes visit v).filterMap Note.visit? = [v] := by
    intro v
    unfold ownNotes
    split <;> rfl
  have hcut : ((generation visit budget n place).map fun r =>
      Note.failed (.single (exhausted r.2))).filterMap Note.visit? = [] := by
    simp [List.filterMap_map, Note.visit?]
  refine ((log_walk_perm budget n place).filterMap Note.visit?).trans ?_
  rw [List.filterMap_append, hcut, List.append_nil, List.filterMap_flatMap]
  simp only [hown, List.flatMap_singleton']
  exact .refl _

theorem faults_walk_perm (budget : Nat) (n : Node) (place : Location) :
    (walk visit budget n place).faults.toList.Perm
      ((walk visit budget n place).visits.flatMap (ownFaults visit) ++
        (generation visit budget n place).map fun r => exhausted r.2) := by
  have hown : ∀ v, (ownNotes visit v).flatMap Note.faults = ownFaults visit v := by
    intro v
    unfold ownNotes ownFaults
    cases visit v.1 v.2 <;> simp [Note.faults]
  refine ((log_walk_perm budget n place).flatMap fun _ _ => .refl _).trans ?_
  rw [List.flatMap_append, List.flatMap_assoc, List.flatMap_map, List.map_eq_flatMap]
  simp only [hown]
  exact ((visits_walk_perm budget n place).symm.flatMap fun _ _ => .refl _).append_right _

/-! ## Places in the result -/

section Children

variable {c : Node × Location} (h : visit n place = .ignore) (hc : c ∈ n.placedChildren place)
include h hc

theorem replacements_subset_of_child :
    replacements visit c.1 c.2 ⊆ replacements visit n place := by
  intro r hr
  rw [replacements_of_ignore h]
  exact List.mem_flatMap.mpr ⟨c, hc, hr⟩

theorem generation_subset_of_child (k : Nat) :
    generation visit (k + 1) c.1 c.2 ⊆ generation visit (k + 1) n place := by
  intro r hr
  obtain ⟨first, hfirst, hr⟩ := List.mem_flatMap.mp hr
  exact List.mem_flatMap.mpr ⟨first, replacements_subset_of_child h hc hfirst, hr⟩

theorem reachedAfter_subset_of_child (k : Nat) :
    reachedAfter visit k c.1 c.2 ⊆ reachedAfter visit k n place := by
  intro v hv
  cases k with
  | zero =>
    rw [reachedAfter_zero] at hv ⊢
    rw [reached_of_ignore h]
    exact List.mem_cons_of_mem _ (List.mem_flatMap.mpr ⟨c, hc, hv⟩)
  | succ k =>
    obtain ⟨r, hr, hv⟩ := List.mem_flatMap.mp hv
    exact List.mem_flatMap.mpr ⟨r, generation_subset_of_child h hc k hr, hv⟩

theorem LiesBelow.of_child {budget k : Nat} {path : List String} {m : Node}
    (hlies : LiesBelow visit (budget + 1) c.1 c.2 k path m) :
    LiesBelow visit (budget + 1) n place k path m := by
  cases hlies with
  | left reached answer shape =>
    exact .left (reachedAfter_subset_of_child h hc k reached) answer shape
  | failed reached answer below =>
    exact .failed (reachedAfter_subset_of_child h hc k reached) answer below
  | exhausted put below => exact .exhausted (generation_subset_of_child h hc budget put) below

end Children

theorem LiesBelow.of_replacement {replacement m : Node} {budget k : Nat} {path : List String}
    (h : visit n place = .replace replacement)
    (hlies : LiesBelow visit budget replacement place k path m) :
    LiesBelow visit (budget + 1) n place (k + 1) path m := by
  have hreached : reachedAfter visit (k + 1) n place = reachedAfter visit k replacement place := by
    rw [reachedAfter_succ, replacements_of_replace h, List.flatMap_singleton]
  have hput : generation visit (budget + 1) n place
      = generation visit budget replacement place := by
    rw [generation, replacements_of_replace h, List.flatMap_singleton]
  cases hlies with
  | left reached answer shape => exact .left (hreached ▸ reached) answer shape
  | failed reached answer below => exact .failed (hreached ▸ reached) answer below
  | exhausted put below => exact .exhausted (hput ▸ put) below

/-- **What stands in the result lies below no more replacements than the budget allows.** -/
theorem liesBelow_of_at : ∀ (budget : Nat) (n : Node) (place : Location) (path : List String)
    (m : Node), (walk visit budget n place).value.At path m →
    ∃ k ≤ budget, LiesBelow visit budget n place k (place.cursor.components ++ path) m := by
  intro budget
  induction budget with
  | zero =>
    intro n place path m h
    exact ⟨0, Nat.le_refl _, .exhausted (List.mem_singleton_self _) h⟩
  | succ budget ihbudget =>
    intro n place
    induction n, place using Node.placed_induction with
    | node n place ih =>
      intro path m h
      have hhere : (n, place) ∈ reachedAfter visit 0 n place := by
        rw [reachedAfter_zero]
        exact mem_reached n place
      cases hanswer : visit n place with
      | ignore =>
        simp only [walk, walkNode_of_ignore hanswer] at h
        cases path with
        | nil =>
          obtain rfl := h.unique (.here _)
          rw [List.append_nil]
          exact ⟨0, Nat.zero_le _, .left hhere hanswer (Node.mapChildren_shape _ n place)⟩
        | cons d path =>
          obtain ⟨c, hc, hcursor, hat⟩ := Node.exists_of_at_mapChildren h
          obtain ⟨k, hk, hlies⟩ := ih c hc path m hat
          rw [hcursor, List.append_assoc] at hlies
          exact ⟨k, hk, hlies.of_child hanswer hc⟩
      | replace replacement =>
        rw [walk, walkNode_of_replace hanswer] at h
        obtain ⟨k, hk, hlies⟩ := ihbudget replacement place path m h
        exact ⟨k + 1, Nat.succ_le_succ hk, hlies.of_replacement hanswer⟩
      | fail failure =>
        rw [walk, walkNode_of_fail hanswer] at h
        exact ⟨0, Nat.zero_le _, .failed hhere hanswer h⟩

/-! ## Termination -/

/-- **The calls of a walk come to an end, whatever the visitor answers.** -/
theorem wellFounded_calls (visit : Visitor) : WellFounded (Calls visit) := by
  have hacc : ∀ (budget : Nat) (n : Node) (place : Location),
      Acc (Calls visit) ((n, place), budget) := by
    intro budget
    induction budget with
    | zero => exact fun n place => ⟨_, nofun⟩
    | succ budget ihbudget =>
      intro n place
      induction n, place using Node.placed_induction with
      | node n place ih =>
        refine ⟨_, fun call hcall => ?_⟩
        cases hcall with
        | child answer mem => exact ih _ mem
        | again answer => exact ihbudget _ _
  exact ⟨fun call => hacc call.2 call.1.1 call.1.2⟩

/-- **The budget of a walk cuts branches off and does nothing else.** The walk comes to an end. It
visits what is reached with fewer replacements on the branch than the budget; besides the faults of
the visitor it records that the budget is used up, once for each branch on which as many were made;
and no node of the result lies below more. If there is no such branch, the walk with a larger budget
is the same: its result, its visits and its faults in their order. -/
theorem budget_only_cuts_off (visit : Visitor) (tree : Node) (budget : Nat) :
    WellFounded (Calls visit) ∧
    (tree.walk visit budget).visits.Perm
      ((List.range budget).flatMap fun k => reachedAfter visit k tree .root) ∧
    (tree.walk visit budget).faults.toList.Perm
      ((tree.walk visit budget).visits.flatMap (ownFaults visit) ++
        (generation visit budget tree .root).map fun r => exhausted r.2) ∧
    (∀ path m, (tree.walk visit budget).value.At path m →
      ∃ k ≤ budget, LiesBelow visit budget tree .root k path m) ∧
    (generation visit budget tree .root = [] → ∀ budget', budget ≤ budget' →
      tree.walk visit budget' = tree.walk visit budget) := by
  refine ⟨wellFounded_calls visit, visits_walk_perm budget tree .root,
    faults_walk_perm budget tree .root, liesBelow_of_at budget tree .root, ?_⟩
  intro hnone budget' hle
  obtain ⟨more, rfl⟩ := Nat.exists_eq_add_of_le hle
  exact walk_eq_of_generation_eq_nil more budget tree .root hnone

/-- Replaces a text by a list with two others, and each of them by null. -/
def splittingRules : List (Node × Action) :=
  [(.string "a", .replace (.sequence [.string "b", .string "b"])), (.string "b", .replace .null)]

theorem three_replacements_suffice :
    generation (.ofRules splittingRules) 3 (.string "a") .root = [] ∧
    ∀ budget, 3 ≤ budget → (Node.string "a").walk (.ofRules splittingRules) budget
      = (Node.string "a").walk (.ofRules splittingRules) 3 := by
  have hnone : generation (.ofRules splittingRules) 3 (.string "a") .root = [] := rfl
  exact ⟨hnone, (budget_only_cuts_off (.ofRules splittingRules) (.string "a") 3).2.2.2.2 hnone⟩

/-- With one replacement less two branches are cut off. -/
example : ((Node.string "a").walk (.ofRules splittingRules) 2).faults.toList
    = [exhausted ⟨⟨["0"]⟩, ⟨["0"]⟩⟩, exhausted ⟨⟨["1"]⟩, ⟨["1"]⟩⟩] := rfl

end Walk

end Laminate
