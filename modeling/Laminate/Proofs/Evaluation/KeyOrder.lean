import Laminate.Proofs.Evaluation.Commuting
import Laminate.Proofs.Node.WellFormed

/-!
# Evaluation does not depend on the order of keys

Reordered trees have the same call sites (`callSites_perm`), since a place is a path and not a
position in the document, and each site is planned alike (`plannedCall?_eq`). So the two plans hold
the same calls in different orders, and the last phase runs them in different orders. On one tree
these come to the same (`runCalls_perm`), and in one order the two trees do (`runCalls_alike`).
-/

namespace Laminate

/-! ## Call sites -/

namespace Node.Reordered

theorem element_eq {item item' : Node} (h : item.Reordered item') (place : Location)
    (index : Nat) : place.element index item = place.element index item' := by
  rw [Location.element, Location.element, h.field?_eq]

/-- The call sites of corresponding items. -/
theorem sitesOfItems_perm {items items' : List Node}
    (ih : ∀ item ∈ items, ∀ item' place, item.Reordered item' →
      ((item.visits place).filterMap CallSite.ofVisit?).Perm
        ((item'.visits place).filterMap CallSite.ofVisit?))
    (pairs : List.Forall₂ Reordered items items') (place : Location) : ∀ index : Nat,
    ((visitsOfItems items index place).filterMap CallSite.ofVisit?).Perm
      ((visitsOfItems items' index place).filterMap CallSite.ofVisit?) := by
  induction pairs with
  | nil => exact fun _ => .refl _
  | cons hitem _ ihitems =>
    intro index
    obtain ⟨hfirst, hrest⟩ := List.forall_mem_cons.mp ih
    rw [visitsOfItems, visitsOfItems, List.filterMap_append, List.filterMap_append,
      hitem.element_eq]
    exact (hfirst _ _ hitem).append (ihitems hrest (index + 1))

theorem sites_perm (n : Node) : ∀ (n' : Node) (place : Location), n.Reordered n' →
    ((n.visits place).filterMap CallSite.ofVisit?).Perm
      ((n'.visits place).filterMap CallSite.ofVisit?) := by
  induction n using Node.induction with
  | scalar s =>
    rintro n' place ⟨⟩
    exact .refl _
  | sequence items ih =>
    rintro n' place ⟨⟩
    next items' pairs =>
    -- the list itself is no call
    exact sitesOfItems_perm ih pairs place 0
  | mapping es ih =>
    rintro n' place ⟨⟩
    next es' nodup keys_perm values =>
    show ((visitsOfEntries es place).filterMap CallSite.ofVisit?).Perm
      ((visitsOfEntries es' place).filterMap CallSite.ofVisit?)
    rw [visitsOfEntries_eq, visitsOfEntries_eq, List.filterMap_flatMap, List.filterMap_flatMap]
    refine Entries.flatMap_perm keys_perm nodup
      (f := fun key n => (n.visits (place.key key)).filterMap CallSite.ofVisit?)
      (g := fun key n => (n.visits (place.key key)).filterMap CallSite.ofVisit?)
      fun key m m' hm hm' => ?_
    exact ih _ (Entries.mem_of_get? hm) m' _ (values key m m' hm hm')

/-- **Reordered trees have the same call sites, in some order.** -/
theorem callSites_perm {n n' : Node} (h : n.Reordered n') : n.callSites.Perm n'.callSites :=
  sites_perm n n' .root h

end Node.Reordered

namespace Evaluation

/-! ## Plans -/

section Plans

variable {tree tree' : Node} {phase : Phase}

theorem automaticDependencies_eq (h : tree.Reordered tree') (args : List Argument) :
    automaticDependencies tree args = automaticDependencies tree' args := by
  simp only [automaticDependencies, existingBeginning?, Cursor.canonical,
    Node.Reordered.canonical_eq _ h]

/-- The operators other than `static_ips` get from the tree no dependencies but those of their
arguments. -/
theorem dependencies_eq {name : String} {op : Operator}
    (h : Registry.builtin.find? name = some op) (hname : name ≠ "static_ips") (here : Cursor)
    (tree tree' : Node) (args : List Argument) (automatic : List Cursor) :
    op.dependencies here tree args automatic = op.dependencies here tree' args automatic := by
  have hmem := Operator.mem_builtin_of_ne h hname
  simp only [List.mem_cons, List.not_mem_nil, or_false] at hmem
  rcases hmem with rfl | rfl | rfl | rfl | rfl | rfl | rfl <;> rfl

theorem plannedCall?_eq (h : tree.Reordered tree') {site : CallSite}
    (hname : site.call.name ≠ "static_ips") :
    plannedCall? .builtin phase tree site = plannedCall? .builtin phase tree' site := by
  unfold plannedCall?
  cases hop : Registry.builtin.find? site.call.name with
  | none => rfl
  | some op =>
    cases Argument.parseAll site.call.args with
    | error fault => rfl
    | ok args =>
      simp only [automaticDependencies_eq h, dependencies_eq hop hname _ tree tree']

theorem planFor_faults_perm (h : tree.Reordered tree') (registry : Registry) :
    (planFor registry phase tree).faults.Perm (planFor registry phase tree').faults := by
  rw [planFor, planFor, ofSites_faults, ofSites_faults]
  exact h.callSites_perm.filterMap _

theorem planFor_calls_perm_of_eq (h : tree.Reordered tree')
    (heq : ∀ site ∈ tree.callSites,
      plannedCall? .builtin phase tree site = plannedCall? .builtin phase tree' site) :
    (planFor .builtin phase tree).calls.Perm (planFor .builtin phase tree').calls := by
  rw [planFor, planFor, ofSites_calls, ofSites_calls, List.filterMap_congr heq]
  exact h.callSites_perm.filterMap _

/-- **The plans for reordered trees hold the same calls, in some order.** -/
theorem planFor_calls_perm (h : tree.Reordered tree')
    (hname : ∀ site ∈ tree.callSites, site.call.name ≠ "static_ips") :
    (planFor .builtin phase tree).calls.Perm (planFor .builtin phase tree').calls :=
  planFor_calls_perm_of_eq h fun site hsite => plannedCall?_eq h (hname site hsite)

end Plans

/-! ## The last phase -/

/-- Trees in which no call gives out addresses, none refers to the root, and none is an element of a
list or stands in a name field of one. -/
structure OrderFree (tree : Node) : Prop where
  names : ∀ site ∈ tree.callSites, site.call.name ≠ "static_ips"
  below_root : ∀ site ∈ tree.callSites, ∀ args, Argument.parseAll site.call.args = .ok args →
    .reference .root ∉ args
  firm : tree.FirmElements

theorem attentive_of_mem {tree : Node} (hwf : tree.WellFormed) (hfree : OrderFree tree)
    {call : PlannedCall} (h : call ∈ (planFor .builtin .eval tree).calls) :
    Attentive tree call := by
  obtain ⟨hsite, hcall⟩ := mem_planFor_calls.mp h
  obtain ⟨hop, hphase, hargs, -, hdependencies⟩ := plannedCall?_eq_some.mp hcall
  obtain ⟨halike, hmarks⟩ :=
    Operator.answersAlike_and_marks_of_eval hop hphase (hfree.names _ hsite)
  have hparam : call.site.call.name ≠ "param" := by
    intro heq
    rw [heq] at hop
    have hparam : Operator.param = call.operator := Option.some.inj hop
    rw [← hparam] at hphase
    cases hphase
  refine ⟨fillsIn_of_mem hwf h, ⟨halike, hmarks⟩, hfree.below_root _ hsite _ hargs, ?_⟩
  rw [hdependencies]
  exact automatic_subset_dependencies hop hparam _ _ _

/-- Runs of the calls of reordered trees, each in an order of its own, come to the same. -/
theorem runCalls_reordered {tree tree' : Node} (hwf : tree.WellFormed) (hfree : OrderFree tree)
    (h : tree.Reordered tree') {context : Context} (hstore : context.StoreByPath)
    {inOrder inOrder' : List PlannedCall}
    (hordered : ordered (planFor .builtin .eval tree).calls = .ok inOrder)
    (hordered' : ordered (planFor .builtin .eval tree').calls = .ok inOrder')
    (hperm : inOrder.Perm inOrder') :
    RunsAlike Node.Reordered ((⟨tree, context⟩ : Evaluation).runCalls inOrder)
      ((⟨tree', context⟩ : Evaluation).runCalls inOrder') := by
  have hplaces : ((planFor .builtin .eval tree).calls.map fun c => c.site.place.cursor).Nodup :=
    nodup_planFor hwf
  have hcalls : ∀ call ∈ inOrder, Attentive tree call := fun call hcall =>
    attentive_of_mem hwf hfree (mem_of_ordered hordered hcall)
  have hsorted := ((perm_of_ordered hordered).map _).nodup_iff.mpr hplaces
  -- first the order is changed, and then the tree
  have horder : RunsAlike Eq ((⟨tree, context⟩ : Evaluation).runCalls inOrder)
      ((⟨tree, context⟩ : Evaluation).runCalls inOrder') :=
    runCalls_perm hwf hfree.firm hcalls hsorted (pairwise_of_ordered hordered) hperm
      (pairwise_of_ordered hordered') (Node.fill_empty tree).symm hstore
  have htree : RunsAlike Node.Reordered ((⟨tree, context⟩ : Evaluation).runCalls inOrder')
      ((⟨tree', context⟩ : Evaluation).runCalls inOrder') :=
    runCalls_alike .reordered (fun call hcall => (hcalls call (hperm.mem_iff.mpr hcall)).toRegular)
      hstore ⟨h, .refl _, fun _ => .rfl⟩
  exact horder.trans htree

/-- **The last phase does not depend on the order of keys: on reordered trees it succeeds on both or
fails on both with the same message, and it leaves trees that are the same and the same paths
marked.** -/
theorem runPhase_reordered {tree tree' : Node} (hwf : tree.WellFormed) (hfree : OrderFree tree)
    (h : tree.Reordered tree') {context : Context} (hstore : context.StoreByPath) (budget : Nat) :
    ResultsAgree (fun failure failure' => failure.message = failure'.message) Eq
      (runPhase .builtin budget .eval ⟨tree, context⟩).1
      (runPhase .builtin budget .eval ⟨tree', context⟩).1 ∧
    (runPhase .builtin budget .eval ⟨tree, context⟩).2.tree.same
      (runPhase .builtin budget .eval ⟨tree', context⟩).2.tree = true ∧
    ∀ path, path ∈ (runPhase .builtin budget .eval ⟨tree, context⟩).2.context.prune ↔
      path ∈ (runPhase .builtin budget .eval ⟨tree', context⟩).2.context.prune := by
  cases budget with
  | zero =>
    rw [runPhase_zero, runPhase_zero]
    exact ⟨.error rfl, h.same, fun _ => .rfl⟩
  | succ budget =>
    have hplaces : ((planFor .builtin .eval tree).calls.map fun c => c.site.place.cursor).Nodup :=
      nodup_planFor hwf
    have hordered := ordered_agree (planFor_calls_perm h hfree.names) hplaces.of_map
    rw [runPhase_succ, runPhase_succ]
    dsimp only
    generalize hinOrder : ordered (planFor .builtin .eval tree).calls = x at hordered ⊢
    generalize hinOrder' : ordered (planFor .builtin .eval tree').calls = y at hordered ⊢
    cases hordered with
    | error heq => exact ⟨.error (by rw [heq]), h.same, fun _ => .rfl⟩
    | ok hperm =>
      have hrun := runCalls_reordered hwf hfree h hstore hinOrder hinOrder' hperm
      refine ⟨Faults.toExcept_agree ?_ rfl, hrun.state.tree.same, hrun.state.prune⟩
      exact (planFor_faults_perm h _).append hrun.faults

/-- Calls that wait for each other over an element of a list that is addressed by its name. -/
def orderedCalls : Node :=
  .mapping [("a", .string "(( grab list.x.v ))"), ("b", .string "(( concat a \"-\" list.x.name ))"),
    ("c", .string "(( prune ))"),
    ("list", .sequence [.mapping [("name", .string "x"), ("v", .string "(( vault \"p:k\" ))")]])]

/-- The same calls under keys in another order. -/
def reorderedCalls : Node :=
  .mapping [("list", .sequence [.mapping [("v", .string "(( vault \"p:k\" ))"),
      ("name", .string "x")]]), ("c", .string "(( prune ))"),
    ("b", .string "(( concat a \"-\" list.x.name ))"), ("a", .string "(( grab list.x.v ))")]

/-- A context with a store of one secret. -/
def oneSecret : Context where
  store := some (.ofEntries [("p", [("k", "s")])])

theorem runPhase_reordered_calls :
    ResultsAgree (fun failure failure' => failure.message = failure'.message) Eq
      (runPhase .builtin 32 .eval ⟨orderedCalls, oneSecret⟩).1
      (runPhase .builtin 32 .eval ⟨reorderedCalls, oneSecret⟩).1 ∧
    (runPhase .builtin 32 .eval ⟨orderedCalls, oneSecret⟩).2.tree.same
      (runPhase .builtin 32 .eval ⟨reorderedCalls, oneSecret⟩).2.tree = true ∧
    ∀ path, path ∈ (runPhase .builtin 32 .eval ⟨orderedCalls, oneSecret⟩).2.context.prune ↔
      path ∈ (runPhase .builtin 32 .eval ⟨reorderedCalls, oneSecret⟩).2.context.prune := by
  have hsites : orderedCalls.callSites =
      [siteAtKey "a" "grab" "list.x.v", siteAtKey "b" "concat" "a \"-\" list.x.name",
        siteAtKey "c" "prune" "",
        ⟨⟨⟨["list", "0", "v"]⟩, ⟨["list", "x", "v"]⟩⟩, ⟨"vault", "\"p:k\""⟩⟩] := rfl
  have hfree : OrderFree orderedCalls := by
    refine ⟨?_, ?_, ?_⟩
    · rw [hsites]
      decide
    · have hgrab : Argument.parseAll "list.x.v" = .ok [.reference ⟨["list", "x", "v"]⟩] := rfl
      have hconcat : Argument.parseAll "a \"-\" list.x.name" = .ok [.reference ⟨["a"]⟩,
        .literal (.string "-"), .reference ⟨["list", "x", "name"]⟩] := rfl
      have hprune : Argument.parseAll "" = .ok [] := rfl
      have hvault : Argument.parseAll "\"p:k\"" = .ok [.literal (.string "p:k")] := rfl
      rw [hsites]
      intro site hsite args hargs
      simp only [List.mem_cons, List.not_mem_nil, or_false] at hsite
      rcases hsite with rfl | rfl | rfl | rfl
      · cases hgrab.symm.trans hargs
        decide
      · cases hconcat.symm.trans hargs
        decide
      · cases hprune.symm.trans hargs
        decide
      · cases hvault.symm.trans hargs
        decide
    · have hitem : ∀ item ∈ [Node.mapping [("name", .string "x"),
          ("v", .string "(( vault \"p:k\" ))")]], item.Firm ∧ item.FirmElements := by
        refine List.forall_mem_singleton.mpr ⟨⟨rfl, fun field hfield n hget => ?_⟩, .mapping ?_⟩
        · simp only [Node.nameFields, List.mem_cons, List.not_mem_nil, or_false] at hfield
          rcases hfield with rfl | rfl | rfl <;> cases hget
          rfl
        · exact List.forall_mem_cons.mpr ⟨.scalar _, List.forall_mem_singleton.mpr (.scalar _)⟩
      refine .mapping (List.forall_mem_cons.mpr ⟨.scalar _, List.forall_mem_cons.mpr ⟨.scalar _,
        List.forall_mem_cons.mpr ⟨.scalar _, List.forall_mem_singleton.mpr ?_⟩⟩⟩)
      exact .sequence (fun item h => (hitem item h).1) fun item h => (hitem item h).2
  have hreordered : orderedCalls.Reordered reorderedCalls :=
    (Node.reordered_iff_same (by decide) (by decide)).mpr rfl
  refine runPhase_reordered (by decide) hfree hreordered (fun store hstore => ?_) 32
  cases hstore
  exact fun _ _ _ => rfl

end Evaluation

end Laminate
