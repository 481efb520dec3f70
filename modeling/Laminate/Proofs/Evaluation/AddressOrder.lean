import Laminate.Proofs.Evaluation.Addresses
import Laminate.Proofs.Evaluation.Commuting

/-!
# What calls for addresses wait for

A call to `static_ips` waits for the instance count of its job and for the network that the name of
its entry finds as the phase begins, besides what its arguments lead to, and for nothing else. Which
network it reads is decided only when it runs, by the names that stand in the tree then: that of the
entry, and those of the elements that are compared with it (`Node.Consults`). Where no call stands
in one of these names the network that is read is the one that is waited for, or has been put there
by a call that has run (`canonical_of_fill`). So all calls at what is read have run before, unless
one of them computes a name (`addresses_after_reads`).
-/

namespace Laminate

/-! ## Names on the way of a path -/

namespace Node

/-- The place is a name field of an element that is compared with a name on the way of a path. -/
inductive Consults : Node → List String → List String → Prop
  | here {items : List Node} {c field : String} {cs : List String} {i : Nat}
      (by_name : Numeral.index? c.toList = none)
      (others : ∀ item ∈ items.take i, item.isNamed c = false) (is_name : field ∈ nameFields) :
      Consults (.sequence items) (c :: cs) [Numeral.text i, field]
  | step {n child : Node} {c d : String} {cs place : List String}
      (found : n.step c = .ok (d, child)) (rest : Consults child cs place) :
      Consults n (c :: cs) (d :: place)

theorem isNamed_of_isScalar {item : Node} (h : item.isScalar = true) (name : String) :
    item.isNamed name = false := by
  cases item with
  | scalar s => rfl
  | _ => cases h

/-- What a component finds in the filling of a sequence it finds in the sequence, unless it finds
there what has been filled in. -/
theorem elementIndex?_of_fillItems {items : List Node} {c : String} {f : Filling} {i : Nat}
    (h : elementIndex? (fillItems items 0 f) c = some i)
    (hnames : ∀ place, ((sequence items).fill f).Consults [c] place → f place = none) :
    elementIndex? items c = some i ∨ (f [Numeral.text i]).isSome = true := by
  have hlt := elementIndex?_lt h
  rw [length_fillItems] at hlt
  have hget : ∀ j (hj : j < items.length), (fillItems items 0 f)[j]?
      = some (items[j].fill (f.below [Numeral.text j])) := fun j hj =>
    fillItems_found (List.getElem?_eq_getElem hj) f
  rcases (elementIndex?_eq_some_iff (hget i hlt)).mp h with hindex | ⟨hindex, hnamed, hothers⟩
  · exact Or.inl ((elementIndex?_eq_some_iff (List.getElem?_eq_getElem hlt)).mpr (Or.inl hindex))
  · -- the elements up to this one are compared with the name, so it stands in them or it does not
    have hsame : ∀ j (hj : j < items.length), j ≤ i → items[j].isScalar = false →
        (items[j].fill (f.below [Numeral.text j])).isNamed c = items[j].isNamed c := by
      intro j hj hle hscalar
      refine isNamed_fill (call?_of_not_scalar hscalar)
        (fun field hfield _ _ => Or.inr (hnames [Numeral.text j, field] ?_)) c
      refine .here hindex (fun item hitem => hothers item ?_) hfield
      exact (List.take_subset_take_left _ hle) hitem
    cases hscalar : items[i].isScalar with
    | true =>
      -- a scalar has no name, so it is a value that has been filled in that is found
      refine Or.inr (Option.isSome_iff_ne_none.mpr fun hnone => ?_)
      cases hitem : items[i] with
      | scalar s =>
        rw [hitem, fill_scalar, show f.below [Numeral.text i] [] = none from hnone] at hnamed
        split at hnamed <;> cases hnamed
      | _ =>
        rw [hitem] at hscalar
        cases hscalar
    | false =>
      refine Or.inl ((elementIndex?_eq_some_iff (List.getElem?_eq_getElem hlt)).mpr
        (Or.inr ⟨hindex, hsame i hlt (Nat.le_refl i) hscalar ▸ hnamed, fun other hother => ?_⟩))
      obtain ⟨j, hj, rfl⟩ := List.mem_take_iff_getElem.mp hother
      have hj' : j < i := Nat.lt_of_lt_of_le hj (Nat.min_le_left _ _)
      have hjlt := Nat.lt_trans hj' hlt
      cases hscalar_j : items[j].isScalar with
      | true => exact isNamed_of_isScalar hscalar_j c
      | false =>
        rw [← hsame j hjlt (Nat.le_of_lt hj') hscalar_j]
        refine hothers _ (List.mem_take_iff_getElem.mpr ⟨j, ?_, ?_⟩)
        · rw [length_fillItems]
          exact hj
        · exact (List.getElem_eq_iff _).mpr (hget j hjlt)

/-- **A path leads in the filling of a tree to what it leads to in the tree, unless it leads to
something that has been filled in, or below it, or a name on its way has been filled in.** -/
theorem canonical_of_fill : ∀ {n : Node} {path c : List String} {f : Filling},
    (n.fill f).canonical path = .ok c →
    (∀ place, (n.fill f).Consults path place → f place = none) →
    n.canonical path = .ok c ∨ ∃ place, place <+: c ∧ (f place).isSome = true
  | n, [], c, f, h, _ => by
    cases h
    exact Or.inl rfl
  | n, component :: path, c, f, h, hnames => by
    obtain ⟨d, child, rest, hstep, hrest, rfl⟩ := canonical_cons_ok.mp h
    cases n with
    | scalar s =>
      refine Or.inr ⟨[], List.nil_prefix, Option.isSome_iff_ne_none.mpr fun hnone => ?_⟩
      rw [fill_scalar, hnone] at hstep
      split at hstep <;> cases hstep
    | mapping es =>
      rcases step_cases hstep with ⟨es', heq, hget, rfl⟩ | ⟨_, _, heq, _⟩
      · cases heq
        rw [get?_fillEntries] at hget
        obtain ⟨child', hchild', rfl⟩ := Option.map_eq_some_iff.mp hget
        rcases canonical_of_fill hrest fun place hplace => hnames _ (.step hstep hplace) with
          hcanonical | ⟨place, hbegins, hfilled⟩
        · exact Or.inl (canonical_cons_ok.mpr
            ⟨d, child', rest, step_mapping hchild', hcanonical, rfl⟩)
        · exact Or.inr ⟨d :: place, List.cons_prefix_cons.mpr ⟨rfl, hbegins⟩, hfilled⟩
      · cases heq
    | sequence items =>
      rcases step_cases hstep with ⟨_, heq, _⟩ | ⟨items', i, heq, hi, hget, rfl⟩
      · cases heq
      · cases heq
        rw [getElem?_fillItems] at hget
        obtain ⟨child', hchild', rfl⟩ := Option.map_eq_some_iff.mp hget
        rw [Nat.zero_add] at hrest hstep
        have hindex := elementIndex?_of_fillItems hi fun place hplace => hnames place (by
          cases hplace with
          | here by_name others is_name => exact .here by_name others is_name
          | step _ rest => cases rest)
        rcases hindex with hindex | hfilled
        · rcases canonical_of_fill hrest fun place hplace => hnames _ (.step hstep hplace) with
            hcanonical | ⟨place, hbegins, hfilled⟩
          · exact Or.inl (canonical_cons_ok.mpr
              ⟨_, child', rest, step_sequence hindex hchild', hcanonical, rfl⟩)
          · exact Or.inr ⟨_ :: place, List.cons_prefix_cons.mpr ⟨rfl, hbegins⟩, hfilled⟩
        · exact Or.inr ⟨[Numeral.text i], List.cons_prefix_cons.mpr ⟨rfl, List.nil_prefix⟩, hfilled⟩

end Node

namespace Evaluation

open Operator

/-! ## Calls that have run -/

section Runs

variable {tree : Node} {calls done rest : List PlannedCall} {call other : PlannedCall}

/-- Calls fill in values in their places and nothing else, also if some of them have faults. -/
theorem exists_fill_runCalls (hwf : tree.WellFormed) (hfills : ∀ c ∈ calls, FillsIn tree c) :
    ∀ {state : Evaluation} {f : Filling}, state.tree = tree.fill f →
    ∃ g, (state.runCalls calls).2.tree = tree.fill g ∧
      ∀ path, (∀ c ∈ calls, c.site.place.cursor.components ≠ path) → g path = f path := by
  induction calls with
  | nil => exact fun hstate => ⟨_, hstate, fun _ _ => rfl⟩
  | cons call calls ih =>
    intro state f hstate
    obtain ⟨hcall, hcalls⟩ := List.forall_mem_cons.mp hfills
    obtain ⟨g, htree, hg⟩ := ih hcalls (runCall_eq_answer hwf hcall hstate).2
    refine ⟨g, htree, fun path hpath => ?_⟩
    obtain ⟨hne, hothers⟩ := List.forall_mem_cons.mp hpath
    rw [hg path hothers, Filling.answer_of_ne (Ne.symm hne)]

/-- What a call waits for has run before it. -/
theorem mem_done_of_waitsFor (hordered : ordered calls = .ok (done ++ call :: rest))
    (hother : other ∈ calls) (hwaits : call.WaitsFor other) : other ∈ done := by
  have hmem := (perm_of_ordered hordered).mem_iff (a := other)
  have hlater := (List.pairwise_append.mp (pairwise_of_ordered hordered)).2.1
  rcases List.mem_append.mp (hmem.mpr hother) with hdone | hrest
  · exact hdone
  · rcases List.mem_cons.mp hrest with rfl | hrest
    · -- no call waits for itself
      obtain ⟨path, hpath, hbegins⟩ := hwaits
      obtain ⟨_, _, _, -, -, -, hself⟩ := exists_split hordered hother
      exact absurd hbegins (hself _ List.mem_cons_self path hpath)
    · exact absurd hwaits ((List.pairwise_cons.mp hlater).1 _ hrest)

end Runs

/-! ## Places that are read -/

/-- The places of the names that decide which network a call reads in a tree: that of its entry, and
those of the elements that are compared with it. -/
inductive NamesNetwork (tree : Node) (here : Cursor) : Cursor → Prop
  | entry : NamesNetwork tree here (here.parent.child "name")
  | element {network : String} {place : List String}
      (named : networkOf? tree here = some network)
      (consulted : tree.Consults (networkPath network).components place) :
      NamesNetwork tree here ⟨place⟩

/-- The places that a call to `static_ips` reads in a tree, those of its arguments apart. -/
inductive ReadsAt (tree : Node) (here : Cursor) (site : AddressSite) : Cursor → Prop
  | jobName {field : String} (is_name : field ∈ Node.nameFields) :
      ReadsAt tree here site (site.job.child field)
  | instances : ReadsAt tree here site (site.job.child "instances")
  | name {place : Cursor} (names : NamesNetwork tree here place) : ReadsAt tree here site place
  | network {network : String} {c place : List String}
      (named : networkOf? tree here = some network)
      (found : tree.canonical (networkPath network).components = .ok c) (within : c <+: place) :
      ReadsAt tree here site ⟨place⟩

/-- The network of a call is named as it was unless the name has been filled in. -/
theorem networkOf?_fill_of_unfilled {tree : Node} (hwf : tree.WellFormed) {site : CallSite}
    (hsite : site ∈ tree.callSites) (hne : site.place.cursor.components ≠ []) {f : Filling}
    (hname : f (site.place.cursor.parent.child "name").components = none) :
    ∃ entry, site.place.cursor.parent.resolve tree = .ok entry ∧
      networkOf? (tree.fill f) site.place.cursor
        = some (networkName entry site.place.cursor) := by
  obtain ⟨entry, hentry, hscalar⟩ := exists_entry hwf hsite hne
  have hnamed := Node.field?_fill (Node.call?_of_not_scalar hscalar)
    (f := f.below site.place.cursor.parent.components) fun _ _ => Or.inr hname
  refine ⟨entry, hentry.resolve, ?_⟩
  simp only [networkOf?, Cursor.resolve, (hentry.fill f).resolve, Except.toOption,
    Option.map_some, networkName, hnamed]

section Order

variable {entered : Evaluation} {done rest : List PlannedCall} {call other : PlannedCall}
  {site : AddressSite}

/-- No call of a plan stands below another one, and only one in each place. -/
theorem eq_of_beginning_place {tree : Node} (hwf : tree.WellFormed)
    (hcall : call ∈ (planFor .builtin .eval tree).calls)
    (hother : other ∈ (planFor .builtin .eval tree).calls)
    (h : call.site.place.cursor.components <+: other.site.place.cursor.components) :
    call = other := by
  obtain ⟨_, hat, -⟩ := Node.at_of_mem_callSites hwf (mem_planFor_calls.mp hcall).1
  obtain ⟨_, hat_other, -⟩ := Node.at_of_mem_callSites hwf (mem_planFor_calls.mp hother).1
  exact List.inj_on_of_nodup_map (nodup_planFor hwf) hcall hother
    (congrArg Cursor.mk (hat.eq_of_beginning_scalar hat_other h))

/-- What a call to `static_ips` waits for. -/
theorem waitsFor_address_iff {tree : Node} (hcall : call ∈ (planFor .builtin .eval tree).calls)
    (hname : call.site.call.name = "static_ips")
    (hsite : addressSite call.site.place.cursor = .ok site) (other : PlannedCall) :
    call.WaitsFor other ↔
      (site.job.child "instances").components <+: other.site.place.cursor.components ∨
      (networkDependency tree site.entry call.site.place.cursor).components
        <+: other.site.place.cursor.components ∨
      ∃ path, .reference path ∈ call.args ∧ ∃ beginning,
        existingBeginning? tree path = some beginning ∧
        beginning.components <+: other.site.place.cursor.components := by
  obtain ⟨hop, -, -, -, hdependencies⟩ := plannedCall?_eq_some.mp (mem_planFor_calls.mp hcall).2
  rw [hname] at hop
  have hdependencies' : call.dependencies = automaticDependencies tree call.args
      ++ [site.job.child "instances",
        networkDependency tree site.entry call.site.place.cursor] := by
    rw [hdependencies, ← Option.some.inj hop]
    simp only [staticAddresses, hsite]
  simp only [PlannedCall.WaitsFor, hdependencies', List.mem_append, List.mem_cons,
    List.not_mem_nil, or_false, mem_automaticDependencies]
  constructor
  · rintro ⟨path, ⟨reference, hreference, hbeginning⟩ | rfl | rfl, hbegins⟩
    · exact Or.inr (Or.inr ⟨reference, hreference, path, hbeginning, hbegins⟩)
    · exact Or.inl hbegins
    · exact Or.inr (Or.inl hbegins)
  · rintro (hbegins | hbegins | ⟨reference, hreference, path, hbeginning, hbegins⟩)
    · exact ⟨_, Or.inr (Or.inl rfl), hbegins⟩
    · exact ⟨_, Or.inr (Or.inr rfl), hbegins⟩
    · exact ⟨path, Or.inl ⟨reference, hreference, hbeginning⟩, hbegins⟩

/-- **If no other call computes a name by which the network is found, all calls at the network that
is read have run.** -/
theorem mem_done_of_network (hwf : entered.tree.WellFormed)
    (hordered : ordered (planFor .builtin .eval entered.tree).calls = .ok (done ++ call :: rest))
    (hname : call.site.call.name = "static_ips")
    (hsite : addressSite call.site.place.cursor = .ok site)
    (hnames : ∀ other ∈ (planFor .builtin .eval entered.tree).calls, other ≠ call →
      ¬NamesNetwork (entered.runCalls done).2.tree call.site.place.cursor other.site.place.cursor)
    {network : String} {c : List String}
    (hnamed : networkOf? (entered.runCalls done).2.tree call.site.place.cursor = some network)
    (hfound : (entered.runCalls done).2.tree.canonical (networkPath network).components = .ok c)
    (hother : other ∈ (planFor .builtin .eval entered.tree).calls)
    (hwithin : c <+: other.site.place.cursor.components) : other ∈ done := by
  have hplanned : ∀ c ∈ done ++ call :: rest, c ∈ (planFor .builtin .eval entered.tree).calls :=
    fun c hc => mem_of_ordered hordered hc
  have hcall := hplanned call (List.mem_append_right _ List.mem_cons_self)
  have hcalls : (planFor .builtin .eval entered.tree).calls.Nodup := (nodup_planFor hwf).of_map _
  have hrun := List.nodup_append.mp ((perm_of_ordered hordered).nodup_iff.mpr hcalls)
  -- the tree that the call reads is the first one with values in the places of calls that have run
  obtain ⟨f, hbefore, hf⟩ := exists_fill_runCalls hwf
    (fun c hc => fillsIn_of_mem hwf (hplanned c (List.mem_append_left _ hc)))
    (Node.fill_empty entered.tree).symm
  have hfilled : ∀ place, f place ≠ none → ∃ c ∈ done, c.site.place.cursor.components = place := by
    intro place hsome
    by_contra hnone
    exact hsome (hf place fun c hc heq => hnone ⟨c, hc, heq⟩)
  have hunfilled : ∀ place, NamesNetwork (entered.runCalls done).2.tree call.site.place.cursor
      ⟨place⟩ → f place = none := by
    intro place hplace
    by_contra hsome
    obtain ⟨c, hc, rfl⟩ := hfilled place hsome
    exact hnames c (hplanned c (List.mem_append_left _ hc))
      (hrun.2.2 c hc call List.mem_cons_self) hplace
  obtain ⟨hne, hentry_eq⟩ := addressSite_eq_ok hsite
  obtain ⟨hcall_site, -⟩ := mem_planFor_calls.mp hcall
  obtain ⟨entry, hentry, hnetwork⟩ :=
    networkOf?_fill_of_unfilled hwf hcall_site hne (hunfilled _ .entry)
  rw [← hbefore, hnamed] at hnetwork
  cases hnetwork
  rw [hbefore] at hfound
  rcases Node.canonical_of_fill hfound fun place hplace => hunfilled place
    (.element hnamed (hbefore ▸ hplace)) with hcanonical | ⟨place, hbegins, hsome⟩
  · -- the network that is read is the one that is waited for
    have hdependency : networkDependency entered.tree site.entry call.site.place.cursor = ⟨c⟩ := by
      simp only [networkDependency, hentry_eq, hentry, Cursor.canonical, hcanonical]
      rfl
    refine mem_done_of_waitsFor hordered hother
      ((waitsFor_address_iff hcall hname hsite other).mpr (Or.inr (Or.inl ?_)))
    rwa [hdependency]
  · -- the network has been filled in, and nothing else stands in its place
    obtain ⟨found, hfound_done, rfl⟩ := hfilled place (Option.isSome_iff_ne_none.mp hsome)
    have hfound_call := hplanned found (List.mem_append_left _ hfound_done)
    exact eq_of_beginning_place hwf hfound_call hother (hbegins.trans hwithin) ▸ hfound_done

/-- **Besides what its arguments lead to, a call to `static_ips` waits for the instance count of its
job and for the network that it finds as the phase begins, and for nothing else.** So all other
calls at what it reads when it runs come before it, apart from those in the name of its job, if no
call stands in a name by which its network is found. -/
theorem addresses_after_reads (hwf : entered.tree.WellFormed)
    (hordered : ordered (planFor .builtin .eval entered.tree).calls = .ok (done ++ call :: rest))
    (hname : call.site.call.name = "static_ips")
    (hsite : addressSite call.site.place.cursor = .ok site) :
    (∀ other ∈ (planFor .builtin .eval entered.tree).calls, call.WaitsFor other → other ∈ done) ∧
    (∀ other : PlannedCall, call.WaitsFor other ↔
      (site.job.child "instances").components <+: other.site.place.cursor.components ∨
      (networkDependency entered.tree site.entry call.site.place.cursor).components
        <+: other.site.place.cursor.components ∨
      ∃ path, .reference path ∈ call.args ∧ ∃ beginning,
        existingBeginning? entered.tree path = some beginning ∧
        beginning.components <+: other.site.place.cursor.components) ∧
    ((∀ other ∈ (planFor .builtin .eval entered.tree).calls, other ≠ call →
        ¬NamesNetwork (entered.runCalls done).2.tree call.site.place.cursor
          other.site.place.cursor) →
      ∀ other ∈ (planFor .builtin .eval entered.tree).calls, other ≠ call →
        ReadsAt (entered.runCalls done).2.tree call.site.place.cursor site
          other.site.place.cursor →
        (∀ field ∈ Node.nameFields, other.site.place.cursor ≠ site.job.child field) →
        other ∈ done) := by
  have hcall : call ∈ (planFor .builtin .eval entered.tree).calls :=
    mem_of_ordered hordered (List.mem_append_right _ List.mem_cons_self)
  refine ⟨fun other hother => mem_done_of_waitsFor hordered hother,
    waitsFor_address_iff hcall hname hsite, fun hnames other hother hne hreads hjob => ?_⟩
  generalize hplace : other.site.place.cursor = place at hreads hjob
  cases hreads with
  | jobName is_name => exact absurd rfl (hjob _ is_name)
  | instances =>
    exact mem_done_of_waitsFor hordered hother
      ((waitsFor_address_iff hcall hname hsite other).mpr (Or.inl (hplace ▸ List.prefix_rfl)))
  | name names => exact absurd (hplace ▸ names) (hnames other hother hne)
  | network named found within =>
    exact mem_done_of_network hwf hordered hname hsite hnames named found hother
      (hplace ▸ within)

end Order

/-! ## A job in a network -/

/-- A job with a network entry, and the network `default`. -/
def jobInNetwork (instances : Node) (entry : Entries Node) : Node :=
  .mapping
    [("jobs", .sequence [.mapping [("name", .string "web"),
      ("networks", .sequence [.mapping entry]), ("instances", instances)]]),
    ("count", .integer 1), ("net", .string "default"),
    ("networks", .sequence [.mapping [("name", .string "default"),
      ("subnets", .sequence [.mapping [("static", .string "10.0.0.5 - 10.0.0.6")]])]])]

/-- The call for the address of the job, whose entry has a name, with the network that it waits
for. -/
def jobAddressCall (entry : String) (network : List String) : PlannedCall where
  site := ⟨⟨⟨["jobs", "0", "networks", "0", "static_ips"]⟩,
    ⟨["jobs", "web", "networks", entry, "static_ips"]⟩⟩, ⟨"static_ips", "0"⟩⟩
  operator := staticAddresses
  args := [.literal (.integer 0)]
  dependencies := [⟨["jobs", "0", "instances"]⟩, ⟨network⟩]

/-- The site of the call for the address. -/
def jobAddressSite : AddressSite :=
  ⟨⟨["jobs", "0"]⟩, ⟨["jobs", "0", "networks", "0"]⟩⟩

/-- A job whose instances are counted by a call that is found after that for the addresses. -/
def countedInstances : Evaluation where
  tree := jobInNetwork (.string "(( grab count ))")
    [("name", .string "default"), ("static_ips", .string "(( static_ips 0 ))")]
  context := {}

/-- The call that counts the instances. -/
def countCall : PlannedCall where
  site := ⟨⟨⟨["jobs", "0", "instances"]⟩, ⟨["jobs", "web", "instances"]⟩⟩, ⟨"grab", "count"⟩⟩
  operator := .grab
  args := [.reference ⟨["count"]⟩]
  dependencies := [⟨["count"]⟩]

theorem addresses_after_counted_instances :
    (planFor .builtin .eval countedInstances.tree).calls
      = [jobAddressCall "default" ["networks", "0"], countCall] ∧
    ordered (planFor .builtin .eval countedInstances.tree).calls
      = .ok [countCall, jobAddressCall "default" ["networks", "0"]] ∧
    ∀ other ∈ (planFor .builtin .eval countedInstances.tree).calls,
      other ≠ jobAddressCall "default" ["networks", "0"] →
      ReadsAt (countedInstances.runCalls [countCall]).2.tree
        ⟨["jobs", "0", "networks", "0", "static_ips"]⟩ jobAddressSite
        other.site.place.cursor → other ∈ [countCall] := by
  have hwf : countedInstances.tree.WellFormed := by decide
  have hplan : (planFor .builtin .eval countedInstances.tree).calls
      = [jobAddressCall "default" ["networks", "0"], countCall] := rfl
  have hordered : ordered (planFor .builtin .eval countedInstances.tree).calls
      = .ok [countCall, jobAddressCall "default" ["networks", "0"]] := rfl
  have honly : ∀ other ∈ (planFor .builtin .eval countedInstances.tree).calls,
      other ≠ jobAddressCall "default" ["networks", "0"] → other = countCall := by
    intro other hother hne
    rw [hplan, List.mem_cons, List.mem_singleton] at hother
    exact hother.resolve_left hne
  have hparts : ordered (planFor .builtin .eval countedInstances.tree).calls
      = .ok ([countCall] ++ jobAddressCall "default" ["networks", "0"] :: []) := hordered
  refine ⟨hplan, hordered, fun other hother hne hreads =>
    (addresses_after_reads hwf hparts rfl rfl).2.2 ?_ other hother hne hreads ?_⟩
  · intro other hother hne hnames
    obtain rfl := honly other hother hne
    generalize hplace : countCall.site.place.cursor = place at hnames
    cases hnames with
    | entry => exact absurd hplace (by decide)
    | element named consulted =>
      cases hplace
      -- the way to the networks does not lead through the jobs
      cases consulted with
      | step found rest =>
        have hkey : some "networks" = some "jobs" :=
          congrArg (fun found => found.toOption.map Prod.fst) found
        exact absurd hkey (by decide)
  · obtain rfl := honly other hother hne
    decide

/-- A job in a network whose name is computed by a call that is found after that for the
addresses. -/
def computedNetwork : Evaluation where
  tree := jobInNetwork (.integer 1)
    [("static_ips", .string "(( static_ips 0 ))"), ("name", .string "(( grab net ))")]
  context := {}

/-- The call that computes the name of the network. -/
def networkNameCall : PlannedCall where
  site := ⟨⟨⟨["jobs", "0", "networks", "0", "name"]⟩,
    ⟨["jobs", "web", "networks", "(( grab net ))", "name"]⟩⟩, ⟨"grab", "net"⟩⟩
  operator := .grab
  args := [.reference ⟨["net"]⟩]
  dependencies := [⟨["net"]⟩]

/-- The call for the addresses runs first, and takes the text of the other call for the name of its
network. -/
theorem addresses_before_computed_network :
    ordered (planFor .builtin .eval computedNetwork.tree).calls
      = .ok [jobAddressCall "(( grab net ))" ["networks", "(( grab net ))"], networkNameCall] ∧
    addressSite ⟨["jobs", "0", "networks", "0", "static_ips"]⟩ = .ok jobAddressSite ∧
    ReadsAt computedNetwork.tree ⟨["jobs", "0", "networks", "0", "static_ips"]⟩ jobAddressSite
      networkNameCall.site.place.cursor ∧
    (computedNetwork.runPhase .builtin 32 .eval).1
      = .error (.several ⟨[.operator "$.jobs.web.networks.(( grab net )).static_ips"
          (.failed (.networkMissing "(( grab net ))"))]⟩) :=
  ⟨rfl, rfl, .name .entry, rfl⟩

end Evaluation

end Laminate
