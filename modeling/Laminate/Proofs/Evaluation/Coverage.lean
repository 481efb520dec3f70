import Laminate.Proofs.Evaluation.CallRun

/-!
# What references wait for

A reference may lead to a value that is not there yet, because a call has to compute it or something
above it. A call therefore waits for the longest beginning of each of its references that leads
somewhere, the empty one apart (`LongestBeginning`, `ListsBeginnings`). No call is missed in this
way: one that stands at what a reference leads to, or below it, or in its way (`Needs`), stands
within that beginning, and so is scheduled first (`automatic_dependencies_cover`).
-/

namespace Laminate

/-- Whether the calls of an operator wait for all that their references lead to, whatever else they
wait for. -/
def Operator.KeepsAutomatic (op : Operator) : Prop :=
  ∀ here tree args automatic, automatic ⊆ op.dependencies here tree args automatic

namespace Node

variable {n m m' k : Node} {path place : List String} {spot spot' : Spot}

/-- What leads to a spot is, made canonical, a beginning of every position at or below this spot. -/
theorem exists_canonical_prefix (hwf : n.WellFormed) (h : n.Leads path spot m)
    (hplace : n.At place k) (hleads : n.Leads place spot' m') (hspot : spot <+: spot') :
    ∃ c, n.canonical path = .ok c ∧ c <+: place := by
  induction h generalizing place spot' with
  | here => exact ⟨[], rfl, List.nil_prefix⟩
  | step found rest ih =>
    obtain ⟨d, hstep, hnumbered, -⟩ := found.step hwf
    cases hleads with
    | here => exact absurd hspot (by simp)
    | step found' rest' =>
      obtain ⟨rfl, hbelow⟩ := List.cons_prefix_cons.mp hspot
      obtain ⟨child', hat, hrest⟩ := at_cons_iff.mp hplace
      obtain ⟨d', hstep', hnumbered', -⟩ := found'.step hwf
      -- the position goes on with the canonical component of the child
      rw [hat.step_eq] at hstep'
      cases hstep'
      rw [hnumbered] at hnumbered'
      cases hnumbered'
      obtain ⟨c, hc, hprefix⟩ := ih (hwf.step hstep) hrest rest' hbelow
      exact ⟨d :: c, canonical_cons_ok.mpr ⟨d, _, c, hstep, hc, rfl⟩,
        List.cons_prefix_cons.mpr ⟨rfl, hprefix⟩⟩

end Node

namespace Evaluation

variable {tree : Node} {path place c : Cursor} {registry : Registry} {phase : Phase}

/-- All built-in operators wait for what their references lead to, apart from that for values that
have to be set. -/
theorem keepsAutomatic_of_builtin {name : String} {op : Operator}
    (h : Registry.builtin.find? name = some op) (hname : name ≠ "param") : op.KeepsAutomatic :=
  fun here _ args automatic => automatic_subset_dependencies h hname here args automatic

/-! ## The longest beginning that leads somewhere -/

/-- The longest beginning of a path that has a canonical form, and this form. The empty beginning
does not count. -/
structure LongestBeginning (tree : Node) (path : Cursor) (beginning : List String) (c : Cursor) :
    Prop where
  nonempty : beginning ≠ []
  begins : beginning <+: path.components
  canonical : tree.canonical beginning = .ok c.components
  longest : ∀ longer, longer <+: path.components → beginning.length < longer.length →
    ∀ d, tree.canonical longer ≠ .ok d

/-- Whether not even the first component of a path leads anywhere. -/
def LeadsNowhere (tree : Node) (path : Cursor) : Prop :=
  ∀ beginning, beginning ≠ [] → beginning <+: path.components →
    ∀ d, tree.canonical beginning ≠ .ok d

/-- The list of what the references among arguments wait for: for each reference in order the
canonical form of its longest beginning, and nothing for one that leads nowhere at all. -/
inductive ListsBeginnings (tree : Node) : List Argument → List Cursor → Prop
  | nil : ListsBeginnings tree [] []
  | literal {value : Scalar} {args : List Argument} {cs : List Cursor}
      (rest : ListsBeginnings tree args cs) : ListsBeginnings tree (.literal value :: args) cs
  | reference {path : Cursor} {beginning : List String} {c : Cursor} {args : List Argument}
      {cs : List Cursor} (found : LongestBeginning tree path beginning c)
      (rest : ListsBeginnings tree args cs) :
      ListsBeginnings tree (.reference path :: args) (c :: cs)
  | nowhere {path : Cursor} {args : List Argument} {cs : List Cursor}
      (nothing : LeadsNowhere tree path) (rest : ListsBeginnings tree args cs) :
      ListsBeginnings tree (.reference path :: args) cs

/-- A path has at most one longest beginning. -/
theorem LongestBeginning.unique {beginning other : List String} {d : Cursor}
    (h : LongestBeginning tree path beginning c) (h' : LongestBeginning tree path other d) :
    c = d := by
  have hle : ∀ {p q : List String} {a b : Cursor}, LongestBeginning tree path p a →
      LongestBeginning tree path q b → q.length ≤ p.length := fun hp hq =>
    Nat.le_of_not_lt fun hlt => hp.longest _ hq.begins hlt _ hq.canonical
  have hprefix := List.prefix_of_prefix_length_le h.begins h'.begins (hle h' h)
  obtain rfl := hprefix.eq_of_length_le (hle h h')
  have heq := h.canonical.symm.trans h'.canonical
  cases c
  cases d
  exact congrArg Cursor.mk (Except.ok.inj heq)

theorem exists_longestBeginning (h : existingBeginning? tree path = some c) :
    ∃ beginning, LongestBeginning tree path beginning c := by
  obtain ⟨k, hpos, hle, hcanonical, hlonger⟩ := existingBeginning?_eq_some h
  have hlength : (path.components.take k).length = k := List.length_take_of_le hle
  refine ⟨path.components.take k, List.ne_nil_of_length_pos (hlength.symm ▸ hpos),
    List.take_prefix _ _, hcanonical, fun longer hbegins hlt => ?_⟩
  rw [List.prefix_iff_eq_take.mp hbegins]
  exact hlonger _ (hlength ▸ hlt) hbegins.length_le

/-- Nothing is found for a path exactly if not even its first component leads anywhere. -/
theorem existingBeginning?_eq_none_iff :
    existingBeginning? tree path = none ↔ LeadsNowhere tree path := by
  constructor
  · intro h beginning hne hbegins
    rw [List.prefix_iff_eq_take.mp hbegins]
    exact existingBeginning?_eq_none h _ (List.length_pos_iff.mpr hne) hbegins.length_le
  · intro h
    cases hfound : existingBeginning? tree path with
    | none => rfl
    | some d =>
      obtain ⟨beginning, hbeginning⟩ := exists_longestBeginning hfound
      exact absurd hbeginning.canonical (h _ hbeginning.nonempty hbeginning.begins _)

/-- What is found for a path is the canonical form of its longest beginning. -/
theorem existingBeginning?_eq_some_iff : existingBeginning? tree path = some c ↔
    ∃ beginning, LongestBeginning tree path beginning c := by
  refine ⟨exists_longestBeginning, ?_⟩
  rintro ⟨beginning, h⟩
  cases hfound : existingBeginning? tree path with
  | none =>
    have hnowhere := existingBeginning?_eq_none_iff.mp hfound
    exact absurd h.canonical (hnowhere _ h.nonempty h.begins _)
  | some d =>
    obtain ⟨other, hother⟩ := exists_longestBeginning hfound
    rw [h.unique hother]

theorem automaticDependencies_reference (tree : Node) (path : Cursor) (args : List Argument) :
    automaticDependencies tree (.reference path :: args)
      = (existingBeginning? tree path).toList ++ automaticDependencies tree args := by
  cases hfound : existingBeginning? tree path with
  | none => exact List.filterMap_cons_none hfound
  | some c => exact List.filterMap_cons_some hfound

/-- The automatic dependencies are the list of what the references wait for. -/
theorem listsBeginnings_iff {args : List Argument} {cs : List Cursor} :
    ListsBeginnings tree args cs ↔ automaticDependencies tree args = cs := by
  constructor
  · intro h
    induction h with
    | nil => rfl
    | literal rest ih => exact ih
    | reference found rest ih =>
      rw [automaticDependencies_reference, existingBeginning?_eq_some_iff.mpr ⟨_, found⟩, ih]
      rfl
    | nowhere nothing rest ih =>
      rw [automaticDependencies_reference, existingBeginning?_eq_none_iff.mpr nothing, ih]
      rfl
  · rintro rfl
    induction args with
    | nil => exact .nil
    | cons arg args ih =>
      cases arg with
      | literal value => exact .literal ih
      | reference path =>
        rw [automaticDependencies_reference]
        cases hfound : existingBeginning? tree path with
        | none => exact .nowhere (existingBeginning?_eq_none_iff.mp hfound) ih
        | some c =>
          obtain ⟨beginning, hbeginning⟩ := existingBeginning?_eq_some_iff.mp hfound
          exact .reference hbeginning ih

/-! ## Calls that a reference needs -/

/-- Whether a path needs what stands at a place: the place is where the path leads to or below it,
or the path comes to the place and cannot go on, since a scalar stands there. -/
inductive Needs (tree : Node) (path place : Cursor) : Prop
  | within {spot spot' : Spot} {m m' : Node} (leads : tree.Leads path.components spot m)
      (stands : tree.Leads place.components spot' m') (below : spot <+: spot')
  | stops {before : List String} {component : String} {kind : Kind} {spot : Spot} {m m' : Node}
      (stops : path.resolve tree = .error ⟨before ++ [component], .noSubObjects kind⟩)
      (leads : tree.Leads before spot m) (stands : tree.Leads place.components spot m')

/-- What a path needs stands within the longest beginning of the path that leads somewhere. The root
cannot be waited for, neither as the path nor as the place. -/
theorem Needs.exists_beginning (hwf : tree.WellFormed) (h : Needs tree path place)
    {m : Node} (hat : tree.At place.components m) (hpath : path.components ≠ [])
    (hplace : place.components ≠ []) :
    ∃ beginning c, LongestBeginning tree path beginning c ∧ c.components <+: place.components := by
  cases h with
  | within leads stands below =>
    obtain ⟨c, hcanonical, hprefix⟩ := Node.exists_canonical_prefix hwf leads hat stands below
    refine ⟨path.components, ⟨c⟩, ⟨hpath, List.prefix_rfl, hcanonical, ?_⟩, hprefix⟩
    exact fun longer hbegins hlt => absurd hbegins.length_le (Nat.not_le_of_lt hlt)
  | @stops before component kind spot m m' stops leads stands =>
    have hstops := Cursor.stopsWith hwf stops
    obtain ⟨c, hcanonical, hprefix⟩ :=
      Node.exists_canonical_prefix hwf leads hat stands List.prefix_rfl
    have hbegins : before <+: path.components := (List.prefix_append _ _).trans hstops.begins
    refine ⟨before, ⟨c⟩, ⟨?_, hbegins, hcanonical, ?_⟩, hprefix⟩
    · -- only the root is where the empty path leads
      rintro rfl
      cases leads
      generalize place.components = components at stands hplace
      cases stands
      exact hplace rfl
    · -- a longer beginning holds the component at which the path stops
      intro longer hlonger hlt d hd
      obtain ⟨k, -, hk⟩ := Node.canonical_at hwf hd
      have hshort := (hstops.shortest longer hlonger).mp ⟨k, hk⟩
      rw [List.length_append, List.length_singleton] at hshort
      omega

/-- A call depends on every other call that one of its references needs. -/
theorem dependsOn_of_needs (hwf : tree.WellFormed) {i j : Nat} {call other : PlannedCall}
    (hi : (planFor registry phase tree).calls[i]? = some call)
    (hj : (planFor registry phase tree).calls[j]? = some other) (hne : i ≠ j)
    (hkeeps : call.operator.KeepsAutomatic) (hreference : .reference path ∈ call.args)
    (hpath : path ≠ .root) (hneeds : Needs tree path other.site.place.cursor) :
    DependsOn (planFor registry phase tree).calls i j := by
  obtain ⟨hsite, hplanned⟩ := mem_planFor_calls.mp (List.mem_of_getElem? hi)
  obtain ⟨_, hat, -⟩ := Node.at_of_mem_callSites hwf hsite
  obtain ⟨_, hat_other, -⟩ :=
    Node.at_of_mem_callSites hwf (mem_planFor_calls.mp (List.mem_of_getElem? hj)).1
  have hplace : other.site.place.cursor.components ≠ [] := by
    intro hnil
    -- a call at the root is the only one
    have heq := hat_other.eq_of_beginning_scalar hat (hnil ▸ List.nil_prefix)
    exact cursor_ne_of_ne hwf hi hj hne (congrArg Cursor.mk heq.symm)
  have hnonempty : path.components ≠ [] := fun hnil => hpath (congrArg Cursor.mk hnil)
  obtain ⟨beginning, c, hbeginning, hprefix⟩ :=
    hneeds.exists_beginning hwf hat_other hnonempty hplace
  have hautomatic : c ∈ automaticDependencies tree call.args := mem_automaticDependencies.mpr
    ⟨path, hreference, existingBeginning?_eq_some_iff.mpr ⟨beginning, hbeginning⟩⟩
  obtain ⟨-, -, -, -, hdependencies⟩ := plannedCall?_eq_some.mp hplanned
  exact ⟨call, other, hi, hj, c, hdependencies ▸ hkeeps _ _ _ _ hautomatic, hprefix⟩

/-- **The automatic dependencies of a call are the longest beginnings of its references that lead
somewhere; so in every order all other calls of its phase that one of the references needs come
before it.** Whether a reference needs a call is told by the tree as the phase begins. -/
theorem automatic_dependencies_cover (tree : Node) :
    (∀ args cs, automaticDependencies tree args = cs ↔ ListsBeginnings tree args cs) ∧
    (tree.WellFormed → ∀ registry phase order,
      schedule (planFor registry phase tree).calls = .ok order →
      ∀ i j call other path, (planFor registry phase tree).calls[i]? = some call →
        (planFor registry phase tree).calls[j]? = some other → i ≠ j →
        call.operator.KeepsAutomatic → .reference path ∈ call.args → path ≠ .root →
        Needs tree path other.site.place.cursor →
        i ∈ order ∧ order.idxOf j < order.idxOf i) := by
  refine ⟨fun args cs => listsBeginnings_iff.symm, fun hwf registry phase order horder => ?_⟩
  intro i j call other path hi hj hne hkeeps hreference hpath hneeds
  have hof := isOrderOf_of_schedule horder
  have hmem : i ∈ order :=
    hof.perm.mem_iff.mpr (List.mem_range.mpr (List.getElem?_eq_some_iff.mp hi).1)
  exact ⟨hmem, hof.after i j (dependsOn_of_needs hwf hi hj hne hkeeps hreference hpath hneeds)⟩

/-- A call that copies what is below a value to come, one that copies what this value is part of,
and the call that computes the value. -/
def valueToCome : Node :=
  .mapping [("first", .string "(( grab jobs.web.pool.first ))"),
    ("all", .string "(( grab jobs ))"),
    ("jobs", .sequence [.mapping [("name", .string "web"), ("pool", .string "(( grab pool ))")]]),
    ("pool", .mapping [("first", .string "10.0.0.5")])]

/-- The call at a site that copies what a path leads to, with what it waits for. -/
def copyCall (site : CallSite) (path dependency : List String) : PlannedCall :=
  ⟨site, .grab, [.reference ⟨path⟩], [⟨dependency⟩]⟩

theorem automatic_dependencies_cover_value_to_come :
    valueToCome.WellFormed ∧
    schedule (planFor .builtin .eval valueToCome).calls = .ok [2, 0, 1] ∧
    Needs valueToCome ⟨["jobs", "web", "pool", "first"]⟩ ⟨["jobs", "0", "pool"]⟩ ∧
    [2, 0, 1].idxOf 2 < [2, 0, 1].idxOf 0 ∧
    Needs valueToCome ⟨["jobs"]⟩ ⟨["jobs", "0", "pool"]⟩ ∧
    [2, 0, 1].idxOf 2 < [2, 0, 1].idxOf 1 := by
  have hwf : valueToCome.WellFormed := by decide
  have horder : schedule (planFor .builtin .eval valueToCome).calls = .ok [2, 0, 1] := rfl
  have hplan : (planFor .builtin .eval valueToCome).calls =
      [copyCall (siteAtKey "first" "grab" "jobs.web.pool.first")
        ["jobs", "web", "pool", "first"] ["jobs", "0", "pool"],
      copyCall (siteAtKey "all" "grab" "jobs") ["jobs"] ["jobs"],
      copyCall ⟨⟨⟨["jobs", "0", "pool"]⟩, ⟨["jobs", "web", "pool"]⟩⟩, ⟨"grab", "pool"⟩⟩
        ["pool"] ["pool"]] := rfl
  have hstands : valueToCome.Leads ["jobs", "0", "pool"] [2, 0, 1] (.string "(( grab pool ))") :=
    .step (.key rfl) (.step (.index (by decide) rfl) (.step (.key rfl) (.here _)))
  have hbelow : valueToCome.Leads ["jobs", "web", "pool"] [2, 0, 1] (.string "(( grab pool ))") :=
    .step (.key rfl) (.step (.name (by decide) rfl (by decide) nofun) (.step (.key rfl) (.here _)))
  obtain ⟨_, hjobs⟩ : ∃ m, valueToCome.Leads ["jobs"] [2] m := ⟨_, .step (.key rfl) (.here _)⟩
  have hpart : Needs valueToCome ⟨["jobs"]⟩ ⟨["jobs", "0", "pool"]⟩ :=
    .within hjobs hstands (by decide)
  have hvalue : Needs valueToCome ⟨["jobs", "web", "pool", "first"]⟩ ⟨["jobs", "0", "pool"]⟩ :=
    .stops rfl hbelow hstands
  have hcover := (automatic_dependencies_cover valueToCome).2 hwf .builtin .eval [2, 0, 1] horder
  have hgrab : Registry.builtin.find? "grab" = some .grab := rfl
  have hkeeps : Operator.grab.KeepsAutomatic := keepsAutomatic_of_builtin hgrab (by decide)
  rw [hplan] at hcover
  exact ⟨hwf, horder, hvalue,
    (hcover 0 2 _ _ _ rfl rfl (by decide) hkeeps List.mem_cons_self (by decide) hvalue).2, hpart,
    (hcover 1 2 _ _ _ rfl rfl (by decide) hkeeps List.mem_cons_self (by decide) hpart).2⟩

end Evaluation

end Laminate
