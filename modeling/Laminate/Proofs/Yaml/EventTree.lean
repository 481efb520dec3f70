import Laminate.Yaml.Composition

/-!
# Trees of events

A well-nested list of events is the events of nodes in order, and the events of a collection enclose
those of its contents (`EventTree.events`). What such a tree stands for is told by rules
(`Denotes`): an alias stands for the node of its anchor that was complete last, a key is the text of
a scalar, and of several entries with one key the first one counts.

A node is complete with its last event. The list of the completions (`EventTree.completions`) tells
for each node what can be known of it at that moment, and so what is wrong there (`misfit?`): an
alias to a node that is not complete yet, or a key that is a collection. Where every node fits, the
events denote something (`exists_denotes`).
-/

namespace Laminate

/-- Whether nodes of a kind have contents. -/
def Kind.isCollection : Kind → Bool
  | .map => true
  | .list => true
  | _ => false

theorem Scalar.isCollection_kind (s : Scalar) : s.kind.isCollection = false := by
  cases s <;> rfl

namespace Yaml

/-- A node as its events tell it: a scalar, an alias, which refers to a node by its anchor, or a
collection with its contents and the lines of its first and last event. -/
inductive EventTree
  | scalar (anchor : Option Nat) (raw : RawScalar) (line : Nat)
  | reference (id : Nat) (line : Nat)
  | sequence (anchor : Option Nat) (items : List EventTree) (first last : Nat)
  | mapping (anchor : Option Nat) (entries : List (EventTree × EventTree)) (first last : Nat)

namespace EventTree

/-- Induction on the contents of collections. -/
@[elab_as_elim]
theorem induction {motive : EventTree → Prop}
    (scalar : ∀ anchor raw line, motive (.scalar anchor raw line))
    (reference : ∀ id line, motive (.reference id line))
    (sequence : ∀ anchor items first last, (∀ t ∈ items, motive t) →
      motive (.sequence anchor items first last))
    (mapping : ∀ anchor entries first last, (∀ e ∈ entries, motive e.1 ∧ motive e.2) →
      motive (.mapping anchor entries first last)) : ∀ t, motive t :=
  @EventTree.rec motive (fun items => ∀ t ∈ items, motive t)
    (fun entries => ∀ e ∈ entries, motive e.1 ∧ motive e.2) (fun e => motive e.1 ∧ motive e.2)
    scalar reference sequence mapping
    (fun _ h => nomatch h)
    (fun _ _ ht hitems => List.forall_mem_cons.mpr ⟨ht, hitems⟩)
    (fun _ h => nomatch h)
    (fun _ _ he hentries => List.forall_mem_cons.mpr ⟨he, hentries⟩)
    (fun _ _ hkey hvalue => ⟨hkey, hvalue⟩)

/-- The line of the last event of a node. -/
def line : EventTree → Nat
  | scalar _ _ line => line
  | reference _ line => line
  | sequence _ _ _ last => last
  | mapping _ _ _ last => last

/-- The anchor of a node. An alias has none. -/
def anchor? : EventTree → Option Nat
  | scalar anchor _ _ => anchor
  | reference _ _ => none
  | sequence anchor _ _ _ => anchor
  | mapping anchor _ _ _ => anchor

/-- The kind of a node that is told in full. -/
def kind? : EventTree → Option Kind
  | scalar _ raw _ => some raw.scalar.kind
  | reference _ _ => none
  | sequence _ _ _ _ => some .list
  | mapping _ _ _ _ => some .map

/-- Whether a node is a scalar that is told in full. -/
def IsScalar (t : EventTree) : Prop :=
  ∃ anchor raw line, t = .scalar anchor raw line

mutual

/-- The events of a node. -/
def events : EventTree → List PlacedEvent
  | scalar anchor raw line => [⟨.scalar anchor raw, line⟩]
  | reference id line => [⟨.alias id, line⟩]
  | sequence anchor items first last =>
    ⟨.sequenceStart anchor, first⟩ :: (itemEvents items ++ [⟨.sequenceEnd, last⟩])
  | mapping anchor entries first last =>
    ⟨.mappingStart anchor, first⟩ :: (entryEvents entries ++ [⟨.mappingEnd, last⟩])
termination_by structural t => t

/-- The events of the items of a sequence. -/
def itemEvents : List EventTree → List PlacedEvent
  | [] => []
  | t :: items => t.events ++ itemEvents items
termination_by structural items => items

/-- The events of the entries of a mapping: each key, and its value behind it. -/
def entryEvents : List (EventTree × EventTree) → List PlacedEvent
  | [] => []
  | (key, value) :: entries => key.events ++ (value.events ++ entryEvents entries)
termination_by structural entries => entries

end

end EventTree

/-! ## What events denote -/

/-- Nodes with their anchors, the one that was complete last first. -/
abbrev Anchored := List (Nat × Node)

/-- Anchored nodes and one more node, if it has an anchor. -/
def Anchored.noting (known : Anchored) (anchor : Option Nat) (n : Node) : Anchored :=
  match anchor with
  | some id => (id, n) :: known
  | none => known

/-- The first entry of each key. -/
def firstOfEachKey (pairs : List (String × Node)) : List (String × Node) :=
  pairs.eraseDupsBy fun e f => e.1 == f.1

mutual

/-- What a node is that its events tell, with the anchored nodes before it and behind it. -/
inductive Denotes : Anchored → EventTree → Node → Anchored → Prop
  | scalar (known : Anchored) (anchor : Option Nat) (raw : RawScalar) (line : Nat) :
      Denotes known (.scalar anchor raw line) (.scalar raw.scalar)
        (known.noting anchor (.scalar raw.scalar))
  | reference {known : Anchored} {id : Nat} {n : Node} (line : Nat)
      (found : known.lookup id = some n) : Denotes known (.reference id line) n known
  | sequence {known known' : Anchored} {items : List EventTree} {nodes : List Node}
      (anchor : Option Nat) (first last : Nat) (contents : DenotesItems known items nodes known') :
      Denotes known (.sequence anchor items first last) (.sequence nodes)
        (known'.noting anchor (.sequence nodes))
  | mapping {known known' : Anchored} {entries : List (EventTree × EventTree)}
      {pairs : List (String × Node)} (anchor : Option Nat) (first last : Nat)
      (contents : DenotesEntries known entries pairs known') :
      Denotes known (.mapping anchor entries first last) (.mapping (firstOfEachKey pairs))
        (known'.noting anchor (.mapping (firstOfEachKey pairs)))

/-- The items of a sequence, in order. -/
inductive DenotesItems : Anchored → List EventTree → List Node → Anchored → Prop
  | nil (known : Anchored) : DenotesItems known [] [] known
  | cons {known known' known'' : Anchored} {t : EventTree} {n : Node} {items : List EventTree}
      {nodes : List Node} (item : Denotes known t n known')
      (others : DenotesItems known' items nodes known'') :
      DenotesItems known (t :: items) (n :: nodes) known''

/-- The entries of a mapping, in order, each key as a text. -/
inductive DenotesEntries :
    Anchored → List (EventTree × EventTree) → List (String × Node) → Anchored → Prop
  | nil (known : Anchored) : DenotesEntries known [] [] known
  | cons {known known' known'' known''' : Anchored} {key value : EventTree} {k n : Node}
      {text : String} {entries : List (EventTree × EventTree)} {pairs : List (String × Node)}
      (keyNode : Denotes known key k known') (keyText : keyText? k = some text)
      (valueNode : Denotes known' value n known'')
      (others : DenotesEntries known'' entries pairs known''') :
      DenotesEntries known ((key, value) :: entries) ((text, n) :: pairs) known'''

end

/-! ## Completions -/

/-- A node at its last event: whether it is a key, and all events so far. -/
structure Completion where
  tree : EventTree
  isKey : Bool
  seen : List PlacedEvent

namespace EventTree

mutual

/-- The completions in a node, in order, when events were seen before it. -/
def completions (isKey : Bool) (seen : List PlacedEvent) : EventTree → List Completion
  | scalar anchor raw line =>
    [⟨scalar anchor raw line, isKey, seen ++ (scalar anchor raw line).events⟩]
  | reference id line => [⟨reference id line, isKey, seen ++ (reference id line).events⟩]
  | sequence anchor items first last =>
    itemCompletions (seen ++ [⟨.sequenceStart anchor, first⟩]) items
      ++ [⟨sequence anchor items first last, isKey,
        seen ++ (sequence anchor items first last).events⟩]
  | mapping anchor entries first last =>
    entryCompletions (seen ++ [⟨.mappingStart anchor, first⟩]) entries
      ++ [⟨mapping anchor entries first last, isKey,
        seen ++ (mapping anchor entries first last).events⟩]
termination_by structural t => t

/-- The completions in the items of a sequence. -/
def itemCompletions (seen : List PlacedEvent) : List EventTree → List Completion
  | [] => []
  | t :: items => t.completions false seen ++ itemCompletions (seen ++ t.events) items
termination_by structural items => items

/-- The completions in the entries of a mapping. -/
def entryCompletions (seen : List PlacedEvent) : List (EventTree × EventTree) → List Completion
  | [] => []
  | (key, value) :: entries => key.completions true seen
    ++ (value.completions false (seen ++ key.events)
      ++ entryCompletions (seen ++ key.events ++ value.events) entries)
termination_by structural entries => entries

end

end EventTree

/-- The node that was complete last of those with an anchor. -/
def referent? (before : List Completion) (id : Nat) : Option EventTree :=
  (before.map Completion.tree).reverse.find? fun t => t.anchor? == some id

/-- The kind of a node at its completion: of an alias, that of the node that it refers to. -/
def Completion.kind? (before : List Completion) (c : Completion) : Option Kind :=
  match c.tree with
  | .reference id _ => (referent? before id).bind EventTree.kind?
  | t => t.kind?

/-- What is wrong with a node at its completion. -/
def misfit? (before : List Completion) (c : Completion) : Option Misfit :=
  match c.kind? before with
  | none => some (.unknownAnchor c.tree.line)
  | some kind => if c.isKey && kind.isCollection then some (.keyKind c.tree.line kind) else none

/-- Whether a node fits at its completion: an alias refers to an anchored node that is complete
before it, and a key is a scalar or an alias to one. -/
structure Completion.Fits (before : List Completion) (c : Completion) : Prop where
  alias_complete : ∀ id line, c.tree = .reference id line → ∃ d ∈ before, d.tree.anchor? = some id
  key_scalar : c.isKey = true → c.tree.IsScalar ∨
    ∃ id line t, c.tree = .reference id line ∧ referent? before id = some t ∧ t.IsScalar

/-- Whether every node fits at its completion. -/
def Fitting (completions : List Completion) : Prop :=
  ∀ before c after, completions = before ++ c :: after → c.Fits before

/-- The first node that does not fit at its completion, and what is wrong with it. -/
def firstMisfit? (before : List Completion) : List Completion → Option (Completion × Misfit)
  | [] => none
  | c :: completions =>
    match misfit? before c with
    | some problem => some (c, problem)
    | none => firstMisfit? (before ++ [c]) completions

/-! ## Documents -/

/-- A document: its node, and the lines of its first and last event. -/
structure EventDocument where
  root : EventTree
  first : Nat
  last : Nat

/-- The events of a document. -/
def EventDocument.events (d : EventDocument) : List PlacedEvent :=
  ⟨.documentStart, d.first⟩ :: (d.root.events ++ [⟨.documentEnd, d.last⟩])

namespace EventDocument

/-- The events of documents in order. -/
def eventsOf (docs : List EventDocument) : List PlacedEvent :=
  docs.flatMap events

/-- The completions in documents, in order, when events were seen before them. -/
def completionsOf (seen : List PlacedEvent) : List EventDocument → List Completion
  | [] => []
  | d :: docs => d.root.completions false (seen ++ [⟨.documentStart, d.first⟩])
    ++ completionsOf (seen ++ d.events) docs

/-- The nodes of documents, in order, with the anchored nodes before them. An alias may refer to a
node of an earlier document. -/
inductive Denote : Anchored → List EventDocument → List Node → Prop
  | nil (known : Anchored) : Denote known [] []
  | cons {known known' : Anchored} {d : EventDocument} {n : Node} {docs : List EventDocument}
      {nodes : List Node} (root : Denotes known d.root n known')
      (others : Denote known' docs nodes) : Denote known (d :: docs) (n :: nodes)

end EventDocument

/-! ## Nodes that fit -/

theorem referent?_append_singleton (before : List Completion) (c : Completion) (id : Nat) :
    referent? (before ++ [c]) id
      = if c.tree.anchor? = some id then some c.tree else referent? before id := by
  rw [referent?, referent?, List.map_append, List.reverse_append, List.map_singleton,
    List.reverse_singleton, List.singleton_append, List.find?_cons]
  by_cases h : c.tree.anchor? = some id
  · simp [h]
  · rw [if_neg h, beq_eq_false_iff_ne.mpr h]

theorem anchor?_of_referent? {before : List Completion} {id : Nat} {t : EventTree}
    (h : referent? before id = some t) : t.anchor? = some id := by
  rw [referent?] at h
  have hbeq := List.find?_some h
  exact eq_of_beq hbeq

theorem exists_referent?_iff {before : List Completion} {id : Nat} :
    (∃ t, referent? before id = some t) ↔ ∃ d ∈ before, d.tree.anchor? = some id := by
  rw [← Option.isSome_iff_exists, referent?, List.find?_isSome]
  constructor
  · rintro ⟨t, ht, hanchor⟩
    obtain ⟨d, hd, rfl⟩ := List.mem_map.mp (List.mem_reverse.mp ht)
    exact ⟨d, hd, eq_of_beq hanchor⟩
  · rintro ⟨d, hd, hanchor⟩
    exact ⟨d.tree, List.mem_reverse.mpr (List.mem_map_of_mem hd), beq_iff_eq.mpr hanchor⟩

/-- A node is an alias or has a kind of its own. -/
theorem EventTree.reference_or_kind (t : EventTree) :
    (∃ id line, t = .reference id line) ∨ ∃ kind, t.kind? = some kind := by
  cases t with
  | reference id line => exact .inl ⟨id, line, rfl⟩
  | _ => exact .inr ⟨_, rfl⟩

/-- A node with an anchor is no alias. -/
theorem EventTree.exists_kind? {t : EventTree} {id : Nat} (h : t.anchor? = some id) :
    ∃ kind, t.kind? = some kind := by
  obtain ⟨_, _, rfl⟩ | hkind := t.reference_or_kind
  · cases h
  · exact hkind

theorem EventTree.isScalar_iff {t : EventTree} {kind : Kind} (h : t.kind? = some kind) :
    t.IsScalar ↔ kind.isCollection = false := by
  cases t with
  | scalar anchor raw line =>
    cases h
    exact iff_of_true ⟨anchor, raw, line, rfl⟩ (Scalar.isCollection_kind _)
  | reference => cases h
  | sequence | mapping =>
    cases h
    exact iff_of_false (fun ⟨_, _, _, h⟩ => nomatch h) Bool.noConfusion

namespace Completion

variable {before : List Completion} {c : Completion}

theorem kind?_of_kind? {kind : Kind} (h : c.tree.kind? = some kind) :
    c.kind? before = some kind := by
  rw [Completion.kind?]
  split
  · rename_i heq
    rw [heq] at h
    cases h
  · exact h

theorem kind?_reference {id line : Nat} (h : c.tree = .reference id line) :
    c.kind? before = (referent? before id).bind EventTree.kind? := by
  rw [Completion.kind?, h]

end Completion

theorem misfit?_eq_none_iff {before : List Completion} {c : Completion} :
    misfit? before c = none ↔
      ∃ kind, c.kind? before = some kind ∧ (c.isKey = true → kind.isCollection = false) := by
  rw [misfit?]
  cases c.kind? before with
  | none => simp only [reduceCtorEq, false_and, exists_false]
  | some kind => simp

theorem misfit?_eq_some_iff {before : List Completion} {c : Completion} {problem : Misfit} :
    misfit? before c = some problem ↔
      (c.kind? before = none ∧ problem = .unknownAnchor c.tree.line) ∨
      ∃ kind, c.kind? before = some kind ∧ c.isKey = true ∧ kind.isCollection = true ∧
        problem = .keyKind c.tree.line kind := by
  rw [misfit?]
  cases c.kind? before with
  | none => simp [@eq_comm _ problem]
  | some kind => simp [@eq_comm _ problem, and_assoc]

/-- Nothing is wrong with a node that fits, and with no other. -/
theorem Completion.fits_iff {before : List Completion} {c : Completion} :
    c.Fits before ↔ misfit? before c = none := by
  rw [misfit?_eq_none_iff]
  obtain ⟨id, line, hreference⟩ | ⟨kind, hkind⟩ := c.tree.reference_or_kind
  · rw [kind?_reference hreference]
    constructor
    · intro ⟨hcomplete, hscalar⟩
      obtain ⟨t, ht⟩ := exists_referent?_iff.mpr (hcomplete id line hreference)
      obtain ⟨kind, hkind⟩ := EventTree.exists_kind? (anchor?_of_referent? ht)
      refine ⟨kind, Option.bind_eq_some_iff.mpr ⟨t, ht, hkind⟩, fun hkey => ?_⟩
      obtain ⟨_, _, _, h⟩ | ⟨_, _, t', h, ht', hscalar⟩ := hscalar hkey
      · cases hreference.symm.trans h
      · cases hreference.symm.trans h
        cases ht.symm.trans ht'
        exact (EventTree.isScalar_iff hkind).mp hscalar
    · intro ⟨kind, hkind, hkey⟩
      obtain ⟨t, ht, hkind⟩ := Option.bind_eq_some_iff.mp hkind
      refine ⟨fun _ _ h => ?_, fun h => .inr ⟨id, line, t, hreference, ht, ?_⟩⟩
      · cases hreference.symm.trans h
        exact exists_referent?_iff.mp ⟨t, ht⟩
      · exact (EventTree.isScalar_iff hkind).mpr (hkey h)
  · have hno (id line : Nat) : c.tree ≠ .reference id line := fun h => by
      rw [h] at hkind
      cases hkind
    rw [kind?_of_kind? hkind]
    constructor
    · intro ⟨_, hscalar⟩
      refine ⟨kind, rfl, fun hkey => ?_⟩
      obtain h | ⟨_, _, _, h, _⟩ := hscalar hkey
      · exact (EventTree.isScalar_iff hkind).mp h
      · exact absurd h (hno _ _)
    · intro ⟨_, h, hkey⟩
      cases h
      exact ⟨fun _ _ h => absurd h (hno _ _),
        fun h => .inl ((EventTree.isScalar_iff hkind).mpr (hkey h))⟩

/-! ## The first misfit -/

theorem firstMisfit?_append (before completions others : List Completion) :
    firstMisfit? before (completions ++ others) = (firstMisfit? before completions).or
      (firstMisfit? (before ++ completions) others) := by
  induction completions generalizing before with
  | nil => rw [List.append_nil]; rfl
  | cons c completions ih =>
    rw [List.cons_append, firstMisfit?, firstMisfit?]
    cases misfit? before c with
    | some problem => rfl
    | none =>
      simp only [ih, List.append_assoc, List.singleton_append]

theorem firstMisfit?_singleton (before : List Completion) (c : Completion) :
    firstMisfit? before [c] = (misfit? before c).map (c, ·) := by
  rw [firstMisfit?]
  cases misfit? before c <;> rfl

/-- Nothing is wrong with a node that is no alias if nothing is wrong in it, and it is no collection
as a key. -/
theorem firstMisfit?_concat_eq_none_iff {before contents : List Completion} {c : Completion}
    {kind : Kind} (hkind : c.tree.kind? = some kind) :
    firstMisfit? before (contents ++ [c]) = none ↔
      firstMisfit? before contents = none ∧ (c.isKey = true → kind.isCollection = false) := by
  rw [firstMisfit?_append, Option.or_eq_none_iff, firstMisfit?_singleton, Option.map_eq_none_iff,
    misfit?_eq_none_iff, Completion.kind?_of_kind? hkind]
  simp

theorem firstMisfit?_eq_some {before completions : List Completion} {c : Completion}
    {problem : Misfit} (h : firstMisfit? before completions = some (c, problem)) :
    ∃ fitting after, completions = fitting ++ c :: after ∧
      misfit? (before ++ fitting) c = some problem ∧ firstMisfit? before fitting = none := by
  induction completions generalizing before with
  | nil => cases h
  | cons d completions ih =>
    rw [firstMisfit?] at h
    cases hd : misfit? before d with
    | some _ =>
      rw [hd] at h
      cases h
      exact ⟨[], completions, rfl, (List.append_nil before).symm ▸ hd, rfl⟩
    | none =>
      rw [hd] at h
      obtain ⟨fitting, after, rfl, hc, hfitting⟩ := ih h
      refine ⟨d :: fitting, after, rfl, ?_, ?_⟩
      · rwa [List.append_assoc] at hc
      · rw [firstMisfit?, hd]
        exact hfitting

/-- Every node fits if and only if there is no first one that does not. -/
theorem fitting_iff {completions : List Completion} :
    Fitting completions ↔ firstMisfit? [] completions = none := by
  constructor
  · intro hfitting
    rw [Option.eq_none_iff_forall_ne_some]
    intro ⟨c, problem⟩ hfirst
    obtain ⟨before, after, hcompletions, hc, _⟩ := firstMisfit?_eq_some hfirst
    rw [List.nil_append, Completion.fits_iff.mp (hfitting before c after hcompletions)] at hc
    cases hc
  · rintro hnone before c after rfl
    rw [firstMisfit?_append, Option.or_eq_none_iff, firstMisfit?, List.nil_append] at hnone
    rw [Completion.fits_iff, Option.eq_none_iff_forall_ne_some]
    intro problem hc
    rw [hc] at hnone
    cases hnone.2

/-! ## What is known at a completion -/

/-- Whether the anchored nodes are those that are complete, as far as their kinds go. -/
def Agrees (before : List Completion) (known : Anchored) : Prop :=
  ∀ id, (known.lookup id).map Node.kind = (referent? before id).bind EventTree.kind?

theorem agrees_nil : Agrees [] [] := fun _ => rfl

/-- A node that is complete, and becomes known if it has an anchor. -/
theorem Agrees.noting {before : List Completion} {known : Anchored} (h : Agrees before known)
    {c : Completion} {n : Node} (hkind : c.tree.kind? = some n.kind) :
    Agrees (before ++ [c]) (known.noting c.tree.anchor? n) := by
  intro id
  rw [referent?_append_singleton]
  cases hanchor : c.tree.anchor? with
  | none => exact h id
  | some id' =>
    rw [Anchored.noting, List.lookup_cons]
    by_cases heq : id' = id
    · subst heq
      simp [hkind]
    · rw [if_neg (fun h => heq (Option.some.inj h)), beq_eq_false_iff_ne.mpr (Ne.symm heq)]
      exact h id

/-- An alias makes no other node known. -/
theorem Agrees.reference {before : List Completion} {known : Anchored} (h : Agrees before known)
    {id line : Nat} (isKey : Bool) (seen : List PlacedEvent) :
    Agrees (before ++ [⟨.reference id line, isKey, seen⟩]) known := by
  intro id'
  rw [referent?_append_singleton]
  exact h id'

/-- A node that fits as a key has a text. -/
theorem exists_keyText? {n : Node} (h : n.kind.isCollection = false) :
    ∃ text, keyText? n = some text := by
  cases n with
  | scalar s =>
    cases s with
    | boolean b => cases b <;> exact ⟨_, rfl⟩
    | _ => exact ⟨_, rfl⟩
  | sequence | mapping => cases h

/-! ## Nodes that fit denote something -/

/-- Whether a node denotes something where everything in it fits. As a key it has a text. -/
def DenotesIfFitting (t : EventTree) : Prop :=
  ∀ {before known} isKey seen, Agrees before known →
    firstMisfit? before (t.completions isKey seen) = none →
    ∃ n known', Denotes known t n known' ∧ Agrees (before ++ t.completions isKey seen) known' ∧
      (isKey = true → n.kind.isCollection = false)

theorem exists_denotesItems {items : List EventTree} (h : ∀ t ∈ items, DenotesIfFitting t) :
    ∀ {before known} seen, Agrees before known →
      firstMisfit? before (EventTree.itemCompletions seen items) = none →
      ∃ nodes known', DenotesItems known items nodes known' ∧
        Agrees (before ++ EventTree.itemCompletions seen items) known' := by
  induction items with
  | nil =>
    intro before known seen hagrees _
    refine ⟨[], known, .nil known, ?_⟩
    rwa [EventTree.itemCompletions, List.append_nil]
  | cons t items ih =>
    intro before known seen hagrees hnone
    obtain ⟨ht, hitems⟩ := List.forall_mem_cons.mp h
    rw [EventTree.itemCompletions, firstMisfit?_append, Option.or_eq_none_iff] at hnone
    obtain ⟨n, known₁, hn, hagrees, -⟩ := ht false seen hagrees hnone.1
    obtain ⟨nodes, known₂, hnodes, hagrees⟩ := ih hitems _ hagrees hnone.2
    refine ⟨n :: nodes, known₂, .cons hn hnodes, ?_⟩
    rwa [EventTree.itemCompletions, ← List.append_assoc]

theorem exists_denotesEntries {entries : List (EventTree × EventTree)}
    (h : ∀ e ∈ entries, DenotesIfFitting e.1 ∧ DenotesIfFitting e.2) :
    ∀ {before known} seen, Agrees before known →
      firstMisfit? before (EventTree.entryCompletions seen entries) = none →
      ∃ pairs known', DenotesEntries known entries pairs known' ∧
        Agrees (before ++ EventTree.entryCompletions seen entries) known' := by
  induction entries with
  | nil =>
    intro before known seen hagrees _
    refine ⟨[], known, .nil known, ?_⟩
    rwa [EventTree.entryCompletions, List.append_nil]
  | cons e entries ih =>
    intro before known seen hagrees hnone
    obtain ⟨⟨hkey, hvalue⟩, hentries⟩ := List.forall_mem_cons.mp h
    rw [EventTree.entryCompletions, firstMisfit?_append, firstMisfit?_append,
      Option.or_eq_none_iff, Option.or_eq_none_iff] at hnone
    obtain ⟨k, known₁, hk, hagrees, hscalar⟩ := hkey true seen hagrees hnone.1
    obtain ⟨text, htext⟩ := exists_keyText? (hscalar rfl)
    obtain ⟨n, known₂, hn, hagrees, -⟩ := hvalue false _ hagrees hnone.2.1
    obtain ⟨pairs, known₃, hpairs, hagrees⟩ := ih hentries _ hagrees hnone.2.2
    refine ⟨(text, n) :: pairs, known₃, .cons hk htext hn hpairs, ?_⟩
    rwa [EventTree.entryCompletions, ← List.append_assoc, ← List.append_assoc]

/-- A node denotes something where everything in it fits. -/
theorem exists_denotes (t : EventTree) : DenotesIfFitting t := by
  induction t using EventTree.induction with
  | scalar anchor raw line =>
    intro before known isKey seen hagrees _
    exact ⟨_, _, .scalar known anchor raw line, hagrees.noting rfl,
      fun _ => Scalar.isCollection_kind _⟩
  | reference id line =>
    intro before known isKey seen hagrees hnone
    rw [EventTree.completions, firstMisfit?_singleton, Option.map_eq_none_iff,
      misfit?_eq_none_iff, Completion.kind?_reference rfl, ← hagrees id] at hnone
    obtain ⟨_, hkind, hscalar⟩ := hnone
    obtain ⟨n, hn, rfl⟩ := Option.map_eq_some_iff.mp hkind
    exact ⟨n, known, .reference line hn, hagrees.reference isKey _, hscalar⟩
  | sequence anchor items first last ih =>
    intro before known isKey seen hagrees hnone
    rw [EventTree.completions, firstMisfit?_concat_eq_none_iff rfl] at hnone
    obtain ⟨hcontents, hscalar⟩ := hnone
    obtain ⟨nodes, known', hnodes, hagrees⟩ := exists_denotesItems ih _ hagrees hcontents
    refine ⟨_, _, .sequence anchor first last hnodes, ?_, hscalar⟩
    rw [EventTree.completions, ← List.append_assoc]
    exact hagrees.noting rfl
  | mapping anchor entries first last ih =>
    intro before known isKey seen hagrees hnone
    rw [EventTree.completions, firstMisfit?_concat_eq_none_iff rfl] at hnone
    obtain ⟨hcontents, hscalar⟩ := hnone
    obtain ⟨pairs, known', hpairs, hagrees⟩ := exists_denotesEntries ih _ hagrees hcontents
    refine ⟨_, _, .mapping anchor first last hpairs, ?_, hscalar⟩
    rw [EventTree.completions, ← List.append_assoc]
    exact hagrees.noting rfl

namespace EventDocument

/-- Documents in which everything fits denote something. -/
theorem exists_denote (docs : List EventDocument) : ∀ {before known} seen, Agrees before known →
    firstMisfit? before (completionsOf seen docs) = none → ∃ nodes, Denote known docs nodes := by
  induction docs with
  | nil => exact fun _ _ _ => ⟨[], .nil _⟩
  | cons d docs ih =>
    intro before known seen hagrees hnone
    rw [completionsOf, firstMisfit?_append, Option.or_eq_none_iff] at hnone
    obtain ⟨n, known', hn, hagrees, -⟩ := exists_denotes d.root false _ hagrees hnone.1
    obtain ⟨nodes, hnodes⟩ := ih _ hagrees hnone.2
    exact ⟨n :: nodes, .cons hn hnodes⟩

end EventDocument

end Yaml

end Laminate
