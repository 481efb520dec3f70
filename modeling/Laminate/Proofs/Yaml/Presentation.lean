import Laminate.Proofs.Node.WellFormed
import Laminate.Proofs.Yaml.Composition
import Laminate.Proofs.Yaml.Scalars
import Laminate.Yaml.Codec

/-!
# The events of a value

A value has its events: a collection is opened, the events of its contents follow in order, and it
is closed (`Presents`). Those of the value of a tree denote the tree (`told`), and composition makes
of events what they denote (`documentsOf_of_presents`).

Which quotes strings have is left open by `Presents`, as long as a reader can do with them. The
standard codec puts enough of them (`Value.presents_events`).
-/

namespace Laminate.Yaml

/-! ## The events of a value -/

mutual

/-- The events of a value, none of them anchored. -/
inductive Presents : Value → List Event → Prop
  | scalar {s : Scalar} {raw : RawScalar} (event : ScalarEvent s raw) :
      Presents (.scalar s) [.scalar none raw]
  | array {items : List Value} {events : List Event} (contents : PresentsItems items events) :
      Presents (.array items) (.sequenceStart none :: (events ++ [.sequenceEnd]))
  | hash {entries : List (Value × Value)} {events : List Event}
      (contents : PresentsEntries entries events) :
      Presents (.hash entries) (.mappingStart none :: (events ++ [.mappingEnd]))

/-- The events of the items of an array. -/
inductive PresentsItems : List Value → List Event → Prop
  | nil : PresentsItems [] []
  | cons {v : Value} {items : List Value} {events rest : List Event} (item : Presents v events)
      (others : PresentsItems items rest) : PresentsItems (v :: items) (events ++ rest)

/-- The events of the entries of a hash: each key comes before its value. -/
inductive PresentsEntries : List (Value × Value) → List Event → Prop
  | nil : PresentsEntries [] []
  | cons {k v : Value} {entries : List (Value × Value)} {keyEvents events rest : List Event}
      (key : Presents k keyEvents) (value : Presents v events)
      (others : PresentsEntries entries rest) :
      PresentsEntries ((k, v) :: entries) (keyEvents ++ (events ++ rest))

end

/-- Every fractional number of the tree has a text that is read as one. -/
inductive FloatsReadable : Node → Prop
  | scalar {s : Scalar} (readable : s.Readable) : FloatsReadable (.scalar s)
  | sequence {items : List Node} (items_readable : ∀ n ∈ items, FloatsReadable n) :
      FloatsReadable (.sequence items)
  | mapping {entries : Entries Node} (values_readable : ∀ e ∈ entries, FloatsReadable e.2) :
      FloatsReadable (.mapping entries)

theorem FloatsReadable.readable {s : Scalar} : FloatsReadable (.scalar s) → s.Readable
  | .scalar readable => readable

theorem FloatsReadable.items {items : List Node} :
    FloatsReadable (.sequence items) → ∀ n ∈ items, FloatsReadable n
  | .sequence items_readable => items_readable

theorem FloatsReadable.values {entries : Entries Node} :
    FloatsReadable (.mapping entries) → ∀ e ∈ entries, FloatsReadable e.2
  | .mapping values_readable => values_readable

/-! ## The tree of the events -/

/-- Events between two others, which stand at places of their own. -/
theorem exists_eq_of_enclosed {placed : List PlacedEvent} {opening closing : Event}
    {events : List Event}
    (h : placed.map PlacedEvent.event = opening :: (events ++ [closing])) :
    ∃ line inner line', placed = ⟨opening, line⟩ :: (inner ++ [⟨closing, line'⟩]) ∧
      inner.map PlacedEvent.event = events := by
  obtain ⟨⟨_, line⟩, tail, rfl, rfl, htail⟩ := List.map_eq_cons_iff.mp h
  obtain ⟨inner, last, rfl, hinner, hlast⟩ := List.map_eq_append_iff.mp htail
  obtain ⟨⟨_, line'⟩, rfl, rfl⟩ := List.map_eq_singleton_iff.mp hlast
  exact ⟨line, inner, line', rfl, hinner⟩

/-- Whether all events that present the value of a node are those of a tree that denotes it. -/
def Told (n : Node) : Prop :=
  ∀ placed : List PlacedEvent, Presents (.ofNode n) (placed.map PlacedEvent.event) →
    ∃ t : EventTree, t.events = placed ∧ ∀ known, Denotes known t n known

/-- A scalar comes as one event. -/
theorem told_scalar {s : Scalar} (hs : s.Readable) : Told (.scalar s) := by
  intro placed hpresents
  generalize hevents : placed.map PlacedEvent.event = events at hpresents
  cases hpresents with
  | @scalar _ raw event =>
    obtain ⟨⟨e, line⟩, rfl, rfl⟩ := List.map_eq_singleton_iff.mp hevents
    refine ⟨.scalar none raw line, rfl, fun known => ?_⟩
    rw [← event.scalar_eq hs]
    exact .scalar known none raw line

theorem exists_itemTrees {items : List Node} (hitems : ∀ n ∈ items, Told n) :
    ∀ placed : List PlacedEvent,
      PresentsItems (Value.ofItems items) (placed.map PlacedEvent.event) →
      ∃ trees, EventTree.itemEvents trees = placed ∧
        ∀ known, DenotesItems known trees items known := by
  induction items with
  | nil =>
    intro placed hpresents
    generalize hevents : placed.map PlacedEvent.event = events at hpresents
    cases hpresents
    exact ⟨[], (List.map_eq_nil_iff.mp hevents).symm, .nil⟩
  | cons n items ih =>
    intro placed hpresents
    generalize hevents : placed.map PlacedEvent.event = events at hpresents
    cases hpresents with
    | cons item others =>
      obtain ⟨hn, hitems⟩ := List.forall_mem_cons.mp hitems
      obtain ⟨first, rest, rfl, rfl, rfl⟩ := List.map_eq_append_iff.mp hevents
      obtain ⟨t, rfl, ht⟩ := hn first item
      obtain ⟨trees, rfl, htrees⟩ := ih hitems rest others
      exact ⟨t :: trees, rfl, fun known => .cons (ht known) (htrees known)⟩

theorem exists_entryTrees {entries : Entries Node} (hvalues : ∀ e ∈ entries, Told e.2) :
    ∀ placed : List PlacedEvent,
      PresentsEntries (Value.ofEntries entries) (placed.map PlacedEvent.event) →
      ∃ trees, EventTree.entryEvents trees = placed ∧
        ∀ known, DenotesEntries known trees entries known := by
  induction entries with
  | nil =>
    intro placed hpresents
    generalize hevents : placed.map PlacedEvent.event = events at hpresents
    cases hpresents
    exact ⟨[], (List.map_eq_nil_iff.mp hevents).symm, .nil⟩
  | cons e entries ih =>
    intro placed hpresents
    generalize hevents : placed.map PlacedEvent.event = events at hpresents
    cases hpresents with
    | cons key value others =>
      -- a key of a tree is a string, and comes as one event
      cases key with
      | @scalar _ raw name =>
        rw [List.singleton_append] at hevents
        obtain ⟨hn, hvalues⟩ := List.forall_mem_cons.mp hvalues
        obtain ⟨⟨_, line⟩, tail, rfl, rfl, htail⟩ := List.map_eq_cons_iff.mp hevents
        obtain ⟨first, rest, rfl, rfl, rfl⟩ := List.map_eq_append_iff.mp htail
        obtain ⟨t, rfl, ht⟩ := hn first value
        obtain ⟨trees, rfl, htrees⟩ := ih hvalues rest others
        have hkey : keyText? (.scalar raw.scalar) = some e.1 := by
          rw [StringEvent.scalar_eq name]
          rfl
        exact ⟨(.scalar none raw line, t) :: trees, rfl, fun known =>
          .cons (.scalar known none raw line) hkey (ht known) (htrees known)⟩

/-- **The events that present a well-formed tree denote it.** -/
theorem told {n : Node} (hwf : n.WellFormed) (hfloats : FloatsReadable n) : Told n := by
  induction n using Node.induction with
  | scalar s => exact told_scalar hfloats.readable
  | sequence items ih =>
    intro placed hpresents
    generalize hevents : placed.map PlacedEvent.event = events at hpresents
    cases hpresents with
    | array contents =>
      obtain ⟨line, inner, line', rfl, rfl⟩ := exists_eq_of_enclosed hevents
      obtain ⟨trees, rfl, htrees⟩ := exists_itemTrees
        (fun m hm => ih m hm (hwf.items m hm) (hfloats.items m hm)) inner contents
      exact ⟨.sequence none trees line line', rfl, fun known =>
        .sequence none line line' (htrees known)⟩
  | mapping entries ih =>
    intro placed hpresents
    generalize hevents : placed.map PlacedEvent.event = events at hpresents
    cases hpresents with
    | hash contents =>
      obtain ⟨line, inner, line', rfl, rfl⟩ := exists_eq_of_enclosed hevents
      obtain ⟨trees, rfl, htrees⟩ := exists_entryTrees
        (fun e he => ih e he (hwf.values e he) (hfloats.values e he)) inner contents
      refine ⟨.mapping none trees line line', rfl, fun known => ?_⟩
      have hdenotes := Denotes.mapping none line line' (htrees known)
      rwa [firstOfEachKey, Entries.eraseDupsBy_of_nodup hwf.nodup] at hdenotes

/-- Of the events of a document composition makes one document. -/
theorem documentsOf_of_presents {tree : Node} (hwf : tree.WellFormed)
    (hfloats : FloatsReadable tree) {events : List Event}
    (hpresents : Presents (.ofNode tree) events) {placed : List PlacedEvent}
    (hplaced : placed.map PlacedEvent.event = .documentStart :: (events ++ [.documentEnd])) :
    Composition.documentsOf placed = .ok [tree] := by
  obtain ⟨line, inner, line', rfl, rfl⟩ := exists_eq_of_enclosed hplaced
  obtain ⟨t, rfl, ht⟩ := told hwf hfloats inner hpresents
  have hdenote : EventDocument.Denote [] [⟨t, line, line'⟩] [tree] := .cons (ht []) (.nil [])
  have hdocument := Composition.documentsOf_of_denote hdenote
  rwa [EventDocument.eventsOf, List.flatMap_singleton] at hdocument

/-! ## The events of what the standard codec writes -/

namespace Value

mutual

/-- The events of a value, its strings quoted as the standard codec quotes them. -/
def events : Value → List Event
  | .scalar s => [.scalar none (rawScalar s)]
  | .array items => .sequenceStart none :: (itemEvents items ++ [.sequenceEnd])
  | .hash entries => .mappingStart none :: (entryEvents entries ++ [.mappingEnd])
termination_by structural v => v

/-- The events of the items of an array. -/
def itemEvents : List Value → List Event
  | [] => []
  | v :: items => events v ++ itemEvents items
termination_by structural items => items

/-- The events of the entries of a hash. -/
def entryEvents : List (Value × Value) → List Event
  | [] => []
  | (key, v) :: entries => events key ++ (events v ++ entryEvents entries)
termination_by structural entries => entries

end

mutual

/-- The quotes of the standard codec are as many as a reader needs. -/
theorem presents_events : ∀ v : Value, Presents v v.events
  | .scalar s => .scalar (scalarEvent_rawScalar s)
  | .array items => .array (presents_itemEvents items)
  | .hash entries => .hash (presents_entryEvents entries)
termination_by structural v => v

theorem presents_itemEvents : ∀ items : List Value, PresentsItems items (itemEvents items)
  | [] => .nil
  | v :: items => .cons (presents_events v) (presents_itemEvents items)
termination_by structural items => items

theorem presents_entryEvents :
    ∀ entries : List (Value × Value), PresentsEntries entries (entryEvents entries)
  | [] => .nil
  | (key, v) :: entries =>
    .cons (presents_events key) (presents_events v) (presents_entryEvents entries)
termination_by structural entries => entries

end

end Value

end Laminate.Yaml
