import Laminate.Proofs.Node.Entries
import Laminate.Proofs.Yaml.EventTree

/-!
# What composition makes of events

The events of a node have the effect of the node as a whole, wherever it stands: in the innermost
open collection, as a key, or as a document (`takeIn_events`). So composition makes of the events of
documents what they denote (`documentsOf_of_denote`).

Whether the events denote something is decided at the completions, one after the other. Where the
first node does not fit, composition stops with what is wrong there (`stopsAt_events`), and no event
behind it changes that (`takeIn_append_of_error`).
-/

namespace Laminate

namespace Yaml

/-- A mapping keeps the first entry of each key. -/
theorem foldl_insertNew_eq_firstOfEachKey (pairs : List (String × Node)) :
    pairs.foldl (fun es e => Entries.insertNew es e.1 e.2) [] = firstOfEachKey pairs := by
  have hnew : (pairs.filter fun e => !Entries.contains ([] : Entries Node) e.1) = pairs :=
    List.filter_eq_self.mpr fun _ _ => rfl
  rw [Entries.foldl_insertNew_eq_eraseDupsBy, List.nil_append, hnew]
  rfl

namespace Composition

/-- Takes in events one by one. -/
abbrev takeIn (c : Composition) (events : List PlacedEvent) : Except Misfit Composition :=
  events.foldlM step c

theorem takeIn_append {c d : Composition} {events rest : List PlacedEvent}
    (h : c.takeIn events = .ok d) : c.takeIn (events ++ rest) = d.takeIn rest := by
  rw [takeIn, List.foldlM_append]
  exact congrArg (· >>= fun c => c.takeIn rest) h

theorem takeIn_append_of_error {c : Composition} {events : List PlacedEvent} {problem : Misfit}
    (h : c.takeIn events = .error problem) (following : List PlacedEvent) :
    c.takeIn (events ++ following) = .error problem := by
  rw [takeIn, List.foldlM_append]
  exact congrArg (· >>= fun c => c.takeIn following) h

theorem takeIn_cons {c d : Composition} {e : PlacedEvent} {events : List PlacedEvent}
    (h : c.step e = .ok d) : c.takeIn (e :: events) = d.takeIn events := by
  rw [takeIn, List.foldlM_cons, h]
  rfl

theorem takeIn_singleton (c : Composition) (e : PlacedEvent) : c.takeIn [e] = c.step e :=
  bind_pure _

/-! ## Events that denote something -/

/-- The same trees under construction with other anchored nodes. -/
def knowing (c : Composition) (known : Anchored) : Composition :=
  { c with anchored := known }

theorem complete_eq (c : Composition) (known : Anchored) (anchor : Option Nat) (n : Node)
    (line : Nat) : (c.knowing known).complete anchor n line
      = (c.knowing (known.noting anchor n)).place n line := by
  cases anchor <;> rfl

/-- Whether the events of a node have the effect of what they denote. -/
def TakesIn (t : EventTree) : Prop :=
  ∀ {known n known'}, Denotes known t n known' → ∀ c : Composition,
    (c.knowing known).takeIn t.events = (c.knowing known').place n t.line

/-- An item of the innermost open collection. -/
theorem TakesIn.item {t : EventTree} (h : TakesIn t) {known known' : Anchored} {n : Node}
    (hdenotes : Denotes known t n known') (c : Composition) (anchor : Option Nat)
    (done : List Node) :
    ((c.enter (.sequence anchor done)).knowing known).takeIn t.events
      = .ok ((c.enter (.sequence anchor (done ++ [n]))).knowing known') :=
  h hdenotes _

/-- A key of the innermost open collection. -/
theorem TakesIn.key {t : EventTree} (h : TakesIn t) {known known' : Anchored} {k : Node}
    {text : String} (hdenotes : Denotes known t k known') (htext : keyText? k = some text)
    (c : Composition) (anchor : Option Nat) (done : Entries Node) :
    ((c.enter (.mapping anchor done none)).knowing known).takeIn t.events
      = .ok ((c.enter (.mapping anchor done (some text))).knowing known') := by
  rw [h hdenotes, place]
  simp only [knowing, enter, htext]

/-- The value of the key that waits for one. -/
theorem TakesIn.value {t : EventTree} (h : TakesIn t) {known known' : Anchored} {n : Node}
    (hdenotes : Denotes known t n known') (c : Composition) (anchor : Option Nat)
    (done : Entries Node) (key : String) :
    ((c.enter (.mapping anchor done (some key))).knowing known).takeIn t.events
      = .ok ((c.enter (.mapping anchor (Entries.insertNew done key n) none)).knowing known') :=
  h hdenotes _

theorem takeIn_itemEvents {items : List EventTree} (h : ∀ t ∈ items, TakesIn t) :
    ∀ {known nodes known'}, DenotesItems known items nodes known' →
      ∀ (c : Composition) (anchor : Option Nat) (done : List Node),
        ((c.enter (.sequence anchor done)).knowing known).takeIn (EventTree.itemEvents items)
          = .ok ((c.enter (.sequence anchor (done ++ nodes))).knowing known') := by
  induction items with
  | nil =>
    intro known nodes known' hdenotes c anchor done
    cases hdenotes
    rw [List.append_nil]
    rfl
  | cons t items ih =>
    intro known nodes known' hdenotes c anchor done
    obtain ⟨ht, hitems⟩ := List.forall_mem_cons.mp h
    cases hdenotes with
    | @cons _ _ _ _ n _ nodes item others =>
      rw [EventTree.itemEvents, takeIn_append (ht.item item c anchor done)]
      refine (ih hitems others c anchor (done ++ [n])).trans ?_
      rw [List.append_assoc, List.singleton_append]

theorem takeIn_entryEvents {entries : List (EventTree × EventTree)}
    (h : ∀ e ∈ entries, TakesIn e.1 ∧ TakesIn e.2) :
    ∀ {known pairs known'}, DenotesEntries known entries pairs known' →
      ∀ (c : Composition) (anchor : Option Nat) (done : Entries Node),
        ((c.enter (.mapping anchor done none)).knowing known).takeIn (EventTree.entryEvents entries)
          = .ok ((c.enter (.mapping anchor (pairs.foldl (fun es e => Entries.insertNew es e.1 e.2)
            done) none)).knowing known') := by
  induction entries with
  | nil =>
    intro known pairs known' hdenotes c anchor done
    cases hdenotes
    rfl
  | cons e entries ih =>
    intro known pairs known' hdenotes c anchor done
    obtain ⟨⟨hkey, hvalue⟩, hentries⟩ := List.forall_mem_cons.mp h
    cases hdenotes with
    | cons keyNode keyText valueNode others =>
      rw [EventTree.entryEvents, takeIn_append (hkey.key keyNode keyText c anchor done),
        takeIn_append (hvalue.value valueNode c anchor done _)]
      exact ih hentries others c anchor _

/-- The events of a node have the effect of what they denote, whatever is under construction. -/
theorem takeIn_events (t : EventTree) : TakesIn t := by
  induction t using EventTree.induction with
  | scalar anchor raw line =>
    intro known n known' hdenotes c
    cases hdenotes
    exact (takeIn_singleton _ _).trans (complete_eq c known anchor _ line)
  | reference id line =>
    intro known n known' hdenotes c
    cases hdenotes with
    | reference _ found =>
      rw [EventTree.events, takeIn_singleton, step]
      simp only [knowing, found]
      rfl
  | sequence anchor items first last ih =>
    intro known n known' hdenotes c
    cases hdenotes with
    | @sequence _ known₁ _ nodes _ _ _ contents =>
      have hopen : (c.knowing known).step ⟨.sequenceStart anchor, first⟩
          = .ok ((c.enter (.sequence anchor [])).knowing known) := rfl
      rw [EventTree.events, takeIn_cons hopen,
        takeIn_append (takeIn_itemEvents ih contents c anchor []), takeIn_singleton]
      exact complete_eq c known₁ anchor _ last
  | mapping anchor entries first last ih =>
    intro known n known' hdenotes c
    cases hdenotes with
    | @mapping _ known₁ _ pairs _ _ _ contents =>
      have hopen : (c.knowing known).step ⟨.mappingStart anchor, first⟩
          = .ok ((c.enter (.mapping anchor [] none)).knowing known) := rfl
      rw [EventTree.events, takeIn_cons hopen,
        takeIn_append (takeIn_entryEvents ih contents c anchor []), takeIn_singleton,
        foldl_insertNew_eq_firstOfEachKey]
      exact complete_eq c known₁ anchor _ last

/-! ## The first event that does not fit -/

/-- Whether the next node is a key of the innermost open collection. -/
def AwaitsKey (c : Composition) : Prop :=
  ∃ outer anchor entries, c = enter outer (.mapping anchor entries none)

/-- A collection is no key. -/
theorem AwaitsKey.place {c : Composition} (h : c.AwaitsKey) {n : Node}
    (hkind : n.kind.isCollection = true) (line : Nat) :
    c.place n line = .error (.keyKind line n.kind) := by
  obtain ⟨outer, anchor, entries, rfl⟩ := h
  cases n with
  | scalar s => cases s.isCollection_kind.symm.trans hkind
  | sequence | mapping => rfl

theorem AwaitsKey.knowing {c : Composition} (h : c.AwaitsKey) (known : Anchored) :
    (c.knowing known).AwaitsKey := by
  obtain ⟨outer, anchor, entries, rfl⟩ := h
  exact ⟨outer.knowing known, anchor, entries, rfl⟩

/-- The events of a collection as a key. -/
theorem AwaitsKey.takeIn {c : Composition} (h : c.AwaitsKey) {known known' : Anchored}
    {t : EventTree} {n : Node} (hdenotes : Denotes known t n known')
    (hkind : n.kind.isCollection = true) :
    (c.knowing known).takeIn t.events = .error (.keyKind t.line n.kind) :=
  (takeIn_events t hdenotes c).trans ((h.knowing known').place hkind t.line)

/-- Whether composition stops with a problem at a completion that comes within some events. -/
def StopsAt (c : Composition) (seen events : List PlacedEvent) (d : Completion)
    (problem : Misfit) : Prop :=
  ∃ met, met <+: events ∧ d.seen = seen ++ met ∧ c.takeIn met = .error problem

theorem StopsAt.append {c : Composition} {seen events : List PlacedEvent} {d : Completion}
    {problem : Misfit} (h : c.StopsAt seen events d problem) (rest : List PlacedEvent) :
    c.StopsAt seen (events ++ rest) d problem := by
  obtain ⟨met, hmet, hseen, herror⟩ := h
  exact ⟨met, hmet.trans (List.prefix_append _ _), hseen, herror⟩

theorem StopsAt.behind {c c' : Composition} {seen events rest : List PlacedEvent} {d : Completion}
    {problem : Misfit} (h : c'.StopsAt (seen ++ events) rest d problem)
    (hevents : c.takeIn events = .ok c') : c.StopsAt seen (events ++ rest) d problem := by
  obtain ⟨met, hmet, hseen, herror⟩ := h
  refine ⟨events ++ met, (List.prefix_append_right_inj _).mpr hmet, ?_, ?_⟩
  · rw [hseen, List.append_assoc]
  · rw [takeIn_append hevents, herror]

/-- A node that is wrong as a whole is a collection as a key. -/
theorem stopsAt_of_denotes {c : Composition} {known known' : Anchored} {t : EventTree} {n : Node}
    (hdenotes : Denotes known t n known') (hkind : t.kind? = some n.kind)
    {before : List Completion} {isKey : Bool} {seen : List PlacedEvent} {d : Completion}
    {problem : Misfit}
    (hfirst : firstMisfit? before [⟨t, isKey, seen ++ t.events⟩] = some (d, problem))
    (hawaits : isKey = true → c.AwaitsKey) :
    (c.knowing known).StopsAt seen t.events d problem := by
  rw [firstMisfit?_singleton] at hfirst
  obtain ⟨_, hmisfit, hd⟩ := Option.map_eq_some_iff.mp hfirst
  cases hd
  rw [misfit?_eq_some_iff, Completion.kind?_of_kind? hkind] at hmisfit
  obtain ⟨hnone, -⟩ | ⟨_, hsome, hkey, hcollection, rfl⟩ := hmisfit
  · cases hnone
  · cases hsome
    exact ⟨t.events, List.prefix_rfl, rfl, (hawaits hkey).takeIn hdenotes hcollection⟩

/-- Whether composition stops at the first completion in a node where something is wrong. -/
def StopsIfUnfitting (t : EventTree) : Prop :=
  ∀ {before known isKey seen d problem}, Agrees before known →
    firstMisfit? before (t.completions isKey seen) = some (d, problem) →
    ∀ c : Composition, (isKey = true → c.AwaitsKey) →
      (c.knowing known).StopsAt seen t.events d problem

theorem stopsAt_itemEvents {items : List EventTree} (h : ∀ t ∈ items, StopsIfUnfitting t) :
    ∀ {before known seen d problem}, Agrees before known →
      firstMisfit? before (EventTree.itemCompletions seen items) = some (d, problem) →
      ∀ (c : Composition) (anchor : Option Nat) (done : List Node),
        ((c.enter (.sequence anchor done)).knowing known).StopsAt seen (EventTree.itemEvents items)
          d problem := by
  induction items with
  | nil => exact fun _ hfirst => nomatch hfirst
  | cons t items ih =>
    intro before known seen d problem hagrees hfirst c anchor done
    obtain ⟨ht, hitems⟩ := List.forall_mem_cons.mp h
    rw [EventTree.itemCompletions, firstMisfit?_append, Option.or_eq_some_iff] at hfirst
    rw [EventTree.itemEvents]
    obtain hfirst | ⟨hnone, hfirst⟩ := hfirst
    · exact (ht hagrees hfirst _ Bool.noConfusion).append _
    · obtain ⟨n, _, hn, hagrees, -⟩ := exists_denotes t false seen hagrees hnone
      exact (ih hitems hagrees hfirst c anchor _).behind
        (TakesIn.item (takeIn_events t) hn c anchor done)

theorem stopsAt_entryEvents {entries : List (EventTree × EventTree)}
    (h : ∀ e ∈ entries, StopsIfUnfitting e.1 ∧ StopsIfUnfitting e.2) :
    ∀ {before known seen d problem}, Agrees before known →
      firstMisfit? before (EventTree.entryCompletions seen entries) = some (d, problem) →
      ∀ (c : Composition) (anchor : Option Nat) (done : Entries Node),
        ((c.enter (.mapping anchor done none)).knowing known).StopsAt seen
          (EventTree.entryEvents entries) d problem := by
  induction entries with
  | nil => exact fun _ hfirst => nomatch hfirst
  | cons e entries ih =>
    intro before known seen d problem hagrees hfirst c anchor done
    obtain ⟨⟨hkey, hvalue⟩, hentries⟩ := List.forall_mem_cons.mp h
    rw [EventTree.entryCompletions, firstMisfit?_append, firstMisfit?_append,
      Option.or_eq_some_iff, Option.or_eq_some_iff] at hfirst
    rw [EventTree.entryEvents]
    -- the first misfit is in the key, in its value, or in the entries behind them
    obtain hfirst | ⟨hnone, hfirst⟩ := hfirst
    · exact (hkey hagrees hfirst _ fun _ => ⟨c, anchor, done, rfl⟩).append _
    obtain ⟨k, _, hk, hagrees, hscalar⟩ := exists_denotes e.1 true seen hagrees hnone
    obtain ⟨text, htext⟩ := exists_keyText? (hscalar rfl)
    refine StopsAt.behind ?_ (TakesIn.key (takeIn_events e.1) hk htext c anchor done)
    obtain hfirst | ⟨hnone, hfirst⟩ := hfirst
    · exact (hvalue hagrees hfirst (c.enter (.mapping anchor done (some text)))
        Bool.noConfusion).append _
    obtain ⟨n, _, hn, hagrees, -⟩ := exists_denotes e.2 false _ hagrees hnone
    exact (ih hentries hagrees hfirst c anchor _).behind
      (TakesIn.value (takeIn_events e.2) hn c anchor done text)

/-- Composition stops at the first completion where something is wrong. -/
theorem stopsAt_events (t : EventTree) : StopsIfUnfitting t := by
  induction t using EventTree.induction with
  | scalar anchor raw line =>
    intro before known isKey seen d problem _ hfirst c hawaits
    exact stopsAt_of_denotes (.scalar known anchor raw line) rfl hfirst hawaits
  | reference id line =>
    intro before known isKey seen d problem hagrees hfirst c hawaits
    rw [EventTree.completions, firstMisfit?_singleton] at hfirst
    obtain ⟨_, hmisfit, hd⟩ := Option.map_eq_some_iff.mp hfirst
    cases hd
    rw [misfit?_eq_some_iff, Completion.kind?_reference rfl, ← hagrees id] at hmisfit
    refine ⟨_, List.prefix_rfl, rfl, ?_⟩
    obtain ⟨hunknown, rfl⟩ | ⟨_, hkind, hkey, hcollection, rfl⟩ := hmisfit
    · -- no node with this anchor is complete, so none is known
      rw [EventTree.events, takeIn_singleton, step]
      simp only [knowing, Option.map_eq_none_iff.mp hunknown]
      rfl
    · obtain ⟨n, hn, rfl⟩ := Option.map_eq_some_iff.mp hkind
      exact (hawaits hkey).takeIn (.reference line hn) hcollection
  | sequence anchor items first last ih =>
    intro before known isKey seen d problem hagrees hfirst c hawaits
    rw [EventTree.completions, firstMisfit?_append, Option.or_eq_some_iff] at hfirst
    obtain hfirst | ⟨hnone, hfirst⟩ := hfirst
    · have hopen : (c.knowing known).takeIn [⟨.sequenceStart anchor, first⟩]
          = .ok ((c.enter (.sequence anchor [])).knowing known) := rfl
      exact ((stopsAt_itemEvents ih hagrees hfirst c anchor []).append _).behind hopen
    · obtain ⟨_, _, hnodes, -⟩ :=
        exists_denotesItems (fun t _ => exists_denotes t) _ hagrees hnone
      exact stopsAt_of_denotes (.sequence anchor first last hnodes) rfl hfirst hawaits
  | mapping anchor entries first last ih =>
    intro before known isKey seen d problem hagrees hfirst c hawaits
    rw [EventTree.completions, firstMisfit?_append, Option.or_eq_some_iff] at hfirst
    obtain hfirst | ⟨hnone, hfirst⟩ := hfirst
    · have hopen : (c.knowing known).takeIn [⟨.mappingStart anchor, first⟩]
          = .ok ((c.enter (.mapping anchor [] none)).knowing known) := rfl
      exact ((stopsAt_entryEvents ih hagrees hfirst c anchor []).append _).behind hopen
    · obtain ⟨_, _, hpairs, -⟩ := exists_denotesEntries
        (fun e _ => ⟨exists_denotes e.1, exists_denotes e.2⟩) _ hagrees hnone
      exact stopsAt_of_denotes (.mapping anchor first last hpairs) rfl hfirst hawaits

/-! ## Documents -/

theorem takeIn_documentEvents {known known' : Anchored} {d : EventDocument} {n : Node}
    (hroot : Denotes known d.root n known') (done : List Node) :
    takeIn ⟨done, [], known⟩ d.events = .ok ⟨done ++ [n], [], known'⟩ := by
  have hplace : takeIn ⟨done, [], known⟩ d.root.events = .ok ⟨done ++ [n], [], known'⟩ :=
    takeIn_events d.root hroot ⟨done, [], []⟩
  rw [EventDocument.events, takeIn_cons (d := ⟨done, [], known⟩) rfl, takeIn_append hplace,
    takeIn_singleton]
  rfl

theorem takeIn_eventsOf {docs : List EventDocument} : ∀ {known nodes} (done : List Node),
    EventDocument.Denote known docs nodes →
    ∃ known', takeIn ⟨done, [], known⟩ (EventDocument.eventsOf docs)
      = .ok ⟨done ++ nodes, [], known'⟩ := by
  induction docs with
  | nil =>
    intro known nodes done hdenote
    cases hdenote
    exact ⟨known, by rw [List.append_nil]; rfl⟩
  | cons d docs ih =>
    intro known nodes done hdenote
    cases hdenote with
    | @cons _ known₁ _ n _ nodes root others =>
      obtain ⟨known₂, h⟩ := ih (done ++ [n]) others
      refine ⟨known₂, (takeIn_append (takeIn_documentEvents root done)).trans (h.trans ?_)⟩
      rw [List.append_assoc, List.singleton_append]

theorem stopsAt_eventsOf {docs : List EventDocument} :
    ∀ {before known seen d problem}, Agrees before known →
      firstMisfit? before (EventDocument.completionsOf seen docs) = some (d, problem) →
      ∀ done, StopsAt ⟨done, [], known⟩ seen (EventDocument.eventsOf docs) d problem := by
  induction docs with
  | nil => exact fun _ hfirst => nomatch hfirst
  | cons doc docs ih =>
    intro before known seen d problem hagrees hfirst done
    rw [EventDocument.completionsOf, firstMisfit?_append, Option.or_eq_some_iff] at hfirst
    obtain hfirst | ⟨hnone, hfirst⟩ := hfirst
    · have hopen : takeIn ⟨done, [], known⟩ [⟨.documentStart, doc.first⟩]
          = .ok ⟨done, [], known⟩ := rfl
      have hroot := stopsAt_events doc.root hagrees hfirst ⟨done, [], []⟩ Bool.noConfusion
      exact ((hroot.append [⟨.documentEnd, doc.last⟩]).behind hopen).append _
    · obtain ⟨n, known', hn, hagrees, -⟩ := exists_denotes doc.root false _ hagrees hnone
      exact (ih hagrees hfirst (done ++ [n])).behind (takeIn_documentEvents hn done)

theorem documentsOf_of_denote {docs : List EventDocument} {nodes : List Node}
    (h : EventDocument.Denote [] docs nodes) :
    documentsOf (EventDocument.eventsOf docs) = .ok nodes := by
  obtain ⟨known, htakeIn⟩ := takeIn_eventsOf [] h
  rw [documentsOf]
  exact congrArg (Except.map documents) htakeIn

/-- **Composition builds what the events say.** Where every node of the documents fits at its
completion, the events of the documents denote one list of nodes, and composition delivers it.
Otherwise composition stops at the first node that does not fit, with what is wrong there, whatever
events follow. -/
theorem documentsOf_eventsOf (docs : List EventDocument) :
    (Fitting (EventDocument.completionsOf [] docs) →
      ∃ nodes, documentsOf (EventDocument.eventsOf docs) = .ok nodes ∧
        ∀ others, EventDocument.Denote [] docs others ↔ others = nodes) ∧
    (¬ Fitting (EventDocument.completionsOf [] docs) → ∃ before c after problem,
      EventDocument.completionsOf [] docs = before ++ c :: after ∧ Fitting before ∧
      misfit? before c = some problem ∧ c.seen <+: EventDocument.eventsOf docs ∧
      ∀ following, documentsOf (c.seen ++ following) = .error problem) := by
  constructor
  · intro hfitting
    obtain ⟨nodes, hnodes⟩ :=
      EventDocument.exists_denote docs [] agrees_nil (fitting_iff.mp hfitting)
    have hcomposed := documentsOf_of_denote hnodes
    refine ⟨nodes, hcomposed, fun others => ⟨fun hothers => ?_, fun h => h ▸ hnodes⟩⟩
    exact Except.ok.inj ((documentsOf_of_denote hothers).symm.trans hcomposed)
  · intro hunfitting
    obtain ⟨⟨c, problem⟩, hfirst⟩ :=
      Option.ne_none_iff_exists'.mp (fun h => hunfitting (fitting_iff.mpr h))
    obtain ⟨before, after, hcompletions, hproblem, hbefore⟩ := firstMisfit?_eq_some hfirst
    obtain ⟨met, hmet, hseen, herror⟩ := stopsAt_eventsOf agrees_nil hfirst []
    rw [List.nil_append] at hseen
    refine ⟨before, c, after, problem, hcompletions, fitting_iff.mpr hbefore, hproblem,
      hseen ▸ hmet, fun following => ?_⟩
    have hfollowing := takeIn_append_of_error herror following
    rw [hseen, documentsOf]
    exact congrArg (Except.map documents) hfollowing

/-- A mapping with two entries of one key, whose second value is anchored as well, an alias to each
of the two values, one of them as a key, and a document that refers to the first one. -/
def aliasDocuments : List EventDocument :=
  let word (anchor : Option Nat) (text : String) (line : Nat) : EventTree :=
    .scalar anchor ⟨text, .quoted, none⟩ line
  [⟨.mapping none
      [(word none "a" 1, word (some 1) "one" 1), (word none "a" 2, word (some 2) "two" 2),
        (.reference 1 3, .sequence none [.reference 2 3, word none "three" 3] 3 3)] 1 4, 1, 4⟩,
    ⟨.reference 1 5, 5, 5⟩]

/-- A sequence that contains itself. -/
def cyclicDocument : EventDocument :=
  ⟨.sequence (some 1) [.reference 1 2] 1 3, 1, 4⟩

theorem documentsOf_eventsOf_of_aliases :
    (Fitting (EventDocument.completionsOf [] aliasDocuments) ∧
      EventDocument.Denote [] aliasDocuments
        [.mapping [("a", .string "one"), ("one", .sequence [.string "two", .string "three"])],
          .string "one"]) ∧
    ¬ Fitting (EventDocument.completionsOf [] [cyclicDocument]) ∧
      ∃ met, met <+: EventDocument.eventsOf [cyclicDocument] ∧
        ∀ following, documentsOf (met ++ following) = .error (.unknownAnchor 2) := by
  constructor
  · have hfitting : Fitting (EventDocument.completionsOf [] aliasDocuments) := fitting_iff.mpr rfl
    obtain ⟨nodes, hnodes, hdenote⟩ := (documentsOf_eventsOf aliasDocuments).1 hfitting
    exact ⟨hfitting, (hdenote _).mpr (Except.ok.inj (Eq.trans rfl hnodes))⟩
  · have hunfitting : ¬ Fitting (EventDocument.completionsOf [] [cyclicDocument]) :=
      fun h => nomatch fitting_iff.mp h
    obtain ⟨_, c, _, problem, -, -, -, hmet, herror⟩ :=
      (documentsOf_eventsOf [cyclicDocument]).2 hunfitting
    refine ⟨hunfitting, c.seen, hmet, fun following => ?_⟩
    obtain ⟨rest, hrest⟩ := hmet
    have hproblem : documentsOf (c.seen ++ rest) = .error (.unknownAnchor 2) := hrest ▸ rfl
    rw [herror, ← hproblem, herror]

end Composition

end Yaml

end Laminate
