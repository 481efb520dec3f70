import Laminate.Proofs.Evaluation.Alike
import Laminate.Proofs.Evaluation.Changes

/-!
# The steps of a phase

Running a call is a step: its answer takes its place, or its key goes and entries join its mapping,
or everything stays (`Outcome`). A call that is still to be run stands where it stood when the phase
began (`Pending`), however many steps have been taken, since the places of calls are apart
(`Pending.steps`). So each step makes the changes of its outcome to the tree that the phase began
with (`runCall_changed`), and a run makes those of its steps (`runCalls_changed`).
-/

namespace Laminate

namespace Evaluation

/-- What a step does to the tree. -/
inductive Outcome
  /-- The value takes the place of the call. -/
  | replaced (value : Node)
  /-- The key of the call is gone, and the entries have joined its mapping. -/
  | injected (entries : Entries Node)
  /-- Nothing. -/
  | kept

/-- A call and the state in which it runs. -/
structure Step where
  before : Evaluation
  call : PlannedCall

namespace Step

/-- The position of the call. -/
def place (s : Step) : List String :=
  s.call.site.place.cursor.components

theorem place_eq {s t : Step} (h : s.call = t.call) : s.place = t.place :=
  congrArg (fun call => call.site.place.cursor.components) h

/-- The state after the call. -/
def after (s : Step) : Evaluation :=
  (s.before.runCall s.call).2

/-- What becomes of the call. Of the entries that it answers with, those join its mapping whose keys
the mapping does not have once the call is gone. -/
def outcome (s : Step) : Outcome :=
  match s.before.answer s.call, s.place.getLast?, s.before.tree.resolve s.place.dropLast with
  | .ok (.replace value), _, _ => .replaced value
  | .ok (.inject entries), some key, .ok (.mapping siblings) =>
    .injected (entries.filter fun e => !Entries.contains (Entries.erase siblings key) e.1)
  | _, _, _ => .kept

/-- The changes that the step makes. -/
def changes (s : Step) : Changes :=
  match s.outcome with
  | .replaced value => .put s.place value
  | .injected entries => .inject s.place entries
  | .kept => .empty

end Step

/-- The steps of a run. -/
def steps (state : Evaluation) : List PlannedCall → List Step
  | [] => []
  | call :: calls => ⟨state, call⟩ :: steps (state.runCall call).2 calls

/-- The changes that steps make. -/
def changesOf : List Step → Changes
  | [] => .empty
  | s :: rest => s.changes.followedBy (changesOf rest)

theorem steps_append (calls others : List PlannedCall) : ∀ state : Evaluation,
    state.steps (calls ++ others)
      = state.steps calls ++ (state.runCalls calls).2.steps others := by
  induction calls with
  | nil => exact fun _ => rfl
  | cons call calls ih => exact fun state => congrArg (_ :: ·) (ih _)

theorem map_call_steps (calls : List PlannedCall) : ∀ state : Evaluation,
    (state.steps calls).map Step.call = calls := by
  induction calls with
  | nil => exact fun _ => rfl
  | cons call calls ih => exact fun state => congrArg (call :: ·) (ih _)

theorem mem_calls_of_mem_steps {state : Evaluation} {calls : List PlannedCall} {s : Step}
    (h : s ∈ state.steps calls) : s.call ∈ calls := by
  have hcall : s.call ∈ (state.steps calls).map Step.call := List.mem_map_of_mem h
  rwa [map_call_steps] at hcall

/-- A step of a run is taken in the state in which the calls before it have left the tree. -/
theorem exists_of_mem_steps {s : Step} : ∀ {state : Evaluation} {calls : List PlannedCall},
    s ∈ state.steps calls → ∃ done rest, calls = done ++ s.call :: rest ∧
      s.before = (state.runCalls done).2
  | state, call :: calls, h => by
    rcases List.mem_cons.mp h with rfl | h
    · exact ⟨[], calls, rfl, rfl⟩
    · obtain ⟨done, rest, rfl, hbefore⟩ := exists_of_mem_steps h
      exact ⟨call :: done, rest, rfl, hbefore⟩

/-! ## Changes of steps -/

section Changes

variable {stepList : List Step} {path : List String} {s : Step}

theorem changesOf_append (as bs : List Step) :
    changesOf (as ++ bs) = (changesOf as).followedBy (changesOf bs) := by
  induction as with
  | nil => rfl
  | cons a as ih =>
    funext path
    rw [List.cons_append, changesOf, changesOf, ih]
    exact (Change.followedBy_assoc _ _ _).symm

theorem changesOf_singleton (s : Step) : changesOf [s] = s.changes :=
  funext fun _ => Change.followedBy_none _

theorem changes_of_kept (h : s.outcome = .kept) : s.changes = .empty := by
  rw [Step.changes, h]

theorem changes_of_replaced {value : Node} (h : s.outcome = .replaced value) :
    s.changes = .put s.place value := by
  rw [Step.changes, h]

theorem changes_of_injected {entries : Entries Node} (h : s.outcome = .injected entries) :
    s.changes = .inject s.place entries := by
  rw [Step.changes, h]

theorem value_changes_of_ne (h : path ≠ s.place) : (s.changes path).value = none := by
  unfold Step.changes
  cases s.outcome with
  | replaced value => simp [Changes.put, h]
  | injected entries => rfl
  | kept => rfl

theorem gone_changes_iff : (s.changes path).gone = true ↔
    path = s.place ∧ ∃ entries, s.outcome = .injected entries := by
  unfold Step.changes
  cases s.outcome with
  | replaced value => simp [Changes.put]
  | injected entries => simp [Changes.inject]
  | kept => simp [Changes.empty]

theorem gone_changesOf :
    (changesOf stepList path).gone = stepList.any fun s => (s.changes path).gone := by
  induction stepList with
  | nil => rfl
  | cons s rest ih => exact congrArg ((s.changes path).gone || ·) ih

/-- The entries that join a mapping are those of its steps, in order. -/
theorem joined_changesOf :
    (changesOf stepList path).joined = stepList.flatMap fun s => (s.changes path).joined := by
  induction stepList with
  | nil => rfl
  | cons s rest ih => exact congrArg ((s.changes path).joined ++ ·) ih

theorem value_changesOf_of_ne (h : ∀ s ∈ stepList, path ≠ s.place) :
    (changesOf stepList path).value = none := by
  induction stepList with
  | nil => rfl
  | cons s rest ih =>
    obtain ⟨hs, hrest⟩ := List.forall_mem_cons.mp h
    rw [changesOf, Changes.followedBy, Change.followedBy, value_changes_of_ne hs, ih hrest]
    rfl

/-- Steps change nothing where their calls do not stand below. -/
theorem changesOf_of_not_prefix (h : ∀ s ∈ stepList, ¬path <+: s.place) :
    changesOf stepList path = {} := by
  induction stepList with
  | nil => rfl
  | cons s rest ih =>
    obtain ⟨hs, hrest⟩ := List.forall_mem_cons.mp h
    have hplace : path ≠ s.place := fun heq => hs (heq ▸ List.prefix_refl _)
    have hparent : path ≠ s.place.dropLast := fun heq => hs (heq ▸ List.dropLast_prefix _)
    have hchanges : s.changes path = {} := by
      unfold Step.changes
      cases s.outcome with
      | replaced value => exact Changes.put_of_ne hplace
      | injected entries => simp [Changes.inject, hplace, hparent]
      | kept => rfl
    rw [changesOf, Changes.followedBy, hchanges, ih hrest]
    rfl

/-- The value in the place of a step is its own. -/
theorem value_changesOf_of_mem (hs : s ∈ stepList) (hapart : (stepList.map Step.place).Nodup) :
    (changesOf stepList s.place).value = (s.changes s.place).value := by
  obtain ⟨as, bs, rfl⟩ := List.append_of_mem hs
  rw [List.map_append, List.map_cons, List.nodup_append] at hapart
  obtain ⟨-, hafter, hbefore⟩ := hapart
  have has : (changesOf as s.place).value = none := value_changesOf_of_ne fun t ht heq =>
    hbefore _ (List.mem_map_of_mem ht) _ List.mem_cons_self heq.symm
  have hbs : (changesOf bs s.place).value = none := value_changesOf_of_ne fun t ht heq =>
    (List.nodup_cons.mp hafter).1 (heq ▸ List.mem_map_of_mem ht)
  rw [changesOf_append, Changes.followedBy, Change.followedBy, has, changesOf, Changes.followedBy,
    Change.followedBy, hbs, Option.or_none]
  rfl

/-- Steps of calls change nothing on the way to a position, unless a call was carried out there. -/
theorem keeps_changesOf {tree n : Node} (hat : tree.At path n)
    (hstands : ∀ s ∈ stepList, ∃ text, tree.At s.place (.string text))
    (hkept : ∀ s ∈ stepList, path = s.place → ∀ entries, s.outcome ≠ .injected entries) :
    (changesOf stepList).Keeps path := by
  refine fun other hother => Bool.eq_false_iff.mpr fun hgone => ?_
  rw [gone_changesOf] at hgone
  obtain ⟨s, hs, hgone⟩ := List.any_eq_true.mp hgone
  obtain ⟨rfl, entries, houtcome⟩ := gone_changes_iff.mp hgone
  obtain ⟨text, htext⟩ := hstands s hs
  exact hkept s hs (htext.eq_of_beginning_scalar hat hother).symm entries houtcome

end Changes

/-! ## One step -/

/-- A call of a tree that is still to be run: what contains it is still there, and nothing has taken
its place. -/
structure Pending (tree : Node) (c : Changes) (call : PlannedCall) : Prop where
  stands : ∃ text, tree.At call.site.place.cursor.components (.string text)
  keeps : c.Keeps call.site.place.cursor.components
  untouched : (c call.site.place.cursor.components).value = none

section Step

variable {tree : Node} {c : Changes} {call other : PlannedCall} {state : Evaluation}

/-- What stands in the place of a pending call can be written. -/
theorem respond_replace (hwf : tree.WellFormed) (hpending : Pending tree c call)
    (hstate : state.tree = tree.changed c) (value : Node) :
    respond state.tree call.site.place.cursor (.replace value)
      = .ok (tree.changed (c.followedBy (.put call.site.place.cursor.components value))) := by
  obtain ⟨⟨text, hat⟩, hkeeps, huntouched⟩ := hpending
  have hvalue : (c.followedBy (.put call.site.place.cursor.components value)
      call.site.place.cursor.components).value = some value := by
    simp [Changes.followedBy, Change.followedBy, Changes.put, huntouched]
  have hreplace := Node.replace_followedBy hat hwf hkeeps (Changes.keeps_put _ _ value)
    fun other hother => Changes.put_of_ne fun heq => hother (heq ▸ List.prefix_refl _)
  rw [Node.changed_scalar, Changes.below, List.append_nil, hvalue] at hreplace
  rw [respond, Cursor.replace, hstate]
  exact congrArg (Except.mapError _) hreplace

/-- A call that answers with entries is carried out or refused, and then it is kept. -/
theorem outcome_of_inject {entries : Entries Node}
    (hanswer : state.answer call = .ok (.inject entries)) :
    (∃ path key siblings, call.site.place.cursor.components = path ++ [key] ∧
      state.tree.resolve path = .ok (.mapping siblings) ∧
      (Step.mk state call).outcome = .injected
        (entries.filter fun e => !Entries.contains (Entries.erase siblings key) e.1)) ∨
    ((Step.mk state call).outcome = .kept ∧
      ∃ fault, respond state.tree call.site.place.cursor (.inject entries) = .error fault) := by
  rcases List.eq_nil_or_concat call.site.place.cursor.components with hroot | ⟨path, key, hplace⟩
  · refine Or.inr ⟨?_, .structural "$" .injectAtRoot, ?_⟩
    · simp [Step.outcome, Step.place, hanswer, hroot]
    · simp [respond, injectAt, Cursor.last?, hroot]
  · rw [List.concat_eq_append] at hplace
    have hlast : call.site.place.cursor.last? = some key := by
      rw [Cursor.last?, hplace, List.getLast?_append_cons, List.getLast?_singleton]
    have hparent : call.site.place.cursor.parent.resolve state.tree = state.tree.resolve path := by
      rw [Cursor.parent, Cursor.resolve, hplace, List.dropLast_concat]
    simp only [Step.outcome, Step.place, respond, injectAt, hanswer, hlast, hparent, hplace,
      List.getLast?_append_cons, List.getLast?_singleton, List.dropLast_concat]
    cases hresolve : state.tree.resolve path with
    | error fault => exact Or.inr ⟨rfl, _, rfl⟩
    | ok container =>
      cases container with
      | mapping siblings => exact Or.inl ⟨path, key, siblings, rfl, hresolve, rfl⟩
      | sequence items => exact Or.inr ⟨rfl, _, rfl⟩
      | scalar s => exact Or.inr ⟨rfl, _, rfl⟩

/-- The mapping of a pending call is one of the tree with its changes, and to let the key of the
call go and entries join is to write it anew. -/
theorem Pending.container (hpending : Pending tree c call) (hstate : state.tree = tree.changed c)
    (hstate_wf : state.tree.WellFormed) {siblings : Entries Node} {path : List String}
    {key : String} (hplace : call.site.place.cursor.components = path ++ [key])
    (hsiblings : state.tree.resolve path = .ok (.mapping siblings)) :
    ∃ es, tree.At path (.mapping es) ∧ c.Keeps path ∧
      state.tree.At path (.mapping siblings) ∧
      ∀ new, (Node.mapping es).changed ((c.followedBy (.inject (path ++ [key]) new)).below path)
        = .mapping (Entries.erase siblings key ++ new) := by
  obtain ⟨⟨text, hat⟩, hkeeps, -⟩ := hpending
  rw [hplace] at hat hkeeps
  obtain ⟨m, hm, hentry⟩ := hat.exists_of_append
  have hkeeps_path : c.Keeps path := hkeeps.of_prefix (List.prefix_append _ _)
  have hthere := hm.changed hkeeps_path
  rw [← hstate] at hthere
  have hresolve := hthere.resolve
  rw [hsiblings, Except.ok.injEq] at hresolve
  cases m with
  | scalar s => cases hentry
  | sequence items => cases hresolve
  | mapping es =>
    refine ⟨es, hm, hkeeps_path, hresolve ▸ hthere, fun new => ?_⟩
    have hsplit : siblings = Node.changedEntries es (c.below path) ++ (c.below path []).joined :=
      Node.mapping.inj hresolve
    -- the key is in the part of the mapping that was there from the beginning, and nowhere else
    have hkey : key ∈ Entries.keys (Node.changedEntries es (c.below path)) := by
      have hkept : ((c.below path) [key]).gone = false := hkeeps _ (List.prefix_refl _)
      cases hentry with
      | key found _ =>
        rw [← Entries.contains_iff, Entries.contains, Node.get?_changedEntries, hkept, found]
        rfl
    have hjoined : key ∉ Entries.keys (c.below path []).joined := by
      have hsiblings_nodup : (Entries.keys siblings).Nodup := (hstate_wf.resolve hsiblings).nodup
      rw [hsplit, Entries.keys, List.map_append, List.nodup_append] at hsiblings_nodup
      exact fun hmem => hsiblings_nodup.2.2 key hkey key hmem rfl
    have hbelow : (c.followedBy (.inject (path ++ [key]) new)).below path
        = (c.below path).followedBy (.inject [key] new) := by
      rw [← Changes.below_inject path]
      rfl
    rw [hbelow, Node.changed_inject hjoined, hsplit]

/-- To carry out a pending call is to let its entry go and the new entries join its mapping. -/
theorem injectAt_changed (hwf : tree.WellFormed) (hpending : Pending tree c call)
    (hstate : state.tree = tree.changed c) (hstate_wf : state.tree.WellFormed)
    {entries siblings : Entries Node} (hnodup : (Entries.keys entries).Nodup)
    {path : List String} {key : String}
    (hplace : call.site.place.cursor.components = path ++ [key])
    (hsiblings : state.tree.resolve path = .ok (.mapping siblings)) :
    injectAt state.tree call.site.place.cursor entries =
      .ok (tree.changed (c.followedBy (.inject call.site.place.cursor.components
        (entries.filter fun e => !Entries.contains (Entries.erase siblings key) e.1)))) := by
  obtain ⟨es, hm, hkeeps, -, hmerged⟩ := hpending.container hstate hstate_wf hplace hsiblings
  rw [injectAt, Cursor.last?, Cursor.parent, hplace, List.getLast?_append_cons,
    List.getLast?_singleton, List.dropLast_concat]
  simp only [Cursor.resolve, hsiblings, Cursor.replace]
  rw [Entries.foldl_insertNew_eq hnodup, ← hmerged, hstate, Node.replace_followedBy hm hwf hkeeps
    (Changes.keeps_inject path key _) fun _ => Changes.inject_of_not_prefix]
  rfl

/-- The answers of calls can be carried out: they are all values, or they are well-formed, and so is
the tree. -/
def Answerable (tree : Node) (calls : List PlannedCall) : Prop :=
  (∀ call ∈ calls, call.operator.AnswersByValue) ∨
    (∀ call ∈ calls, call.operator.AnswersWell) ∧ tree.WellFormed

theorem Answerable.wellFormed (h : Answerable state.tree [call]) {entries : Entries Node}
    (hanswer : state.answer call = .ok (.inject entries)) :
    (Node.mapping entries).WellFormed ∧ state.tree.WellFormed := by
  rcases h with hvalue | ⟨hwell, hwf⟩
  · obtain ⟨value, hnot⟩ := hvalue call List.mem_cons_self _ _ _ _ (Prod.ext hanswer rfl)
    cases hnot
  · exact ⟨hwell call List.mem_cons_self _ _ _ _ hwf (Prod.ext hanswer rfl), hwf⟩

/-- **To run a pending call is to make the changes of its step.** -/
theorem runCall_changed (hwf : tree.WellFormed) (hpending : Pending tree c call)
    (hstate : state.tree = tree.changed c) (hanswers : Answerable state.tree [call]) :
    (state.runCall call).2.tree = tree.changed (c.followedBy (Step.mk state call).changes) := by
  have hkept : ∀ {after : Evaluation}, (Step.mk state call).outcome = .kept →
      after.tree = state.tree →
      after.tree = tree.changed (c.followedBy (Step.mk state call).changes) := by
    intro after houtcome htree
    rw [changes_of_kept houtcome, htree, hstate]
    exact congrArg tree.changed (funext fun path => (Change.followedBy_none _).symm)
  cases hrun : call.operator.run ⟨state.tree, call.site.place.cursor, call.args⟩ state.context with
  | mk result context =>
    have hanswer : state.answer call = result := congrArg Prod.fst hrun
    cases result with
    | error fault =>
      rw [runCall_of_error hrun]
      exact hkept (by simp [Step.outcome, hanswer]) rfl
    | ok response =>
      cases response with
      | replace value =>
        have houtcome : (Step.mk state call).outcome = .replaced value := by
          simp [Step.outcome, hanswer]
        rw [runCall_of_ok hrun (respond_replace hwf hpending hstate value),
          changes_of_replaced houtcome]
        rfl
      | inject entries =>
        rcases outcome_of_inject hanswer with ⟨path, key, siblings, hplace, hsiblings, houtcome⟩ |
          ⟨houtcome, fault, hrefused⟩
        · obtain ⟨hentries, hstate_wf⟩ := hanswers.wellFormed hanswer
          rw [runCall_of_ok hrun (injectAt_changed hwf hpending hstate hstate_wf hentries.nodup
            hplace hsiblings), changes_of_injected houtcome]
          rfl
        · rw [runCall_of_respond_error hrun hrefused]
          exact hkept houtcome rfl

end Step

/-! ## All steps -/

section Run

variable {tree : Node} {c : Changes}

/-- A call stays pending over steps of calls in other places. -/
theorem Pending.steps {call : PlannedCall} {stepList : List Step} (hpending : Pending tree c call)
    (hsteps : ∀ s ∈ stepList, s.place ≠ call.site.place.cursor.components ∧
      ∃ text, tree.At s.place (.string text)) :
    Pending tree (c.followedBy (changesOf stepList)) call := by
  obtain ⟨⟨text, hat⟩, hkeeps, huntouched⟩ := hpending
  have hkept : (changesOf stepList).Keeps call.site.place.cursor.components :=
    keeps_changesOf hat (fun s hs => (hsteps s hs).2) fun s hs heq =>
      absurd heq.symm (hsteps s hs).1
  refine ⟨⟨text, hat⟩, hkeeps.followedBy hkept, ?_⟩
  rw [Changes.followedBy, Change.followedBy, huntouched,
    value_changesOf_of_ne fun s hs => (hsteps s hs).1.symm]
  rfl

theorem Answerable.after {state : Evaluation} {call : PlannedCall} {calls : List PlannedCall}
    (h : Answerable state.tree (call :: calls)) :
    Answerable state.tree [call] ∧ Answerable (state.runCall call).2.tree calls := by
  rcases h with hvalue | ⟨hwell, hwf⟩
  · obtain ⟨hcall, hcalls⟩ := List.forall_mem_cons.mp hvalue
    exact ⟨Or.inl (List.forall_mem_singleton.mpr hcall), Or.inl hcalls⟩
  · obtain ⟨hcall, hcalls⟩ := List.forall_mem_cons.mp hwell
    exact ⟨Or.inr ⟨List.forall_mem_singleton.mpr hcall, hwf⟩,
      Or.inr ⟨hcalls, wellFormed_runCall hcall hwf⟩⟩

theorem Answerable.runCalls {rest : List PlannedCall} : ∀ {calls : List PlannedCall}
    {state : Evaluation}, Answerable state.tree (calls ++ rest) →
    Answerable (state.runCalls calls).2.tree rest
  | [], _, h => h
  | call :: calls, state, h => by
    have hcalls : Answerable (state.runCall call).2.tree (calls ++ rest) := h.after.2
    exact hcalls.runCalls

/-- **To run pending calls in different places is to make the changes of their steps.** -/
theorem runCalls_changed (hwf : tree.WellFormed) {calls : List PlannedCall} :
    ∀ {state : Evaluation} {c : Changes}, (∀ call ∈ calls, Pending tree c call) →
    (calls.map fun call => call.site.place.cursor.components).Nodup →
    state.tree = tree.changed c → Answerable state.tree calls →
    (state.runCalls calls).2.tree
      = tree.changed (c.followedBy (changesOf (state.steps calls))) := by
  induction calls with
  | nil =>
    intro state c _ _ hstate _
    refine hstate.trans (congrArg tree.changed (funext fun path => ?_))
    exact (Change.followedBy_none _).symm
  | cons call calls ih =>
    intro state c hpending hplaces hstate hanswers
    obtain ⟨hcall, hcalls⟩ := List.forall_mem_cons.mp hpending
    obtain ⟨hnew, hplaces⟩ := List.nodup_cons.mp hplaces
    obtain ⟨hanswer, hanswers⟩ := hanswers.after
    have hafter := runCall_changed hwf hcall hstate hanswer
    have hstill : ∀ other ∈ calls,
        Pending tree (c.followedBy (Step.mk state call).changes) other := by
      intro other hother
      have hne : call.site.place.cursor.components ≠ other.site.place.cursor.components :=
        fun heq => hnew (List.mem_map.mpr ⟨other, hother, heq.symm⟩)
      have hstep : Pending tree (c.followedBy (changesOf [⟨state, call⟩])) other :=
        (hcalls other hother).steps (List.forall_mem_singleton.mpr ⟨hne, hcall.stands⟩)
      rwa [changesOf_singleton] at hstep
    rw [runCalls_cons, ih hstill hplaces hafter hanswers]
    refine congrArg tree.changed (funext fun path => ?_)
    exact Change.followedBy_assoc _ _ _

end Run

end Evaluation

end Laminate
