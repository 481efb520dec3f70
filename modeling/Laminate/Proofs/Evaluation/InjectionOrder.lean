import Laminate.Proofs.Evaluation.Injections
import Laminate.Proofs.Evaluation.KeyOrder

/-!
# An injection in two runs

The injections of reordered trees are carried out in different orders. Each waits for those that
stand at or below the beginning of its reference, and if the injections are untangled no other one
has to do with what it reads. So it finds the same in both runs, whatever else has been carried out
before it (`answers_alike`), and then it does the same (`stepsAgree_of_answers`).
-/

namespace Laminate

theorem Node.Reordered.filter {es es' : Entries Node}
    (h : (Node.mapping es).Reordered (.mapping es')) (p : String → Bool) :
    (Node.mapping (es.filter fun e => p e.1)).Reordered
      (.mapping (es'.filter fun e => p e.1)) := by
  refine .of_get?_entries (Entries.nodup_keys_filter h.nodup _)
    (Entries.nodup_keys_filter h.nodup' _) fun key => ?_
  rw [Entries.get?_filter, Entries.get?_filter]
  split
  · exact h.get?_entries key
  · exact .none

namespace Evaluation

/-! ## Two runs of a call -/

/-- Answers by entries that are the same but for their order. -/
def EntriesAlike (response response' : Response) : Prop :=
  ∃ es es', response = .inject es ∧ response' = .inject es' ∧
    (Node.mapping es).Reordered (.mapping es')

/-- Steps of one call in two runs that come to the same. -/
structure StepsAgree (s t : Step) : Prop where
  call : s.call = t.call
  isInjected : s.isInjected = t.isInjected
  injected : (Node.mapping s.injected).Reordered (.mapping t.injected)
  faults : s.faults = t.faults

/-- A call that finds the same in two trees answers alike. -/
theorem answers_alike_of_inject {call : PlannedCall} (hop : call.operator = Operator.inject)
    {state state' : Evaluation} (h : ∀ path, .reference path ∈ call.args →
      ResultsAgree Eq Node.Reordered (path.resolve state.tree) (path.resolve state'.tree)) :
    ResultsAgree Eq EntriesAlike (state.answer call) (state'.answer call) := by
  rw [answer, answer, hop]
  show ResultsAgree Eq EntriesAlike (Operator.injectEntries _) (Operator.injectEntries _)
  unfold Operator.injectEntries
  cases hargs : call.args with
  | nil => exact .error rfl
  | cons arg rest =>
    cases rest with
    | cons _ _ => cases arg <;> exact .error rfl
    | nil =>
      cases arg with
      | literal value => exact .error rfl
      | reference path =>
        have hrel := h path (by rw [hargs]; exact List.mem_cons_self)
        simp only [Argument.resolve]
        generalize path.resolve state.tree = x at hrel ⊢
        generalize path.resolve state'.tree = y at hrel ⊢
        cases hrel with
        | error heq => exact .error (by rw [heq])
        | ok hvalue =>
          cases hvalue with
          | mapping nodup keys_perm values =>
            exact .ok ⟨_, _, rfl, rfl, .mapping nodup keys_perm values⟩
          | scalar s => exact .error rfl
          | sequence pairs => exact .error rfl

/-- A step of a call that was still to be run. -/
structure Taken (tree : Node) (prior : List Step) (s : Step) : Prop where
  pending : Pending tree (changesOf prior) s.call
  before : s.before.tree = tree.changed (changesOf prior)
  answers : Answerable s.before.tree [s.call]

section Two

variable {tree tree' : Node} {prior prior' : List Step} {s s' : Step}

theorem Taken.parent {n : Node} {path : List String} {key : String} (h : Taken tree prior s)
    (hplace : s.place = path ++ [key]) (hat : tree.At path n) :
    s.before.tree.resolve path = .ok (n.changed ((changesOf prior).below path)) := by
  have hkeeps : (changesOf prior).Keeps (path ++ [key]) := hplace ▸ h.pending.keeps
  rw [h.before]
  exact (hat.changed (hkeeps.of_prefix (List.prefix_append _ _))).resolve

/-- Nothing has been carried out where the call stands. -/
theorem Taken.place_ne {t : Step} (h : Taken tree prior s) (ht : t ∈ prior)
    (hinjected : t.isInjected = true) : s.place ≠ t.place := by
  intro heq
  have hkept : (changesOf prior s.place).gone = false := h.pending.keeps _ (List.prefix_refl _)
  rw [gone_changesOf_iff.mpr ⟨t, ht, heq, hinjected⟩] at hkept
  cases hkept

/-- A call in a mapping that answers with entries is carried out. -/
theorem Taken.isInjected (h : Taken tree prior s) (hwf : tree.WellFormed) {path : List String}
    {key : String} (hplace : s.place = path ++ [key]) {es entries : Entries Node}
    (hat : tree.At path (.mapping es)) (hanswer : s.before.answer s.call = .ok (.inject entries)) :
    s.isInjected = true ∧ s.faults = [] ∧ s.entries = entries := by
  have hparent := h.parent hplace hat
  refine ⟨?_, ?_, by rw [Step.entries, hanswer]⟩
  · rw [Step.isInjected, Step.outcome, hanswer, hplace, List.getLast?_append_cons,
      List.getLast?_singleton, List.dropLast_concat, hparent]
    rfl
  · exact (injected_of_resolve hwf h.pending h.before h.answers hanswer hplace hparent).1

/-- Reordered mappings have the same keys apart from one. -/
theorem contains_erase_eq {es es' : Entries Node} (h : (Node.mapping es).Reordered (.mapping es'))
    (key k : String) :
    Entries.contains (Entries.erase es key) k = Entries.contains (Entries.erase es' key) k := by
  rw [Bool.eq_iff_iff, Entries.contains_iff, Entries.contains_iff, Entries.keys_erase,
    Entries.keys_erase, List.mem_filter, List.mem_filter, h.keys_perm.mem_iff]

theorem StepsAgree.of_kept (hcall : s.call = s'.call) (h : s.outcome = .kept)
    (h' : s'.outcome = .kept) (hfaults : s.faults = s'.faults) : StepsAgree s s' := by
  refine ⟨hcall, ?_, ?_, hfaults⟩
  · rw [Step.isInjected, Step.isInjected, h, h']
  · rw [Step.injected, Step.injected, h, h']
    exact .mapping .nil .nil fun _ _ _ hnone _ => by cases hnone

/-- A call that is carried out in two reordered mappings with the same entries adds the same. -/
theorem StepsAgree.of_mapping (hwf : tree.WellFormed) (hwf' : tree'.WellFormed)
    (hs : Taken tree prior s) (hs' : Taken tree' prior' s') (hcall : s.call = s'.call)
    {entries entries' es es' : Entries Node} {path : List String} {key : String}
    (hanswer : s.before.answer s.call = .ok (.inject entries))
    (hanswer' : s'.before.answer s'.call = .ok (.inject entries'))
    (hentries : (Node.mapping entries).Reordered (.mapping entries'))
    (hplace : s.place = path ++ [key]) (hat : tree.At path (.mapping es))
    (hat' : tree'.At path (.mapping es')) (hes : (Node.mapping es).Reordered (.mapping es'))
    (hclear : s.isInjected = true → Clear prior s.place s.entries)
    (hclear' : s.isInjected = true → Clear prior' s'.place s'.entries) : StepsAgree s s' := by
  have hplace' : s'.place = path ++ [key] := (Step.place_eq hcall).symm.trans hplace
  obtain ⟨hinjected, hfaults, hs_entries⟩ := hs.isInjected hwf hplace hat hanswer
  obtain ⟨hinjected', hfaults', hs_entries'⟩ := hs'.isInjected hwf' hplace' hat' hanswer'
  have houtcome := outcome_eq_of_at hs.pending hs.before hanswer hplace hat
    (hs_entries ▸ hclear hinjected)
  have houtcome' := outcome_eq_of_at hs'.pending hs'.before hanswer' hplace' hat'
    (hs_entries' ▸ hclear' hinjected)
  refine ⟨hcall, hinjected.trans hinjected'.symm, ?_, hfaults.trans hfaults'.symm⟩
  rw [Step.injected, Step.injected, houtcome, houtcome']
  simp only [contains_erase_eq hes]
  exact hentries.filter fun k => !Entries.contains (Entries.erase es' key) k

/-- A call that answers with the same entries in two reordered trees does the same with them: it
injects them into a mapping, or is refused in a list or at the root. -/
theorem StepsAgree.of_inject (hwf : tree.WellFormed) (hwf' : tree'.WellFormed)
    (h : tree.Reordered tree') (hs : Taken tree prior s) (hs' : Taken tree' prior' s')
    (hcall : s.call = s'.call) {entries entries' : Entries Node}
    (hanswer : s.before.answer s.call = .ok (.inject entries))
    (hanswer' : s'.before.answer s'.call = .ok (.inject entries'))
    (hentries : (Node.mapping entries).Reordered (.mapping entries'))
    (hclear : s.isInjected = true → Clear prior s.place s.entries)
    (hclear' : s.isInjected = true → Clear prior' s'.place s'.entries) : StepsAgree s s' := by
  have hplaces : s.place = s'.place := Step.place_eq hcall
  rcases List.eq_nil_or_concat s.place with hroot | ⟨path, key, hplace⟩
  · obtain ⟨houtcome, hfaults⟩ := refused_at_root hanswer hroot
    obtain ⟨houtcome', hfaults'⟩ := refused_at_root hanswer' (hplaces ▸ hroot)
    exact .of_kept hcall houtcome houtcome' (hfaults.trans hfaults'.symm)
  · rw [List.concat_eq_append] at hplace
    obtain ⟨text, htext⟩ := hs.pending.stands
    have hat : tree.At (path ++ [key]) (.string text) := hplace ▸ htext
    obtain ⟨m, hm, hbelow⟩ := hat.exists_of_append
    obtain ⟨m', hm', hmm'⟩ := hm.reordered h
    cases hmm' with
    | scalar sc => cases hbelow
    | sequence pairs =>
      have hplace' : s'.place = path ++ [key] := hplaces ▸ hplace
      obtain ⟨houtcome, hfaults⟩ := refused_in_sequence hanswer hplace (hs.parent hplace hm)
      obtain ⟨houtcome', hfaults'⟩ := refused_in_sequence hanswer' hplace' (hs'.parent hplace' hm')
      exact .of_kept hcall houtcome houtcome' (by rw [hfaults, hfaults', hcall])
    | mapping nodup keys_perm values =>
      exact .of_mapping hwf hwf' hs hs' hcall hanswer hanswer' hentries hplace hm hm'
        (.mapping nodup keys_perm values) hclear hclear'

/-- **If a call answers alike in runs on two reordered trees, then its steps come to the same.** -/
theorem stepsAgree_of_answers (hwf : tree.WellFormed) (hwf' : tree'.WellFormed)
    (h : tree.Reordered tree') (hs : Taken tree prior s) (hs' : Taken tree' prior' s')
    (hcall : s.call = s'.call)
    (hanswers : ResultsAgree Eq EntriesAlike (s.before.answer s.call) (s'.before.answer s'.call))
    (hclear : s.isInjected = true → Clear prior s.place s.entries)
    (hclear' : s.isInjected = true → Clear prior' s'.place s'.entries) : StepsAgree s s' := by
  generalize hanswer : s.before.answer s.call = x at hanswers
  generalize hanswer' : s'.before.answer s'.call = y at hanswers
  cases hanswers with
  | error heq =>
    refine .of_kept hcall (by simp [Step.outcome, hanswer]) (by simp [Step.outcome, hanswer']) ?_
    rw [Step.faults, Step.faults, runCall_of_error (Prod.ext hanswer rfl),
      runCall_of_error (Prod.ext hanswer' rfl), heq, hcall]
  | ok halike =>
    obtain ⟨entries, entries', rfl, rfl, hentries⟩ := halike
    exact .of_inject hwf hwf' h hs hs' hcall hanswer hanswer' hentries hclear hclear'

end Two

/-! ## Runs that come to the same so far -/

section Prior

variable {tree tree' : Node} {all prior others prior' : List Step} {s s' : Step}
  {path : List String}

/-- Steps that come to the same make changes that do. -/
theorem agree_changesOf (h : List.Forall₂ StepsAgree others prior')
    (hop : ∀ s ∈ others, s.call.operator = Operator.inject) (path : List String) :
    (changesOf others path).Agree (changesOf prior' path) := by
  induction h with
  | nil => exact ⟨.none, rfl, fun _ => .none⟩
  | @cons s t _ _ hst _ ih =>
    obtain ⟨hs, hrest⟩ := List.forall_mem_cons.mp hop
    have hplace : s.place = t.place := Step.place_eq hst.call
    obtain ⟨hvalue, hgone, hjoined⟩ := ih hrest
    refine ⟨?_, ?_, fun key => ?_⟩
    · show Option.Rel _ (Option.or _ _) (Option.or _ _)
      rw [value_changes_of_inject hs, value_changes_of_inject (hst.call ▸ hs)]
      exact hvalue
    · show (_ || _) = (_ || _)
      rw [Step.gone_changes, Step.gone_changes, hplace, hst.isInjected, hgone]
    · show Option.Rel _ (Entries.get? (_ ++ _) key) (Entries.get? (_ ++ _) key)
      rw [Entries.get?_concat, Entries.get?_concat, Step.joined_changes, Step.joined_changes,
        hplace]
      refine or_of_rel ?_ (hjoined key)
      split
      · exact hst.injected.get?_entries key
      · exact .none

/-- What has happened before a call in two runs on reordered trees: in the first one the steps
`prior`, in the second one steps that come to the same as the steps `others` of the first one. What
the call waits for is among both. -/
structure TakenTwice (tree tree' : Node) (all prior others prior' : List Step) (s s' : Step) :
    Prop where
  untangled : Untangled tree all
  injections : InjectionsOf tree all
  step : s ∈ all
  prior_subset : prior ⊆ all
  others_subset : others ⊆ all
  agree : List.Forall₂ StepsAgree others prior'
  first : Taken tree prior s
  second : Taken tree' prior' s'
  call : s.call = s'.call
  dependencies : s.call.dependencies = automaticDependencies tree s.call.args
  waited : ∀ t ∈ all, s.call.WaitsFor t.call → t ∈ prior ∧ t ∈ others

/-- Injections that go and join like others come to the same as those. -/
theorem agree_of_same {c : Change} (h : (changesOf others path).Agree c)
    (hother : ∀ t ∈ others, t.call.operator = Operator.inject)
    (hop : ∀ t ∈ prior, t.call.operator = Operator.inject)
    (hgone : (changesOf prior path).gone = (changesOf others path).gone)
    (hjoined : ∀ key, Entries.get? (changesOf prior path).joined key
      = Entries.get? (changesOf others path).joined key) : (changesOf prior path).Agree c := by
  refine ⟨?_, hgone.trans h.gone, fun key => (hjoined key).symm ▸ h.joined key⟩
  have hvalue := h.value
  rw [value_changesOf_of_inject hother] at hvalue
  rwa [value_changesOf_of_inject hop]

namespace TakenTwice

variable (h : TakenTwice tree tree' all prior others prior' s s')
include h

theorem inject_prior : ∀ t ∈ prior, t.call.operator = Operator.inject := fun t ht =>
  h.injections.inject t (h.prior_subset ht)

theorem inject_others : ∀ t ∈ others, t.call.operator = Operator.inject := fun t ht =>
  h.injections.inject t (h.others_subset ht)

theorem agree_others (path : List String) :
    (changesOf others path).Agree (changesOf prior' path) :=
  agree_changesOf h.agree h.inject_others path

theorem mem_iff_of_prefix {place : List String} (hplace : (⟨place⟩ : Cursor) ∈ s.call.dependencies)
    {t : Step} (ht : t ∈ all) (hbegins : place <+: t.place) : t ∈ prior ↔ t ∈ others := by
  have hwaited := h.waited t ht ⟨_, hplace, hbegins⟩
  exact iff_of_true hwaited.1 hwaited.2

/-- Nothing that contains a node goes. -/
theorem gone_eq_false {place other : List String} {m : Node} (hat : tree.At place m)
    (hbegins : other <+: place) (hne : other ≠ place) {some : List Step} (hsub : some ⊆ all) :
    (changesOf some other).gone = false := by
  refine Bool.eq_false_iff.mpr fun hgone => ?_
  obtain ⟨t, ht, rfl, -⟩ := gone_changesOf_iff.mp hgone
  obtain ⟨text, htext⟩ := h.injections.stands t (hsub ht)
  exact hne (htext.eq_of_beginning_scalar hat hbegins)

/-- The changes come to the same below what the call waits for. -/
theorem agreeBelow {place : List String} {m : Node} (hat : tree.At place m)
    (hplace : (⟨place⟩ : Cursor) ∈ s.call.dependencies) :
    Node.AgreeBelow (changesOf prior) (changesOf prior') place := by
  refine ⟨fun other hother hne => ⟨h.gone_eq_false hat hother hne h.prior_subset, ?_⟩,
    fun rest => ?_, fun path key hsplit hgone => ?_⟩
  · rw [← (h.agree_others other).gone]
    exact h.gone_eq_false hat hother hne h.others_subset
  · have hrest : place <+: place ++ rest := List.prefix_append _ _
    refine agree_of_same (h.agree_others _) h.inject_others h.inject_prior ?_ fun key => ?_
    · exact gone_changesOf_congr h.prior_subset h.others_subset fun t ht heq =>
        h.mem_iff_of_prefix hplace ht (heq ▸ hrest)
    · exact get?_joined_congr h.untangled h.injections h.prior_subset h.others_subset
        fun t ht heq _ => h.mem_iff_of_prefix hplace ht (hrest.trans (heq ▸ List.dropLast_prefix _))
  · -- the call that stood there adds the key, if any does
    obtain ⟨e, he, heq, hinjected⟩ := gone_changesOf_iff.mp hgone
    rw [get?_joined_congr h.untangled h.injections h.prior_subset h.others_subset
      fun t ht hparent hkey => ?_]
    · exact (h.agree_others path).joined key
    · refine h.mem_iff_of_prefix hplace ht ?_
      by_cases hte : t.place = e.place
      · rw [heq, hte]
      · have hmeet := h.untangled.apart t ht e (h.prior_subset he) hte
          (by rw [← hparent, ← heq, hsplit, List.dropLast_concat]) (Step.isInjected_of_mem hkey)
          hinjected key (Step.mem_entries_of_mem_injected hkey)
        refine absurd ?_ hmeet.2
        rw [← heq, hsplit]
        simp

theorem value_eq_none (path : List String) :
    (changesOf prior path).value = none ∧ (changesOf prior' path).value = none :=
  ⟨value_changesOf_of_inject h.inject_prior,
    eq_none_of_rel (h.agree_others path).value (value_changesOf_of_inject h.inject_others)⟩

theorem keepsNames {reference : Cursor} (hreference : .reference reference ∈ s.call.args) :
    tree.KeepsNames reference.components (changesOf prior) :=
  keepsNames_of_free (fun path => (h.value_eq_none path).1)
    (h.untangled.namesFree h.injections h.prior_subset h.step hreference)

theorem keepsNames' (hreordered : tree.Reordered tree') {reference : Cursor}
    (hreference : .reference reference ∈ s.call.args) :
    tree'.KeepsNames reference.components (changesOf prior') := by
  have hfree := h.untangled.namesFree h.injections h.others_subset h.step hreference
  exact keepsNames_of_free (fun path => (h.value_eq_none path).2)
    (hfree.reordered hreordered h.agree_others)

/-- Nothing joins the root under the first component of a reference that leads nowhere. -/
theorem joined_root_eq_none {path : Cursor} (hpath : .reference path ∈ s.call.args)
    (hnone : existingBeginning? tree path = none) {key : String}
    (hkey : path.components.head? = some key) :
    Entries.get? (changesOf prior []).joined key = none ∧
      Entries.get? (changesOf prior' []).joined key = none := by
  have hsome : ∀ {some : List Step}, some ⊆ all →
      Entries.get? (changesOf some []).joined key = none := by
    intro some hsub
    refine Option.eq_none_iff_forall_ne_some.mpr fun value hvalue => ?_
    obtain ⟨t, ht, hroot, hget⟩ := (get?_joined_eq_some h.untangled h.injections hsub).mp hvalue
    exact h.untangled.beginnings s h.step path key hpath hnone hkey t (hsub ht) hroot.symm
      (Entries.mem_keys_of_get? hget)
  exact ⟨hsome h.prior_subset,
    eq_none_of_rel ((h.agree_others []).joined key) (hsome h.others_subset)⟩

/-- A reference that leads nowhere goes on to lead nowhere. -/
theorem resolve_agree_of_none (hreordered : tree.Reordered tree') {path : Cursor}
    (hpath : .reference path ∈ s.call.args) (hnone : existingBeginning? tree path = none) :
    ResultsAgree Eq Node.Reordered (path.resolve (tree.changed (changesOf prior)))
      (path.resolve (tree'.changed (changesOf prior'))) := by
  have hnames := h.keepsNames hpath
  have hnames' := h.keepsNames' hreordered hpath
  obtain ⟨components⟩ := path
  cases components with
  | nil => exact absurd hpath (h.untangled.below_root s h.step)
  | cons key rest =>
    obtain ⟨hvalue, hvalue'⟩ := h.value_eq_none []
    obtain ⟨hjoined, hjoined'⟩ := h.joined_root_eq_none hpath hnone rfl
    have hmissing : ∀ d, tree.canonical [key] ≠ .ok d :=
      existingBeginning?_eq_none hnone 1 Nat.one_pos (Nat.succ_pos _)
    have hagree := hreordered.step key
    generalize hstep : tree.step key = x at hagree
    generalize hstep' : tree'.step key = y at hagree
    cases hagree with
    | ok found => exact absurd (Node.canonical_cons_ok.mpr ⟨_, _, _, hstep, rfl, rfl⟩) (hmissing _)
    | error heq =>
      have hchanged := Node.step_changed_of_error hstep hnames List.mem_cons_self hvalue hjoined
      have hchanged' :=
        Node.step_changed_of_error hstep' hnames' List.mem_cons_self hvalue' hjoined'
      simp only [Cursor.resolve, Node.resolve, hchanged, hchanged', heq]
      exact .error rfl

/-- **The call finds the same in both runs.** -/
theorem resolve_agree (hwf : tree.WellFormed) (hreordered : tree.Reordered tree')
    (hbefore_wf : s.before.tree.WellFormed) (hbefore_wf' : s'.before.tree.WellFormed)
    {path : Cursor} (hpath : .reference path ∈ s.call.args) :
    ResultsAgree Eq Node.Reordered (path.resolve s.before.tree) (path.resolve s'.before.tree) := by
  rw [h.first.before] at hbefore_wf ⊢
  rw [h.second.before] at hbefore_wf' ⊢
  cases hbeginning : existingBeginning? tree path with
  | none => exact h.resolve_agree_of_none hreordered hpath hbeginning
  | some place =>
    obtain ⟨k, -, -, hcanonical, -⟩ := existingBeginning?_eq_some hbeginning
    obtain ⟨m, hat, -⟩ := Node.canonical_at hwf hcanonical
    have hplace : (⟨place.components⟩ : Cursor) ∈ s.call.dependencies := by
      rw [h.dependencies]
      exact mem_automaticDependencies.mpr ⟨path, hpath, hbeginning⟩
    have hresolve := hreordered.resolve_changed (path.components.drop k) hcanonical
      (h.agreeBelow hat hplace) (List.take_subset _ _) (h.keepsNames hpath)
      (h.keepsNames' hreordered hpath) hbefore_wf hbefore_wf'
    rwa [List.take_append_drop] at hresolve

theorem answers_alike (hwf : tree.WellFormed) (hreordered : tree.Reordered tree')
    (hbefore_wf : s.before.tree.WellFormed) (hbefore_wf' : s'.before.tree.WellFormed) :
    ResultsAgree Eq EntriesAlike (s.before.answer s.call) (s'.before.answer s'.call) := by
  rw [← h.call]
  exact answers_alike_of_inject (h.injections.inject s h.step) fun path hpath =>
    h.resolve_agree hwf hreordered hbefore_wf hbefore_wf' hpath

/-- Injections before the call in the first run do not meet its entries. -/
theorem clear (hinjected : s.isInjected = true) : Clear prior s.place s.entries := by
  intro t ht hparent htinjected key hkey
  have hne := h.first.place_ne ht htinjected
  exact h.untangled.apart s h.step t (h.prior_subset ht) hne hparent hinjected htinjected key hkey

/-- Nor do those before it in the second run. -/
theorem clear' (hinjected : s.isInjected = true)
    (hkeys : (Entries.keys s.entries).Perm (Entries.keys s'.entries)) :
    Clear prior' s'.place s'.entries := by
  intro t' ht' hparent htinjected' key hkey
  obtain ⟨i, hi⟩ := List.getElem?_of_mem ht'
  have hrel := getElem?_of_forall₂ h.agree i
  rw [hi] at hrel
  generalize ht : others[i]? = x at hrel
  cases hrel with
  | @some t _ hagree =>
    have hmem := h.others_subset (List.mem_of_getElem? ht)
    have hplace : s.place = s'.place := Step.place_eq h.call
    have htplace : t.place = t'.place := Step.place_eq hagree.call
    have hne : s.place ≠ t.place := by
      rw [hplace, htplace]
      exact h.second.place_ne ht' htinjected'
    have hmeet := h.untangled.apart s h.step t hmem hne (by rw [hplace, htplace, hparent]) hinjected
      (hagree.isInjected.trans htinjected') key (hkeys.mem_iff.mpr hkey)
    exact ⟨fun hmem' => hmeet.1 (hagree.injected.keys_perm.mem_iff.mpr hmem'), htplace ▸ hmeet.2⟩

/-- **The call does the same in both runs.** -/
theorem stepsAgree (hwf : tree.WellFormed) (hreordered : tree.Reordered tree')
    (hbefore_wf : s.before.tree.WellFormed) (hbefore_wf' : s'.before.tree.WellFormed) :
    StepsAgree s s' := by
  have hanswers := h.answers_alike hwf hreordered hbefore_wf hbefore_wf'
  refine stepsAgree_of_answers hwf (hreordered.wellFormed hwf) hreordered h.first h.second h.call
    hanswers h.clear fun hinjected => h.clear' hinjected ?_
  unfold Step.entries
  generalize s.before.answer s.call = x at hanswers ⊢
  generalize s'.before.answer s'.call = y at hanswers ⊢
  cases hanswers with
  | error heq => exact .refl _
  | ok halike =>
    obtain ⟨entries, entries', rfl, rfl, hentries⟩ := halike
    exact hentries.keys_perm

end TakenTwice

end Prior

end Evaluation

end Laminate
