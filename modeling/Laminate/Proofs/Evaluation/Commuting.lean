import Laminate.Proofs.Evaluation.Alike
import Laminate.Proofs.Evaluation.Listing
import Laminate.Proofs.Evaluation.Undisturbed

/-!
# Independent calls commute

A call that waits for all that its references lead to finds the same before and after a call that it
does not wait for (`answer_runCall`). So of two calls neither of which waits for the other each
answers the same in either order (`runCalls_comm`). A call can then be moved to the front of a run
past calls that are independent of it (`runCalls_move`), and all runs of the same calls that hold
each call after those it waits for come to the same (`runCalls_perm`).
-/

namespace Laminate

/-! ## Answers -/

namespace Filling

/-- The values after the answer of a call at a position; a fault leaves the call there. -/
def answer (f : Filling) (path : List String) : Except OperatorFault Response → Filling
  | .ok (.replace value) => f.set path value
  | _ => f

theorem answer_of_ne {f : Filling} {path other : List String} (h : other ≠ path)
    (result : Except OperatorFault Response) : f.answer path result other = f other := by
  unfold answer
  split
  · exact set_of_ne h
  · rfl

theorem set_comm {p q : List String} (h : p ≠ q) (f : Filling) (x y : Node) :
    (f.set p x).set q y = (f.set q y).set p x := by
  funext other
  by_cases hp : other = p
  · rw [hp, set_of_ne h, set_self, set_self]
  · by_cases hq : other = q
    · rw [hq, set_of_ne h.symm, set_self, set_self]
    · rw [set_of_ne hp, set_of_ne hq, set_of_ne hq, set_of_ne hp]

/-- Answers of calls in different places are filled in in any order. -/
theorem answer_comm {p q : List String} (h : p ≠ q) (f : Filling) :
    ∀ x y : Except OperatorFault Response,
    (f.answer p x).answer q y = (f.answer q y).answer p x
  | .ok (.replace x), .ok (.replace y) => set_comm h f x y
  | .ok (.replace _), .ok (.inject _) => rfl
  | .ok (.replace _), .error _ => rfl
  | .ok (.inject _), .ok _ => rfl
  | .ok (.inject _), .error _ => rfl
  | .error _, .ok _ => rfl
  | .error _, .error _ => rfl

end Filling

namespace Evaluation

/-- The faults of an answer. -/
def answerFaults (call : PlannedCall) : Except OperatorFault Response → List Fault
  | .ok _ => []
  | .error fault => [.operator call.site.place.path (.failed fault)]

variable {tree : Node} {call other : PlannedCall} {state : Evaluation} {f : Filling}

/-- A call fills in its answer, or leaves the tree as it is and has a fault. -/
theorem runCall_eq_answer (hwf : tree.WellFormed) (hfills : FillsIn tree call)
    (hstate : state.tree = tree.fill f) :
    (state.runCall call).1 = answerFaults call (state.answer call) ∧
      (state.runCall call).2.tree
        = tree.fill (f.answer call.site.place.cursor.components (state.answer call)) := by
  unfold answer
  cases hrun : call.operator.run ⟨state.tree, call.site.place.cursor, call.args⟩ state.context with
  | mk result after =>
    cases result with
    | error fault =>
      rw [runCall_of_error hrun]
      exact ⟨rfl, hstate⟩
    | ok response =>
      obtain ⟨value, rfl⟩ := hfills.answers _ _ _ _ hrun
      rw [runCall_of_ok hrun (respond_fill hwf hfills hstate value)]
      exact ⟨rfl, rfl⟩

/-! ## What calls read -/

/-- A call of a tree that waits for all that its references lead to. -/
structure Attentive (tree : Node) (call : PlannedCall) : Prop
    extends FillsIn tree call, Regular call where
  below_root : .reference .root ∉ call.args
  waits : automaticDependencies tree call.args ⊆ call.dependencies

/-- Calls in different places, neither of which waits for the other. -/
structure Independent (call other : PlannedCall) : Prop where
  apart : call.site.place.cursor ≠ other.site.place.cursor
  left : ¬call.WaitsFor other
  right : ¬other.WaitsFor call

theorem Independent.symm (h : Independent call other) : Independent other call :=
  ⟨h.apart.symm, h.right, h.left⟩

theorem isScalar_eq_false_of_apart (hcall : FillsIn tree call) (hother : FillsIn tree other)
    (hapart : call.site.place.cursor ≠ other.site.place.cursor) : tree.isScalar = false := by
  obtain ⟨n, hn, -⟩ := hcall.stands
  obtain ⟨m, hm, -⟩ := hother.stands
  cases tree with
  | scalar s =>
    exact absurd (congrArg Cursor.mk (hn.eq_nil_of_scalar.trans hm.eq_nil_of_scalar.symm)) hapart
  | _ => rfl

/-- **A call finds the same after a call that it does not wait for.** -/
theorem answer_runCall (hwf : tree.WellFormed) (hfirm : tree.FirmElements)
    (hcall : Attentive tree call) (hother : Attentive tree other) (h : Independent call other)
    (hstate : state.tree = tree.fill f) (hstore : state.context.StoreByPath) :
    (state.runCall other).2.answer call = state.answer call := by
  obtain ⟨marks, hmarks⟩ := hother.marks
  obtain ⟨-, htree⟩ := runCall_eq_answer hwf hother.toFillsIn hstate
  have hreads : ∀ arg ∈ call.args,
      arg.resolve (state.runCall other).2.tree = arg.resolve state.tree := by
    intro arg harg
    cases arg with
    | literal value => rfl
    | reference path =>
      have hroot : path ≠ .root := fun heq => hcall.below_root (heq ▸ harg)
      refine congrArg (Except.mapError _) ?_
      rw [htree, hstate]
      refine resolve_fill_congr hfirm hroot (fun dependency hdependency => funext fun rest => ?_) ?_
      · -- the other call does not stand below what this one waits for
        refine Filling.answer_of_ne (fun heq => h.left ⟨dependency, ?_, rest, heq⟩) _
        exact hcall.waits (mem_automaticDependencies.mpr ⟨path, harg, hdependency⟩)
      · intro hscalar
        rw [isScalar_eq_false_of_apart hcall.toFillsIn hother.toFillsIn h.apart] at hscalar
        cases hscalar
  have hanswer := hcall.alike .eq (fun arg harg => .of_eq (hreads arg harg))
    (marks_runCall hmarks hstore).1 call.site.place.cursor
  exact (hanswer.imp fun _ _ => Response.Alike.eq).eq

/-! ## Two calls -/

/-- **Two independent calls come to the same in either order.** -/
theorem runCalls_comm (hwf : tree.WellFormed) (hfirm : tree.FirmElements)
    (hcall : Attentive tree call) (hother : Attentive tree other) (h : Independent call other)
    (hstate : state.tree = tree.fill f) (hstore : state.context.StoreByPath) :
    RunsAlike Eq (state.runCalls [call, other]) (state.runCalls [other, call]) := by
  obtain ⟨hfaults, htree⟩ := runCall_eq_answer hwf hcall.toFillsIn hstate
  obtain ⟨hfaults', htree'⟩ := runCall_eq_answer hwf hother.toFillsIn hstate
  -- the second call answers as it would have answered first
  have hsecond := runCall_eq_answer hwf hother.toFillsIn htree
  have hsecond' := runCall_eq_answer hwf hcall.toFillsIn htree'
  rw [answer_runCall hwf hfirm hother hcall h.symm hstate hstore] at hsecond
  rw [answer_runCall hwf hfirm hcall hother h hstate hstore] at hsecond'
  obtain ⟨marks, hmarks⟩ := hcall.marks
  obtain ⟨marks', hmarks'⟩ := hother.marks
  obtain ⟨hsecrets, hprune⟩ := marks_runCall hmarks hstore
  obtain ⟨hsecrets', hprune'⟩ := marks_runCall hmarks' hstore
  obtain ⟨hsecrets₂, hprune₂⟩ := marks_runCall hmarks' (hsecrets.symm.storeByPath hstore)
  obtain ⟨hsecrets₂', hprune₂'⟩ := marks_runCall hmarks (hsecrets'.symm.storeByPath hstore)
  have hapart : call.site.place.cursor.components ≠ other.site.place.cursor.components :=
    fun heq => h.apart (congrArg Cursor.mk heq)
  rw [runCalls_pair, runCalls_pair]
  refine ⟨?_, ?_, ?_, fun path => ?_⟩
  · rw [hsecond.1, hsecond'.1, hfaults, hfaults']
    exact List.perm_append_comm
  · rw [hsecond.2, hsecond'.2, Filling.answer_comm hapart]
  · exact (hsecrets₂.trans hsecrets).trans (hsecrets₂'.trans hsecrets').symm
  · rw [hprune₂, hprune₂', hprune, hprune', or_assoc, or_assoc,
      or_comm (a := path ∈ marks call.site.place.cursor)]

/-! ## Runs -/

theorem storeByPath_runCalls {calls : List PlannedCall} (hcalls : ∀ call ∈ calls, Regular call) :
    ∀ {state : Evaluation}, state.context.StoreByPath →
    (state.runCalls calls).2.context.StoreByPath := by
  induction calls with
  | nil => exact fun h => h
  | cons call calls ih =>
    intro state hstore
    obtain ⟨hcall, hcalls⟩ := List.forall_mem_cons.mp hcalls
    exact ih hcalls (storeByPath_runCall hcall hstore)

theorem RunsAlike.cons {R : Node → Node → Prop} {calls calls' : List PlannedCall}
    (h : RunsAlike R ((state.runCall call).2.runCalls calls)
      ((state.runCall call).2.runCalls calls')) :
    RunsAlike R (state.runCalls (call :: calls)) (state.runCalls (call :: calls')) :=
  ⟨h.faults.append_left _, h.state⟩

theorem RunsAlike.append {calls calls' rest : List PlannedCall}
    (h : RunsAlike Eq (state.runCalls calls) (state.runCalls calls'))
    (hstore : (state.runCalls calls).2.context.StoreByPath) (hrest : ∀ call ∈ rest, Regular call) :
    RunsAlike Eq (state.runCalls (calls ++ rest)) (state.runCalls (calls' ++ rest)) := by
  have htail := runCalls_alike .eq hrest hstore h.state
  rw [runCalls_append, runCalls_append]
  exact ⟨h.faults.append htail.faults, htail.state⟩

/-- **A call can be moved to the front past calls that are independent of it.** -/
theorem runCalls_move (hwf : tree.WellFormed) (hfirm : tree.FirmElements)
    (hcall : Attentive tree call) {rest : List PlannedCall} (hrest : ∀ c ∈ rest, Regular c)
    {before : List PlannedCall} (hbefore : ∀ c ∈ before, Attentive tree c ∧ Independent c call) :
    ∀ {state : Evaluation} {f : Filling}, state.tree = tree.fill f → state.context.StoreByPath →
    RunsAlike Eq (state.runCalls (before ++ call :: rest))
      (state.runCalls (call :: (before ++ rest))) := by
  induction before with
  | nil => exact fun _ _ => .refl _
  | cons other before ih =>
    intro state f hstate hstore
    obtain ⟨⟨hother, hindependent⟩, hbefore⟩ := List.forall_mem_cons.mp hbefore
    have htree := (runCall_eq_answer hwf hother.toFillsIn hstate).2
    have hmoved := ih hbefore htree (storeByPath_runCall hother.toRegular hstore)
    have hswapped := runCalls_comm hwf hfirm hother hcall hindependent hstate hstore
    have hpair : ∀ c ∈ [other, call], Regular c :=
      List.forall_mem_cons.mpr ⟨hother.toRegular, List.forall_mem_singleton.mpr hcall.toRegular⟩
    have htail : ∀ c ∈ before ++ rest, Regular c := by
      intro c hc
      rcases List.mem_append.mp hc with hc | hc
      · exact (hbefore c hc).1.toRegular
      · exact hrest c hc
    exact hmoved.cons.trans (hswapped.append (storeByPath_runCalls hpair hstore) htail)

/-- **Runs of the same calls in which every call comes after those that it waits for come to the
same.** -/
theorem runCalls_perm (hwf : tree.WellFormed) (hfirm : tree.FirmElements)
    {calls : List PlannedCall} (hcalls : ∀ c ∈ calls, Attentive tree c)
    (hplaces : (calls.map fun c => c.site.place.cursor).Nodup)
    (hafter : calls.Pairwise fun c d => ¬c.WaitsFor d) : ∀ {calls' : List PlannedCall},
    calls.Perm calls' → calls'.Pairwise (fun c d => ¬c.WaitsFor d) →
    ∀ {state : Evaluation} {f : Filling}, state.tree = tree.fill f → state.context.StoreByPath →
    RunsAlike Eq (state.runCalls calls) (state.runCalls calls') := by
  induction calls with
  | nil =>
    intro calls' hperm _ state f _ _
    rw [hperm.nil_eq]
    exact .refl _
  | cons call calls ih =>
    intro calls' hperm hafter' state f hstate hstore
    obtain ⟨before, rest, rfl⟩ := List.append_of_mem (hperm.subset List.mem_cons_self)
    have hperm' : calls.Perm (before ++ rest) := (hperm.trans List.perm_middle).cons_inv
    obtain ⟨hcall, hcalls⟩ := List.forall_mem_cons.mp hcalls
    obtain ⟨hnew, hplaces⟩ := List.nodup_cons.mp hplaces
    obtain ⟨hfirst, hafter⟩ := List.pairwise_cons.mp hafter
    obtain ⟨hbefore, hlast, hcross⟩ := List.pairwise_append.mp hafter'
    have hothers : ∀ c ∈ before ++ rest, c ∈ calls := fun c hc => hperm'.mem_iff.mpr hc
    have hindependent : ∀ c ∈ before, Attentive tree c ∧ Independent c call := by
      intro c hc
      have hmem := hothers c (List.mem_append_left _ hc)
      refine ⟨hcalls c hmem, ?_, hcross c hc call List.mem_cons_self, hfirst c hmem⟩
      exact fun heq => hnew (List.mem_map.mpr ⟨c, hmem, heq⟩)
    have hregular : ∀ c ∈ rest, Regular c := fun c hc =>
      (hcalls c (hothers c (List.mem_append_right _ hc))).toRegular
    have hmoved := runCalls_move hwf hfirm hcall hregular hindependent hstate hstore
    have hrest := ih hcalls hplaces hafter hperm'
      (List.pairwise_append.mpr ⟨hbefore, (List.pairwise_cons.mp hlast).2,
        fun c hc d hd => hcross c hc d (List.mem_cons_of_mem _ hd)⟩)
      (runCall_eq_answer hwf hcall.toFillsIn hstate).2 (storeByPath_runCall hcall.toRegular hstore)
    exact hrest.cons.trans hmoved.symm

end Evaluation

end Laminate
