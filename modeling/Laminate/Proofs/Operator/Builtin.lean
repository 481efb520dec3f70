import Laminate.Operator.Builtin
import Laminate.Proofs.Cursor.WellFormed

/-!
# What the built-in operators answer

Each phase has its kind of answers: in the first one entries are injected, in the second one nothing
succeeds, and in the last one values take the places of calls (`answersByValue_of_eval`). The
answers of the first two phases are well-formed if the tree is (`answersWell_of_ne_eval`).
-/

namespace Laminate

/-! ## Results -/

section Results

universe u v

variable {ε ε' : Type u} {α β : Type v}

theorem exists_of_map_eq_ok {x : Except ε α} {f : α → β} {b : β} (h : x.map f = .ok b) :
    ∃ a, x = .ok a ∧ f a = b := by
  cases x with
  | error e => cases h
  | ok a => exact ⟨a, rfl, Except.ok.inj h⟩

theorem exists_of_bind_eq_ok {x : Except ε α} {f : α → Except ε β} {b : β}
    (h : x >>= f = .ok b) : ∃ a, x = .ok a ∧ f a = .ok b := by
  cases x with
  | error e => cases h
  | ok a => exact ⟨a, rfl, h⟩

theorem eq_ok_of_mapError {x : Except ε α} {f : ε → ε'} {a : α} (h : x.mapError f = .ok a) :
    x = .ok a := by
  cases x with
  | error e => cases h
  | ok b => exact congrArg Except.ok (Except.ok.inj h)

end Results

/-! ## Kinds of answers -/

/-- Whether an answer is made of well-formed trees. -/
def Response.WellFormed : Response → Prop
  | .replace value => value.WellFormed
  | .inject entries => (Node.mapping entries).WellFormed

namespace Operator

/-- The operator answers with a value whenever it answers. -/
def AnswersByValue (op : Operator) : Prop :=
  ∀ input ctx response ctx', op.run input ctx = (.ok response, ctx') →
    ∃ value, response = .replace value

/-- The answers of the operator in a well-formed tree are well-formed. -/
def AnswersWell (op : Operator) : Prop :=
  ∀ input ctx response ctx', input.tree.WellFormed → op.run input ctx = (.ok response, ctx') →
    response.WellFormed

/-! ## Answers by value -/

theorem answersByValue_grab : grab.AnswersByValue := by
  intro input ctx response ctx' h
  have hvalue : grabValue input = .ok response := congrArg Prod.fst h
  unfold grabValue at hvalue
  split at hvalue
  · cases hvalue
  · obtain ⟨value, -, rfl⟩ := exists_of_map_eq_ok hvalue
    exact ⟨value, rfl⟩
  · obtain ⟨values, -, rfl⟩ := exists_of_map_eq_ok hvalue
    exact ⟨_, rfl⟩

theorem answersByValue_concat : concat.AnswersByValue := by
  intro input ctx response ctx' h
  have hvalue : concatValue input = .ok response := congrArg Prod.fst h
  unfold concatValue at hvalue
  split at hvalue
  · cases hvalue
  · obtain ⟨text, -, rfl⟩ := exists_of_map_eq_ok hvalue
    exact ⟨_, rfl⟩

theorem answersByValue_join : join.AnswersByValue := by
  intro input ctx response ctx' h
  have hvalue : joinValue input = .ok response := congrArg Prod.fst h
  unfold joinValue at hvalue
  split at hvalue
  · obtain ⟨separator, -, hrest⟩ := exists_of_bind_eq_ok hvalue
    obtain ⟨parts, -, hparts⟩ := exists_of_bind_eq_ok hrest
    cases hparts
    exact ⟨_, rfl⟩
  · cases hvalue

theorem answersByValue_staticAddresses : staticAddresses.AnswersByValue := by
  intro input ctx response ctx' h
  simp only [staticAddresses] at h
  split at h
  · cases h
  · split at h
    · cases h
      exact ⟨_, rfl⟩
    · cases h

theorem answersByValue_vault : vault.AnswersByValue := by
  intro input ctx response ctx' h
  simp only [vault] at h
  split at h
  · cases h
  · split at h
    · cases h
      exact ⟨_, rfl⟩
    · unfold secretText at h
      split at h
      · cases h
      · cases h
      · split at h
        · cases h
          exact ⟨_, rfl⟩
        · cases h

theorem answersByValue_prune : prune.AnswersByValue := by
  intro input ctx response ctx' h
  cases h
  exact ⟨_, rfl⟩

/-! ## Well-formed answers -/

theorem answersWell_inject : inject.AnswersWell := by
  intro input ctx response ctx' hwf h
  have hentries : injectEntries input = .ok response := congrArg Prod.fst h
  unfold injectEntries at hentries
  split at hentries
  · next path _ =>
    cases hresolve : path.resolve input.tree with
    | error fault =>
      simp only [Argument.resolve, hresolve] at hentries
      cases hentries
    | ok value =>
      simp only [Argument.resolve, hresolve] at hentries
      cases value with
      | mapping es =>
        cases hentries
        exact hwf.resolve hresolve
      | _ => cases hentries
  · cases hentries

/-- A parameter that has to be set gives no answer. -/
theorem answersWell_param : param.AnswersWell := by
  intro input ctx response ctx' _ h
  cases congrArg Prod.fst h

/-! ## Phases -/

section Phases

variable {name : String} {op : Operator}

theorem mem_builtin (h : Registry.builtin.find? name = some op) :
    op ∈ [grab, concat, join, param, staticAddresses, vault, inject, prune] := by
  have hmem : (name, op) ∈ Registry.builtin := Entries.mem_of_get? h
  simp only [Registry.builtin, List.mem_cons, Prod.mk.injEq, List.not_mem_nil, or_false] at hmem ⊢
  rcases hmem with ⟨-, h⟩ | ⟨-, h⟩ | ⟨-, h⟩ | ⟨-, h⟩ | ⟨-, h⟩ | ⟨-, h⟩ | ⟨-, h⟩ | ⟨-, h⟩ |
    ⟨-, h⟩ <;> simp only [h, true_or, or_true]

/-- Under any other name than `static_ips` there is another operator. -/
theorem mem_builtin_of_ne (h : Registry.builtin.find? name = some op)
    (hname : name ≠ "static_ips") : op ∈ [grab, concat, join, param, vault, inject, prune] := by
  have hmem : (name, op) ∈ Registry.builtin := Entries.mem_of_get? h
  simp only [Registry.builtin, List.mem_cons, Prod.mk.injEq, List.not_mem_nil, or_false] at hmem ⊢
  rcases hmem with ⟨-, h⟩ | ⟨-, h⟩ | ⟨-, h⟩ | ⟨-, h⟩ | ⟨-, h⟩ | ⟨rfl, -⟩ | ⟨-, h⟩ | ⟨-, h⟩ |
    ⟨-, h⟩
  case inr.inr.inr.inr.inr.inl => exact absurd rfl hname
  all_goals simp only [h, true_or, or_true]

/-- **In the last phase values take the places of calls.** -/
theorem answersByValue_of_eval (h : Registry.builtin.find? name = some op)
    (hphase : op.phase = .eval) : op.AnswersByValue := by
  have hmem := mem_builtin h
  simp only [List.mem_cons, List.not_mem_nil, or_false] at hmem
  rcases hmem with rfl | rfl | rfl | rfl | rfl | rfl | rfl | rfl
  · exact answersByValue_grab
  · exact answersByValue_concat
  · exact answersByValue_join
  · cases hphase
  · exact answersByValue_staticAddresses
  · exact answersByValue_vault
  · cases hphase
  · exact answersByValue_prune

/-- **Before the last phase answers are well-formed.** -/
theorem answersWell_of_ne_eval (h : Registry.builtin.find? name = some op)
    (hphase : op.phase ≠ .eval) : op.AnswersWell := by
  have hmem := mem_builtin h
  simp only [List.mem_cons, List.not_mem_nil, or_false] at hmem
  rcases hmem with rfl | rfl | rfl | rfl | rfl | rfl | rfl | rfl
  · exact absurd rfl hphase
  · exact absurd rfl hphase
  · exact absurd rfl hphase
  · exact answersWell_param
  · exact absurd rfl hphase
  · exact absurd rfl hphase
  · exact answersWell_inject
  · exact absurd rfl hphase

end Phases

end Operator

end Laminate
