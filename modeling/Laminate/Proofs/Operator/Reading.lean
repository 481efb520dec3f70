import Laminate.Proofs.Cursor.Likeness
import Laminate.Proofs.Operator.Builtin

/-!
# What an answer depends on

An operator of the last phase reads the tree through the values of its arguments alone, and the
context through the secrets that it tells (`AnswersAlike`). All that it does to the context is to
ask for secrets and to mark paths that depend on nothing but its place (`Marks`); with a store that
answers by path, asking for a secret changes no secret (`sameSecrets_secret`).

Calls to `static_ips` are apart: they read the networks of the tree, and claim addresses.
-/

namespace Laminate

/-! ## Secrets -/

namespace Context

/-- The store answers the same for a path whatever it was asked before. -/
def StoreByPath (ctx : Context) : Prop :=
  ∀ store, ctx.store = some store → ∀ path requests requests',
    store.answer requests path = store.answer requests' path

/-- Contexts that tell the same secrets, now and later. -/
structure SameSecrets (ctx ctx' : Context) : Prop where
  store : ctx.store = ctx'.store
  redact : ctx.redact = ctx'.redact
  secret : ∀ path, (ctx.secret path).1 = (ctx'.secret path).1

variable {ctx ctx' ctx'' : Context}

namespace SameSecrets

theorem refl (ctx : Context) : ctx.SameSecrets ctx :=
  ⟨rfl, rfl, fun _ => rfl⟩

theorem symm (h : ctx.SameSecrets ctx') : ctx'.SameSecrets ctx :=
  ⟨h.store.symm, h.redact.symm, fun path => (h.secret path).symm⟩

theorem trans (h : ctx.SameSecrets ctx') (h' : ctx'.SameSecrets ctx'') : ctx.SameSecrets ctx'' :=
  ⟨h.store.trans h'.store, h.redact.trans h'.redact,
    fun path => (h.secret path).trans (h'.secret path)⟩

theorem storeByPath (h : ctx.SameSecrets ctx') (hstore : ctx.StoreByPath) : ctx'.StoreByPath :=
  fun store hsome => hstore store (h.store.trans hsome)

end SameSecrets

theorem prune_secret (ctx : Context) (path : String) : (ctx.secret path).2.prune = ctx.prune := by
  rcases ctx.secret_cases path with h | ⟨store, -, -, h⟩
  · rw [h]
  · rw [h]
    rfl

/-- **If the store answers by path, asking for a secret changes no secret.** -/
theorem sameSecrets_secret (hstore : ctx.StoreByPath) (path : String) :
    (ctx.secret path).2.SameSecrets ctx := by
  rcases ctx.secret_cases path with h | ⟨store, hsome, hnew, h⟩
  · rw [h]
    exact .refl ctx
  · rw [h]
    refine ⟨rfl, rfl, fun other => ?_⟩
    have hanswers : (ctx.request store path).2.answers
        = Entries.insert ctx.answers path (store.answer ctx.requests path) := rfl
    have hrest : (ctx.request store path).2.store = some store := hsome
    simp only [secret, hrest, hsome, hanswers, Entries.get?_insert]
    by_cases heq : path = other
    · -- the answer is remembered now, and was the store's before
      subst heq
      rw [if_pos rfl, hnew]
      rfl
    · rw [if_neg heq]
      cases Entries.get? ctx.answers other with
      | some answer => rfl
      | none => exact congrArg (Except.map some) (hstore store hsome other _ _)

theorem sameSecrets_markPrune (ctx : Context) (path : Cursor) :
    (ctx.markPrune path).SameSecrets ctx := by
  unfold markPrune
  split
  · exact .refl ctx
  · refine ⟨rfl, rfl, fun other => ?_⟩
    simp only [secret]
    cases ctx.store with
    | none => rfl
    | some store =>
      dsimp only
      cases Entries.get? ctx.answers other <;> rfl

end Context

/-! ## Answers -/

/-- Answers by values that are related. -/
inductive Response.Alike (R : Node → Node → Prop) : Response → Response → Prop
  | replace {value value' : Node} (values : R value value') :
      Alike R (.replace value) (.replace value')

theorem Response.Alike.eq {response response' : Response}
    (h : Response.Alike Eq response response') : response = response' := by
  cases h with
  | replace values => rw [values]

namespace Operator

/-- Where the arguments have values that are read alike and the context tells the same secrets, the
operator answers alike. -/
def AnswersAlike (op : Operator) : Prop :=
  ∀ {R : Node → Node → Prop}, Node.Likeness R → ∀ {tree tree' : Node} {args : List Argument},
    (∀ arg ∈ args, ResultsAgree Eq R (arg.resolve tree) (arg.resolve tree')) →
    ∀ {ctx ctx' : Context}, ctx.SameSecrets ctx' → ∀ here,
    ResultsAgree Eq (Response.Alike R) (op.run ⟨tree, here, args⟩ ctx).1
      (op.run ⟨tree', here, args⟩ ctx').1

/-- Whatever becomes of a call at a place, it marks these paths and leaves the secrets as they
are. -/
def Marks (op : Operator) (marks : Cursor → List Cursor) : Prop :=
  ∀ input ctx, ctx.StoreByPath → (op.run input ctx).2.SameSecrets ctx ∧
    ∀ path, path ∈ (op.run input ctx).2.prune ↔ path ∈ ctx.prune ∨ path ∈ marks input.here

section Answers

variable {R : Node → Node → Prop} {tree tree' : Node} {args : List Argument}

theorem textFor_eq (hR : Node.Likeness R) {n n' : Node} (h : R n n') (what : String) :
    n.textFor what = n'.textFor what := by
  rw [Node.textFor, Node.textFor, hR.text?_eq h, hR.kind_eq h]

theorem argumentText_eq (hR : Node.Likeness R) {arg : Argument}
    (h : ResultsAgree Eq R (arg.resolve tree) (arg.resolve tree')) :
    argumentText tree arg = argumentText tree' arg := by
  unfold argumentText
  generalize arg.resolve tree = x at h ⊢
  generalize arg.resolve tree' = y at h ⊢
  cases h with
  | ok hvalue => exact textFor_eq hR hvalue _
  | error heq => rw [heq]

theorem concatText_eq (hR : Node.Likeness R) (here : Cursor)
    (h : ∀ arg ∈ args, ResultsAgree Eq R (arg.resolve tree) (arg.resolve tree')) :
    concatText ⟨tree, here, args⟩ = concatText ⟨tree', here, args⟩ := by
  have htexts := ResultsAgree.mapM fun arg harg =>
    ResultsAgree.of_eq (argumentText_eq hR (h arg harg))
  rw [List.forall₂_eq_eq_eq] at htexts
  exact congrArg (Except.map String.join) htexts.eq

theorem entryTexts_eq (hR : Node.Likeness R) {items items' : List Node}
    (h : List.Forall₂ R items items') : ∀ index : Nat,
    entryTexts index items = entryTexts index items' := by
  induction h with
  | nil => exact fun _ => rfl
  | cons hitem _ ih =>
    intro index
    rw [entryTexts, entryTexts, textFor_eq hR hitem, ih]

theorem pieces_eq (hR : Node.Likeness R) {arg : Argument}
    (h : ResultsAgree Eq R (arg.resolve tree) (arg.resolve tree')) :
    pieces tree arg = pieces tree' arg := by
  unfold pieces
  refine (h.bind (E := Eq) (S := Eq) fun value value' hvalue => ?_).eq
  have hitems := hR.items? hvalue
  -- both are lists, or neither is
  cases value with
  | sequence items =>
    cases value' with
    | sequence items' =>
      cases hitems with
      | some hitems => exact .of_eq (entryTexts_eq hR hitems 0)
    | _ => cases hitems
  | _ =>
    cases value' with
    | sequence items' => cases hitems
    | _ => exact .of_eq (by simp only [textFor_eq hR hvalue])

theorem answersAlike_grab : grab.AnswersAlike := by
  intro R hR tree tree' args h ctx ctx' _ here
  match args, h with
  | [], _ => exact .error rfl
  | [single], h => exact (h single (List.mem_singleton.mpr rfl)).map fun _ _ => .replace
  | _ :: _ :: _, h =>
    exact (ResultsAgree.mapM h).map fun _ _ hvalues => .replace (hR.sequence hvalues)

theorem answersAlike_concat : concat.AnswersAlike := by
  intro R hR tree tree' args h ctx ctx' _ here
  show ResultsAgree Eq (Response.Alike R) (concatValue ⟨tree, here, args⟩)
    (concatValue ⟨tree', here, args⟩)
  unfold concatValue
  split
  · exact .error rfl
  · rw [concatText_eq hR here h]
    refine (ResultsAgree.of_eq rfl).map fun _ _ heq => ?_
    rw [heq]
    exact .replace (hR.scalar _)

theorem answersAlike_join : join.AnswersAlike := by
  intro R hR tree tree' args h ctx ctx' _ here
  show ResultsAgree Eq (Response.Alike R) (joinValue ⟨tree, here, args⟩)
    (joinValue ⟨tree', here, args⟩)
  unfold joinValue
  split
  · next separator first rest hargs =>
    subst hargs
    have hparts := ResultsAgree.mapM fun arg harg =>
      ResultsAgree.of_eq (pieces_eq hR (h arg (List.mem_cons_of_mem _ harg)))
    rw [List.forall₂_eq_eq_eq] at hparts
    refine (ResultsAgree.of_eq rfl).bind fun _ _ hseparator => hparts.bind fun _ _ heq => ?_
    rw [hseparator, heq]
    exact .ok (.replace (hR.scalar _))
  · exact .error rfl

theorem secretText_agree (hR : Node.Likeness R) (path key : String) {ctx ctx' : Context}
    (h : ctx.SameSecrets ctx') :
    ResultsAgree Eq (Response.Alike R) (secretText path key ctx).1
      (secretText path key ctx').1 := by
  have hsecret := h.secret path
  unfold secretText
  generalize ctx.secret path = x at hsecret ⊢
  generalize ctx'.secret path = y at hsecret ⊢
  obtain ⟨told, after⟩ := x
  obtain ⟨told', after'⟩ := y
  cases hsecret
  match told with
  | .error fault => exact .error rfl
  | .ok none => exact .error rfl
  | .ok (some secret) =>
    cases hkey : Entries.get? secret key with
    | some text =>
      simp only [hkey]
      exact .ok (.replace (hR.scalar _))
    | none =>
      simp only [hkey]
      exact .error rfl

theorem answersAlike_vault : vault.AnswersAlike := by
  intro R hR tree tree' args h ctx ctx' hctx here
  have htarget : secretTarget ⟨tree, here, args⟩ = secretTarget ⟨tree', here, args⟩ := by
    rw [secretTarget, secretTarget, concatText_eq hR here h]
  simp only [vault, htarget, hctx.redact]
  split
  · exact .error rfl
  · split
    · exact .ok (.replace (hR.scalar _))
    · exact secretText_agree hR _ _ hctx

theorem answersAlike_prune : prune.AnswersAlike :=
  fun hR _ _ _ _ _ _ _ _ => .ok (.replace (hR.scalar _))

end Answers

/-! ## Marks -/

/-- An operator that does not use the context marks nothing. -/
theorem marks_of_ofExcept {op : Operator} {value : CallInput → Except OperatorFault Response}
    (h : ∀ input, op.run input = .ofExcept (value input)) : op.Marks fun _ => [] := by
  intro input ctx _
  rw [h]
  exact ⟨.refl ctx, fun path => by simp [Running.ofExcept]⟩

theorem marks_vault : vault.Marks fun _ => [] := by
  intro input ctx hstore
  simp only [vault, List.not_mem_nil, or_false]
  split
  · exact ⟨.refl ctx, fun _ => .rfl⟩
  · split
    · exact ⟨.refl ctx, fun _ => .rfl⟩
    · next path key _ _ =>
      rw [context_secretText, Context.prune_secret]
      exact ⟨Context.sameSecrets_secret hstore path, fun _ => .rfl⟩

theorem marks_prune : prune.Marks fun here => [here] := by
  intro input ctx _
  refine ⟨ctx.sameSecrets_markPrune input.here, fun path => ?_⟩
  rw [List.mem_singleton]
  exact ctx.mem_prune_markPrune input.here path

/-! ## The last phase -/

section Phases

variable {name : String} {op : Operator}

/-- **The operators of the last phase but `static_ips` answer by what they read, and mark what their
place tells.** -/
theorem answersAlike_and_marks_of_eval (h : Registry.builtin.find? name = some op)
    (hphase : op.phase = .eval) (hname : name ≠ "static_ips") :
    op.AnswersAlike ∧ ∃ marks, op.Marks marks := by
  have hmem := mem_builtin_of_ne h hname
  simp only [List.mem_cons, List.not_mem_nil, or_false] at hmem
  rcases hmem with rfl | rfl | rfl | rfl | rfl | rfl | rfl
  · exact ⟨answersAlike_grab, _, marks_of_ofExcept fun _ => rfl⟩
  · exact ⟨answersAlike_concat, _, marks_of_ofExcept fun _ => rfl⟩
  · exact ⟨answersAlike_join, _, marks_of_ofExcept fun _ => rfl⟩
  · cases hphase
  · exact ⟨answersAlike_vault, _, marks_vault⟩
  · cases hphase
  · exact ⟨answersAlike_prune, _, marks_prune⟩

end Phases

end Operator

end Laminate
