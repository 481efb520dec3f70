import Laminate.Context

/-!
# Asking a store once

A context is used by asking for secrets, claiming addresses, marking paths and resetting it
(`Operation`). From a context that remembers nothing on, and as long as it is not reset, the paths
that were asked for are exactly those with a remembered answer (`Asked`): each operation keeps that
(`Asked.perform`). So the store is asked at most once for a path, and each time a secret is asked
for it is the answer to this one request that is told (`exists_askedOnce`), whether the store has
found the secret or not, and whatever it would answer by now.
-/

namespace Laminate.Context

/-- An operation on a context. -/
inductive Operation
  | secret (path : String)
  | claim (network : String) (address : IPv4) (owner : String)
  | markPrune (path : Cursor)
  | reset
deriving DecidableEq, Repr

/-- The context after an operation. A claim that is refused leaves it as it is. -/
def perform (ctx : Context) : Operation → Context
  | .secret path => (ctx.secret path).2
  | .claim network address owner => (ctx.claim network address owner).toOption.getD ctx
  | .markPrune path => ctx.markPrune path
  | .reset => ctx.reset

/-- The context after operations in order. -/
def performAll (ctx : Context) (ops : List Operation) : Context :=
  ops.foldl perform ctx

theorem performAll_append (ctx : Context) (ops others : List Operation) :
    ctx.performAll (ops ++ others) = (ctx.performAll ops).performAll others :=
  List.foldl_append

/-! ## Operations that ask for nothing -/

/-- What a context knows of secrets, and whether it shows them, is the same in both. -/
structure SameKnowledge (ctx ctx' : Context) : Prop where
  store : ctx'.store = ctx.store
  redact : ctx'.redact = ctx.redact
  requests : ctx'.requests = ctx.requests
  answers : ctx'.answers = ctx.answers

theorem SameKnowledge.refl (ctx : Context) : ctx.SameKnowledge ctx := ⟨rfl, rfl, rfl, rfl⟩

theorem sameKnowledge_claim {ctx ctx' : Context} {network owner : String} {address : IPv4}
    (h : ctx.claim network address owner = .ok ctx') : ctx.SameKnowledge ctx' := by
  unfold claim at h
  split at h
  · split at h <;> cases h
    exact .refl ctx
  · cases h
    exact ⟨rfl, rfl, rfl, rfl⟩

theorem perform_claim {ctx ctx' : Context} {network owner : String} {address : IPv4}
    (h : ctx.claim network address owner = .ok ctx') :
    ctx.perform (.claim network address owner) = ctx' := by
  rw [perform, h]
  rfl

theorem sameKnowledge_perform_claim (ctx : Context) (network : String) (address : IPv4)
    (owner : String) : ctx.SameKnowledge (ctx.perform (.claim network address owner)) := by
  cases hclaim : ctx.claim network address owner with
  | error holder =>
    rw [perform, hclaim]
    exact .refl ctx
  | ok ctx' =>
    rw [perform_claim hclaim]
    exact sameKnowledge_claim hclaim

theorem sameKnowledge_markPrune (ctx : Context) (path : Cursor) :
    ctx.SameKnowledge (ctx.markPrune path) := by
  unfold markPrune
  split
  · exact .refl ctx
  · exact ⟨rfl, rfl, rfl, rfl⟩

/-! ## What was asked for -/

/-- Since the start the store was asked for these paths, each of them once, and its answer to each
request is remembered. -/
structure Asked (start ctx : Context) (asked : List String) : Prop where
  store : ctx.store = start.store
  requests : ctx.requests = start.requests ++ asked
  keys : Entries.keys ctx.answers = asked
  nodup : asked.Nodup
  answers : ∀ store, start.store = some store → ∀ (i : Nat) path, asked[i]? = some path →
    Entries.get? ctx.answers path = some (store.answer (start.requests ++ asked.take i) path)

/-- What is told of a secret is what the store has answered to the request for its path. Without a
store there is no secret. -/
def Told (start : Context) (asked : List String) (path : String)
    (told : Except SecretFault (Option Secret)) : Prop :=
  match start.store with
  | none => told = .ok none
  | some store => ∃ i : Nat, asked[i]? = some path ∧
    told = (store.answer (start.requests ++ asked.take i) path).map some

section Asked

variable {start ctx : Context} {asked asked' : List String} {path : String}
  {told : Except SecretFault (Option Secret)}

theorem Asked.nil (h : start.answers = []) : Asked start start [] where
  store := rfl
  requests := (List.append_nil _).symm
  keys := by rw [h]; rfl
  nodup := List.nodup_nil
  answers := nofun

theorem Asked.of_sameKnowledge {ctx' : Context} (h : Asked start ctx asked)
    (hsame : ctx.SameKnowledge ctx') : Asked start ctx' asked where
  store := hsame.store.trans h.store
  requests := hsame.requests.trans h.requests
  keys := by rw [hsame.answers, h.keys]
  nodup := h.nodup
  answers := by rw [hsame.answers]; exact h.answers

/-- Later requests do not change the answers to earlier ones. -/
theorem Told.of_prefix (h : Told start asked path told) (hbefore : asked <+: asked') :
    Told start asked' path told := by
  unfold Told at h ⊢
  cases hstore : start.store with
  | none => rwa [hstore] at h
  | some store =>
    rw [hstore] at h
    obtain ⟨i, hi, htold⟩ := h
    have hlt : i < asked.length := (List.getElem?_eq_some_iff.mp hi).1
    obtain ⟨later, rfl⟩ := hbefore
    refine ⟨i, by rw [List.getElem?_append_left hlt, hi], ?_⟩
    rw [List.take_append_of_le_length (Nat.le_of_lt hlt), htold]

/-- A request for a path that no answer is remembered for is the first one for it. -/
theorem Asked.request {store : SecretStore} (h : Asked start ctx asked)
    (hstore : start.store = some store) (hnew : Entries.get? ctx.answers path = none) :
    Asked start (ctx.request store path).2 (asked ++ [path]) := by
  have hpath : path ∉ asked := h.keys ▸ (Entries.get?_eq_none_iff _ _).mp hnew
  refine ⟨h.store, ?_, ?_, Entries.nodup_append_new h.nodup hpath, ?_⟩
  · exact (congrArg (· ++ [path]) h.requests).trans (List.append_assoc ..)
  · exact (Entries.keys_insert ..).trans (by rw [h.keys, if_neg hpath])
  · intro store' hstore' i other hi
    cases hstore.symm.trans hstore'
    show Entries.get? (Entries.insert ctx.answers path (store.answer ctx.requests path)) other = _
    rw [Entries.get?_insert]
    rcases Nat.lt_or_ge i asked.length with hlt | hge
    · -- an earlier request is for another path
      rw [List.getElem?_append_left hlt] at hi
      have hne : ¬path = other := fun heq => hpath (heq ▸ List.mem_of_getElem? hi)
      rw [if_neg hne, h.answers store hstore i other hi,
        List.take_append_of_le_length (Nat.le_of_lt hlt)]
    · rw [List.getElem?_append_right hge, List.getElem?_singleton] at hi
      split at hi
      · next hzero =>
        cases hi
        have hi : i = asked.length := by omega
        rw [if_pos rfl, hi, List.take_left, h.requests]
      · cases hi

/-- **Asking for a secret tells the answer to the one request for its path.** -/
theorem Asked.secret (h : Asked start ctx asked) (path : String) :
    ∃ asked', asked <+: asked' ∧ Asked start (ctx.secret path).2 asked' ∧
      Told start asked' path (ctx.secret path).1 := by
  unfold Context.secret Told
  rw [h.store]
  cases hstore : start.store with
  | none => exact ⟨asked, List.prefix_refl _, h, rfl⟩
  | some store =>
    cases hanswer : Entries.get? ctx.answers path with
    | some answer =>
      -- there is an answer, so there was a request
      have hmem : path ∈ asked :=
        h.keys ▸ List.mem_map.mpr ⟨_, Entries.mem_of_get? hanswer, rfl⟩
      obtain ⟨i, hi⟩ := List.getElem?_of_mem hmem
      have hfirst := h.answers store hstore i path hi
      rw [hanswer] at hfirst
      refine ⟨asked, List.prefix_refl _, h, i, hi, ?_⟩
      exact congrArg (Except.map some) (Option.some.inj hfirst)
    | none =>
      refine ⟨asked ++ [path], List.prefix_append _ _, h.request hstore hanswer, asked.length,
        List.getElem?_concat_length, ?_⟩
      rw [List.take_left, ← h.requests]
      rfl

/-- **An operation other than a reset keeps what was asked for.** -/
theorem Asked.perform (h : Asked start ctx asked) {op : Operation} (hop : op ≠ .reset) :
    ∃ asked', asked <+: asked' ∧ Asked start (ctx.perform op) asked' := by
  cases op with
  | secret path =>
    obtain ⟨asked', hgrows, hasked, -⟩ := h.secret path
    exact ⟨asked', hgrows, hasked⟩
  | claim network address owner =>
    exact ⟨asked, List.prefix_refl _, h.of_sameKnowledge (sameKnowledge_perform_claim ..)⟩
  | markPrune path =>
    exact ⟨asked, List.prefix_refl _, h.of_sameKnowledge (sameKnowledge_markPrune ..)⟩
  | reset => exact absurd rfl hop

/-- Operations other than resets keep what was asked for. -/
theorem Asked.performAll {ops : List Operation} (hops : .reset ∉ ops) :
    ∀ {ctx : Context} {asked : List String}, Asked start ctx asked →
    ∃ asked', asked <+: asked' ∧ Asked start (ctx.performAll ops) asked' := by
  induction ops with
  | nil => exact fun {_ asked} h => ⟨asked, List.prefix_refl _, h⟩
  | cons op ops ih =>
    intro ctx asked h
    obtain ⟨hop, hops⟩ := not_or.mp (hops ∘ List.mem_cons.mpr)
    obtain ⟨middle, hfirst, hmiddle⟩ := h.perform (Ne.symm hop)
    obtain ⟨asked', hrest, hasked⟩ := ih hops hmiddle
    exact ⟨asked', hfirst.trans hrest, hasked⟩

end Asked

/-! ## Runs of operations -/

/-- While operations are done, the store is asked for these paths, each of them once, and whenever a
secret is asked for, the answer to the one request for its path is told. -/
structure AskedOnce (start : Context) (ops : List Operation) (asked : List String) : Prop where
  requests : (start.performAll ops).requests = start.requests ++ asked
  nodup : asked.Nodup
  told : ∀ before path after, ops = before ++ .secret path :: after →
    Told start asked path ((start.performAll before).secret path).1

/-- **From a context that remembers nothing, each path is asked for at most once until the next
reset.** -/
theorem exists_askedOnce {start : Context} (hstart : start.answers = []) {ops : List Operation}
    (hops : .reset ∉ ops) : ∃ asked, AskedOnce start ops asked := by
  obtain ⟨asked, -, hasked⟩ := (Asked.nil hstart).performAll hops
  refine ⟨asked, hasked.requests, hasked.nodup, ?_⟩
  rintro before path after rfl
  obtain ⟨hbefore, hafter⟩ := not_or.mp (fun h => hops (List.mem_append.mpr h))
  obtain ⟨earlier, -, hearlier⟩ := (Asked.nil hstart).performAll hbefore
  obtain ⟨middle, -, hmiddle, htold⟩ := hearlier.secret path
  -- what is asked for afterwards comes behind the request for this path
  obtain ⟨asked', hgrows, hasked'⟩ :=
    hmiddle.performAll fun h => hafter (List.mem_cons_of_mem _ h)
  have hrequests : start.requests ++ asked' = start.requests ++ asked := by
    rw [← hasked.requests, ← hasked'.requests, performAll_append]
    rfl
  exact htold.of_prefix (List.append_cancel_left hrequests ▸ hgrows)

theorem answers_performAll_reset (ctx : Context) (ops : List Operation) :
    (ctx.performAll (ops ++ [.reset])).answers = [] := by
  rw [performAll_append]
  rfl

/-! ## What calls do -/

/-- Whether calls do an operation: they never reset a context, and while redaction is on they ask
for no secret. -/
def Operation.Permitted (redact : Bool) : Operation → Prop
  | .secret _ => redact = false
  | .reset => False
  | _ => True

/-- The second context comes from the first one by operations that calls do. -/
def ProceedsTo (ctx ctx' : Context) : Prop :=
  ∃ ops : List Operation, (∀ op ∈ ops, op.Permitted ctx.redact) ∧ ctx' = ctx.performAll ops

section Proceeding

variable {ctx ctx' ctx'' : Context}

theorem redact_perform (ctx : Context) (op : Operation) : (ctx.perform op).redact = ctx.redact := by
  cases op with
  | secret path =>
    rcases ctx.secret_cases path with h | ⟨store, -, -, h⟩ <;>
      exact (congrArg Context.redact h).trans rfl
  | claim network address owner => exact (sameKnowledge_perform_claim ..).redact
  | markPrune path => exact (sameKnowledge_markPrune ..).redact
  | reset => rfl

theorem redact_performAll (ops : List Operation) : ∀ ctx : Context,
    (ctx.performAll ops).redact = ctx.redact := by
  induction ops with
  | nil => exact fun _ => rfl
  | cons op ops ih => exact fun ctx => (ih (ctx.perform op)).trans (redact_perform ctx op)

namespace ProceedsTo

theorem refl (ctx : Context) : ctx.ProceedsTo ctx := ⟨[], nofun, rfl⟩

theorem trans (h : ctx.ProceedsTo ctx') (h' : ctx'.ProceedsTo ctx'') : ctx.ProceedsTo ctx'' := by
  obtain ⟨ops, hops, rfl⟩ := h
  obtain ⟨others, hothers, rfl⟩ := h'
  refine ⟨ops ++ others, fun op hop => ?_, (performAll_append ..).symm⟩
  rw [redact_performAll] at hothers
  exact (List.mem_append.mp hop).elim (hops op) (hothers op)

theorem perform (op : Operation) (h : op.Permitted ctx.redact) :
    ctx.ProceedsTo (ctx.perform op) :=
  ⟨[op], List.forall_mem_singleton.mpr h, rfl⟩

theorem redact (h : ctx.ProceedsTo ctx') : ctx'.redact = ctx.redact := by
  obtain ⟨ops, -, rfl⟩ := h
  exact redact_performAll ops ctx

/-- **While redaction is on, calls ask the store for nothing.** -/
theorem requests (h : ctx.ProceedsTo ctx') (hredact : ctx.redact = true) :
    ctx'.requests = ctx.requests := by
  obtain ⟨ops, hops, rfl⟩ := h
  rw [hredact] at hops
  induction ops generalizing ctx with
  | nil => rfl
  | cons op ops ih =>
    obtain ⟨hop, hrest⟩ := List.forall_mem_cons.mp hops
    refine (ih ((redact_perform ctx op).trans hredact) hrest).trans ?_
    cases op with
    | secret path => cases hop
    | claim network address owner => exact (sameKnowledge_perform_claim ..).requests
    | markPrune path => exact (sameKnowledge_markPrune ..).requests
    | reset => exact hop.elim

/-- Calls ask for each path at most once, all of them together. -/
theorem exists_askedOnce (h : ctx.ProceedsTo ctx') (hstart : ctx.answers = []) :
    ∃ ops asked, ctx' = ctx.performAll ops ∧ AskedOnce ctx ops asked := by
  obtain ⟨ops, hops, rfl⟩ := h
  obtain ⟨asked, hasked⟩ := Context.exists_askedOnce hstart fun hreset => hops _ hreset
  exact ⟨ops, asked, rfl, hasked⟩

end ProceedsTo

end Proceeding

end Laminate.Context
