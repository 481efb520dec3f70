import Laminate.Proofs.Context.Requests
import Laminate.Proofs.Operator.Builtin

/-!
# What operators do with the context

All that a built-in operator does to the context is to ask for secrets, to claim addresses and to
mark paths (`proceeds_of_builtin`). While redaction is on it does not ask for secrets, and neither
its answer nor what it does to the context depends on the store (`ignoresStore_of_builtin`).
-/

namespace Laminate

namespace Context

/-- The context with another store, or without one. -/
def withStore (ctx : Context) (store : Option SecretStore) : Context :=
  { ctx with store }

theorem claim_withStore (ctx : Context) (store : Option SecretStore) (network : String)
    (address : IPv4) (owner : String) :
    (ctx.withStore store).claim network address owner
      = (ctx.claim network address owner).map (·.withStore store) := by
  have hholder : (ctx.withStore store).holder? network address = ctx.holder? network address := rfl
  unfold claim
  rw [hholder]
  cases ctx.holder? network address with
  | none => rfl
  | some c =>
    dsimp only
    split <;> rfl

theorem markPrune_withStore (ctx : Context) (store : Option SecretStore) (path : Cursor) :
    (ctx.withStore store).markPrune path = (ctx.markPrune path).withStore store := by
  unfold markPrune
  show (if path ∈ ctx.prune then _ else _) = _
  split <;> rfl

end Context

namespace Operator

/-- Whatever becomes of a call, the operator does to the context what calls may do. -/
def Proceeds (op : Operator) : Prop :=
  ∀ (input : CallInput) (ctx : Context), ctx.ProceedsTo (op.run input ctx).2

/-- While redaction is on, the operator does the same with any store. -/
def IgnoresStore (op : Operator) : Prop :=
  ∀ (input : CallInput) (ctx : Context) (store : Option SecretStore), ctx.redact = true →
    op.run input (ctx.withStore store)
      = ((op.run input ctx).1, (op.run input ctx).2.withStore store)

/-! ## Static addresses -/

theorem proceedsTo_claimAll (request : AddressRequest) (offsets : List Nat) :
    ∀ (index : Nat) (ctx : Context), ctx.ProceedsTo (claimAll request index offsets ctx).2 := by
  induction offsets with
  | nil => exact fun _ ctx => .refl ctx
  | cons offset offsets ih =>
    intro index ctx
    simp only [claimAll]
    cases Pool.nth? request.pool offset with
    | none => exact .refl ctx
    | some address =>
      dsimp only
      cases hclaim : ctx.claim request.network address (ownerName request.job index) with
      | error holder => exact .refl ctx
      | ok ctx' =>
        have hfirst : ctx.ProceedsTo ctx' := by
          rw [← Context.perform_claim hclaim]
          exact .perform _ trivial
        have hrest := ih (index + 1) ctx'
        dsimp only
        split
        all_goals
          next hresult =>
          rw [hresult] at hrest
          exact hfirst.trans hrest

theorem claimAll_withStore (request : AddressRequest) (store : Option SecretStore)
    (offsets : List Nat) : ∀ (index : Nat) (ctx : Context),
    claimAll request index offsets (ctx.withStore store)
      = ((claimAll request index offsets ctx).1,
          (claimAll request index offsets ctx).2.withStore store) := by
  induction offsets with
  | nil => exact fun _ _ => rfl
  | cons offset offsets ih =>
    intro index ctx
    simp only [claimAll, Context.claim_withStore]
    cases Pool.nth? request.pool offset with
    | none => rfl
    | some address =>
      dsimp only
      cases ctx.claim request.network address (ownerName request.job index) with
      | error holder => rfl
      | ok ctx' =>
        simp only [Except.map, ih]
        generalize claimAll request (index + 1) offsets ctx' = rest
        obtain ⟨result, after⟩ := rest
        cases result <;> rfl

theorem proceeds_staticAddresses : staticAddresses.Proceeds := by
  intro input ctx
  simp only [staticAddresses]
  cases addressRequest input with
  | error fault => exact .refl ctx
  | ok request =>
    have hclaims :=
      proceedsTo_claimAll request (request.offsets.take request.instances) 0 ctx
    dsimp only
    split
    all_goals
      next hresult =>
      rw [hresult] at hclaims
      exact hclaims

theorem ignoresStore_staticAddresses : staticAddresses.IgnoresStore := by
  intro input ctx store _
  simp only [staticAddresses]
  cases addressRequest input with
  | error fault => rfl
  | ok request =>
    simp only [claimAll_withStore]
    generalize claimAll request 0 (request.offsets.take request.instances) ctx = claims
    obtain ⟨result, after⟩ := claims
    cases result <;> rfl

/-! ## Secrets and marks -/

theorem proceeds_vault : vault.Proceeds := by
  intro input ctx
  simp only [vault]
  cases secretTarget input with
  | error fault => exact .refl ctx
  | ok target =>
    dsimp only
    split
    · exact .refl ctx
    · next hshown =>
      rw [context_secretText]
      exact .perform (.secret target.1) ((Bool.not_eq_true _).mp hshown)

theorem ignoresStore_vault : vault.IgnoresStore := by
  intro input ctx store hredact
  have hredact' : (ctx.withStore store).redact = true := hredact
  simp only [vault]
  cases secretTarget input with
  | error fault => rfl
  | ok target => simp only [hredact, hredact', if_true]

theorem proceeds_prune : prune.Proceeds :=
  fun input _ => .perform (.markPrune input.here) trivial

theorem ignoresStore_prune : prune.IgnoresStore :=
  fun input ctx store _ => congrArg (Prod.mk _) (ctx.markPrune_withStore store input.here)

/-! ## All operators -/

section All

variable {name : String} {op : Operator}

/-- **No operator does more to the context than to ask for secrets, to claim addresses and to mark
paths; while redaction is on, no operator asks for secrets.** -/
theorem proceeds_of_builtin (h : Registry.builtin.find? name = some op) : op.Proceeds := by
  have hmem := mem_builtin h
  simp only [List.mem_cons, List.not_mem_nil, or_false] at hmem
  rcases hmem with rfl | rfl | rfl | rfl | rfl | rfl | rfl | rfl
  case inr.inr.inr.inr.inl => exact proceeds_staticAddresses
  case inr.inr.inr.inr.inr.inl => exact proceeds_vault
  case inr.inr.inr.inr.inr.inr.inr => exact proceeds_prune
  -- the others do not use the context
  all_goals exact fun _ ctx => .refl ctx

/-- **While redaction is on, no operator depends on the store.** -/
theorem ignoresStore_of_builtin (h : Registry.builtin.find? name = some op) :
    op.IgnoresStore := by
  have hmem := mem_builtin h
  simp only [List.mem_cons, List.not_mem_nil, or_false] at hmem
  rcases hmem with rfl | rfl | rfl | rfl | rfl | rfl | rfl | rfl
  case inr.inr.inr.inr.inl => exact ignoresStore_staticAddresses
  case inr.inr.inr.inr.inr.inl => exact ignoresStore_vault
  case inr.inr.inr.inr.inr.inr.inr => exact ignoresStore_prune
  all_goals exact fun _ _ _ _ => rfl

end All

end Operator

end Laminate
