import Laminate.Proofs.Operator.Builtin
import Mathlib.Data.List.Basic

/-!
# Holders of addresses

Each address of a network has at most one holder, and whoever holds it keeps it whatever other
calls do (`keepsHolders_of_builtin`). A call that succeeds holds the addresses that it gives: the
one at each position in the name of its job and that position (`claimAll_ok`). A position of a job
has a name of its own (`ownerName_inj`), but two jobs of one name have the same names for their
instances.
-/

namespace Laminate

namespace Context

/-- The name of the holder of an address. -/
def owner? (ctx : Context) (network : String) (address : IPv4) : Option String :=
  (ctx.holder? network address).map Claim.owner

/-- Whoever holds an address still holds it in the other context. -/
def KeepsHolders (ctx ctx' : Context) : Prop :=
  ∀ network address owner, ctx.owner? network address = some owner →
    ctx'.owner? network address = some owner

variable {ctx ctx' ctx'' : Context} {network owner : String} {address : IPv4}

theorem KeepsHolders.refl (ctx : Context) : ctx.KeepsHolders ctx :=
  fun _ _ _ h => h

theorem KeepsHolders.trans (h : ctx.KeepsHolders ctx') (h' : ctx'.KeepsHolders ctx'') :
    ctx.KeepsHolders ctx'' :=
  fun network address owner howner => h' network address owner (h network address owner howner)

theorem KeepsHolders.of_claims (h : ctx'.claims = ctx.claims) : ctx.KeepsHolders ctx' := by
  intro network address owner howner
  rwa [owner?, holder?, h]

/-- All that a claim that succeeds can do: the owner is the holder already, or nobody is and the
claim comes last in the table. -/
theorem claim_ok_cases (h : ctx.claim network address owner = .ok ctx') :
    (ctx.owner? network address = some owner ∧ ctx' = ctx) ∨
    (ctx.owner? network address = none ∧
      ctx' = { ctx with claims := ctx.claims ++ [⟨network, address, owner⟩] }) := by
  unfold claim at h
  cases hholder : ctx.holder? network address with
  | some c =>
    simp only [hholder] at h
    split at h
    · next howner =>
      cases h
      exact .inl ⟨by rw [owner?, hholder, ← howner]; rfl, rfl⟩
    · cases h
  | none =>
    simp only [hholder] at h
    cases h
    exact .inr ⟨by rw [owner?, hholder]; rfl, rfl⟩

/-- The holder of an address in a longer table is the one there was, or else the first new one. -/
theorem owner?_append (claims : List Claim) (network : String) (address : IPv4) :
    owner? { ctx with claims := ctx.claims ++ claims } network address
      = (ctx.owner? network address).or
          (owner? { ctx with claims := claims } network address) := by
  simp [owner?, holder?, List.find?_append, Option.map_or]

/-- A claim that succeeds makes its owner the holder. -/
theorem owner?_of_claim (h : ctx.claim network address owner = .ok ctx') :
    ctx'.owner? network address = some owner := by
  rcases claim_ok_cases h with ⟨howner, rfl⟩ | ⟨hnone, rfl⟩
  · exact howner
  · rw [owner?_append, hnone]
    simp [owner?, holder?]

/-- A claim is refused with the name of another holder. -/
theorem owner?_of_claim_error {holder : String}
    (h : ctx.claim network address owner = .error holder) :
    ctx.owner? network address = some holder ∧ holder ≠ owner := by
  unfold claim at h
  cases hholder : ctx.holder? network address with
  | none =>
    simp only [hholder] at h
    cases h
  | some c =>
    simp only [hholder] at h
    split at h
    · cases h
    · next hother =>
      cases h
      exact ⟨by rw [owner?, hholder]; rfl, hother⟩

theorem keepsHolders_of_claim (h : ctx.claim network address owner = .ok ctx') :
    ctx.KeepsHolders ctx' := by
  rcases claim_ok_cases h with ⟨-, rfl⟩ | ⟨-, rfl⟩
  · exact .refl ctx'
  · -- the new claim comes last, so the holders there were are found before it
    intro network' address' owner' howner
    rw [owner?_append, howner, Option.some_or]

end Context

namespace Operator

/-! ## Requests -/

/-- The name of the network of a call in a tree. The entry of the network is what the call stands
in. -/
def networkOf? (tree : Node) (here : Cursor) : Option String :=
  (here.parent.resolve tree).toOption.map fun entry => networkName entry here

theorem addressSite_eq_ok {here : Cursor} {site : AddressSite} (h : addressSite here = .ok site) :
    here.components ≠ [] ∧ site.entry = here.parent := by
  unfold addressSite at h
  split at h
  · cases h
  · next hplaced =>
    cases h
    refine ⟨fun hempty => hplaced (Or.inl ?_), congrArg Cursor.mk List.dropLast_eq_take.symm⟩
    rw [Cursor.depth, hempty]
    decide

/-- A request is complete: its network is named by the entry, and there is an offset for each
instance. -/
theorem addressRequest_eq_ok {input : CallInput} {request : AddressRequest}
    (h : addressRequest input = .ok request) :
    input.here.components ≠ [] ∧ networkOf? input.tree input.here = some request.network ∧
      request.instances ≤ request.offsets.length := by
  unfold addressRequest at h
  obtain ⟨site, hsite, h⟩ := exists_of_bind_eq_ok h
  obtain ⟨jobNode, -, h⟩ := exists_of_bind_eq_ok h
  obtain ⟨entry, hentry, h⟩ := exists_of_bind_eq_ok h
  dsimp only at h
  split at h
  · obtain ⟨instances, -, h⟩ := exists_of_bind_eq_ok h
    obtain ⟨networkNode, -, h⟩ := exists_of_bind_eq_ok h
    obtain ⟨pool, -, h⟩ := exists_of_bind_eq_ok h
    obtain ⟨offsets, -, h⟩ := exists_of_bind_eq_ok h
    split at h
    · obtain ⟨_, hthrow, -⟩ := exists_of_bind_eq_ok h
      cases hthrow
    · next hsize =>
      cases h
      obtain ⟨hne, heq⟩ := addressSite_eq_ok hsite
      refine ⟨hne, ?_, Nat.le_of_not_lt hsize⟩
      rw [networkOf?, ← heq, eq_ok_of_mapError hentry]
      rfl
  · obtain ⟨_, hthrow, -⟩ := exists_of_bind_eq_ok h
    cases hthrow

/-! ## Names of instances -/

/-- The name of an instance tells its job and its position. -/
theorem ownerName_inj {job job' : String} {i j : Nat} (h : ownerName job i = ownerName job' j) :
    job = job' ∧ i = j := by
  have hlist := congrArg (fun text => text.toList.reverse) h
  simp only [ownerName, String.toList_append, Numeral.toList_text, List.reverse_append,
    List.append_assoc] at hlist
  have hslash : ∀ n, '/' ∉ (Numeral.digits n).reverse := fun n hmem =>
    Numeral.notMem_digits rfl n (List.mem_reverse.mp hmem)
  obtain ⟨hdigits, hjob⟩ := Text.append_cons_inj (hslash i) (hslash j) hlist
  exact ⟨String.toList_inj.mp (List.reverse_inj.mp hjob),
    Numeral.digits_injective (List.reverse_inj.mp hdigits)⟩

/-- A list of addresses is told by its texts. -/
theorem addressList_injective {addresses addresses' : List IPv4}
    (h : addressList addresses = addressList addresses') : addresses = addresses' := by
  refine List.map_injective_iff.mpr (fun a b heq => ?_) (Node.sequence.inj h)
  cases IPv4.text_injective (Scalar.string.inj (Node.scalar.inj heq))
  rfl

/-! ## Claims of a call -/

/-- Why an instance cannot have the address at an offset. -/
inductive Refusal (request : AddressRequest) (ctx : Context) (index offset : Nat) :
    OperatorFault → Prop
  | range (outside : Pool.nth? request.pool offset = none) :
      Refusal request ctx index offset
        (.offsetOutOfRange offset request.job request.network request.pool.size)
  | taken {address : IPv4} {holder : String}
      (inside : Pool.nth? request.pool offset = some address)
      (held : ctx.owner? request.network address = some holder)
      (other : holder ≠ ownerName request.job index) :
      Refusal request ctx index offset (.addressTaken address request.network holder)

/-- All that serving an instance can do: it is refused, or it claims its address and the next ones
are served. -/
theorem claimAll_cons_cases {request : AddressRequest} {index offset : Nat} {offsets : List Nat}
    {ctx ctx' : Context} {result : Except OperatorFault (List IPv4)}
    (h : claimAll request index (offset :: offsets) ctx = (result, ctx')) :
    (∃ fault, Refusal request ctx index offset fault ∧ result = .error fault ∧ ctx' = ctx) ∨
    ∃ address mid rest, Pool.nth? request.pool offset = some address ∧
      ctx.claim request.network address (ownerName request.job index) = .ok mid ∧
      claimAll request (index + 1) offsets mid = (rest, ctx') ∧
      result = rest.map (address :: ·) := by
  simp only [claimAll] at h
  split at h
  · next hnth =>
    cases h
    exact .inl ⟨_, .range hnth, rfl, rfl⟩
  · next address hnth =>
    split at h
    · next holder hclaim =>
      cases h
      obtain ⟨hheld, hother⟩ := Context.owner?_of_claim_error hclaim
      exact .inl ⟨_, .taken hnth hheld hother, rfl, rfl⟩
    · next mid hclaim =>
      split at h
      all_goals
        next hrest =>
        cases h
        exact .inr ⟨address, mid, _, hnth, hclaim, hrest, rfl⟩

/-- What serving an instance does when all are served. -/
theorem exists_of_claimAll_cons_ok {request : AddressRequest} {index offset : Nat}
    {offsets : List Nat} {ctx ctx' : Context} {addresses : List IPv4}
    (h : claimAll request index (offset :: offsets) ctx = (.ok addresses, ctx')) :
    ∃ address mid rest, Pool.nth? request.pool offset = some address ∧
      ctx.claim request.network address (ownerName request.job index) = .ok mid ∧
      claimAll request (index + 1) offsets mid = (.ok rest, ctx') ∧
      addresses = address :: rest := by
  rcases claimAll_cons_cases h with
    ⟨fault, -, heq, -⟩ | ⟨address, mid, rest, hnth, hclaim, hrest, heq⟩
  · cases heq
  · cases rest with
    | error fault => cases heq
    | ok rest => exact ⟨address, mid, rest, hnth, hclaim, hrest, Except.ok.inj heq⟩

/-- The claims of a call keep the holders there were, also if one of them is refused. -/
theorem keepsHolders_claimAll {request : AddressRequest} {offsets : List Nat}
    {result : Except OperatorFault (List IPv4)} : ∀ {index : Nat} {ctx ctx' : Context},
    claimAll request index offsets ctx = (result, ctx') → ctx.KeepsHolders ctx' := by
  induction offsets generalizing result with
  | nil =>
    rintro index ctx ctx' ⟨⟩
    exact .refl ctx
  | cons offset offsets ih =>
    intro index ctx ctx' h
    rcases claimAll_cons_cases h with ⟨_, -, -, rfl⟩ | ⟨address, mid, rest, -, hclaim, hrest, -⟩
    · exact .refl ctx'
    · exact (Context.keepsHolders_of_claim hclaim).trans (ih hrest)

/-- **A call that succeeds holds its addresses, each for the instance at its position.** -/
theorem claimAll_ok {request : AddressRequest} {offsets : List Nat} :
    ∀ {index : Nat} {ctx ctx' : Context} {addresses : List IPv4},
    claimAll request index offsets ctx = (.ok addresses, ctx') →
    addresses.length = offsets.length ∧
    ∀ i address, addresses[i]? = some address →
      ctx'.owner? request.network address = some (ownerName request.job (index + i)) := by
  induction offsets with
  | nil =>
    rintro index ctx ctx' addresses ⟨⟩
    exact ⟨rfl, nofun⟩
  | cons offset offsets ih =>
    intro index ctx ctx' addresses h
    obtain ⟨address, mid, rest, -, hclaim, hrest, rfl⟩ := exists_of_claimAll_cons_ok h
    obtain ⟨hlength, hholds⟩ := ih hrest
    refine ⟨congrArg (· + 1) hlength, fun i other hi => ?_⟩
    cases i with
    | zero =>
      cases hi
      exact keepsHolders_claimAll hrest _ _ _ (Context.owner?_of_claim hclaim)
    | succ i =>
      rw [List.getElem?_cons_succ] at hi
      rw [← Nat.succ_add_eq_add_succ]
      exact hholds i other hi

/-- A call that has read all it needs does what its claims do. -/
theorem run_staticAddresses {input : CallInput} {request : AddressRequest} {ctx ctx' : Context}
    {result : Except OperatorFault (List IPv4)} (hrequest : addressRequest input = .ok request)
    (hclaims : claimAll request 0 (request.offsets.take request.instances) ctx = (result, ctx')) :
    staticAddresses.run input ctx
      = (result.map fun addresses => .replace (addressList addresses), ctx') := by
  simp only [staticAddresses, hrequest, hclaims]
  cases result <;> rfl

/-- All that a call can do: it fails while it reads the tree, or it claims addresses. -/
theorem run_staticAddresses_cases (input : CallInput) (ctx : Context) :
    (∃ fault, addressRequest input = .error fault ∧
      staticAddresses.run input ctx = (.error fault, ctx)) ∨
    ∃ request result ctx', addressRequest input = .ok request ∧
      claimAll request 0 (request.offsets.take request.instances) ctx = (result, ctx') ∧
      staticAddresses.run input ctx
        = (result.map fun addresses => .replace (addressList addresses), ctx') := by
  cases hrequest : addressRequest input with
  | error fault => exact .inl ⟨fault, rfl, by simp only [staticAddresses, hrequest]⟩
  | ok request => exact .inr ⟨request, _, _, rfl, rfl, run_staticAddresses hrequest rfl⟩

theorem run_staticAddresses_eq_ok {input : CallInput} {ctx ctx' : Context} {response : Response}
    (h : staticAddresses.run input ctx = (.ok response, ctx')) :
    ∃ request addresses, addressRequest input = .ok request ∧
      claimAll request 0 (request.offsets.take request.instances) ctx = (.ok addresses, ctx') ∧
      response = .replace (addressList addresses) := by
  rcases run_staticAddresses_cases input ctx with
    ⟨fault, -, hrun⟩ | ⟨request, result, after, hrequest, hclaims, hrun⟩
  · rw [hrun] at h
    cases h
  · rw [hrun] at h
    cases result with
    | error fault => cases h
    | ok addresses =>
      cases h
      exact ⟨request, addresses, hrequest, hclaims, rfl⟩

theorem run_staticAddresses_eq_error {input : CallInput} {ctx ctx' : Context}
    {fault : OperatorFault} (h : staticAddresses.run input ctx = (.error fault, ctx')) :
    (addressRequest input = .error fault ∧ ctx' = ctx) ∨
    ∃ request, addressRequest input = .ok request ∧
      claimAll request 0 (request.offsets.take request.instances) ctx = (.error fault, ctx') := by
  rcases run_staticAddresses_cases input ctx with
    ⟨_, hrequest, hrun⟩ | ⟨request, result, after, hrequest, hclaims, hrun⟩
  · rw [hrun] at h
    cases h
    exact .inl ⟨hrequest, rfl⟩
  · rw [hrun] at h
    cases result with
    | error fault =>
      cases h
      exact .inr ⟨request, hrequest, hclaims⟩
    | ok addresses => cases h

/-! ## Other operators -/

/-- The operator leaves all holders of addresses, whatever it answers. -/
def KeepsHolders (op : Operator) : Prop :=
  ∀ (input : CallInput) (ctx : Context), ctx.KeepsHolders (op.run input ctx).2

theorem keepsHolders_staticAddresses : staticAddresses.KeepsHolders := by
  intro input ctx
  rcases run_staticAddresses_cases input ctx with ⟨_, -, hrun⟩ | ⟨_, _, _, -, hclaims, hrun⟩
  · rw [hrun]
    exact .refl ctx
  · rw [hrun]
    exact keepsHolders_claimAll hclaims

theorem claims_secret (ctx : Context) (path : String) :
    (ctx.secret path).2.claims = ctx.claims := by
  rcases ctx.secret_cases path with h | ⟨store, -, -, h⟩
  · rw [h]
  · rw [h]
    rfl

theorem keepsHolders_vault : vault.KeepsHolders := by
  intro input ctx
  refine .of_claims ?_
  simp only [vault]
  cases secretTarget input with
  | error fault => rfl
  | ok target =>
    simp only
    split
    · rfl
    · rw [context_secretText]
      exact claims_secret ctx target.1

theorem keepsHolders_prune : prune.KeepsHolders := by
  intro input ctx
  refine .of_claims ?_
  simp only [prune, Context.markPrune]
  split <;> rfl

/-- **No operator takes an address away from its holder.** -/
theorem keepsHolders_of_builtin {name : String} {op : Operator}
    (h : Registry.builtin.find? name = some op) : op.KeepsHolders := by
  have hmem := mem_builtin h
  simp only [List.mem_cons, List.not_mem_nil, or_false] at hmem
  rcases hmem with rfl | rfl | rfl | rfl | rfl | rfl | rfl | rfl
  case inr.inr.inr.inr.inl => exact keepsHolders_staticAddresses
  case inr.inr.inr.inr.inr.inl => exact keepsHolders_vault
  case inr.inr.inr.inr.inr.inr.inr => exact keepsHolders_prune
  -- the others do not use the context
  all_goals exact fun _ ctx => .refl ctx

end Operator

end Laminate
