import Laminate.Proofs.Operator.Addresses

/-!
# What a call for addresses claims

A call for addresses claims them one by one for its instances and stops at the first one that it
cannot have (`exists_of_claimAll_error`). So the table of claims grows by the addresses of the
instances that were served, as far as nobody held them before (`claimAll_eq_gaining`), and it does
so whether the call succeeds or fails: a call that fails leaves the table as it was if and only if
each instance that was served held its address already (`claims_of_staticAddresses`).
-/

namespace Laminate

namespace Context

/-- The claims on addresses that nobody holds yet. -/
def unheld (ctx : Context) (claims : List Claim) : List Claim :=
  claims.filter fun c => (ctx.owner? c.network c.address).isNone

/-- The context after claims: those on addresses that nobody held are new in the table. -/
def gaining (ctx : Context) (claims : List Claim) : Context :=
  { ctx with claims := ctx.claims ++ ctx.unheld claims }

variable {ctx ctx' : Context} {network owner : String} {address : IPv4} {claims : List Claim}
  {c : Claim}

@[simp] theorem gaining_nil (ctx : Context) : ctx.gaining [] = ctx := by
  rw [gaining, unheld, List.filter_nil, List.append_nil]

/-- A context gains nothing exactly if all the addresses are held. -/
theorem gaining_eq_self_iff : ctx.gaining claims = ctx ↔
    ∀ c ∈ claims, ctx.owner? c.network c.address ≠ none := by
  have hclaims : ctx.gaining claims = ctx ↔ ctx.unheld claims = [] := by
    constructor
    · intro h
      exact List.append_right_eq_self.mp (congrArg Context.claims h)
    · intro h
      rw [gaining, h, List.append_nil]
  rw [hclaims, unheld, List.filter_eq_nil_iff]
  simp only [Option.isNone_iff_eq_none, ne_eq]

/-- A claim that succeeds is new if nobody held the address. -/
theorem eq_gaining_of_claim (h : ctx.claim network address owner = .ok ctx') :
    ctx' = ctx.gaining [⟨network, address, owner⟩] := by
  rcases claim_ok_cases h with ⟨howner, rfl⟩ | ⟨hnone, rfl⟩
  · refine (gaining_eq_self_iff.mpr fun c hc => ?_).symm
    obtain rfl := List.mem_singleton.mp hc
    exact fun hnone => nomatch howner.symm.trans hnone
  · simp [gaining, unheld, hnone]

/-- A claim does not change who holds the other addresses. -/
theorem owner?_gaining_of_ne (h : address ≠ c.address) :
    (ctx.gaining [c]).owner? network address = ctx.owner? network address := by
  have hother : owner? { ctx with claims := ctx.unheld [c] } network address = none := by
    simp only [owner?, holder?, Option.map_eq_none_iff, List.find?_eq_none, unheld]
    intro d hd
    obtain rfl := List.mem_singleton.mp (List.mem_filter.mp hd).1
    simpa using fun _ heq => h heq.symm
  rw [gaining, owner?_append, hother, Option.or_none]

/-- Claims on different addresses add up. -/
theorem gaining_cons (h : ∀ d ∈ claims, d.address ≠ c.address) :
    (ctx.gaining [c]).gaining claims = ctx.gaining (c :: claims) := by
  have hrest : (ctx.gaining [c]).unheld claims = ctx.unheld claims :=
    List.filter_congr fun d hd => by rw [owner?_gaining_of_ne (h d hd)]
  have hfirst : ctx.unheld (c :: claims) = ctx.unheld [c] ++ ctx.unheld claims :=
    List.filter_append [c] claims
  rw [gaining, hrest, gaining, gaining, hfirst, List.append_assoc]

end Context

namespace Operator

/-- The claims on addresses for consecutive instances of a job. -/
def instanceClaims (request : AddressRequest) (index : Nat) (addresses : List IPv4) : List Claim :=
  (addresses.zipIdx index).map fun p => ⟨request.network, p.1, ownerName request.job p.2⟩

variable {request : AddressRequest} {ctx after : Context} {address : IPv4}
  {addresses : List IPv4} {offsets : List Nat} {fault : OperatorFault} {index : Nat}

theorem instanceClaims_cons (index : Nat) :
    instanceClaims request index (address :: addresses)
      = ⟨request.network, address, ownerName request.job index⟩
        :: instanceClaims request (index + 1) addresses := by
  rw [instanceClaims, List.zipIdx_cons, List.map_cons]
  rfl

/-- What holds of the addresses holds of the claims. -/
theorem forall_mem_instanceClaims (P : String → IPv4 → Prop) :
    (∀ c ∈ instanceClaims request index addresses, P c.network c.address) ↔
      ∀ address ∈ addresses, P request.network address :=
  calc (∀ c ∈ instanceClaims request index addresses, P c.network c.address)
    _ ↔ ∀ p ∈ addresses.zipIdx index, P request.network p.1 := List.forall_mem_map
    _ ↔ ∀ address ∈ (addresses.zipIdx index).map Prod.fst, P request.network address :=
      List.forall_mem_map.symm
    _ ↔ ∀ address ∈ addresses, P request.network address := by rw [List.zipIdx_map_fst]

/-! ## Calls that serve their instances -/

/-- The addresses that instances get are those at their offsets. -/
theorem addresses_of_claimAll (h : claimAll request index offsets ctx = (.ok addresses, after)) :
    addresses.map some = offsets.map (Pool.nth? request.pool) := by
  induction offsets generalizing index ctx addresses with
  | nil =>
    cases h
    rfl
  | cons offset offsets ih =>
    obtain ⟨address, mid, rest, hnth, -, hrest, rfl⟩ := exists_of_claimAll_cons_ok h
    rw [List.map_cons, List.map_cons, hnth, ih hrest]

/-- The instances of a job get different addresses, since they are different holders. -/
theorem nodup_of_claimAll (h : claimAll request index offsets ctx = (.ok addresses, after)) :
    addresses.Nodup := by
  rw [List.nodup_iff_pairwise_ne, List.pairwise_iff_getElem]
  intro i j hi hj hij heq
  obtain ⟨-, hheld⟩ := claimAll_ok h
  have hfirst := hheld i _ (List.getElem?_eq_getElem hi)
  have hsecond := hheld j _ (List.getElem?_eq_getElem hj)
  rw [heq, hsecond] at hfirst
  have := (ownerName_inj (Option.some.inj hfirst)).2
  omega

/-- Whoever held an address before is the instance that gets it. -/
theorem owner_of_claimAll {i : Nat} {owner : String}
    (h : claimAll request index offsets ctx = (.ok addresses, after))
    (hi : addresses[i]? = some address)
    (howner : ctx.owner? request.network address = some owner) :
    owner = ownerName request.job (index + i) := by
  have hheld := (claimAll_ok h).2 i address hi
  rw [keepsHolders_claimAll h _ _ _ howner] at hheld
  exact Option.some.inj hheld

/-- **The table grows by the addresses of the instances that nobody held.** -/
theorem claimAll_eq_gaining (h : claimAll request index offsets ctx = (.ok addresses, after)) :
    after = ctx.gaining (instanceClaims request index addresses) := by
  induction offsets generalizing index ctx addresses with
  | nil =>
    cases h
    exact (Context.gaining_nil after).symm
  | cons offset offsets ih =>
    have hnodup := nodup_of_claimAll h
    obtain ⟨address, mid, rest, -, hclaim, hrest, rfl⟩ := exists_of_claimAll_cons_ok h
    have hothers : ∀ c ∈ instanceClaims request (index + 1) rest, c.address ≠ address :=
      (forall_mem_instanceClaims fun _ other => other ≠ address).mpr fun other hother heq =>
        (List.nodup_cons.mp hnodup).1 (heq ▸ hother)
    rw [ih hrest, Context.eq_gaining_of_claim hclaim, instanceClaims_cons,
      Context.gaining_cons hothers]

/-! ## Calls that are refused -/

/-- A call is refused at an instance, after the ones before were served. -/
theorem exists_of_claimAll_error (h : claimAll request index offsets ctx = (.error fault, after)) :
    ∃ addresses offset, offsets[addresses.length]? = some offset ∧
      claimAll request index (offsets.take addresses.length) ctx = (.ok addresses, after) ∧
      Refusal request after (index + addresses.length) offset fault := by
  induction offsets generalizing index ctx with
  | nil => cases h
  | cons offset offsets ih =>
    rcases claimAll_cons_cases h with
      ⟨_, hrefusal, heq, rfl⟩ | ⟨address, mid, rest, hnth, hclaim, hrest, heq⟩
    · cases heq
      exact ⟨[], offset, rfl, rfl, hrefusal⟩
    · cases rest with
      | ok addresses => cases heq
      | error fault' =>
        cases heq
        obtain ⟨addresses, other, hother, hserved, hrefusal⟩ := ih hrest
        refine ⟨address :: addresses, other, hother, ?_, ?_⟩
        · simp only [List.length_cons, List.take_succ_cons, claimAll, hnth, hclaim, hserved]
        · rwa [Nat.succ_add_eq_add_succ] at hrefusal

/-! ## The table after a call -/

/-- The addresses are those at the first offsets of a request. They are different, and each of them
is free in the context or held by the instance that gets it. -/
structure Serves (request : AddressRequest) (ctx : Context) (addresses : List IPv4) : Prop where
  offsets : addresses.map some
    = (request.offsets.take addresses.length).map (Pool.nth? request.pool)
  nodup : addresses.Nodup
  own : ∀ (i : Nat) (address : IPv4) (owner : String), addresses[i]? = some address →
    ctx.owner? request.network address = some owner → owner = ownerName request.job i

theorem serves_of_claimAll {count : Nat}
    (h : claimAll request 0 (request.offsets.take count) ctx = (.ok addresses, after)) :
    Serves request ctx addresses where
  offsets := by
    have hlength := (claimAll_ok h).1
    rw [addresses_of_claimAll h, hlength, List.length_take, ← List.take_eq_take_min]
  nodup := nodup_of_claimAll h
  own i address owner hi howner := by
    rw [owner_of_claimAll h hi howner, Nat.zero_add]

/-- **The table of claims after a call.** If the call succeeds, the table has gained the addresses
that it gives, as far as nobody held them before. If it fails, the table has gained those of the
instances before the one that was refused; so it is as before exactly if the call failed before its
first claim, or each of these addresses was held already. -/
theorem claims_of_staticAddresses (input : CallInput) (ctx : Context) :
    (∀ response after, staticAddresses.run input ctx = (.ok response, after) →
      ∃ request addresses, addressRequest input = .ok request ∧
        addresses.length = request.instances ∧ Serves request ctx addresses ∧
        response = .replace (addressList addresses) ∧
        after = ctx.gaining (instanceClaims request 0 addresses)) ∧
    (∀ fault after, staticAddresses.run input ctx = (.error fault, after) →
      (addressRequest input = .error fault ∧ after = ctx) ∨
      ∃ request addresses offset, addressRequest input = .ok request ∧
        addresses.length < request.instances ∧
        request.offsets[addresses.length]? = some offset ∧
        Serves request ctx addresses ∧
        Refusal request after addresses.length offset fault ∧
        after = ctx.gaining (instanceClaims request 0 addresses) ∧
        (after = ctx ↔
          ∀ address ∈ addresses, ctx.owner? request.network address ≠ none)) := by
  constructor
  · intro response after h
    obtain ⟨request, addresses, hrequest, hclaims, rfl⟩ := run_staticAddresses_eq_ok h
    have hlength : addresses.length = request.instances := by
      rw [(claimAll_ok hclaims).1, List.length_take,
        Nat.min_eq_left (addressRequest_eq_ok hrequest).2.2]
    exact ⟨request, addresses, hrequest, hlength, serves_of_claimAll hclaims, rfl,
      claimAll_eq_gaining hclaims⟩
  · intro fault after h
    rcases run_staticAddresses_eq_error h with hread | ⟨request, hrequest, hclaims⟩
    · exact .inl hread
    · obtain ⟨addresses, offset, hoffset, hserved, hrefusal⟩ := exists_of_claimAll_error hclaims
      rw [List.getElem?_take, Option.ite_none_right_eq_some] at hoffset
      obtain ⟨hlt, hoffset⟩ := hoffset
      rw [List.take_take, Nat.min_eq_left (Nat.le_of_lt hlt)] at hserved
      rw [Nat.zero_add] at hrefusal
      have hgaining := claimAll_eq_gaining hserved
      refine .inr ⟨request, addresses, offset, hrequest, hlt, hoffset, serves_of_claimAll hserved,
        hrefusal, hgaining, ?_⟩
      rw [hgaining, Context.gaining_eq_self_iff]
      exact forall_mem_instanceClaims fun network address => ctx.owner? network address ≠ none

/-! ## A network of two addresses -/

/-- A job on the network. -/
def jobOnNetwork (name : String) (instances : Int64) : Node :=
  .mapping [("name", .string name), ("instances", .integer instances),
    ("networks", .sequence [.mapping [("name", .string "default"), ("static_ips", .null)]])]

/-- A network of two addresses, a job of two instances and a job of one. -/
def twoAddresses : Node :=
  .mapping
    [("networks", .sequence [.mapping [("name", .string "default"),
      ("subnets", .sequence [.mapping [("static", .string "10.0.0.5 - 10.0.0.6")]])]]),
    ("jobs", .sequence [jobOnNetwork "web" 2, jobOnNetwork "db" 1])]

/-- The call of a job. -/
def callFor (job : String) (offsets : List Int64) : CallInput where
  tree := twoAddresses
  here := ⟨["jobs", job, "networks", "default", "static_ips"]⟩
  args := offsets.map fun offset => .literal (.integer offset)

theorem first_le_second : (167772165 : UInt32) ≤ 167772166 := by decide

/-- What the call of a job reads. -/
def requestFor (job : String) (instances : Nat) (offsets : List Nat) : AddressRequest :=
  ⟨job, "default", instances, [⟨167772165, 167772166, first_le_second⟩], offsets⟩

/-- The first instance of the job of two holds the first address. -/
def firstHeld : Context where
  claims := [⟨"default", ⟨167772165⟩, "web/0"⟩]

/-- A call whose first instance holds its address already claims the other address if it is
served, and nothing if it is refused. -/
theorem claims_of_call_run_again :
    (∃ after, staticAddresses.run (callFor "web" [0, 1]) firstHeld
        = (.ok (.replace (addressList [⟨167772165⟩, ⟨167772166⟩])), after) ∧
      after = firstHeld.gaining
        (instanceClaims (requestFor "web" 2 [0, 1]) 0 [⟨167772165⟩, ⟨167772166⟩])) ∧
    ∃ after, staticAddresses.run (callFor "web" [0, 9]) firstHeld
        = (.error (.offsetOutOfRange 9 "web" "default" 2), after) ∧
      after = firstHeld := by
  have hfirst : addressRequest (callFor "web" [0, 1]) = .ok (requestFor "web" 2 [0, 1]) := rfl
  have hsecond : addressRequest (callFor "web" [0, 9]) = .ok (requestFor "web" 2 [0, 9]) := rfl
  refine ⟨⟨_, run_staticAddresses hfirst rfl, ?_⟩, ⟨_, run_staticAddresses hsecond rfl, ?_⟩⟩
  · obtain ⟨request, addresses, hrequest, -, -, hresponse, hafter⟩ :=
      (claims_of_staticAddresses _ firstHeld).1 _ _ (run_staticAddresses hfirst rfl)
    cases hfirst.symm.trans hrequest
    obtain rfl := addressList_injective (Response.replace.inj hresponse)
    exact hafter
  · obtain ⟨hread, -⟩ | ⟨request, addresses, offset, hrequest, hfew, -, hserves, -, -, hsame⟩ :=
      (claims_of_staticAddresses _ firstHeld).2 _ _ (run_staticAddresses hsecond rfl)
    · cases hsecond.symm.trans hread
    · cases hsecond.symm.trans hrequest
      refine hsame.mpr fun address hmem => ?_
      -- fewer than two instances were served, so only the first address was
      have hoffsets := hserves.offsets
      cases addresses with
      | nil => cases hmem
      | cons first rest =>
        cases rest with
        | nil =>
          obtain rfl := List.mem_singleton.mp hmem
          cases Option.some.inj (List.cons.inj hoffsets).1
          decide
        | cons second rest => exact absurd hfew (by simp [requestFor])

/-- A call that is refused its second address keeps the first one from another job. -/
theorem refused_call_keeps_address :
    staticAddresses.run (callFor "web" [0, 9]) {}
      = (.error (.offsetOutOfRange 9 "web" "default" 2), firstHeld) ∧
    firstHeld.claims ≠ [] ∧
    staticAddresses.run (callFor "db" [0]) firstHeld
      = (.error (.addressTaken ⟨167772165⟩ "default" "web/0"), firstHeld) ∧
    (staticAddresses.run (callFor "db" [0]) {}).1
      = .ok (.replace (addressList [⟨167772165⟩])) := by
  have hweb : addressRequest (callFor "web" [0, 9]) = .ok (requestFor "web" 2 [0, 9]) := rfl
  have hdb : addressRequest (callFor "db" [0]) = .ok (requestFor "db" 1 [0]) := rfl
  refine ⟨run_staticAddresses hweb rfl, List.cons_ne_nil _ _, run_staticAddresses hdb rfl, ?_⟩
  rw [run_staticAddresses hdb rfl]
  rfl

end Operator

end Laminate
