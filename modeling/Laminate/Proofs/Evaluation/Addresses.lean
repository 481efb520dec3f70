import Laminate.Proofs.Evaluation.CallRun
import Laminate.Proofs.Evaluation.Settled
import Laminate.Proofs.Node.WellFormed
import Laminate.Proofs.Operator.Addresses

/-!
# Addresses given out in a run

At the end of a run every call to `static_ips` holds the addresses that stand in its place, each in
the name of an instance (`exists_allotted`). So no list of addresses repeats one, and the lists of
two calls have an address of their network in common only if both calls stand for a job of the same
name and have the address at the same position (`addresses_shared_iff`).
-/

namespace Laminate.Evaluation

open Operator

/-! ## Holders during a run -/

theorem keepsHolders_runCall {state : Evaluation} {call : PlannedCall}
    (h : call.operator.KeepsHolders) :
    state.context.KeepsHolders (state.runCall call).2.context := by
  rw [context_runCall (Prod.eta _).symm]
  exact h _ _

theorem keepsHolders_runCalls {calls : List PlannedCall}
    (h : ∀ call ∈ calls, call.operator.KeepsHolders) : ∀ state : Evaluation,
    state.context.KeepsHolders (state.runCalls calls).2.context := by
  induction calls with
  | nil => exact fun state => .refl _
  | cons call calls ih =>
    intro state
    obtain ⟨hcall, hcalls⟩ := List.forall_mem_cons.mp h
    exact (keepsHolders_runCall hcall).trans (ih hcalls _)

theorem keepsHolders_of_mem {phase : Phase} {tree : Node} {call : PlannedCall}
    (h : call ∈ (planFor .builtin phase tree).calls) : call.operator.KeepsHolders :=
  keepsHolders_of_builtin (plannedCall?_eq_some.mp (mem_planFor_calls.mp h).2).1

/-! ## Calls for addresses -/

/-- What a call stands in is a container. -/
theorem exists_entry {tree : Node} (hwf : tree.WellFormed) {site : CallSite}
    (hsite : site ∈ tree.callSites) (hne : site.place.cursor.components ≠ []) :
    ∃ entry, tree.At site.place.cursor.parent.components entry ∧ entry.isScalar = false := by
  obtain ⟨text, hat, -⟩ := Node.at_of_mem_callSites hwf hsite
  rw [← List.dropLast_append_getLast hne] at hat
  obtain ⟨entry, hentry, hlast⟩ := hat.exists_of_append
  refine ⟨entry, hentry, ?_⟩
  cases entry with
  | scalar s => cases hlast.eq_nil_of_scalar
  | _ => rfl

/-- The network of a call is named alike during the whole phase if no call stands in the name of its
entry. -/
theorem networkOf?_fill {tree : Node} (hwf : tree.WellFormed) {site : CallSite}
    (hsite : site ∈ tree.callSites) (hne : site.place.cursor.components ≠ [])
    (hname : ∀ other ∈ tree.callSites,
      other.place.cursor ≠ site.place.cursor.parent.child "name") (f : Filling) :
    networkOf? (tree.fill f) site.place.cursor = networkOf? tree site.place.cursor := by
  obtain ⟨entry, hentry, hscalar⟩ := exists_entry hwf hsite hne
  have hfield : ∀ n, entry.get? "name" = some n → n.call? = none := by
    intro n hget
    cases hcall : n.call? with
    | none => rfl
    | some call =>
      obtain ⟨text, rfl, hparse⟩ := Node.call?_eq_some hcall
      cases entry with
      | mapping es =>
        obtain ⟨other, hother, -, hcursor⟩ :=
          Node.exists_callSite (hentry.append (.key hget (.here _))) hparse
        exact absurd hcursor (hname other hother)
      | _ => cases hget
  have hfilled := (hentry.fill f).resolve
  have hnamed := Node.field?_fill (Node.call?_of_not_scalar hscalar)
    (f := f.below site.place.cursor.parent.components) fun n hget => Or.inl (hfield n hget)
  simp only [networkOf?, Cursor.resolve, hentry.resolve, hfilled, Except.toOption,
    Option.map_some, networkName, hnamed]

/-- What a call to `static_ips` has read when it ran, and the addresses that it holds in the end and
that stand in its place. -/
structure Allotted (entered final : Evaluation) (site : CallSite) (request : AddressRequest)
    (addresses : List IPv4) : Prop where
  read : ∃ before args, RunsIn entered site before ∧ Argument.parseAll site.call.args = .ok args ∧
    addressRequest ⟨before.tree, site.place.cursor, args⟩ = .ok request
  size : addresses.length = request.instances
  placed : site.place.cursor.resolve final.tree = .ok (addressList addresses)
  holds : ∀ i address, addresses[i]? = some address →
    final.context.owner? request.network address = some (ownerName request.job i)

theorem exists_plannedCall {tree : Node} (hfaults : (planFor .builtin .eval tree).faults = [])
    {site : CallSite} (hsite : site ∈ tree.callSites) (hname : site.call.name = "static_ips") :
    ∃ call, plannedCall? .builtin .eval tree site = some call := by
  rw [planFor, ofSites_faults] at hfaults
  have hfault := List.filterMap_eq_nil_iff.mp hfaults site hsite
  have hfind : Registry.builtin.find? site.call.name = some staticAddresses := by
    rw [hname]
    rfl
  unfold planFault? at hfault
  unfold plannedCall?
  rw [hfind] at hfault ⊢
  -- a site whose arguments cannot be read would have been a fault of the plan
  cases hargs : Argument.parseAll site.call.args with
  | error fault => rw [hargs] at hfault; cases hfault
  | ok args => exact ⟨_, rfl⟩

/-- **Every call to `static_ips` in a run without faults gets an address for each instance.** -/
theorem exists_allotted {entered final : Evaluation} (hwf : entered.tree.WellFormed)
    {calls : List PlannedCall}
    (hordered : ordered (planFor .builtin .eval entered.tree).calls = .ok calls)
    (hrun : entered.runCalls calls = ([], final)) {site : CallSite}
    (hsite : site ∈ entered.tree.callSites) (hname : site.call.name = "static_ips")
    (hfaults : (planFor .builtin .eval entered.tree).faults = []) :
    ∃ request addresses, Allotted entered final site request addresses ∧
      ((∀ other ∈ entered.tree.callSites,
          other.place.cursor ≠ site.place.cursor.parent.child "name") →
        networkOf? final.tree site.place.cursor = some request.network) := by
  obtain ⟨call, hcall⟩ := exists_plannedCall hfaults hsite hname
  obtain ⟨hop, -, hargs, rfl, -⟩ := plannedCall?_eq_some.mp hcall
  have hplanned : call ∈ (planFor .builtin .eval entered.tree).calls :=
    mem_planFor_calls.mpr ⟨hsite, hcall⟩
  obtain ⟨before, after, f, g, value, hcallRun⟩ := exists_callRun hwf hordered hrun hplanned
  have hop' : call.operator = staticAddresses := by
    rw [hname] at hop
    exact (Option.some.inj hop).symm
  have hanswers := hcallRun.answers
  rw [hop'] at hanswers
  obtain ⟨request, addresses, hrequest, hclaims, heq⟩ := run_staticAddresses_eq_ok hanswers
  cases heq
  obtain ⟨hlength, hholds⟩ := claimAll_ok hclaims
  obtain ⟨hne, hnetwork, hsize⟩ := addressRequest_eq_ok hrequest
  refine ⟨request, addresses, ?_, fun hcomputed => ?_⟩
  · exact
    { read := ⟨before, call.args, hcallRun.runs, hargs, hrequest⟩
      size := by rw [hlength, List.length_take, Nat.min_eq_left hsize]
      placed := hcallRun.resolve_place hwf hsite
      holds := by
        obtain ⟨rest, hrest, rfl⟩ := hcallRun.finishes
        intro i address hi
        have hheld := hholds i address hi
        rw [Nat.zero_add] at hheld
        exact keepsHolders_runCalls (fun other hother => keepsHolders_of_mem (hrest other hother))
          after _ _ _ hheld }
  · rw [hcallRun.before_eq, networkOf?_fill hwf hsite hne hcomputed f] at hnetwork
    rw [hcallRun.final_eq, networkOf?_fill hwf hsite hne hcomputed g, hnetwork]

/-- What a call holds is held for one instance. -/
theorem Allotted.inj {entered final : Evaluation} {site site' : CallSite}
    {request request' : AddressRequest} {addresses addresses' : List IPv4}
    (h : Allotted entered final site request addresses)
    (h' : Allotted entered final site' request' addresses')
    (hnetwork : request.network = request'.network) {i j : Nat} {address : IPv4}
    (hi : addresses[i]? = some address) (hj : addresses'[j]? = some address) :
    request.job = request'.job ∧ i = j := by
  have hholds := h.holds i address hi
  rw [hnetwork, h'.holds j address hj] at hholds
  obtain ⟨hjob, hposition⟩ := ownerName_inj (Option.some.inj hholds)
  exact ⟨hjob.symm, hposition.symm⟩

/-- No address is given to two instances by one call. -/
theorem Allotted.nodup {entered final : Evaluation} {site : CallSite}
    {request : AddressRequest} {addresses : List IPv4}
    (h : Allotted entered final site request addresses) : addresses.Nodup := by
  refine List.nodup_iff_injective_getElem.mpr fun i j heq => Fin.ext ?_
  exact (h.inj h rfl ((List.getElem?_eq_getElem i.isLt).trans (congrArg some heq))
    (List.getElem?_eq_getElem j.isLt)).2

/-- **In a run that succeeds every call to `static_ips` gets a list of different addresses, and the
lists of two calls with one network have an address in common if and only if the calls stand for
jobs of one name and both have some address at the same position.** The network is the one that a
call reads when it runs, and also that of its entry in the end unless a call stands in the name of
the entry. -/
theorem addresses_shared_iff {budget : Nat} {state final : Evaluation}
    (hwf : state.tree.WellFormed) (hrun : state.run .builtin budget = (.ok (), final)) :
    ∃ entered, runPhases .builtin budget [.merge, .param] state = (.ok (), entered) ∧
      (∀ site ∈ entered.tree.callSites, site.call.name = "static_ips" →
        ∃ request addresses, Allotted entered final site request addresses ∧
          (addresses.map IPv4.text).Nodup ∧
          ((∀ other ∈ entered.tree.callSites,
              other.place.cursor ≠ site.place.cursor.parent.child "name") →
            networkOf? final.tree site.place.cursor = some request.network)) ∧
      ∀ site site' request request' (addresses addresses' : List IPv4),
        Allotted entered final site request addresses →
        Allotted entered final site' request' addresses' →
        request.network = request'.network →
        ((addresses.map IPv4.text).Disjoint (addresses'.map IPv4.text) ↔
          ¬(request.job = request'.job ∧
            ∃ (i : Nat) (address : IPv4), addresses[i]? = some address ∧
              addresses'[i]? = some address)) := by
  obtain ⟨entered, hentered, hphase⟩ := run_eq_ok.mp hrun
  have hwf' : entered.tree.WellFormed := wellFormed_runPhases (by decide) hwf hentered
  obtain ⟨-, hfaults, calls, hordered, hcalls⟩ := runPhase_eq_ok.mp hphase
  refine ⟨entered, hentered, fun site hsite hname => ?_, ?_⟩
  · obtain ⟨request, addresses, hallotted, hnetwork⟩ :=
      exists_allotted hwf' hordered hcalls hsite hname hfaults
    exact ⟨request, addresses, hallotted,
      hallotted.nodup.map fun _ _ => IPv4.text_injective, hnetwork⟩
  · intro site site' request request' addresses addresses' h h' hnetwork
    constructor
    · rintro hdisjoint ⟨-, i, address, hi, hi'⟩
      exact hdisjoint (List.mem_map_of_mem (List.mem_of_getElem? hi))
        (List.mem_map_of_mem (List.mem_of_getElem? hi'))
    · intro hnone text htext htext'
      obtain ⟨address, haddress, rfl⟩ := List.mem_map.mp htext
      obtain ⟨address', haddress', heq⟩ := List.mem_map.mp htext'
      obtain rfl := IPv4.text_injective heq
      obtain ⟨i, hi⟩ := List.getElem?_of_mem haddress
      obtain ⟨j, hj⟩ := List.getElem?_of_mem haddress'
      obtain ⟨hjob, rfl⟩ := h.inj h' hnetwork hi hj
      exact hnone ⟨hjob, i, address', hi, hj⟩

/-! ## Two jobs -/

theorem runCall_staticAddresses {state : Evaluation} {call : PlannedCall}
    {request : AddressRequest} {addresses : List IPv4} {context : Context} {tree : Node}
    (hop : call.operator = staticAddresses)
    (hrequest : addressRequest ⟨state.tree, call.site.place.cursor, call.args⟩ = .ok request)
    (hclaims : claimAll request 0 (request.offsets.take request.instances) state.context
      = (.ok addresses, context))
    (hrespond : respond state.tree call.site.place.cursor (.replace (addressList addresses))
      = .ok tree) : state.runCall call = ([], ⟨tree, context⟩) := by
  refine runCall_of_ok ?_ hrespond
  rw [hop, run_staticAddresses hrequest hclaims]
  rfl

theorem run_of_two_calls {state middle final : Evaluation} {first second : PlannedCall}
    (hentered : runPhases .builtin 32 [.merge, .param] state = (.ok (), state))
    (hfaults : (planFor .builtin .eval state.tree).faults = [])
    (hplan : (planFor .builtin .eval state.tree).calls = [first, second])
    (hordered : ordered [first, second] = .ok [first, second])
    (hfirst : state.runCall first = ([], middle)) (hsecond : middle.runCall second = ([], final)) :
    state.run .builtin 32 = (.ok (), final) := by
  refine run_eq_ok.mpr ⟨state, hentered, runPhase_eq_ok.mpr
    ⟨by decide, hfaults, [first, second], hplan ▸ hordered, ?_⟩⟩
  rw [runCalls_cons, hfirst, runCalls_cons, hsecond]
  rfl

/-- A job with one instance. -/
def addressJob (name : String) (given : Node) : Node :=
  .mapping [("name", .string name), ("instances", .integer 1),
    ("networks", .sequence [.mapping [("name", .string "default"), ("static_ips", given)]])]

/-- The job `web` and another one in a network of two addresses, of which `web` wants the first
one. -/
def addressJobs (given : Node) (other : String) (given' : Node) : Node :=
  .mapping
    [("networks", .sequence [.mapping [("name", .string "default"),
      ("subnets", .sequence [.mapping [("static", .string "10.0.0.5 - 10.0.0.6")]])]]),
    ("jobs", .sequence [addressJob "web" given, addressJob other given'])]

/-- The call of the job at an index. -/
def addressCall (index : Nat) (name args : String) (offset : Int64) : PlannedCall where
  site := ⟨⟨⟨["jobs", Numeral.text index, "networks", "0", "static_ips"]⟩,
    ⟨["jobs", name, "networks", "default", "static_ips"]⟩⟩, ⟨"static_ips", args⟩⟩
  operator := staticAddresses
  args := [.literal (.integer offset)]
  dependencies := [⟨["jobs", Numeral.text index, "instances"]⟩, ⟨["networks", "0"]⟩]

/-- What the call of a job wants: one address of two. -/
def oneAddress (name : String) (offset : Nat) : AddressRequest :=
  ⟨name, "default", 1, [⟨167772165, 167772166, by decide⟩], [offset]⟩

/-- The claim of the first instance of a job. -/
def firstClaim (name : String) (address : IPv4) : Claim :=
  ⟨"default", address, ownerName name 0⟩

/-- Two jobs before their calls have run. -/
def beforeCalls (other text : String) : Evaluation where
  tree := addressJobs (.string "(( static_ips 0 ))") other (.string text)
  context := {}

/-- Two jobs after their calls have run. -/
def afterCalls (other : String) (address : IPv4) (claims : List Claim) : Evaluation where
  tree := addressJobs (addressList [⟨167772165⟩]) other (addressList [address])
  context := { claims := firstClaim "web" ⟨167772165⟩ :: claims }

theorem run_differentNames :
    (beforeCalls "db" "(( static_ips 1 ))").run .builtin 32
      = (.ok (), afterCalls "db" ⟨167772166⟩ [firstClaim "db" ⟨167772166⟩]) := by
  have hplan : (planFor .builtin .eval (beforeCalls "db" "(( static_ips 1 ))").tree).calls
      = [addressCall 0 "web" "0" 0, addressCall 1 "db" "1" 1] := rfl
  have hfirst : addressRequest ⟨(beforeCalls "db" "(( static_ips 1 ))").tree,
      (addressCall 0 "web" "0" 0).site.place.cursor, (addressCall 0 "web" "0" 0).args⟩
      = .ok (oneAddress "web" 0) := rfl
  have hfirst_claims : claimAll (oneAddress "web" 0) 0 [0] {}
      = (.ok [⟨167772165⟩], { claims := [firstClaim "web" ⟨167772165⟩] }) := rfl
  have hsecond : addressRequest
      ⟨addressJobs (addressList [⟨167772165⟩]) "db" (.string "(( static_ips 1 ))"),
        (addressCall 1 "db" "1" 1).site.place.cursor, (addressCall 1 "db" "1" 1).args⟩
      = .ok (oneAddress "db" 1) := rfl
  have hsecond_claims : claimAll (oneAddress "db" 1) 0 [1]
      { claims := [firstClaim "web" ⟨167772165⟩] } = (.ok [⟨167772166⟩],
        { claims := [firstClaim "web" ⟨167772165⟩, firstClaim "db" ⟨167772166⟩] }) := rfl
  exact run_of_two_calls rfl rfl hplan rfl
    (runCall_staticAddresses rfl hfirst hfirst_claims rfl)
    (runCall_staticAddresses rfl hsecond hsecond_claims rfl)

theorem addresses_of_different_names :
    ∃ request request' addresses addresses',
      Allotted (beforeCalls "db" "(( static_ips 1 ))")
        (afterCalls "db" ⟨167772166⟩ [firstClaim "db" ⟨167772166⟩])
        (addressCall 0 "web" "0" 0).site request addresses ∧
      Allotted (beforeCalls "db" "(( static_ips 1 ))")
        (afterCalls "db" ⟨167772166⟩ [firstClaim "db" ⟨167772166⟩])
        (addressCall 1 "db" "1" 1).site request' addresses' ∧
      request.network = request'.network ∧
      (addresses.map IPv4.text).Disjoint (addresses'.map IPv4.text) := by
  have hentered : runPhases .builtin 32 [.merge, .param] (beforeCalls "db" "(( static_ips 1 ))")
      = (.ok (), beforeCalls "db" "(( static_ips 1 ))") := rfl
  have hwf : (beforeCalls "db" "(( static_ips 1 ))").tree.WellFormed := by decide
  obtain ⟨entered, hentered', hsites, hshared⟩ := addresses_shared_iff hwf run_differentNames
  rw [hentered] at hentered'
  cases hentered'
  obtain ⟨request, addresses, h, -, hnetwork⟩ :=
    hsites (addressCall 0 "web" "0" 0).site List.mem_cons_self rfl
  obtain ⟨request', addresses', h', -, hnetwork'⟩ :=
    hsites (addressCall 1 "db" "1" 1).site (List.mem_cons_of_mem _ List.mem_cons_self) rfl
  have hsame : request.network = request'.network :=
    Option.some.inj ((hnetwork (by decide)).symm.trans (hnetwork' (by decide)))
  refine ⟨request, request', addresses, addresses', h, h', hsame,
    (hshared _ _ _ _ _ _ h h' hsame).mpr ?_⟩
  -- the first list is that of one address, the second that of another one
  obtain rfl : [⟨167772165⟩] = addresses := addressList_injective (Except.ok.inj h.placed)
  obtain rfl : [⟨167772166⟩] = addresses' := addressList_injective (Except.ok.inj h'.placed)
  rintro ⟨-, i, address, hi, hi'⟩
  cases i with
  | zero => cases hi; cases hi'
  | succ i => cases hi

theorem run_oneName :
    (beforeCalls "web" "(( static_ips 0 ))").run .builtin 32
      = (.ok (), afterCalls "web" ⟨167772165⟩ []) := by
  have hplan : (planFor .builtin .eval (beforeCalls "web" "(( static_ips 0 ))").tree).calls
      = [addressCall 0 "web" "0" 0, addressCall 1 "web" "0" 0] := rfl
  have hfirst : addressRequest ⟨(beforeCalls "web" "(( static_ips 0 ))").tree,
      (addressCall 0 "web" "0" 0).site.place.cursor, (addressCall 0 "web" "0" 0).args⟩
      = .ok (oneAddress "web" 0) := rfl
  have hfirst_claims : claimAll (oneAddress "web" 0) 0 [0] {}
      = (.ok [⟨167772165⟩], { claims := [firstClaim "web" ⟨167772165⟩] }) := rfl
  have hsecond : addressRequest
      ⟨addressJobs (addressList [⟨167772165⟩]) "web" (.string "(( static_ips 0 ))"),
        (addressCall 1 "web" "0" 0).site.place.cursor, (addressCall 1 "web" "0" 0).args⟩
      = .ok (oneAddress "web" 0) := rfl
  -- the claim of the other job is taken for one of the same instance
  have hsecond_claims : claimAll (oneAddress "web" 0) 0 [0]
      { claims := [firstClaim "web" ⟨167772165⟩] }
      = (.ok [⟨167772165⟩], { claims := [firstClaim "web" ⟨167772165⟩] }) := rfl
  exact run_of_two_calls rfl rfl hplan rfl
    (runCall_staticAddresses rfl hfirst hfirst_claims rfl)
    (runCall_staticAddresses rfl hsecond hsecond_claims rfl)

/-- Two jobs of one name get the same address of the same network. -/
theorem address_given_twice :
    (beforeCalls "web" "(( static_ips 0 ))").run .builtin 32
      = (.ok (), afterCalls "web" ⟨167772165⟩ []) ∧
    (∀ index ∈ [0, 1],
      (addressCall index "web" "0" 0).site ∈
        (beforeCalls "web" "(( static_ips 0 ))").tree.callSites ∧
      networkOf? (afterCalls "web" ⟨167772165⟩ []).tree
        (addressCall index "web" "0" 0).site.place.cursor = some "default" ∧
      (addressCall index "web" "0" 0).site.place.cursor.resolve
        (afterCalls "web" ⟨167772165⟩ []).tree = .ok (addressList [⟨167772165⟩])) ∧
    (addressCall 0 "web" "0" 0).site.place.cursor
      ≠ (addressCall 1 "web" "0" 0).site.place.cursor := by
  refine ⟨run_oneName, List.forall_mem_cons.mpr ⟨⟨?_, rfl, rfl⟩,
    List.forall_mem_singleton.mpr ⟨?_, rfl, rfl⟩⟩, by decide⟩
  · exact List.mem_cons_self
  · exact List.mem_cons_of_mem _ List.mem_cons_self

end Laminate.Evaluation
