import Laminate.Address.Pool
import Laminate.Operator.Basic

/-!
# Static addresses

A call to `static_ips` stands at

    <jobs>.<job>.networks.<network>.static_ips

and gives the job one address of the network for each of its instances: those at the offsets that
are its arguments, in the pool of the network of that name at the top of the document. Each
address is claimed for its instance; an address that another instance holds is refused.
-/

namespace Laminate.Operator

/-- Where a call stands: the paths of its job and of its entry among the networks of the job. -/
structure AddressSite where
  job : Cursor
  entry : Cursor
deriving DecidableEq, Repr

/-- The job and the network entry of a call. -/
def addressSite (here : Cursor) : Except OperatorFault AddressSite :=
  if here.depth < 5 ∨ here.component (-3) ≠ "networks" then .error .addressesMisplaced
  else .ok ⟨⟨here.components.take (here.depth - 3)⟩, ⟨here.components.take (here.depth - 1)⟩⟩

/-- The name of the network: that of the entry, or else its place. -/
def networkName (entry : Node) (here : Cursor) : String :=
  (entry.field? "name").getD (here.component (-2))

/-- The networks at the top of a document. -/
def networksPath : Cursor := ⟨["networks"]⟩

/-- The path of a network at the top of a document. -/
def networkPath (name : String) : Cursor :=
  networksPath.child name

/-- The number that a node gives as an index. -/
def indexOf? (n : Node) : Option Nat :=
  n.integer?.bind fun i => if i < 0 then none else some i.toInt.toNat

/-- What a call needs to know before it gives out addresses. -/
structure AddressRequest where
  job : String
  network : String
  instances : Nat
  pool : Pool
  offsets : List Nat

/-- The offset that an argument gives. -/
def offsetOf (tree : Node) (arg : Argument) : Except OperatorFault Nat :=
  match arg.resolve tree with
  | .error fault => .error fault
  | .ok value =>
    match indexOf? value with
    | some i => .ok i
    | none => .error .invalidOffset

/-- Reads all that a call needs from the tree. -/
def addressRequest (input : CallInput) : Except OperatorFault AddressRequest := do
  let site ← addressSite input.here
  let jobNode ← (site.job.resolve input.tree).mapError .notFound
  let entry ← (site.entry.resolve input.tree).mapError .notFound
  let job := jobNode.name?.getD (input.here.component (-4))
  let network := networkName entry input.here
  let instances ←
    match (jobNode.get? "instances").bind indexOf? with
    | some n => pure n
    | none => throw (.instanceCount job)
  let networkNode ← ((networkPath network).resolve input.tree).mapError
    fun _ => .networkMissing network
  let pool ← Pool.ofNetwork networkNode network
  let offsets ← input.args.mapM (offsetOf input.tree)
  if offsets.length < instances then throw (.tooFewOffsets job instances offsets.length)
  pure ⟨job, network, instances, pool, offsets⟩

/-- The name of an instance of a job as the holder of an address. -/
def ownerName (job : String) (instanceIndex : Nat) : String :=
  job ++ "/" ++ Numeral.text instanceIndex

/-- Claims the addresses at the given offsets for consecutive instances. -/
def claimAll (request : AddressRequest) : Nat → List Nat → Running (List IPv4)
  | _, [] => fun ctx => (.ok [], ctx)
  | index, offset :: offsets => fun ctx =>
    match Pool.nth? request.pool offset with
    | none =>
      (.error (.offsetOutOfRange offset request.job request.network request.pool.size), ctx)
    | some address =>
      match ctx.claim request.network address (ownerName request.job index) with
      | .error holder => (.error (.addressTaken address request.network holder), ctx)
      | .ok ctx =>
        match claimAll request (index + 1) offsets ctx with
        | (.ok addresses, ctx) => (.ok (address :: addresses), ctx)
        | (.error fault, ctx) => (.error fault, ctx)

/-- The list of addresses of a job, as texts. -/
def addressList (addresses : List IPv4) : Node :=
  .sequence (addresses.map fun address => .string address.text)

/-- The path of the network that a call will read, as far as the tree tells. -/
def networkDependency (tree : Node) (entry here : Cursor) : Cursor :=
  match entry.resolve tree with
  | .error _ => networksPath
  | .ok node =>
    let path := networkPath (networkName node here)
    match path.canonical tree with
    | .ok canonical => canonical
    | .error _ => path

/-- Gives out static addresses. Besides its arguments a call waits for the instance count of its
job and for the definition of its network. -/
def staticAddresses : Operator where
  phase := .eval
  dependencies := fun here tree _ automatic =>
    match addressSite here with
    | .error _ => automatic
    | .ok site =>
      automatic ++ [site.job.child "instances", networkDependency tree site.entry here]
  run input := fun ctx =>
    match addressRequest input with
    | .error fault => (.error fault, ctx)
    | .ok request =>
      match claimAll request 0 (request.offsets.take request.instances) ctx with
      | (.ok addresses, ctx) => (.ok (.replace (addressList addresses)), ctx)
      | (.error fault, ctx) => (.error fault, ctx)

end Laminate.Operator
