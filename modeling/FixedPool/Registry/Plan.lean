import FixedPool.Registry.Basic

/-!
Plans: which pools a registry is to hold from the start.
-/

namespace FixedPool

/-- A pool that is asked for: its slot and its size. -/
structure Request where
  slot : Nat
  size : Nat
deriving DecidableEq, Repr

/-- The pools to create, in this order. -/
structure Plan where
  requests : List Request
deriving DecidableEq, Repr

/-- A registry with every pool of a plan. Of several requests for a slot the first one counts. -/
def Registry.ofPlan {σ : Type} [Allocator σ] (host : Host) (plan : Plan) :
    Except Error (Registry σ) :=
  plan.requests.foldlM (fun r request =>
    match install host request.size request.slot r with
    | .ok _ r => .ok r
    | .error cause _ => .error cause) empty

end FixedPool
