import Loti.StorePort

/-!
`src/core/routing/discovery_router.hpp`: the forwarding policies. A router returns the
candidate next hops toward a destination, best first.
-/

namespace Loti.Routing

open Std

structure RouteContext where
  range : TimeRange

def staticNextHops (neighbors : Neighbors) (routes : ExtTreeMap NodeId NodeId)
    (destination : NodeId) : List NodeId :=
  match routes[destination]? with
  | none => []
  | some hop => if hop ∈ neighbors then [hop] else []

def collect (self : NodeId) (neighbors : Neighbors) (out : List NodeId)
    (refs : List EventReference) : List NodeId :=
  refs.foldl (fun out r =>
    if r.creator ≠ self ∧ r.creator ∈ neighbors ∧ r.creator ∉ out then out ++ [r.creator]
    else out) out

def historyNextHops {σ : Type} [Store σ] (self : NodeId) (store : σ)
    (neighbors : Neighbors) (ctx : RouteContext) : List NodeId :=
  (Store.loadClockEvents store).foldl (fun out ce =>
    if ctx.range.contains ce.timestamp then
      collect self neighbors (collect self neighbors out ce.referencedEvents) ce.referencingEvents
    else out) []

def overlaps (a b : TimeRange) : Bool := a.lo ≤ b.hi && b.lo ≤ a.hi

def directedHops (routes : List TimedRoute) (crosslinked : List NodeId) (ctx : RouteContext) :
    List NodeId :=
  routes.foldl (fun directed route =>
    if overlaps route.validity ctx.range then
      route.nextHops.foldl (fun directed hop =>
        if hop ∈ crosslinked ∧ hop ∉ directed then directed ++ [hop] else directed) directed
    else directed) []

/-- RoutingTableRouter; `crosslinked` is what the fallback returned. -/
def tableNextHops (table : TimedRouteTable) (crosslinked : List NodeId) (destination : NodeId)
    (ctx : RouteContext) : List NodeId :=
  match table[destination]? with
  | none => crosslinked
  | some routes =>
      let directed := directedHops routes crosslinked ctx
      if directed.isEmpty then crosslinked else directed

def swap (cand : List NodeId) (i j : Nat) : List NodeId :=
  match cand[i]?, cand[j]? with
  | some a, some b => (cand.set i b).set j a
  | _, _ => cand

/-- The partial Fisher–Yates loop from index `i`, `steps` times; the salts are drawn in turn. -/
def shuffle (salts : Nat → Salt) : Nat → Nat → List NodeId → List NodeId
  | 0, _, cand => cand
  | steps + 1, i, cand =>
      let j := i + (salts i).toNat % (cand.length - i)
      shuffle salts steps (i + 1) (swap cand i j)

def sampledNextHops (salts : Nat → Salt) (k : Nat) (cand : List NodeId) : List NodeId × Nat :=
  if k = 0 ∨ cand.length ≤ k then (cand, 0) else ((shuffle salts k 0 cand).take k, k)

end Loti.Routing
