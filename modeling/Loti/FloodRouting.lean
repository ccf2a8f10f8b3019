import Loti.InMemoryStore
import Loti.Library.Gathering
import Loti.Routing

/-!
The stack of forwarding policies behind the flood: a random choice of at most `k` hops, from the
routing table's hops, from the neighbors that the DAG shows as cross-linked in the range.
-/

namespace Loti.Routing

open Std Gathering

def shuffle? (salts : Nat → Salt) : Nat → Nat → List NodeId → Option (List NodeId)
  | 0, _, cand => some cand
  | steps + 1, i, cand =>
      if cand.length - i = 0 then none
      else shuffle? salts steps (i + 1) (swap cand i (i + (salts i).toNat % (cand.length - i)))

/-- ProbabilisticRouter over RoutingTableRouter over NeighborHistoryRouter. -/
def floodNextHops? {σ : Type} [Store σ] (salts : Nat → Salt) (k : Nat) (self : NodeId) (store : σ)
    (neighbors : Neighbors) (table : TimedRouteTable) (destination : NodeId) (ctx : RouteContext) :
    Option (List NodeId) :=
  let cand := tableNextHops table (historyNextHops self store neighbors ctx) destination ctx
  if k = 0 ∨ cand.length ≤ k then some cand
  else (shuffle? salts k 0 cand).map fun shuffled => shuffled.take k

section Sampling

variable {salts : Nat → Salt} {k : Nat} {cand : List NodeId}

theorem swap_perm (cand : List NodeId) (i j : Nat) : (swap cand i j).Perm cand := by
  unfold swap
  split
  · rename_i a b first second
    obtain ⟨firstBound, rfl⟩ := List.getElem?_eq_some_iff.mp first
    obtain ⟨secondBound, rfl⟩ := List.getElem?_eq_some_iff.mp second
    exact List.set_set_perm firstBound secondBound
  · exact List.Perm.refl cand

theorem shuffle_perm (steps i : Nat) (cand : List NodeId) :
    (shuffle salts steps i cand).Perm cand := by
  induction steps generalizing i cand with
  | zero => exact List.Perm.refl cand
  | succ steps ih => exact (ih (i + 1) _).trans (swap_perm cand i _)

theorem shuffle?_eq (steps i : Nat) (cand : List NodeId) (more : i + steps ≤ cand.length) :
    shuffle? salts steps i cand = some (shuffle salts steps i cand) := by
  induction steps generalizing i cand with
  | zero => rfl
  | succ steps ih =>
      rw [shuffle?, if_neg (by omega), shuffle]
      apply ih
      rw [(swap_perm cand i _).length_eq]
      omega

theorem sampledNextHops_length (positive : k ≠ 0) (cand : List NodeId) :
    (sampledNextHops salts k cand).1.length ≤ k := by
  unfold sampledNextHops
  split
  · rename_i few
    exact few.resolve_left positive
  · exact List.length_take_le _ _

theorem sampledNextHops_subset : (sampledNextHops salts k cand).1 ⊆ cand := by
  unfold sampledNextHops
  split
  · exact List.Subset.refl cand
  · intro hop sampled
    exact (shuffle_perm k 0 cand).mem_iff.mp (List.mem_of_mem_take sampled)

theorem sampledNextHops_nodup (distinct : cand.Nodup) : (sampledNextHops salts k cand).1.Nodup := by
  unfold sampledNextHops
  split
  · exact distinct
  · exact ((shuffle_perm k 0 cand).nodup_iff.mpr distinct).sublist (List.take_sublist _ _)

theorem sampledNextHops_nil (none : (sampledNextHops salts k cand).1 = []) : cand = [] := by
  unfold sampledNextHops at none
  split at none
  · exact none
  · rename_i many
    rcases List.take_eq_nil_iff.mp none with zero | empty
    · exact absurd (Or.inl zero) many
    · exact List.Perm.eq_nil (empty ▸ (shuffle_perm k 0 cand).symm)

end Sampling

section Stack

variable {σ : Type} [Store σ] (self : NodeId) (store : σ) (neighbors : Neighbors)
  (table : TimedRouteTable) (destination : NodeId) (ctx : RouteContext)

/-- A known neighbor other than the node itself that is a creator in the references, either way, of
a live clock event in the range. -/
def CrossLinked (hop : NodeId) : Prop :=
  hop ≠ self ∧ hop ∈ neighbors ∧ ∃ ce ∈ Store.loadClockEvents store,
    ctx.range.contains ce.timestamp = true ∧ ((∃ ref ∈ ce.referencedEvents, ref.creator = hop) ∨
      ∃ ref ∈ ce.referencingEvents, ref.creator = hop)

def Directed (hop : NodeId) : Prop :=
  ∃ routes, table[destination]? = some routes ∧ ∃ route ∈ routes,
    overlaps route.validity ctx.range = true ∧ hop ∈ route.nextHops

variable {self store neighbors table destination ctx}

theorem collect_gathers (self : NodeId) (neighbors : Neighbors) (out : List NodeId)
    (refs : List EventReference) :
      Gathers (fun hop => ∃ ref ∈ refs, (ref.creator ≠ self ∧ ref.creator ∈ neighbors) ∧
        hop = ref.creator) out
      (collect self neighbors out refs) := by
  refine gathers_foldl (fun out ref => ?_) refs out
  simpa only [and_assoc] using gathers_add
    (ref.creator ≠ self ∧ ref.creator ∈ neighbors) ref.creator out

theorem historyNextHops_gathers (self : NodeId) (store : σ) (neighbors : Neighbors)
    (ctx : RouteContext) : Gathers (CrossLinked self store neighbors ctx) []
    (historyNextHops self store neighbors ctx) := by
  have each (out : List NodeId) (ce : LocalClockEvent) :=
    gathers_when (ctx.range.contains ce.timestamp = true)
    ((collect_gathers self neighbors out ce.referencedEvents).trans
      (collect_gathers self neighbors _ ce.referencingEvents))
  refine (gathers_foldl each (Store.loadClockEvents store) []).congr fun hop => ?_
  constructor
  · rintro ⟨ce, live, inside, ⟨ref, there, ⟨other, known⟩, rfl⟩ | ⟨ref, there, ⟨other, known⟩, rfl⟩⟩
    · exact ⟨other, known, ce, live, inside, Or.inl ⟨ref, there, rfl⟩⟩
    · exact ⟨other, known, ce, live, inside, Or.inr ⟨ref, there, rfl⟩⟩
  · rintro ⟨other, known, ce, live, inside, ⟨ref, there, rfl⟩ | ⟨ref, there, rfl⟩⟩
    · exact ⟨ce, live, inside, Or.inl ⟨ref, there, ⟨other, known⟩, rfl⟩⟩
    · exact ⟨ce, live, inside, Or.inr ⟨ref, there, ⟨other, known⟩, rfl⟩⟩

theorem directedHops_gathers (routes : List TimedRoute) (crosslinked : List NodeId)
    (ctx : RouteContext) :
      Gathers (fun hop => hop ∈ crosslinked ∧ ∃ route ∈ routes,
        overlaps route.validity ctx.range = true ∧
      hop ∈ route.nextHops) [] (directedHops routes crosslinked ctx) := by
  have each (out : List NodeId) (route : TimedRoute) :=
    gathers_when (overlaps route.validity ctx.range = true)
    (gathers_foldl (fun out hop => gathers_add (hop ∈ crosslinked) hop out) route.nextHops out)
  refine (gathers_foldl each routes []).congr fun hop => ?_
  constructor
  · rintro ⟨route, listed, valid, _, named, linked, rfl⟩
    exact ⟨linked, route, listed, valid, named⟩
  · rintro ⟨linked, route, listed, valid, named⟩
    exact ⟨route, listed, valid, hop, named, linked, rfl⟩

theorem tableNextHops_spec (table : TimedRouteTable) (destination : NodeId) (ctx : RouteContext)
    {crosslinked : List NodeId} (distinct : crosslinked.Nodup) :
    (tableNextHops table crosslinked destination ctx).Nodup ∧
      tableNextHops table crosslinked destination ctx ⊆ crosslinked ∧
      (tableNextHops table crosslinked destination ctx = [] → crosslinked = []) ∧
      ((∃ hop ∈ crosslinked, Directed table destination ctx hop) →
        ∀ hop ∈ tableNextHops table crosslinked destination ctx,
        Directed table destination ctx hop) := by
  unfold tableNextHops
  split
  · rename_i unknown
    refine ⟨distinct, List.Subset.refl _, fun empty => empty, ?_⟩
    rintro ⟨_, -, routes, known, -⟩
    rw [unknown] at known
    cases known
  · rename_i routes known
    have gathers := directedHops_gathers routes crosslinked ctx
    have named (hop : NodeId) (member : hop ∈ directedHops routes crosslinked ctx) :
        hop ∈ crosslinked ∧ Directed table destination ctx hop := by
      obtain ⟨linked, route, listed, valid, there⟩ :=
        ((gathers.mem hop).mp member).resolve_left (by simp)
      exact ⟨linked, routes, known, route, listed, valid, there⟩
    dsimp only
    split
    · rename_i none
      refine ⟨distinct, List.Subset.refl _, fun empty => empty, ?_⟩
      rintro ⟨hop, linked, others, same, route, listed, valid, there⟩
      obtain rfl := Option.mem_unique known same
      have found := (gathers.mem hop).mpr (Or.inr ⟨linked, route, listed, valid, there⟩)
      rw [List.isEmpty_iff.mp none] at found
      cases found
    · rename_i some
      exact ⟨gathers.nodup List.nodup_nil, fun hop member => (named hop member).1,
        fun empty => absurd (List.isEmpty_iff.mpr empty) some, fun _ hop member =>
        (named hop member).2⟩

theorem floodNextHops?_eq (salts : Nat → Salt) (k : Nat) :
    floodNextHops? salts k self store neighbors table destination ctx =
      some (sampledNextHops salts k
        (tableNextHops table (historyNextHops self store neighbors ctx) destination ctx)).1 := by
  unfold floodNextHops? sampledNextHops
  dsimp only
  split
  · rfl
  · rename_i many
    rw [shuffle?_eq k 0 _ (by omega)]
    rfl

/-- The stack never divides by zero. It returns at most `k` distinct cross-linked neighbors, none
only if there are none, and only named ones if the routing table names one. -/
theorem floodNextHops_spec (salts : Nat → Salt) {k : Nat} (positive : 0 < k) (self : NodeId)
    (store : σ) (neighbors : ExtTreeMap NodeId Neighbor) (table : TimedRouteTable)
    (destination : NodeId) (ctx : RouteContext) :
    ∃ hops, floodNextHops? salts k self store neighbors table destination ctx = some hops ∧
      hops.Nodup ∧ hops.length ≤ k ∧ (∀ hop ∈ hops, CrossLinked self store neighbors ctx hop) ∧
      (hops = [] → ∀ hop, ¬CrossLinked self store neighbors ctx hop) ∧
      ((∃ hop, CrossLinked self store neighbors ctx hop ∧ Directed table destination ctx hop) →
        ∀ hop ∈ hops, Directed table destination ctx hop) := by
  have history := historyNextHops_gathers self store neighbors ctx
  have linked (hop : NodeId) : hop ∈ historyNextHops self store neighbors ctx ↔
    CrossLinked self store neighbors ctx hop := by
    rw [history.mem]
    simp
  obtain ⟨distinct, subset, exhausted, directed⟩ := tableNextHops_spec table destination ctx
    (history.nodup List.nodup_nil)
  refine ⟨_, floodNextHops?_eq salts k, sampledNextHops_nodup distinct, sampledNextHops_length
    (by omega) _, ?_, ?_, ?_⟩
  · intro hop sampled
    exact (linked hop).mp (subset (sampledNextHops_subset sampled))
  · intro none hop crossed
    have there := (linked hop).mpr crossed
    rw [exhausted (sampledNextHops_nil none)] at there
    cases there
  · rintro ⟨hop, crossed, named⟩ other sampled
    exact directed ⟨hop, (linked hop).mpr crossed, named⟩ other (sampledNextHops_subset sampled)

end Stack

def linkedStore : InMemoryStore :=
  (({} : InMemoryStore).appendClockEvent
    { creator := .ofUInt64 1, hash := [1], chain := 0, timestamp := 5, salt := 0
      referencedEvents := [⟨.ofUInt64 2, [2]⟩], signature := [], referencingEvents :=
      [⟨.ofUInt64 3, [3]⟩] }).2

def linkedNeighbors : Neighbors :=
  ((∅ : Neighbors).insert (.ofUInt64 2) ⟨.ofUInt64 2, []⟩).insert (.ofUInt64 3) ⟨.ofUInt64 3, []⟩

def namingTable : TimedRouteTable :=
  (∅ : TimedRouteTable).insert (.ofUInt64 9) [⟨⟨0, 10⟩, [.ofUInt64 3]⟩]

theorem floodNextHops_sample :
    ∃ hops, floodNextHops? (fun _ => 7) 1 (.ofUInt64 1) linkedStore linkedNeighbors namingTable
        (.ofUInt64 9) ⟨⟨0, 20⟩⟩ = some hops ∧ hops ≠ [] ∧ ∀ hop ∈ hops,
        Directed namingTable (.ofUInt64 9) ⟨⟨0, 20⟩⟩ hop := by
  have crossed : CrossLinked (.ofUInt64 1) linkedStore linkedNeighbors ⟨⟨0, 20⟩⟩ (.ofUInt64 3) :=
    ⟨by decide, by decide +kernel, by decide +kernel⟩
  have named : Directed namingTable (.ofUInt64 9) ⟨⟨0, 20⟩⟩ (.ofUInt64 3) :=
    ⟨[⟨⟨0, 10⟩, [.ofUInt64 3]⟩], by decide +kernel, by decide +kernel⟩
  obtain ⟨hops, ran, -, -, -, found, directed⟩ := floodNextHops_spec (fun _ => 7) (k := 1)
    (by decide) (.ofUInt64 1) linkedStore linkedNeighbors namingTable (.ofUInt64 9) ⟨⟨0, 20⟩⟩
  exact ⟨hops, ran, fun none => found none _ crossed, directed ⟨_, crossed, named⟩⟩

end Loti.Routing
