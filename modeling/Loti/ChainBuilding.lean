import Loti.Library.StateExcept
import Loti.StorePort

/-!
The four chain-building primitives of `src/core/node.cpp`. They read the store and
change nothing; `none` is the C++ `false`, on which every caller drops the chain. The
two loops run with one more round than there are live clock events: a walk that needs
more has come back to a clock event it already visited and never ends.
-/

namespace Loti

open StateExcept

variable {σ : Type} [Store σ]

def ownClockEvent (id : NodeId) (store : σ) : List EventReference →
    Except String (Option LocalClockEvent)
  | [] => return none
  | ref :: rest =>
      if ref.creator = id then do
        match ← Store.clockEventByHash store ref.hash with
        | some ce => return some ce
        | none => ownClockEvent id store rest
      else ownClockEvent id store rest

def addLocalLowerBound (id : NodeId) (store : σ) (chain : EventChain) :
    Except String (Option EventChain) := do
  let refs := match chain.lowerBound with
    | [] => chain.event.referencedEvents
    | front :: _ => front.referencedEvents
  match ← ownClockEvent id store refs with
  | some ce => return some { chain with lowerBound := ce.toClockEvent :: chain.lowerBound }
  | none => return none

def addLocalUpperBound (store : σ) (chain : EventChain) : Except String (Option EventChain) := do
  let referenced := match chain.upperBound.getLast? with
    | none => chain.event.hash
    | some back => back.hash
  match ← Store.clockEventsReferencing store referenced with
  | [] => return none
  | seq :: _ =>
      let ce ← Store.clockEventBySeq store seq
      return some { chain with upperBound := chain.upperBound ++ [ce.toClockEvent] }

/-- `upper` is `chain` with an own clock event attached at both ends. -/
def Splices (id : NodeId) (store : σ) (chain upper : EventChain) : Prop :=
  ∃ lower, addLocalLowerBound id store chain = .ok (some lower) ∧
    addLocalUpperBound store lower = .ok (some upper)

def extendLowerFrom (id neighbor : NodeId) (store : σ) :
    Nat → LocalClockEvent → EventChain → Except Fault (Option EventChain)
  | 0, _, _ => .error .diverges
  | fuel + 1, current, chain =>
      if current.referencedEvents.any fun ref => ref.creator = neighbor then .ok (some chain)
      else
        match ownClockEvent id store current.referencedEvents with
        | .error what => .error (.exception what)
        | .ok none => .ok none
        | .ok (some prev) =>
            extendLowerFrom id neighbor store fuel prev
              { chain with lowerBound := prev.toClockEvent :: chain.lowerBound }

def extendLowerBoundForNeighbor (id neighbor : NodeId) (store : σ) (chain : EventChain) :
    Except Fault (Option EventChain) :=
  match chain.lowerBound with
  | [] => .error .undefinedBehavior
  | front :: _ =>
      if front.creator ≠ id then .error (.assertion .lowerBoundOwn)
      else
        match Store.clockEventByHash store front.hash with
        | .error what => .error (.exception what)
        | .ok none => .error .undefinedBehavior
        | .ok (some current) =>
            extendLowerFrom id neighbor store (Store.clockEventCount store + 1) current chain

def successorOnChain (id : NodeId) (store : σ) (chain : UInt32) :
    List Nat → Except String (Option LocalClockEvent)
  | [] => return none
  | seq :: rest => do
      let ce ← Store.clockEventBySeq store seq
      if ce.creator = id ∧ ce.chain = chain then return some ce
      successorOnChain id store chain rest

def extendUpperFrom (id neighbor : NodeId) (store : σ) :
    Nat → LocalClockEvent → EventChain → Except Fault (Option EventChain)
  | 0, _, _ => .error .diverges
  | fuel + 1, current, chain =>
      if current.referencingEvents.any fun ref => ref.creator = neighbor then .ok (some chain)
      else
        match Store.clockEventsReferencing store current.hash >>=
            successorOnChain id store current.chain with
        | .error what => .error (.exception what)
        | .ok none => .ok none
        | .ok (some next) =>
            extendUpperFrom id neighbor store fuel next
              { chain with upperBound := chain.upperBound ++ [next.toClockEvent] }

def extendUpperBoundForNeighbor (id neighbor : NodeId) (store : σ) (chain : EventChain) :
    Except Fault (Option EventChain) :=
  match chain.upperBound.getLast? with
  | none => .error .undefinedBehavior
  | some back =>
      if back.creator ≠ id then .error (.assertion .upperBoundOwn)
      else
        match Store.clockEventByHash store back.hash with
        | .error what => .error (.exception what)
        | .ok none => .error .undefinedBehavior
        | .ok (some current) =>
            extendUpperFrom id neighbor store (Store.clockEventCount store + 1) current chain

def EventChain.frontReferences (chain : EventChain) : List EventReference :=
  match chain.lowerBound with
  | [] => chain.event.referencedEvents
  | front :: _ => front.referencedEvents

def EventChain.backReference (chain : EventChain) : EventReference :=
  match chain.upperBound.getLast? with
  | none => chain.event.reference
  | some back => back.reference

theorem backReference_hash (chain : EventChain) :
    chain.backReference.hash = match chain.upperBound.getLast? with
    | none => chain.event.hash
    | some back => back.hash := by
  rw [EventChain.backReference]
  cases chain.upperBound.getLast? <;> rfl

theorem addLocalLowerBound_ok {id : NodeId} {store : σ} {chain lower : EventChain}
    (attached : addLocalLowerBound id store chain = .ok (some lower)) :
    ∃ ce, ownClockEvent id store chain.frontReferences = .ok (some ce) ∧
      lower = { chain with lowerBound := ce.toClockEvent :: chain.lowerBound } := by
  simp only [addLocalLowerBound] at attached
  obtain ⟨found, read, attached⟩ := except_bind_ok_iff.mp attached
  cases found with
  | none => cases attached
  | some ce => exact ⟨ce, read, (Option.some.inj (Except.ok.inj attached)).symm⟩

theorem addLocalUpperBound_ok {store : σ} {chain upper : EventChain}
    (attached : addLocalUpperBound store chain = .ok (some upper)) :
    ∃ seqs, Store.clockEventsReferencing store chain.backReference.hash = .ok seqs ∧ ∃ seq ∈ seqs,
      ∃ ce, Store.clockEventBySeq store seq = .ok ce ∧
      upper = { chain with upperBound := chain.upperBound ++ [ce.toClockEvent] } := by
  simp only [addLocalUpperBound, ← backReference_hash] at attached
  obtain ⟨seqs, read, attached⟩ := except_bind_ok_iff.mp attached
  cases seqs with
  | nil => cases attached
  | cons seq rest =>
      obtain ⟨ce, found, attached⟩ := except_bind_ok_iff.mp attached
      exact ⟨_, read, seq, List.mem_cons_self, ce, found,
        (Option.some.inj (Except.ok.inj attached)).symm⟩

section Walks

variable {id neighbor : NodeId} {store : σ} (invariant : LocalClockEvent → EventChain → Prop)
    {chain out : EventChain}

section Lower

variable (step : ∀ current prev chain, invariant current chain →
  ownClockEvent id store current.referencedEvents = .ok (some prev) →
    invariant prev { chain with lowerBound := prev.toClockEvent :: chain.lowerBound })

include step

theorem extendLowerFrom_ok {fuel : Nat} {current : LocalClockEvent}
    (begins : invariant current chain)
    (extended : extendLowerFrom id neighbor store fuel current chain = .ok (some out)) :
    ∃ last, invariant last out ∧ ∃ ref ∈ last.referencedEvents, ref.creator = neighbor := by
  induction fuel generalizing current chain with
  | zero => cases extended
  | succ fuel ih =>
      unfold extendLowerFrom at extended
      split at extended
      · rename_i references
        obtain rfl := Option.some.inj (Except.ok.inj extended)
        exact ⟨current, begins, by simpa using references⟩
      · split at extended
        · cases extended
        · cases extended
        · rename_i prev found
          exact ih (step current prev chain begins found) extended

theorem extendLowerBoundForNeighbor_ok
      (begins : ∀ front rest current, chain.lowerBound = front :: rest → front.creator = id →
      Store.clockEventByHash store front.hash = .ok (some current) → invariant current chain)
    (extended : extendLowerBoundForNeighbor id neighbor store chain = .ok (some out)) :
    ∃ last, invariant last out ∧ ∃ ref ∈ last.referencedEvents, ref.creator = neighbor := by
  unfold extendLowerBoundForNeighbor at extended
  split at extended
  · cases extended
  · rename_i front rest bound
    split at extended
    · cases extended
    · rename_i own
      split at extended
      · cases extended
      · cases extended
      · rename_i current found
        exact extendLowerFrom_ok invariant step
          (begins front rest current bound (not_not.mp own) found) extended

end Lower

theorem successorOnChain_some {onChain : UInt32} {seqs : List Nat} {next : LocalClockEvent}
    (found : successorOnChain id store onChain seqs = .ok (some next)) :
    next.creator = id ∧ next.chain = onChain ∧ ∃ passed seq rest, seqs = passed ++ seq :: rest ∧
      Store.clockEventBySeq store seq = .ok next ∧ ∀ other ∈ passed, ∀ ce,
        Store.clockEventBySeq store other = .ok ce → ¬(ce.creator = id ∧ ce.chain = onChain) := by
  induction seqs with
  | nil => cases found
  | cons seq rest ih =>
      unfold successorOnChain at found
      obtain ⟨ce, read, found⟩ := except_bind_ok_iff.mp found
      split at found
      · rename_i own
        obtain rfl := Option.some.inj (Except.ok.inj found)
        exact ⟨own.1, own.2, [], seq, rest, rfl, read, by simp⟩
      · rename_i other
        obtain ⟨mine, placed, passed, later, tail, rfl, same, before⟩ := ih found
        refine ⟨mine, placed, seq :: passed, later, tail, rfl, same, List.forall_mem_cons.mpr
          ⟨fun here again => ?_, before⟩⟩
        obtain rfl := ok_unique read again
        exact other

theorem successorOnChain_mem {onChain : UInt32} {seqs : List Nat} {next : LocalClockEvent}
    (found : successorOnChain id store onChain seqs = .ok (some next)) :
    ∃ seq ∈ seqs, Store.clockEventBySeq store seq = .ok next := by
  obtain ⟨-, -, passed, seq, rest, rfl, read, -⟩ := successorOnChain_some found
  exact ⟨seq, by simp, read⟩

section Upper

variable (step : ∀ current next chain seqs, invariant current chain →
  Store.clockEventsReferencing store current.hash = .ok seqs →
  successorOnChain id store current.chain seqs = .ok (some next) →
    invariant next { chain with upperBound := chain.upperBound ++ [next.toClockEvent] })

include step

theorem extendUpperFrom_ok {fuel : Nat} {current : LocalClockEvent}
    (begins : invariant current chain)
    (extended : extendUpperFrom id neighbor store fuel current chain = .ok (some out)) :
    ∃ last, invariant last out ∧ ∃ ref ∈ last.referencingEvents, ref.creator = neighbor := by
  induction fuel generalizing current chain with
  | zero => cases extended
  | succ fuel ih =>
      unfold extendUpperFrom at extended
      split at extended
      · rename_i referenced
        obtain rfl := Option.some.inj (Except.ok.inj extended)
        exact ⟨current, begins, by simpa using referenced⟩
      · split at extended
        · cases extended
        · cases extended
        · rename_i next found
          obtain ⟨seqs, read, successor⟩ := except_bind_ok_iff.mp found
          exact ih (step current next chain seqs begins read successor) extended

theorem extendUpperBoundForNeighbor_ok
      (begins : ∀ back current, chain.upperBound.getLast? = some back → back.creator = id →
      Store.clockEventByHash store back.hash = .ok (some current) → invariant current chain)
    (extended : extendUpperBoundForNeighbor id neighbor store chain = .ok (some out)) :
    ∃ last, invariant last out ∧ ∃ ref ∈ last.referencingEvents, ref.creator = neighbor := by
  unfold extendUpperBoundForNeighbor at extended
  split at extended
  · cases extended
  · rename_i back bound
    split at extended
    · cases extended
    · rename_i own
      split at extended
      · cases extended
      · cases extended
      · rename_i current found
        exact extendUpperFrom_ok invariant step
          (begins back current bound (not_not.mp own) found) extended

end Upper

end Walks

theorem Splices.event {id : NodeId} {store : σ} {chain upper : EventChain}
    (spliced : Splices id store chain upper) : upper.event = chain.event := by
  obtain ⟨lower, lowered, raised⟩ := spliced
  obtain ⟨_, -, rfl⟩ := addLocalLowerBound_ok lowered
  obtain ⟨_, -, _, -, _, -, rfl⟩ := addLocalUpperBound_ok raised
  rfl

theorem splices_of_found {id : NodeId} {store : σ} {chain : EventChain} {lo up : LocalClockEvent}
    {seq : Nat} {rest : List Nat}
    (below : ownClockEvent id store chain.frontReferences = .ok (some lo))
    (above : Store.clockEventsReferencing store chain.backReference.hash = .ok (seq :: rest))
    (found : Store.clockEventBySeq store seq = .ok up) :
    Splices id store chain { chain with
      lowerBound := lo.toClockEvent :: chain.lowerBound, upperBound :=
        chain.upperBound ++ [up.toClockEvent] } := by
  refine ⟨{ chain with lowerBound := lo.toClockEvent :: chain.lowerBound }, ?_, ?_⟩
  · change (ownClockEvent id store chain.frontReferences >>= _) = _
    rw [below]
    rfl
  · simp only [addLocalUpperBound, ← backReference_hash, above, found, bind, Except.bind,
      pure, Except.pure]

end Loti
