import Loti.Hashing

/-!
`src/core/validate/chain.cpp`: the walk that decides whether a chain soundly encloses
its event between two clock events of a reference node, and what an accepted chain
satisfies.
-/

namespace Loti

structure Signer where
  sign : Bytes → Signature
  verify : Bytes → Signature → NodeId → Bool

structure ChainResult where
  ok : Bool := false
  reason : String := ""
  lower : Timestamp := 0
  upper : Timestamp := 0
deriving DecidableEq

def references (refs : List EventReference) (target : EventReference) : Bool :=
  refs.any fun ref => ref = target

/-- The loop over one bound; `prev` is `none` while `have_prev` is false. -/
def walkBound (hasher : Hasher) (signer : Signer) (side : String) :
    Option EventReference → List ClockEvent → Except String (Option EventReference)
  | prev, [] => .ok prev
  | prev, ce :: rest =>
      if hasher.calculateClockEventHash ce ≠ ce.hash then
        .error (side ++ "-bound clock event hash mismatch")
      else if !signer.verify ce.hash ce.signature ce.creator then
        .error (side ++ "-bound clock event signature invalid")
      else if prev.any fun target => !references ce.referencedEvents target then
        .error (side ++ " bound is not linked")
      else
        walkBound hasher signer side (some ce.reference) rest

def verifyChain (hasher : Hasher) (chain : EventChain) (reference : NodeId) (signer : Signer) :
    ChainResult :=
  match chain.lowerBound.head?, chain.upperBound.getLast? with
  | some front, some back =>
      if front.creator ≠ reference then
        { reason := "first clock event is not the reference node's" }
      else if back.creator ≠ reference then
        { reason := "last clock event is not the reference node's" }
      else
        match walkBound hasher signer "lower" none chain.lowerBound with
        | .error reason => { reason }
        | .ok prev =>
            if hasher.calculateEventHash chain.event ≠ chain.event.hash then
              { reason := "event hash mismatch" }
            else if !references chain.event.referencedEvents
              (prev.getD ⟨NodeId.ofUInt64 0, []⟩) then
              { reason := "event does not reference the lower bound" }
            else if !signer.verify chain.event.hash chain.event.signature chain.event.creator then
              { reason := "event signature invalid" }
            else
              match walkBound hasher signer "upper"
                (some chain.event.reference) chain.upperBound with
              | .error reason => { reason }
              | .ok _ =>
                  if back.timestamp < front.timestamp then
                    { reason := "inverted interval (upper bound earlier than lower bound)"
                      lower := front.timestamp, upper := back.timestamp }
                  else
                    { ok := true, lower := front.timestamp, upper := back.timestamp }
  | _, _ => { reason := "chain missing an enclosing bound" }

structure Link where
  reference : EventReference
  referencedEvents : List EventReference

def Event.link (event : Event) : Link := ⟨event.reference, event.referencedEvents⟩

def ClockEvent.link (clockEvent : ClockEvent) : Link :=
  ⟨clockEvent.reference, clockEvent.referencedEvents⟩

def EventChain.links (chain : EventChain) : List Link :=
  chain.lowerBound.map ClockEvent.link ++ chain.event.link :: chain.upperBound.map ClockEvent.link

def Linked : Option EventReference → List Link → Prop
  | _, [] => True
  | prev, link :: rest =>
      (∀ target, prev = some target → target ∈ link.referencedEvents) ∧
        Linked (some link.reference) rest

def Genuine (hasher : Hasher) (signer : Signer) (clockEvent : ClockEvent) : Prop :=
  hasher.calculateClockEventHash clockEvent = clockEvent.hash ∧
    signer.verify clockEvent.hash clockEvent.signature clockEvent.creator = true

/-- What the walk establishes, with the two endpoints that give the interval. -/
structure SoundChain (hasher : Hasher) (signer : Signer) (reference : NodeId) (chain : EventChain)
    (front back : ClockEvent) : Prop where
  front_found : chain.lowerBound.head? = some front
  back_found : chain.upperBound.getLast? = some back
  front_creator : front.creator = reference
  back_creator : back.creator = reference
  lower_genuine : ∀ ce ∈ chain.lowerBound, Genuine hasher signer ce
  upper_genuine : ∀ ce ∈ chain.upperBound, Genuine hasher signer ce
  event_hash : hasher.calculateEventHash chain.event = chain.event.hash
  event_signature : signer.verify chain.event.hash chain.event.signature chain.event.creator = true
  linked : Linked none chain.links
  interval : ¬back.timestamp < front.timestamp

theorem references_iff (refs : List EventReference) (target : EventReference) :
    references refs target = true ↔ target ∈ refs := by
  simp [references]

def lastReference (prev : Option EventReference) (links : List Link) : Option EventReference :=
  (links.getLast?.map Link.reference).or prev

theorem lastReference_cons (prev : Option EventReference) (link : Link) (rest : List Link) :
    lastReference prev (link :: rest) = lastReference (some link.reference) rest := by
  cases rest with
  | nil => simp [lastReference]
  | cons next rest => simp [lastReference, List.getLast?_cons]

theorem linked_append (prev : Option EventReference) (first second : List Link) :
    Linked prev (first ++ second) ↔ Linked prev first ∧
    Linked (lastReference prev first) second := by
  induction first generalizing prev with
  | nil => simp [Linked, lastReference]
  | cons link rest ih => simp only [List.cons_append, Linked, ih, lastReference_cons, and_assoc]

theorem linked_none_iff {links : List Link} :
    Linked none links ↔ links.IsChain fun earlier later =>
    earlier.reference ∈ later.referencedEvents := by
  cases links with
  | nil => simp [Linked]
  | cons first rest =>
      simp only [Linked, reduceCtorEq, false_implies, implies_true, true_and]
      induction rest generalizing first with
      | nil => simp [Linked]
      | cons second rest ih => simp [Linked, List.isChain_cons_cons, ih]

theorem walkBound_ok_iff (hasher : Hasher) (signer : Signer) (side : String)
    (prev last : Option EventReference) (bound : List ClockEvent) :
    walkBound hasher signer side prev bound = .ok last ↔
      (∀ ce ∈ bound, Genuine hasher signer ce) ∧ Linked prev (bound.map ClockEvent.link) ∧
        last = lastReference prev (bound.map ClockEvent.link) := by
  induction bound generalizing prev with
  | nil => simp [walkBound, Linked, lastReference, eq_comm]
  | cons ce rest ih =>
      have linkCheck : (prev.any fun target => !references ce.referencedEvents target) = false ↔
          ∀ target, prev = some target → target ∈ ce.referencedEvents := by
        cases prev <;> simp [references_iff]
      simp only [walkBound, List.map_cons, Linked, lastReference_cons, List.forall_mem_cons,
        Genuine, ClockEvent.link] at ih ⊢
      by_cases hashed : hasher.calculateClockEventHash ce = ce.hash
      · cases signed : signer.verify ce.hash ce.signature ce.creator with
        | false => simp [hashed]
        | true =>
            by_cases joined : ∀ target, prev = some target → target ∈ ce.referencedEvents
            · have anchored := iff_true_intro joined
              simp [hashed, linkCheck.mpr joined, ih, anchored]
            · have broken :
                (prev.any fun target => !references ce.referencedEvents target) = true := by
                simpa using mt linkCheck.mp joined
              simp [hashed, broken, joined]
      · simp [hashed]

theorem links_linked_iff (chain : EventChain) (front : ClockEvent)
    (found : chain.lowerBound.head? = some front) :
    Linked none chain.links ↔
      Linked none (chain.lowerBound.map ClockEvent.link) ∧
        (lastReference none (chain.lowerBound.map ClockEvent.link)).getD ⟨NodeId.ofUInt64 0, []⟩ ∈
          chain.event.referencedEvents ∧
        Linked (some chain.event.reference) (chain.upperBound.map ClockEvent.link) := by
  obtain ⟨rest, split⟩ := List.head?_eq_some_iff.mp found
  obtain ⟨last, tail⟩ :
    ∃ last, lastReference none (chain.lowerBound.map ClockEvent.link) = some last := by
    rw [split, List.map_cons, lastReference_cons]
    cases reversed : (rest.map ClockEvent.link).getLast? <;> simp [lastReference, reversed]
  rw [EventChain.links, linked_append, tail]
  simp [Linked, Event.link]

theorem SoundChain.accepted {hasher : Hasher} {signer : Signer} {reference : NodeId}
    {chain : EventChain} {front back : ClockEvent}
    (sound : SoundChain hasher signer reference chain front back) :
    verifyChain hasher chain reference signer =
      { ok := true, lower := front.timestamp, upper := back.timestamp } := by
  obtain ⟨lowerLinked, anchored, upperLinked⟩ :=
    (links_linked_iff chain front sound.front_found).mp sound.linked
  have lowerWalk := (walkBound_ok_iff hasher signer "lower" none _ chain.lowerBound).mpr
    ⟨sound.lower_genuine, lowerLinked, rfl⟩
  have upperWalk := (walkBound_ok_iff hasher signer "upper" (some chain.event.reference) _
    chain.upperBound).mpr ⟨sound.upper_genuine, upperLinked, rfl⟩
  simp [verifyChain, sound.front_found, sound.back_found, sound.front_creator, sound.back_creator,
    lowerWalk, upperWalk, sound.event_hash, sound.event_signature,
    (references_iff _ _).mpr anchored,
    sound.interval]

theorem verifyChain_sound (hasher : Hasher) (signer : Signer) (reference : NodeId)
    (chain : EventChain) (accepted : (verifyChain hasher chain reference signer).ok = true) :
    ∃ front back, SoundChain hasher signer reference chain front back := by
  unfold verifyChain at accepted
  split at accepted
  · rename_i front back frontFound backFound
    split at accepted
    · cases accepted
    rename_i frontCreator
    split at accepted
    · cases accepted
    rename_i backCreator
    split at accepted
    · cases accepted
    rename_i prev lowerWalk
    split at accepted
    · cases accepted
    rename_i eventHash
    split at accepted
    · cases accepted
    rename_i anchored
    split at accepted
    · cases accepted
    rename_i eventSignature
    split at accepted
    · cases accepted
    rename_i last upperWalk
    split at accepted
    · cases accepted
    rename_i interval
    obtain ⟨lowerGenuine, lowerLinked, rfl⟩ := (walkBound_ok_iff _ _ _ _ _ _).mp lowerWalk
    obtain ⟨upperGenuine, upperLinked, rfl⟩ := (walkBound_ok_iff _ _ _ _ _ _).mp upperWalk
    refine ⟨front, back, frontFound,
      backFound, by simpa using frontCreator, by simpa using backCreator,
      lowerGenuine, upperGenuine, by simpa using eventHash, by simpa using eventSignature,
      ?_, interval⟩
    refine (links_linked_iff chain front frontFound).mpr ⟨lowerLinked, ?_, upperLinked⟩
    exact (references_iff _ _).mp (by simpa using anchored)
  · cases accepted

theorem SoundChain.iff_links {hasher : Hasher} {signer : Signer} {reference : NodeId}
    {chain : EventChain} {front back : ClockEvent} :
      SoundChain hasher signer reference chain front back ↔
      chain.lowerBound.head? = some front ∧ chain.upperBound.getLast? = some back ∧
        front.creator = reference ∧ back.creator = reference ∧
        (∀ ce ∈ chain.lowerBound ++ chain.upperBound, Genuine hasher signer ce) ∧
        hasher.calculateEventHash chain.event = chain.event.hash ∧
        signer.verify chain.event.hash chain.event.signature chain.event.creator = true ∧
        chain.links.IsChain (fun earlier later => earlier.reference ∈ later.referencedEvents) ∧
        front.timestamp ≤ back.timestamp := by
  constructor
  · intro sound
    refine ⟨sound.front_found, sound.back_found, sound.front_creator, sound.back_creator,
      fun ce member => ?_, sound.event_hash, sound.event_signature, linked_none_iff.mp sound.linked,
      Int64.not_lt.mp sound.interval⟩
    rcases List.mem_append.mp member with lower | upper
    · exact sound.lower_genuine ce lower
    · exact sound.upper_genuine ce upper
  · rintro ⟨front_found, back_found, front_creator, back_creator, genuine, event_hash,
      event_signature, linked, interval⟩
    exact
      { front_found, back_found, front_creator, back_creator, event_hash, event_signature
        lower_genuine := fun ce member => genuine ce (List.mem_append_left _ member)
        upper_genuine := fun ce member => genuine ce (List.mem_append_right _ member)
        linked := linked_none_iff.mpr linked
        interval := Int64.not_lt.mpr interval }

/-- The validator accepts the sound chains and no others, with the interval of the two endpoints. -/
theorem verifyChain_ok_iff (hasher : Hasher) (signer : Signer) (reference : NodeId)
    (chain : EventChain) : ((verifyChain hasher chain reference signer).ok = true ↔
      ∃ front back, chain.lowerBound.head? = some front ∧ chain.upperBound.getLast? = some back ∧
        front.creator = reference ∧ back.creator = reference ∧
        (∀ ce ∈ chain.lowerBound ++ chain.upperBound, hasher.calculateClockEventHash ce = ce.hash ∧
          signer.verify ce.hash ce.signature ce.creator = true) ∧
        hasher.calculateEventHash chain.event = chain.event.hash ∧
        signer.verify chain.event.hash chain.event.signature chain.event.creator = true ∧
        chain.links.IsChain (fun earlier later => earlier.reference ∈ later.referencedEvents) ∧
        front.timestamp ≤ back.timestamp) ∧
      ∀ front back, chain.lowerBound.head? = some front → chain.upperBound.getLast? = some back →
        (verifyChain hasher chain reference signer).ok = true →
        (verifyChain hasher chain reference signer).lower = front.timestamp ∧
          (verifyChain hasher chain reference signer).upper = back.timestamp := by
  refine ⟨⟨fun accepted => ?_, ?_⟩, fun front back frontFound backFound accepted => ?_⟩
  · obtain ⟨front, back, sound⟩ := verifyChain_sound hasher signer reference chain accepted
    exact ⟨front, back, SoundChain.iff_links.mp sound⟩
  · rintro ⟨front, back, sound⟩
    rw [(SoundChain.iff_links.mpr sound).accepted]
  · obtain ⟨first, last, sound⟩ := verifyChain_sound hasher signer reference chain accepted
    obtain rfl := Option.mem_unique frontFound sound.front_found
    obtain rfl := Option.mem_unique backFound sound.back_found
    rw [sound.accepted]
    exact ⟨rfl, rfl⟩

theorem walkBound_error {hasher : Hasher} {signer : Signer} {side reason : String}
    {prev : Option EventReference} {bound : List ClockEvent}
    (failed : walkBound hasher signer side prev bound = .error reason) :
    reason ∈ [side ++ "-bound clock event hash mismatch",
      side ++ "-bound clock event signature invalid", side ++ " bound is not linked"] := by
  induction bound generalizing prev with
  | nil => cases failed
  | cons ce rest ih =>
      unfold walkBound at failed
      split at failed
      · simp [Except.error.inj failed]
      · split at failed
        · simp [Except.error.inj failed]
        · split at failed
          · simp [Except.error.inj failed]
          · exact ih failed

theorem verifyChain_inverted {hasher : Hasher} {signer : Signer} {reference : NodeId}
    {chain : EventChain} (inverted : (verifyChain hasher chain reference signer).reason =
      "inverted interval (upper bound earlier than lower bound)") :
    ∃ front back, chain.lowerBound.head? = some front ∧ chain.upperBound.getLast? = some back ∧
      back.timestamp < front.timestamp := by
  unfold verifyChain at inverted
  split at inverted
  · rename_i front back frontFound backFound
    refine ⟨front, back, frontFound, backFound, ?_⟩
    split at inverted
    · simp at inverted
    split at inverted
    · simp at inverted
    split at inverted
    · rename_i reason failed
      have kind := walkBound_error failed
      rw [show reason = _ from inverted] at kind
      simp at kind
    split at inverted
    · simp at inverted
    split at inverted
    · simp at inverted
    split at inverted
    · simp at inverted
    split at inverted
    · rename_i reason failed
      have kind := walkBound_error failed
      rw [show reason = _ from inverted] at kind
      simp at kind
    split at inverted
    · assumption
    · simp at inverted
  · simp at inverted

end Loti
