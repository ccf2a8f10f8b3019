import Loti.NodeRuns

/-!
What `insert_event` and `insert_clock_event` make, and what they leave behind when the
store refuses the new record.
-/

namespace Loti

open StateExcept

variable {σ : Type} [Store σ]

def NodeState.afterSigning (s : NodeState σ) (object : Signed) : NodeState σ :=
  { s with saltsDrawn := s.saltsDrawn + 1, signed := s.signed ++ [object] }

def MakesEvent (env : NodeEnv) (s : NodeState σ) (data : Bytes) (event : Event) : Prop :=
  ∃ refs, tipReferences env s.store = .ok refs ∧
    event = makeEvent env data (env.salts s.saltsDrawn) refs

def MakesClockEvent (env : NodeEnv) (s : NodeState σ) (chain : UInt32)
    (clockEvent : LocalClockEvent) : Prop :=
  ∃ last tail, Store.latestClockEventOn s.store chain = .ok last ∧
    s.unreferencedPerChain[chain.toNat]? = some tail ∧
    clockEvent = makeClockEvent env chain (env.salts s.saltsDrawn) (clampedStamp s.now last)
      (clockReferences chain last s.neighbors tail)

theorem insertEvent_spec (env : NodeEnv) (data : Bytes) (s : NodeState σ) :
    Ends (insertEvent env data) s
      (fun event after => MakesEvent env s data event ∧ ∃ seq store,
        Store.appendEvent s.store event = .ok (seq, store) ∧
        after = { s.afterSigning (.event event) with store })
      (fun _ after => (after = { s with saltsDrawn := s.saltsDrawn + 1 } ∧ ∀ event,
        ¬MakesEvent env s data event) ∨ ∃ event what, MakesEvent env s data event ∧
          Store.appendEvent s.store event = .error what ∧
          after = s.afterSigning (.event event)) := by
  simp only [insertEvent, nextSalt, readStore, sign, writeStore, ends_bind, ends_get, ends_modify,
    ends_ofExcept, ends_pure]
  refine ⟨fun refs read => ⟨fun store stored => ?_, fun what refused => ?_⟩, fun what failed =>
    Or.inl ⟨trivial, ?_⟩⟩
  · obtain ⟨result, appended, rfl⟩ := except_map_ok_iff.mp stored
    exact ⟨⟨refs, read, rfl⟩, result.1, result.2, appended, rfl⟩
  · exact Or.inr ⟨_, what, ⟨refs, read, rfl⟩, except_map_error_iff.mp refused, rfl⟩
  · rintro event ⟨refs, read, -⟩
    cases failed.symm.trans read

theorem insertClockEvent_spec (env : NodeEnv) (chain : UInt32) (s : NodeState σ) :
    Ends (insertClockEvent env chain) s
      (fun clockEvent after => MakesClockEvent env s chain clockEvent ∧ ∃ seq store,
        Store.appendClockEvent s.store clockEvent = .ok (seq, store) ∧
        after = { s.afterSigning (.clockEvent clockEvent) with store })
      (fun _ after => (after = { s with saltsDrawn := s.saltsDrawn + 1 } ∧
          ∀ clockEvent, ¬MakesClockEvent env s chain clockEvent) ∨
        ∃ clockEvent what, MakesClockEvent env s chain clockEvent ∧
          Store.appendClockEvent s.store clockEvent = .error what ∧
          after = s.afterSigning (.clockEvent clockEvent)) := by
  simp only [insertClockEvent, nextSalt, readStore, ends_bind, ends_get, ends_modify,
    ends_ofExcept, ends_pure]
  refine ⟨fun last read => ?_, fun what failed => Or.inl ⟨trivial, ?_⟩⟩
  split
  · rename_i missing
    refine Or.inl ⟨rfl, ?_⟩
    rintro clockEvent ⟨_, tail, -, found, -⟩
    cases missing.symm.trans found
  · rename_i tail found
    simp only [sign, writeStore, ends_bind, ends_get, ends_modify, ends_ofExcept, ends_pure]
    refine ⟨fun store stored => ?_, fun what refused => ?_⟩
    · obtain ⟨result, appended, rfl⟩ := except_map_ok_iff.mp stored
      exact ⟨⟨last, tail, read, found, rfl⟩, result.1, result.2, appended, rfl⟩
    · exact Or.inr ⟨_, what, ⟨last, tail, read, found, rfl⟩, except_map_error_iff.mp refused, rfl⟩
  · rintro clockEvent ⟨last, _, read, -, -⟩
    cases failed.symm.trans read

theorem tipReferences_mem {env : NodeEnv} {store : σ} {refs : List EventReference}
    {ref : EventReference} (read : tipReferences env store = .ok refs) (member : ref ∈ refs) :
    ∃ chain tip, Store.latestClockEventOn store chain = .ok (some tip) ∧ ref = tip.reference := by
  obtain ⟨tips, mapped, same⟩ := except_bind_ok_iff.mp read
  cases same
  obtain ⟨found, listed, named⟩ := List.mem_filterMap.mp member
  obtain ⟨tip, rfl, rfl⟩ := Option.map_eq_some_iff.mp named
  obtain ⟨chain, -, latest⟩ := except_mapM_mem mapped listed
  exact ⟨UInt32.ofNat chain, tip, latest, rfl⟩

theorem clockReferences_mem {chain : UInt32} {last : Option LocalClockEvent} {neighbors : Neighbors}
    {tail : List Event} {ref : EventReference}
    (member : ref ∈ clockReferences chain last neighbors tail) :
    (∃ tip, last = some tip ∧ ref = tip.reference) ∨
      (∃ (id : NodeId) (neighbor : Neighbor) (hash : EventHash), neighbors[id]? = some neighbor ∧
        neighbor.lastClockEventHashes[chain.toNat]? = some hash ∧
        hash ≠ [] ∧ ref = ⟨neighbor.nodeId, hash⟩) ∨
      ∃ event ∈ tail, ref = event.reference := by
  simp only [clockReferences, List.mem_append, or_assoc] at member
  rcases member with own | tip | published
  · cases last with
    | none => simp at own
    | some tip => exact Or.inl ⟨tip, rfl, by simpa using own⟩
  · obtain ⟨neighbor, listed, named⟩ := List.mem_filterMap.mp tip
    obtain ⟨id, found⟩ := mem_values_iff.mp listed
    unfold tipReference at named
    split at named
    · rename_i hash advertised
      split at named
      · cases named
      · rename_i nonempty
        exact Or.inr (Or.inl ⟨id, neighbor, hash, found, advertised, nonempty,
          (Option.some.inj named).symm⟩)
    · cases named
  · obtain ⟨event, listed, rfl⟩ := List.mem_map.mp published
    exact Or.inr (Or.inr ⟨event, listed, rfl⟩)

theorem tip_mem_clockReferences {chain : UInt32} {last : Option LocalClockEvent}
    {neighbors : Neighbors} {tail : List Event} {id : NodeId} {neighbor : Neighbor}
    {hash : EventHash} (known : neighbors[id]? = some neighbor)
    (advertised : neighbor.lastClockEventHashes[chain.toNat]? = some hash) (nonempty : hash ≠ []) :
    ⟨neighbor.nodeId, hash⟩ ∈ clockReferences chain last neighbors tail := by
  have tip : tipReference chain neighbor = some ⟨neighbor.nodeId, hash⟩ := by
    simp [tipReference, advertised, nonempty]
  have listed := List.mem_filterMap.mpr ⟨neighbor, mem_values_iff.mpr ⟨id, known⟩, tip⟩
  exact List.mem_append_left _ (List.mem_append_right _ listed)

theorem MakesEvent.unique {env : NodeEnv} {s : NodeState σ} {data : Bytes} {first second : Event}
    (makes : MakesEvent env s data first) (also : MakesEvent env s data second) :
    first = second := by
  obtain ⟨refs, read, rfl⟩ := makes
  obtain ⟨refs', read', rfl⟩ := also
  rw [ok_unique read read']

theorem MakesClockEvent.unique {env : NodeEnv} {s : NodeState σ} {chain : UInt32}
    {first second : LocalClockEvent} (makes : MakesClockEvent env s chain first)
    (also : MakesClockEvent env s chain second) : first = second := by
  obtain ⟨last, tail, read, found, rfl⟩ := makes
  obtain ⟨last', tail', read', found', rfl⟩ := also
  rw [ok_unique read read', Option.mem_unique found found']

end Loti
