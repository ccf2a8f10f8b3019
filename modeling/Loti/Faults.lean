import Loti.Effects
import Loti.WireBounds

/-!
Which faults the operations outside the discovery bookkeeping can end with: none of them
fails an assertion of the helpers that resolve discoveries. What `fine` stands for in a lemma
is left to its user; exceptions always count as fine.
-/

namespace Loti

open StateExcept

def Fault.Ordinary (fault : Fault) : Prop :=
  fault ≠ .assertion .discoveryFound ∧ fault ≠ .assertion .discoveryInProgress

theorem ordinary_exception (what : String) : (Fault.exception what).Ordinary := by
  simp [Fault.Ordinary]

theorem Fault.Contained.ordinary {fault : Fault} (contained : fault.Contained) :
    fault.Ordinary := by
  obtain ⟨what, rfl⟩ := contained
  exact ordinary_exception what

theorem ordinary_undefinedBehavior : Fault.undefinedBehavior.Ordinary := by simp [Fault.Ordinary]

namespace Wire

variable {buffer : Buffer}

theorem Reader.need_raises (count : Nat) : Raises Fault.Ordinary (Reader.need buffer count) := by
  intro pos
  simp only [Reader.need, ends_bind, ends_get]
  split
  · exact ordinary_exception _
  · trivial

theorem Reader.ensureCount_raises (count : UInt32) (minElemBytes : Nat) :
    Raises Fault.Ordinary (Reader.ensureCount buffer count minElemBytes) := by
  intro pos
  simp only [Reader.ensureCount, ends_bind, ends_get]
  split
  · exact ordinary_exception _
  · trivial

theorem Reader.next_raises : Raises Fault.Ordinary (Reader.next buffer) := by
  intro pos
  simp only [Reader.next, ends_bind, ends_get]
  split
  · trivial
  · exact ordinary_undefinedBehavior

theorem Reader.times_raises {α : Type} {read : ReadM α} (body : Raises Fault.Ordinary read)
    (count : Nat) : Raises Fault.Ordinary (Reader.times read count) := by
  induction count with
  | zero => exact raises_pure []
  | succ count ih => exact body.bind fun _ => ih.bind fun _ => raises_pure _

theorem Reader.u8_raises : Raises Fault.Ordinary (Reader.u8 buffer) :=
  (need_raises 1).bind fun _ => next_raises

theorem Reader.u32_raises : Raises Fault.Ordinary (Reader.u32 buffer) :=
  (need_raises 4).bind fun _ => (times_raises next_raises 4).bind fun _ => raises_pure _

theorem Reader.u64_raises : Raises Fault.Ordinary (Reader.u64 buffer) :=
  (need_raises 8).bind fun _ => (times_raises next_raises 8).bind fun _ => raises_pure _

theorem Reader.nodeId_raises : Raises Fault.Ordinary (Reader.nodeId buffer) := by
  refine (need_raises 16).bind fun _ => (times_raises next_raises 16).bind fun bytes => ?_
  split
  · exact raises_pure _
  · exact raises_throw ordinary_undefinedBehavior

theorem Reader.blob_raises : Raises Fault.Ordinary (Reader.blob buffer) := by
  refine u32_raises.bind fun count => (need_raises _).bind fun _ => raises_get.bind fun pos => ?_
  dsimp only
  split
  · exact fun _ => trivial
  · exact raises_throw ordinary_undefinedBehavior

theorem raises_rule : ReaderRule buffer (Raises Fault.Ordinary) where
  pure := raises_pure
  reject what := raises_throw (ordinary_exception what)
  bind := Raises.bind
  ensureCount := Reader.ensureCount_raises
  u8 := Reader.u8_raises
  u32 := Reader.u32_raises
  u64 := Reader.u64_raises
  nodeId := Reader.nodeId_raises
  blob := Reader.blob_raises

theorem decode_ordinary {fault : Fault} (failed : decode buffer = .error fault) :
    fault.Ordinary := by
  have raises : Ends (readDatagram buffer) 0 (fun _ _ => True) (fun fault _ => fault.Ordinary) :=
    raises_rule.readDatagram 0
  unfold Ends at raises
  unfold decode at failed
  split at raises
  · rename_i read
    simp [read] at failed
  · rename_i read
    rw [read] at failed
    exact Except.error.inj failed ▸ raises

end Wire

variable {σ : Type} [Store σ] {env : NodeEnv} {chain : EventChain} {s : NodeState σ}
    {fine : Fault → Prop}

section Extending

variable {id neighbor : NodeId} {store : σ} {fault : Fault}

theorem extendLowerFrom_ordinary {fuel : Nat} {current : LocalClockEvent}
    (failed : extendLowerFrom id neighbor store fuel current chain = .error fault) :
    fault.Ordinary := by
  fun_induction extendLowerFrom id neighbor store fuel current chain with
  | case5 _ _ _ _ _ _ ih => exact ih failed
  | _ => cases failed <;> simp [Fault.Ordinary]

theorem extendUpperFrom_ordinary {fuel : Nat} {current : LocalClockEvent}
    (failed : extendUpperFrom id neighbor store fuel current chain = .error fault) :
    fault.Ordinary := by
  fun_induction extendUpperFrom id neighbor store fuel current chain with
  | case5 _ _ _ _ _ _ ih => exact ih failed
  | _ => cases failed <;> simp [Fault.Ordinary]

theorem extendLowerBoundForNeighbor_ordinary :
    extendLowerBoundForNeighbor id neighbor store chain = .error fault → fault.Ordinary := by
  fun_cases extendLowerBoundForNeighbor id neighbor store chain with
  | case5 => exact extendLowerFrom_ordinary
  | _ =>
      rintro ⟨⟩
      simp [Fault.Ordinary]

theorem extendUpperBoundForNeighbor_ordinary :
    extendUpperBoundForNeighbor id neighbor store chain = .error fault → fault.Ordinary := by
  fun_cases extendUpperBoundForNeighbor id neighbor store chain with
  | case5 => exact extendUpperFrom_ordinary
  | _ =>
      rintro ⟨⟩
      simp [Fault.Ordinary]

end Extending

omit [Store σ] in
theorem sendChainResponseRetrace_ends (originator : NodeId) (chain : EventChain)
    (path : List NodeId) : Returns (sendChainResponseRetrace env originator chain path) s fun _ _ =>
    True := by
  unfold sendChainResponseRetrace
  split
  · trivial
  · simp only [ends_bind, ends_get]
    split <;> simp

theorem extendAndRetrace_raises {neighbor : Neighbor} {originator : NodeId} {base : EventChain}
    {path : List NodeId} (lowers : ∀ what, addLocalLowerBound env.id s.store base = .error what →
      fine (.exception what))
    (raises : ∀ lower what, addLocalUpperBound s.store lower = .error what → fine (.exception what))
    (front : ∀ upper fault, Splices env.id s.store base upper →
      extendLowerBoundForNeighbor env.id neighbor.nodeId s.store upper = .error fault → fine fault)
    (back : ∀ upper out fault, Splices env.id s.store base upper →
      extendLowerBoundForNeighbor env.id neighbor.nodeId s.store upper = .ok (some out) →
      extendUpperBoundForNeighbor env.id neighbor.nodeId s.store out = .error fault → fine fault) :
    Ends (extendAndRetrace env neighbor originator base path) s (fun _ _ => True)
      (fun fault _ => fine fault) := by
  simp only [extendAndRetrace, addLowerBound, addUpperBound, ends_bind, ends_readStore]
  refine ⟨fun lower lowered => ?_, lowers⟩
  cases lower with
  | none => trivial
  | some lower =>
      simp only [ends_bind, ends_readStore]
      refine ⟨fun upper raised => ?_, raises lower⟩
      cases upper with
      | none => trivial
      | some upper =>
          have splices : Splices env.id s.store base upper := ⟨lower, lowered, raised⟩
          simp only [ends_bind, ends_get, ends_ofExcept]
          refine ⟨fun out extended => ?_, fun fault => front upper fault splices⟩
          cases out with
          | none => trivial
          | some out =>
              simp only [ends_bind, ends_ofExcept]
              refine ⟨fun whole _ => ?_, fun fault => back upper out fault splices extended⟩
              cases whole with
              | none => trivial
              | some whole => exact (sendChainResponseRetrace_ends _ _ _).always fun _ _ _ =>
                  trivial

theorem extendAndRetrace_ordinary (neighbor : Neighbor) (originator : NodeId) (base : EventChain)
    (path : List NodeId) : Ends (extendAndRetrace env neighbor originator base path) s
    (fun _ _ => True) (fun fault _ => fault.Ordinary) :=
  extendAndRetrace_raises (fun what _ => ordinary_exception what)
    (fun _ what _ => ordinary_exception what) (fun _ _ _ => extendLowerBoundForNeighbor_ordinary)
    fun _ _ _ _ _ => extendUpperBoundForNeighbor_ordinary

theorem processChainRequest_raises {sender : Neighbor} {m : Wire.ChainRequest}
    (looks : ∀ what, Store.eventByHash s.store m.event.hash = .error what → fine (.exception what))
    (relays : ∀ own, Ends (extendAndRetrace env sender m.originator own m.path) s (fun _ _ => True)
      fun fault _ => fine fault) :
    Ends (processChainRequest env sender m) s (fun _ _ => True) (fun fault _ => fine fault) := by
  unfold processChainRequest
  split
  · simp only [ends_bind, ends_readStore]
    refine ⟨fun own _ => ?_, looks⟩
    cases own with
    | none => trivial
    | some own => exact relays _
  · split
    · trivial
    split
    · trivial
    rw [ends_bind]
    refine (underForwardCap_transmits m).always fun forward counted _ => ?_
    cases forward with
    | false => trivial
    | true => exact (floodChainRequest_transmits _ _ m).always fun _ _ _ => trivial

theorem processClockEventNotification_ordinary (sender : NodeId) (neighbor : Neighbor)
    (m : Wire.ClockNotification) : Ends (processClockEventNotification sender neighbor m) s
    (fun _ _ => True) (fun fault _ => fault.Ordinary) := by
  simp only [processClockEventNotification, ends_bind, ends_modify]
  split
  · exact ordinary_undefinedBehavior
  · simp only [ends_bind, ends_when, ends_writeStore, recordReverseEdge, ends_readStore]
    refine ⟨fun _ => ⟨fun after _ => ⟨fun found _ => ?_, ?_⟩, ?_⟩, fun _ => ⟨fun found _ => ?_, ?_⟩⟩
    all_goals first
      | exact fun what _ => ordinary_exception what
      | cases found <;> simp [ordinary_exception]

section Covered

variable (covers : ∀ what, fine (.exception what))

include covers

theorem Fault.Contained.covered {fault : Fault} (contained : fault.Contained) : fine fault := by
  obtain ⟨what, rfl⟩ := contained
  exact covers what

theorem pruneToKeep_raises (chain : UInt32) : Raises fine (pruneToKeep (σ := σ) env chain) := by
  unfold pruneToKeep
  split
  · split
    · exact fun s => by simp [covers]
    · exact raises_pure _
  · exact raises_pure _

theorem createClockEvent_raises {chain : UInt32}
    (missing : s.unreferencedPerChain.length ≤ chain.toNat → fine .undefinedBehavior) :
    Ends (createClockEvent env chain) s (fun _ _ => True) (fun fault _ => fine fault) := by
  have created : Ends (insertClockEvent env chain) s (fun _ _ => True)
    (fun fault _ => fine fault) := by
    simp only [insertClockEvent, nextSalt, ends_bind, ends_get, ends_modify, ends_readStore]
    refine ⟨fun last _ => ?_, fun what _ => covers what⟩
    split
    · rename_i none
      exact missing (List.getElem?_eq_none_iff.mp none)
    · simp [sign, covers]
  rw [createClockEvent, ends_bind]
  refine created.weaken fun clockEvent after _ => ?_
  exact (raises_modify _).bind (fun _ => raises_get.bind fun _ =>
    (raises_forM fun neighbor => raises_modify _).bind fun _ =>
      pruneToKeep_raises covers chain) after

theorem hydrateWorkingState_raises : Raises fine (hydrateWorkingState (σ := σ) env) := by
  refine (raises_modify _).bind fun _ => raises_forM fun chain => ?_
  exact Raises.bind (fun s => by simp [covers]) fun tail => raises_modify _

end Covered

omit [Store σ] in
theorem scheduleClockTimer_raises {chain : UInt32}
    (missing : env.config.chains.length ≤ chain.toNat → fine .undefinedBehavior) :
    Raises fine (scheduleClockTimer (σ := σ) env chain) := by
  unfold scheduleClockTimer
  split
  · exact raises_modify _
  · exact raises_throw (missing (by omega))

omit [Store σ] in
theorem start_raises : Raises fine (start (σ := σ) env) := by
  refine Raises.bind (fun s => ?_) fun _ s => by simp [arm]
  refine ends_forM trivial fun chain listed before _ => ?_
  have covered := List.mem_range.mp listed
  have small : (UInt32.ofNat chain).toNat ≤ chain := by simpa using Nat.mod_le _ _
  split
  · split
    · exact scheduleClockTimer_raises (fun outside => by omega) before
    · trivial
  · trivial

theorem restore_ordinary (blob : Bytes) : Raises Fault.Ordinary (restore (σ := σ) env blob) := by
  have read : Ends (readSnapshot ⟨blob, env.wordBits⟩) 0 (fun _ _ => True)
    (fun fault _ => fault.Ordinary) :=
    Wire.raises_rule.readSnapshot 0
  have writes : ∀ write : σ → Except String σ, Raises Fault.Ordinary (writeStore write) :=
    fun write s => by simp [ordinary_exception]
  unfold Ends at read
  unfold restore
  cases result : readSnapshot ⟨blob, env.wordBits⟩ 0 with
  | ok contents pos =>
      refine Raises.bind (writes _) fun _ => Raises.bind (raises_forM fun _ => writes _) fun _ => ?_
      refine Raises.bind (raises_forM fun _ => writes _) fun _ =>
        Raises.bind (raises_forM fun _ => writes _) fun _ => ?_
      exact Raises.bind (raises_forM fun _ => writes _) fun _ =>
        hydrateWorkingState_raises ordinary_exception
  | error fault pos =>
      rw [result] at read
      exact raises_throw read

end Loti
