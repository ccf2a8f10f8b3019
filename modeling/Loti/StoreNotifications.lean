import Loti.Records
import Loti.StoreAgreement
import Loti.TipTable

/-!
One clock notification on two nodes that differ in their store only. The hash it carries for the
reverse edge is looked up as it came, and LMDB does not look up an empty key.
-/

namespace Loti

open Std StateExcept Wire

variable {σ τ : Type}

def NodeState.over (s : NodeState σ) (store : τ) : NodeState τ where
  store := store
  now := s.now
  saltsDrawn := s.saltsDrawn
  neighbors := s.neighbors
  unreferencedPerChain := s.unreferencedPerChain
  destinationToNextHop := s.destinationToNextHop
  timedRoutes := s.timedRoutes
  discoveries := s.discoveries
  floodSeen := s.floodSeen
  timers := s.timers
  signed := s.signed
  sent := s.sent

/-- Over both stores the node returns normally, in the same state and with the same data in its
store. -/
def Alike (onLmdb : NodeM LmdbStore Unit) (inMemory : NodeM InMemoryStore Unit)
    (s : NodeState LmdbStore) (m : InMemoryStore) : Prop :=
  ∃ after held, onLmdb s = .ok () after ∧ inMemory (s.over m) = .ok () (after.over held) ∧
    Mirrors after.store held

variable {s : NodeState LmdbStore} {m : InMemoryStore} {onLmdb : NodeM LmdbStore Unit}
  {inMemory : NodeM InMemoryStore Unit}

theorem Alike.bind {thenLmdb : NodeM LmdbStore Unit} {thenMemory : NodeM InMemoryStore Unit}
    (first : Alike onLmdb inMemory s m)
    (rest : ∀ after held, onLmdb s = .ok () after → Mirrors after.store held →
      Alike thenLmdb thenMemory after held) :
    Alike (onLmdb >>= fun _ => thenLmdb) (inMemory >>= fun _ => thenMemory) s m := by
  obtain ⟨after, held, ran, same, mirrors⟩ := first
  obtain ⟨last, kept, more, too, still⟩ := rest after held ran mirrors
  exact ⟨last, kept, bind_ok_iff.mpr ⟨(), after, ran, more⟩,
    bind_ok_iff.mpr ⟨(), after.over held, same, too⟩, still⟩

theorem alike_pure (mirrors : Mirrors s.store m) : Alike (pure ()) (pure ()) s m :=
  ⟨s, m, rfl, rfl, mirrors⟩

theorem alike_when {condition : Prop} [Decidable condition] (mirrors : Mirrors s.store m)
    (alike : condition → Alike onLmdb inMemory s m) :
    Alike (when condition onLmdb) (when condition inMemory) s m := by
  by_cases holds : condition
  · simpa only [when, holds, if_true] using alike holds
  · simpa only [when, holds, if_false] using alike_pure mirrors

theorem writeStore_ok {s : NodeState σ} {write : σ → Except String σ} {after : σ}
    (written : write s.store = .ok after) :
    writeStore write s = .ok () { s with store := after } := by
  simp only [writeStore, bind_ok_iff]
  exact ⟨s, s, rfl, after, s, by rw [written]; rfl, rfl⟩

theorem readStore_ok {α : Type} {s : NodeState σ} {read : σ → Except String α} {value : α}
    (found : read s.store = .ok value) : readStore read s = .ok value s := by
  simp only [readStore, bind_ok_iff]
  exact ⟨s, s, rfl, by rw [found]; rfl⟩

theorem alike_writeStore {write : LmdbStore → Except String LmdbStore}
    {write' : InMemoryStore → Except String InMemoryStore}
    {after : LmdbStore} {held : InMemoryStore} (written : write s.store = .ok after)
    (kept : write' m = .ok held)
    (mirrors : Mirrors after held) : Alike (writeStore write) (writeStore write') s m :=
  ⟨{ s with store := after }, held, writeStore_ok written, writeStore_ok kept, mirrors⟩

theorem alike_readStore {α : Type} {read : LmdbStore → Except String α}
    {read' : InMemoryStore → Except String α} {value : α}
    {onLmdb : α → NodeM LmdbStore Unit} {inMemory : α → NodeM InMemoryStore Unit}
    (found : read s.store = .ok value)
    (held : read' m = .ok value) (rest : Alike (onLmdb value) (inMemory value) s m) :
    Alike (readStore read >>= onLmdb) (readStore read' >>= inMemory) s m := by
  obtain ⟨after, kept, ran, same, mirrors⟩ := rest
  exact ⟨after, kept, bind_ok_iff.mpr ⟨value, s, readStore_ok found, ran⟩,
    bind_ok_iff.mpr ⟨value, s.over m, readStore_ok held, same⟩, mirrors⟩

theorem Mirrors.clockEventByHash {l : LmdbStore} {m : InMemoryStore} {hash : EventHash}
    (mirrors : Mirrors l m) (log : l.LogWithin .any) (nonempty : hash ≠ []) :
    ∃ found, l.clockEventByHash hash = .ok found ∧ m.clockEventByHash hash = .ok found ∧
      ∀ own ∈ found, own.hash = hash ∧ hash ∈ l.clockIndex := by
  simp only [LmdbStore.clockEventByHash, LmdbStore.seqOf, LmdbStore.checkGet_ok nonempty,
    InMemoryStore.clockEventByHash, mirrors.clockIndex]
  cases entry : l.clockIndex[hash]? with
  | none => exact ⟨none, rfl, rfl, by simp⟩
  | some seq =>
      obtain ⟨own, live, named⟩ := log.indexed hash seq entry
      refine ⟨some own, ?_, ?_, ?_⟩
      · simp only [bind, Except.bind, pure, Except.pure, LmdbStore.clockEventBySeq, live]
      · simp only [InMemoryStore.clockEventBySeq, mirrors.clockEvents, live]
        rfl
      · rintro _ ⟨⟩
        exact ⟨named, ExtTreeMap.isSome_getElem?_iff_mem.mp (by rw [entry]; rfl)⟩

theorem recordReverseEdge_alike (neighbor : NodeId) {last theirs : EventHash}
    (mirrors : Mirrors s.store m) (log : s.store.LogWithin .any) (nonempty : theirs ≠ []) :
    Alike (recordReverseEdge neighbor last theirs)
    (recordReverseEdge neighbor last theirs) s m := by
  obtain ⟨found, read, held, named⟩ := mirrors.clockEventByHash log nonempty
  refine alike_readStore read held ?_
  cases found with
  | none => exact alike_pure mirrors
  | some own =>
      obtain ⟨hash, indexed⟩ := named own rfl
      refine alike_when mirrors fun _ => ?_
      obtain ⟨seq, entry⟩ := Option.isSome_iff_exists.mp
        (ExtTreeMap.isSome_getElem?_iff_mem.mpr indexed)
      obtain ⟨after, updated⟩ : ∃ after, s.store.updateClockEvent
          { own with referencingEvents := own.referencingEvents ++ [⟨neighbor, last⟩] } =
          .ok after := by
        simp only [LmdbStore.updateClockEvent, hash, LmdbStore.checkGet_ok nonempty, entry]
        exact ⟨_, rfl⟩
      exact alike_writeStore updated rfl (mirrors.updateClockEvent updated)

variable {sender : NodeId} {neighbor : Neighbor} {n : ClockNotification}

theorem alike_tell (sender : NodeId) (updated : Neighbor) (mirrors : Mirrors s.store m) :
    Alike (modify fun s => { s with neighbors := s.neighbors.insert sender updated })
      (modify fun s => { s with neighbors := s.neighbors.insert sender updated }) s m :=
  ⟨{ s with neighbors := s.neighbors.insert sender updated }, m, rfl, rfl, mirrors⟩

theorem alike_putNeighbor {condition : Prop} [Decidable condition] (updated : Neighbor)
    (mirrors : Mirrors s.store m) :
      Alike (when condition (writeStore fun store => Store.putNeighbor store updated))
      (when condition (writeStore fun store => Store.putNeighbor store updated)) s m :=
  alike_when mirrors fun _ => alike_writeStore rfl rfl (mirrors.putNeighbor updated)

theorem putNeighbor_log {condition : Prop} [Decidable condition] {updated : Neighbor} :
    Keeps (fun s : NodeState LmdbStore => s.store.LogWithin .any)
      (when condition (writeStore fun store => Store.putNeighbor store updated)) := by
  intro s log
  rw [ends_when, ends_writeStore]
  refine ⟨fun _ => ⟨fun written same => ?_, fun _ _ => log⟩, fun _ => log⟩
  cases same
  exact log

theorem processClockEventNotification_alike (mirrors : Mirrors s.store m)
    (log : s.store.LogWithin .any) (room : n.chain.toNat ≠ 2 ^ 32 - 1 ∨
      n.chain.toNat < neighbor.lastClockEventHashes.length)
    (nonempty : n.neighborLastClockEventHash ≠ []) :
    Alike (processClockEventNotification sender neighbor n)
    (processClockEventNotification sender neighbor n) s m := by
  have covers := coveringTips_covers neighbor.lastClockEventHashes n.chain room
  simp only [processClockEventNotification, List.getElem?_eq_getElem covers]
  refine (alike_tell sender _ mirrors).bind fun after held told still => ?_
  refine (alike_putNeighbor _ still).bind fun stored kept put mirrored => ?_
  refine recordReverseEdge_alike _ mirrored ?_ nonempty
  -- neither step touches the log of clock events
  have first : after.store.LogWithin .any := by
    injection told with _ same
    exact same ▸ log
  exact (putNeighbor_log after first).of_ok put

theorem recordReverseEdge_empty (neighbor : NodeId) (last : EventHash) (s : NodeState LmdbStore) :
    Ends (recordReverseEdge neighbor last []) s (fun _ _ => False) fun fault after =>
      fault = .exception (LmdbStore.badValsize "get") ∧ after = s := by
  have refused : s.store.clockEventByHash [] = .error (LmdbStore.badValsize "get") := rfl
  simp only [recordReverseEdge, ends_bind, ends_readStore]
  refine ⟨fun found read => ?_, fun what read => ?_⟩
  · cases refused.symm.trans read
  · exact ⟨congrArg Fault.exception (Except.error.inj (read.symm.trans refused)), trivial⟩

theorem processClockEventNotification_throws (empty : n.neighborLastClockEventHash = []) :
    Ends (processClockEventNotification sender neighbor n) s (fun _ _ => False) fun _ _ =>
    True := by
  simp only [processClockEventNotification, ends_bind, ends_modify, empty]
  split
  · trivial
  · simp only [ends_bind, ends_when, ends_writeStore]
    have edge (before : NodeState LmdbStore) :=
      (recordReverseEdge_empty neighbor.nodeId n.lastClockEventHash before).mono
      (fun _ _ never => never) fun _ _ _ => trivial
    exact ⟨fun _ => ⟨fun _ _ => edge _, fun _ _ => trivial⟩, fun _ => edge _⟩

theorem onPacketReceived_notification [Store σ] {env : NodeEnv} {s : NodeState σ} {datagram : Bytes}
    (decoded : decode ⟨datagram, env.wordBits⟩ = .ok ⟨sender, .clockNotification n⟩)
    (known : s.neighbors[sender]? = some neighbor) :
    onPacketReceived env datagram s = processClockEventNotification sender neighbor n s := by
  simp only [onPacketReceived, decoded, receive, bind, EStateM.bind, get_run, known]

/-- In every state a node over LMDB reaches, a notification from a neighbor is processed as over the
store in memory, exactly when the hash it names of this node is not empty and the table of tips can
grow to its chain. -/
theorem notification_alike_iff (env : NodeEnv) (actions : List NodeAction) (s : NodeState LmdbStore)
    (m : InMemoryStore) (datagram : Bytes) (sender : NodeId) (neighbor : Neighbor)
    (n : ClockNotification)
    (reached : final (runActions env actions) (.boot env {}) = s) (mirrors : Mirrors s.store m)
    (decoded : decode ⟨datagram, env.wordBits⟩ = .ok ⟨sender, .clockNotification n⟩)
    (known : s.neighbors[sender]? = some neighbor) :
    Alike (onPacketReceived env datagram) (onPacketReceived env datagram) s m ↔
      n.neighborLastClockEventHash ≠ [] ∧
        (n.chain.toNat ≠ 2 ^ 32 - 1 ∨ n.chain.toNat < neighbor.lastClockEventHashes.length) := by
  have handled : Alike (onPacketReceived env datagram) (onPacketReceived env datagram) s m ↔
      Alike (processClockEventNotification sender neighbor n)
      (processClockEventNotification sender neighbor n) s m := by
    unfold Alike
    rw [onPacketReceived_notification decoded known, onPacketReceived_notification decoded
      (s := s.over m) known]
  rw [handled]
  constructor
  · rintro ⟨after, held, ran, -⟩
    refine ⟨fun empty => (processClockEventNotification_throws empty).of_ok ran, ?_⟩
    by_contra blocked
    push Not at blocked
    exact (processClockEventNotification_overruns blocked.1 blocked.2).of_ok ran
  · rintro ⟨nonempty, room⟩
    have kept : Keeps (NodeWithin (σ := LmdbStore) .any) (runActions env actions) :=
      keeps_runActions fun action _ => perform_any action
    have within : NodeWithin .any s := by
      rw [← reached]
      exact ends_final.mp (kept _ (boot_within (LmdbStore.within_fresh _)))
    exact processClockEventNotification_alike mirrors within.store.log room nonempty

def lmdbStart : NodeState LmdbStore :=
  final (runActions tipTableEnv [.addNeighbor (.ofUInt64 2)]) (.boot tipTableEnv {})

theorem mirrors_start : Mirrors lmdbStart.store tipTableStart.store :=
  Mirrors.empty.putNeighbor ⟨.ofUInt64 2, []⟩

theorem notification_alike_sample :
    Alike (onPacketReceived tipTableEnv (encode ⟨.ofUInt64 2, .clockNotification ⟨3, [7], [9]⟩⟩))
      (onPacketReceived tipTableEnv (encode ⟨.ofUInt64 2, .clockNotification ⟨3, [7], [9]⟩⟩))
      lmdbStart
      tipTableStart.store :=
  (notification_alike_iff tipTableEnv [.addNeighbor (.ofUInt64 2)] lmdbStart tipTableStart.store _
    (.ofUInt64 2) ⟨.ofUInt64 2, []⟩ ⟨3, [7], [9]⟩ rfl mirrors_start (by decide) (by decide)).mpr
    ⟨by decide, Or.inl (by decide)⟩

/-- The first notification of a neighbor that has heard nothing yet: over LMDB the node throws. -/
theorem notification_first_throws :
    Ends (onPacketReceived tipTableEnv (encode ⟨.ofUInt64 2, .clockNotification ⟨0, [7], []⟩⟩))
      lmdbStart (fun _ _ => False)
      (fun fault _ => fault = .exception (LmdbStore.badValsize "get")) ∧
    Ends (onPacketReceived tipTableEnv (encode ⟨.ofUInt64 2, .clockNotification ⟨0, [7], []⟩⟩))
      tipTableStart (fun _ _ => True) fun _ _ => False := by
  decide +kernel

end Loti
