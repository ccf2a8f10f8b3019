import Loti.InMemoryDag
import Loti.LmdbDag
import Loti.StoreWrites

/-!
The two stores hold the same data. `InMemoryStore` keeps a reference once for each time it is
made, `LmdbStore` once for each clock event; otherwise their tables are the same, and every write
that LMDB accepts leaves them so, as long as no hash is indexed twice.
-/

namespace Loti

open Std StateExcept IndexedLog

structure Mirrors (l : LmdbStore) (m : InMemoryStore) : Prop where
  events : ∀ seq : Nat, m.events[seq]? = l.events[seq]?
  eventNumbers : m.events.length = l.nextEventSeq
  eventIndex : m.eventSeq = l.eventIndex
  clockEvents : m.clockEvents = l.clockEvents
  clockNumbers : m.nextClockSeq = l.nextClockSeq
  clockIndex : m.clockSeq = l.clockIndex
  referencing : ∀ (hash : EventHash) (seq : Nat), seq ∈ m.referencing.getD hash [] ↔
  seq ∈ l.referencing.getD hash []
  chainTipSeq : m.chainTipSeq = l.chainTipSeq
  chainSeqs : m.chainSeqs = l.chainSeqs
  neighbors : m.neighbors = l.neighbors.map fun id tips => ⟨id, tips⟩
  routes : m.routes = l.routes
  timedRoutes : m.timedRoutes = l.timedRoutes

namespace Mirrors

theorem empty : Mirrors {} {} := by constructor <;> simp

variable {l l' : LmdbStore} {m : InMemoryStore}

theorem appendEvent {e : Event} {seq : Nat} (mirrors : Mirrors l m) (fresh : e.hash ∉ l.eventIndex)
    (appended : l.appendEvent e = .ok (seq, l')) : (m.appendEvent e).1 = seq ∧
    Mirrors l' (m.appendEvent e).2 := by
  obtain ⟨_, -, same⟩ := except_bind_ok_iff.mp appended
  cases same
  refine ⟨mirrors.eventNumbers,
    { mirrors with events := fun other => ?_, eventNumbers := ?_, eventIndex := ?_ }⟩
  · rw [ExtTreeMap.getElem?_insert, ← mirrors.events, ← mirrors.eventNumbers]
    simp only [InMemoryStore.appendEvent, List.getElem?_append, LawfulEqCmp.compare_eq_iff_eq]
    by_cases here : m.events.length = other
    · subst here
      simp
    · rw [if_neg here]
      split
      · rfl
      · rename_i beyond
        rw [List.getElem?_eq_none (by simp; omega), List.getElem?_eq_none (by omega)]
  · simp [InMemoryStore.appendEvent, mirrors.eventNumbers]
  · simp only [InMemoryStore.appendEvent, mirrors.eventIndex, mirrors.eventNumbers]
    exact insertIfNew_of_absent fresh

theorem appendClockEvent {c : LocalClockEvent} {seq : Nat} (mirrors : Mirrors l m)
    (fresh : c.hash ∉ l.clockIndex) (unused : l.nextClockSeq ∉ l.clockEvents)
    (appended : l.appendClockEvent c = .ok (seq, l')) :
    (m.appendClockEvent c).1 = seq ∧ Mirrors l' (m.appendClockEvent c).2 := by
  obtain ⟨_, -, written⟩ := except_bind_ok_iff.mp appended
  obtain ⟨referencing, put, same⟩ := except_bind_ok_iff.mp written
  cases same
  refine ⟨mirrors.clockNumbers, { mirrors with
    clockEvents := ?_, clockNumbers := ?_, clockIndex := ?_, referencing := fun hash other => ?_,
      chainTipSeq := ?_, chainSeqs := ?_ }⟩ <;>
    simp only [InMemoryStore.appendClockEvent, mirrors.clockNumbers]
  · rw [mirrors.clockEvents]
    exact insertIfNew_of_absent unused
  · rw [mirrors.clockIndex]
    exact insertIfNew_of_absent fresh
  · rw [InMemoryStore.mem_emplaceReferencing_iff, LmdbStore.putReferencing_mem put,
      mirrors.referencing]
  · rw [mirrors.chainTipSeq]
  · rw [mirrors.chainSeqs]

theorem updateClockEvent {c : LocalClockEvent} (mirrors : Mirrors l m)
    (updated : l.updateClockEvent c = .ok l') : Mirrors l' (m.updateClockEvent c) := by
  obtain ⟨_, -, written⟩ := except_bind_ok_iff.mp updated
  cases entry : l.clockIndex[c.hash]? with
  | none =>
      rw [entry] at written
      cases written
  | some seq =>
      rw [entry] at written
      cases written
      have indexed : m.clockSeq[c.hash]? = some seq := by rw [mirrors.clockIndex, entry]
      rw [InMemoryStore.updateClockEvent, indexed]
      exact { mirrors with clockEvents := congrArg (·.insert seq c) mirrors.clockEvents }

theorem putNeighbor (mirrors : Mirrors l m) (n : Neighbor) :
    Mirrors { l with neighbors := l.neighbors.insert n.nodeId n.lastClockEventHashes }
      { m with neighbors := m.neighbors.insert n.nodeId n } := by
  refine { mirrors with neighbors := ?_ }
  apply ExtTreeMap.ext_getElem?
  intro id
  simp only [mirrors.neighbors, ExtTreeMap.getElem?_insert, ExtTreeMap.getElem?_map,
    LawfulEqCmp.compare_eq_iff_eq]
  split
  · rename_i here
    simp [← here]
  · rfl

theorem dropClockEvent {seq : Nat} (mirrors : Mirrors l m)
    (dropped : l.dropClockEvent seq = .ok l') : Mirrors l' (m.dropClockEvent seq) := by
  unfold LmdbStore.dropClockEvent at dropped
  unfold InMemoryStore.dropClockEvent
  have same : m.clockEvents[seq]? = l.clockEvents[seq]? := by rw [mirrors.clockEvents]
  rw [same]
  cases found : l.clockEvents[seq]? with
  | none =>
      rw [found] at dropped
      cases dropped
      exact mirrors
  | some ce =>
      rw [found] at dropped
      obtain ⟨referencing, deleted, rest⟩ := except_bind_ok_iff.mp dropped
      obtain ⟨_, -, same⟩ := except_bind_ok_iff.mp rest
      cases same
      refine { mirrors with clockEvents := ?_, clockIndex := ?_, referencing :=
        fun hash other => ?_ }
      · exact congrArg (·.erase seq) mirrors.clockEvents
      · exact congrArg (·.erase ce.hash) mirrors.clockIndex
      · rw [InMemoryStore.mem_eraseReferencing_iff, LmdbStore.deleteReferencing_mem deleted,
          mirrors.referencing]

theorem pruneSeqs {keep : Nat} (seqs : List Nat) (mirrors : Mirrors l m)
    (dropped : (seqs.take (seqs.length - keep)).foldlM LmdbStore.dropClockEvent l = .ok l') :
    Mirrors l' (InMemoryStore.pruneSeqs keep m seqs).1 ∧
      (InMemoryStore.pruneSeqs keep m seqs).2 = seqs.drop (seqs.length - keep) := by
  induction seqs generalizing l m with
  | nil =>
      rw [List.take_nil] at dropped
      cases dropped
      exact ⟨mirrors, by simp [InMemoryStore.pruneSeqs]⟩
  | cons seq rest ih =>
      rw [InMemoryStore.pruneSeqs]
      split
      · rename_i long
        have size : (seq :: rest).length - keep = (rest.length - keep) + 1 := by
          simp only [List.length_cons] at long ⊢
          omega
        rw [size, List.take_succ_cons, List.foldlM_cons] at dropped
        obtain ⟨middle, first, others⟩ := except_bind_ok_iff.mp dropped
        rw [size, List.drop_succ_cons]
        exact ih (mirrors.dropClockEvent first) others
      · rename_i short
        rw [Nat.sub_eq_zero_of_le (by omega)] at dropped ⊢
        cases dropped
        exact ⟨mirrors, rfl⟩

theorem pruneChain {chain : UInt32} {keep : Nat} (mirrors : Mirrors l m)
    (pruned : l.pruneChain chain keep = .ok l') : Mirrors l' (m.pruneChain chain keep) := by
  unfold LmdbStore.pruneChain at pruned
  unfold InMemoryStore.pruneChain
  rw [mirrors.chainSeqs]
  cases place : l.chainSeqs[chain]? with
  | none =>
      rw [place] at pruned
      cases pruned
      exact mirrors
  | some seqs =>
      rw [place] at pruned
      by_cases zero : keep = 0
      · simp only [zero, true_or, if_true] at pruned ⊢
        cases pruned
        exact mirrors
      · simp only [zero, false_or, if_false] at pruned ⊢
        split at pruned
        · rename_i few
          cases pruned
          have none :
            (seqs.take (seqs.length - keep)).foldlM LmdbStore.dropClockEvent l = .ok l := by
            rw [Nat.sub_eq_zero_of_le few]
            rfl
          obtain ⟨kept, left⟩ := mirrors.pruneSeqs seqs none
          rw [Nat.sub_eq_zero_of_le few, List.drop_zero] at left
          exact { kept with chainSeqs := by rw [kept.chainSeqs, left]; exact insert_eq_self_iff.mpr place }
        · obtain ⟨middle, dropped, same⟩ := except_bind_ok_iff.mp pruned
          cases same
          obtain ⟨kept, left⟩ := mirrors.pruneSeqs seqs dropped
          exact { kept with chainSeqs := by rw [kept.chainSeqs, left] }

end Mirrors

end Loti
