import Loti.InMemoryStore
import Loti.NodeRuns

/-!
What a clock notification does to the table of neighbor tips. The slot index is an
unauthenticated 32-bit value and the table's new size, one more, is computed in 32 bits.
-/

namespace Loti

open Std StateExcept Wire

/-- Exactly the tip of `sender` on chain `chain` has become `hash`: the table covers the slot,
other slots are as they were, and new ones are empty. -/
structure UpdatesOneTip (before after : Neighbors) (sender : NodeId) (old : Neighbor)
    (chain : Nat) (hash : EventHash) : Prop where
  updated : ∃ new, after[sender]? = some new ∧ chain < new.lastClockEventHashes.length ∧
    new.lastClockEventHashes[chain]? = some hash ∧
    (∀ slot < old.lastClockEventHashes.length, slot ≠ chain →
      new.lastClockEventHashes[slot]? = old.lastClockEventHashes[slot]?) ∧
    ∀ slot, old.lastClockEventHashes.length ≤ slot → slot < new.lastClockEventHashes.length →
      slot ≠ chain → new.lastClockEventHashes[slot]? = some []
  others : ∀ other ≠ sender, after[other]? = before[other]?

theorem resize_length (tips : List EventHash) (size : Nat) : (resize tips size).length = size := by
  simp [resize]
  omega

theorem resize_getElem (tips : List EventHash) (size slot : Nat) (grows : tips.length ≤ size)
    (bound : slot < size) :
    (resize tips size)[slot]? = if slot < tips.length then tips[slot]? else some [] := by
  unfold resize
  rw [List.take_of_length_le grows, List.getElem?_append]
  split
  · rfl
  · rw [List.getElem?_replicate]
    exact if_pos (by omega)

theorem chain_succ_toNat (chain : UInt32) (small : chain.toNat ≠ 2 ^ 32 - 1) :
    (chain + 1).toNat = chain.toNat + 1 := by
  have bound := chain.toNat_lt
  rw [UInt32.toNat_add]
  simp
  omega

theorem coveringTips_covers (tips : List EventHash) (chain : UInt32)
    (room : chain.toNat ≠ 2 ^ 32 - 1 ∨ chain.toNat < tips.length) :
    chain.toNat < (coveringTips tips chain).length := by
  unfold coveringTips
  split
  · rename_i short
    have size := chain_succ_toNat chain (by omega)
    rw [resize_length, size]
    omega
  · omega

theorem coveringTips_getElem (tips : List EventHash) (chain : UInt32) (slot : Nat)
    (room : chain.toNat ≠ 2 ^ 32 - 1 ∨ chain.toNat < tips.length)
    (bound : slot < (coveringTips tips chain).length) :
    (coveringTips tips chain)[slot]? = if slot < tips.length then tips[slot]? else some [] := by
  unfold coveringTips at bound ⊢
  split at bound
  · rename_i short
    have size := chain_succ_toNat chain (by omega)
    rw [resize_length] at bound
    rw [if_pos short, resize_getElem _ _ _ (by omega) bound]
  · rename_i long
    rw [if_neg long, if_pos bound]

theorem updatesOneTip_insert (table : Neighbors) (sender : NodeId) (neighbor : Neighbor)
    (chain : UInt32) (hash : EventHash)
    (room : chain.toNat ≠ 2 ^ 32 - 1 ∨ chain.toNat < neighbor.lastClockEventHashes.length) :
    UpdatesOneTip table
      (table.insert sender { neighbor with
        lastClockEventHashes :=
          (coveringTips neighbor.lastClockEventHashes chain).set chain.toNat hash })
      sender neighbor chain.toNat hash := by
  have covers := coveringTips_covers neighbor.lastClockEventHashes chain room
  refine ⟨⟨_, ExtTreeMap.getElem?_insert_self, by simpa using covers, by simp [covers], ?_, ?_⟩, ?_⟩
  · intro slot old different
    have inside : slot < (coveringTips neighbor.lastClockEventHashes chain).length := by
      unfold coveringTips at covers ⊢
      split <;> simp_all [resize_length]
      omega
    rw [List.getElem?_set_ne (Ne.symm different), coveringTips_getElem _ _ _ room inside,
      if_pos old]
  · intro slot new bound different
    simp only [List.length_set] at bound
    rw [List.getElem?_set_ne (Ne.symm different), coveringTips_getElem _ _ _ room bound,
      if_neg (by omega)]
  · intro other different
    simp [ExtTreeMap.getElem?_insert, Ne.symm different]

section

variable {σ : Type} [Store σ] {s : NodeState σ} {sender : NodeId} {neighbor : Neighbor}
  {m : ClockNotification}

omit [Store σ] in
theorem writeStore_neighbors (write : σ → Except String σ) :
    Ends (writeStore write) s (fun _ after => after.neighbors = s.neighbors)
      (fun fault after => fault.Contained ∧ after.neighbors = s.neighbors) := by
  simp [writeStore, Fault.Contained]

theorem recordReverseEdge_neighbors (neighbor : NodeId) (last theirs : EventHash) :
    Ends (recordReverseEdge neighbor last theirs) s (fun _ after => after.neighbors = s.neighbors)
      (fun fault after => fault.Contained ∧ after.neighbors = s.neighbors) := by
  simp only [recordReverseEdge, readStore, ends_bind, ends_get, ends_ofExcept]
  refine ⟨fun found _ => ?_, by simp [Fault.Contained]⟩
  cases found with
  | none => simp
  | some own =>
      rw [ends_when]
      exact ⟨fun _ => writeStore_neighbors _, fun _ => rfl⟩

theorem processClockEventNotification_updates
    (room : m.chain.toNat ≠ 2 ^ 32 - 1 ∨ m.chain.toNat < neighbor.lastClockEventHashes.length) :
    Ends (processClockEventNotification sender neighbor m) s
      (fun _ after => UpdatesOneTip s.neighbors after.neighbors sender neighbor m.chain.toNat
        m.lastClockEventHash)
      (fun fault after => fault.Contained ∧
        UpdatesOneTip s.neighbors after.neighbors sender neighbor m.chain.toNat
        m.lastClockEventHash) := by
  have updates := updatesOneTip_insert s.neighbors sender neighbor m.chain m.lastClockEventHash room
  have covers := coveringTips_covers neighbor.lastClockEventHashes m.chain room
  simp only [processClockEventNotification, ends_bind, ends_modify, List.getElem?_eq_getElem covers]
  have edge : ∀ before : NodeState σ,
      UpdatesOneTip s.neighbors before.neighbors sender neighbor m.chain.toNat
      m.lastClockEventHash →
      Ends (recordReverseEdge neighbor.nodeId m.lastClockEventHash m.neighborLastClockEventHash)
        before (fun _ after =>
          UpdatesOneTip s.neighbors after.neighbors sender neighbor m.chain.toNat
          m.lastClockEventHash)
        (fun fault after => fault.Contained ∧
          UpdatesOneTip s.neighbors after.neighbors sender neighbor m.chain.toNat
          m.lastClockEventHash) := by
    intro before kept
    exact (recordReverseEdge_neighbors _ _ _).mono (fun _ _ same => same ▸ kept)
      fun _ _ same => ⟨same.1, same.2 ▸ kept⟩
  rw [ends_when]
  refine ⟨fun _ => ?_, fun _ => edge _ updates⟩
  exact (writeStore_neighbors _).mono (fun _ _ same => edge _ (same ▸ updates))
    fun _ _ same => ⟨same.1, same.2 ▸ updates⟩

theorem processClockEventNotification_overruns (wraps : m.chain.toNat = 2 ^ 32 - 1)
    (short : neighbor.lastClockEventHashes.length ≤ m.chain.toNat) :
    Ends (processClockEventNotification sender neighbor m) s (fun _ _ => False)
      (fun fault _ => fault = .undefinedBehavior) := by
  have zero : (m.chain + 1).toNat = 0 := by
    rw [UInt32.toNat_add, wraps]
    rfl
  have empty : coveringTips neighbor.lastClockEventHashes m.chain = [] := by
    simp [coveringTips, short, zero, resize]
  simp [processClockEventNotification, empty]

/-- A notification from a known neighbor sets exactly the advertised slot, whatever the state,
if and only if its chain is not the last 32-bit value or the table already reaches that far. -/
theorem onPacketReceived_updates_one_tip_iff (env : NodeEnv) (s : NodeState σ) (datagram : Bytes)
    (sender : NodeId) (neighbor : Neighbor) (m : ClockNotification)
    (decoded : decode ⟨datagram, env.wordBits⟩ = .ok ⟨sender, .clockNotification m⟩)
    (known : s.neighbors[sender]? = some neighbor) :
    Ends (onPacketReceived env datagram) s
      (fun _ after => UpdatesOneTip s.neighbors after.neighbors sender neighbor m.chain.toNat
        m.lastClockEventHash)
      (fun fault after => fault ≠ .undefinedBehavior ∧
        UpdatesOneTip s.neighbors after.neighbors sender neighbor m.chain.toNat
        m.lastClockEventHash) ↔
    m.chain.toNat ≠ 2 ^ 32 - 1 ∨ m.chain.toNat < neighbor.lastClockEventHashes.length := by
  have handled : ∀ post thrown, Ends (onPacketReceived env datagram) s post thrown ↔
      Ends (processClockEventNotification sender neighbor m) s post thrown := by
    intro post thrown
    simp [onPacketReceived, decoded, receive, known]
  rw [handled]
  constructor
  · intro updates
    by_contra blocked
    push Not at blocked
    have overrun := updates.and (processClockEventNotification_overruns blocked.1 blocked.2)
    unfold Ends at overrun
    split at overrun
    · exact overrun.2
    · exact overrun.1.1 overrun.2
  · intro room
    refine (processClockEventNotification_updates room).mono
      (fun _ _ updates => updates) fun _ _ ended => ⟨?_, ended.2⟩
    obtain ⟨⟨what, rfl⟩, -⟩ := ended
    simp

end

def tipTableEnv : NodeEnv := .simulated (fun bytes => bytes.take 32) 1 {}

def tipTableStart : NodeState InMemoryStore :=
  final (runActions tipTableEnv [.addNeighbor (.ofUInt64 2)]) (.boot tipTableEnv {})

theorem onPacketReceived_updates_one_tip_sample :
    Ends (onPacketReceived tipTableEnv
        (encode ⟨.ofUInt64 2, .clockNotification ⟨3, [7], []⟩⟩)) tipTableStart
      (fun _ after => UpdatesOneTip tipTableStart.neighbors after.neighbors (.ofUInt64 2)
        ⟨.ofUInt64 2, []⟩ 3 [7])
      (fun fault after => fault ≠ .undefinedBehavior ∧
        UpdatesOneTip tipTableStart.neighbors after.neighbors (.ofUInt64 2)
        ⟨.ofUInt64 2, []⟩ 3 [7]) :=
  (onPacketReceived_updates_one_tip_iff tipTableEnv tipTableStart _ (.ofUInt64 2) ⟨.ofUInt64 2, []⟩
    ⟨3, [7], []⟩ (by decide) (by decide)).mpr (Or.inl (by decide))

theorem onPacketReceived_last_chain_undefined :
    Ends (onPacketReceived tipTableEnv
        (encode ⟨.ofUInt64 2, .clockNotification ⟨4294967295, [7], []⟩⟩)) tipTableStart
      (fun _ _ => False) (fun fault _ => fault = .undefinedBehavior) := by
  rfl

end Loti
