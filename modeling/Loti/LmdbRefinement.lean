import Loti.LmdbWrites
import Loti.StoreAgreement

/-!
`LmdbStore` and `InMemoryStore` after the same writes, with the LMDB file closed and opened again
at any points. As long as every blob and every list of a record has fewer than `2 ^ 32` elements
and there are fewer than `2 ^ 64` writes, every read of the port returns the same from both, and
every append the same number.
-/

namespace Loti

open Std StateExcept TableEncoding IndexedLog

namespace StoreWrite

/-- The hashes that become keys are those that LMDB takes. -/
def Keyed : StoreWrite → Prop
  | .appendEvent event => LmdbStore.ValidKey event.hash
  | .appendClockEvent record | .updateClockEvent record =>
      LmdbStore.ValidKey record.hash ∧ ∀ ref ∈ record.referencedEvents, LmdbStore.ValidKey ref.hash
  | _ => True

/-- An update is one of a record that the store holds, and changes nothing but the learned
references. -/
def Updates {σ : Type} [Store σ] (s : σ) : StoreWrite → Prop
  | .updateClockEvent record => ∃ old, Store.clockEventByHash s record.hash = .ok (some old) ∧
      record = { old with referencingEvents := record.referencingEvents }
  | _ => True

end StoreWrite

namespace LmdbFile

def WriteFits (build : Build) : StoreWrite → Prop
  | .appendEvent event => EventFits build event
  | .appendClockEvent record | .updateClockEvent record => RecordFits build record
  | .putNeighbor neighbor => TipsFit build neighbor.lastClockEventHashes
  | .putTimedRoutes table => ∀ (id : NodeId) (routes : List TimedRoute), table[id]? = some routes →
      RoutesFit build routes
  | _ => True

variable {build : Build} {l l' : LmdbStore} {m : InMemoryStore} {number : Nat} {c : LocalClockEvent}

/-! The store that the file holds -/

structure Trimmed (l l' : LmdbStore) : Prop where
  eventIndex : l'.eventIndex = l.eventIndex
  nextEventSeq : l'.nextEventSeq = l.nextEventSeq
  timedRoutes : l'.timedRoutes = l.timedRoutes
  clockIndex : ∀ hash ∈ l'.clockIndex, hash ∈ l.clockIndex
  single : (∀ hash : EventHash, (l.referencing.getD hash []).Nodup) →
    ∀ hash : EventHash, (l'.referencing.getD hash []).Nodup

theorem Trimmed.refl (l : LmdbStore) :
    Trimmed l l := ⟨rfl, rfl, rfl, fun _ held => held, fun single => single⟩

theorem dropClockEvent_trimmed {seq : Nat} (dropped : l.dropClockEvent seq = .ok l') :
    Trimmed l l' := by
  unfold LmdbStore.dropClockEvent at dropped
  split at dropped
  · obtain ⟨referencing, deleted, rest⟩ := except_bind_ok_iff.mp dropped
    obtain ⟨_, -, same⟩ := except_bind_ok_iff.mp rest
    cases same
    exact ⟨rfl, rfl, rfl, fun hash held => ExtTreeMap.mem_of_mem_erase held,
      LmdbStore.deleteReferencing_good (fun _ distinct => distinct.filter _) deleted⟩
  · cases dropped
    exact .refl l

theorem dropClockEvents_trimmed (seqs : List Nat)
    (dropped : seqs.foldlM LmdbStore.dropClockEvent l = .ok l') : Trimmed l l' := by
  induction seqs generalizing l with
  | nil =>
      obtain rfl := Except.ok.inj dropped
      exact .refl l
  | cons seq rest ih =>
      rw [List.foldlM_cons] at dropped
      obtain ⟨middle, first, others⟩ := except_bind_ok_iff.mp dropped
      have one := dropClockEvent_trimmed first
      have more := ih others
      exact ⟨more.eventIndex.trans one.eventIndex, more.nextEventSeq.trans one.nextEventSeq,
        more.timedRoutes.trans one.timedRoutes, fun hash held =>
        one.clockIndex hash (more.clockIndex hash held),
        fun single => more.single (one.single single)⟩

namespace Orderly

theorem empty : Orderly build {} where
  sound := LmdbStore.sound_empty
  within := LmdbStore.within_fresh _
  timedRoutes := by simp
  indexed := by simp
  newest := Or.inl rfl
  inhabited := by simp
  single := by simp

section

variable (orderly : Orderly build l)

include orderly

theorem appendEvent {e : Event} (fits : EventFits build e)
    (appended : l.appendEvent e = .ok (number, l')) : Orderly build l' := by
  have sound := (orderly.sound.appendEvent appended).1
  have within : LawfulStore.Within (fitting build) l' := LawfulStore.within_appendEvent
    (σ := LmdbStore) orderly.within fits appended
  obtain ⟨_, -, same⟩ := except_bind_ok_iff.mp appended
  cases same
  refine ⟨sound, within, orderly.timedRoutes, fun hash seq entry => ?_, orderly.newest,
    orderly.inhabited, orderly.single⟩
  dsimp only at entry ⊢
  rcases getElem?_insert_cases entry with ⟨-, rfl⟩ | ⟨-, old⟩
  · omega
  · have before := orderly.indexed hash seq old
    omega

theorem appendClockEvent (fits : RecordFits build c)
    (keyed : LmdbStore.ValidKey c.hash ∧ ∀ ref ∈ c.referencedEvents, LmdbStore.ValidKey ref.hash)
    (fresh : c.hash ∉ l.clockIndex)
    (appended : l.appendClockEvent c = .ok (number, l')) : Orderly build l' := by
  have unheld : ∀ entry ∈ l.dag.clocks, entry.2.hash ≠ c.hash := by
    intro entry held same
    have indexed := (orderly.sound.logs.indexed c.hash entry.1).mpr
      ⟨entry.2, LmdbStore.mem_clocks_iff.mp held, same⟩
    exact fresh (mem_of_getElem? indexed)
  have sound := (orderly.sound.appendClockEvent unheld appended).1
  have within : LawfulStore.Within (fitting build) l' := LawfulStore.within_appendClockEvent
    (σ := LmdbStore) orderly.within ⟨fits, keyed.1.ne_nil, fun ref listed =>
      (keyed.2 ref listed).ne_nil⟩ appended
  obtain ⟨_, -, written⟩ := except_bind_ok_iff.mp appended
  obtain ⟨referencing, put, same⟩ := except_bind_ok_iff.mp written
  cases same
  refine ⟨sound, within, orderly.timedRoutes, orderly.indexed, Or.inr ?_,
    fun chain members listed => ?_, LmdbStore.putReferencing_good
    (fun _ => LmdbStore.insertDup_nodup _) put orderly.single⟩
  · simp
  · rcases getElem?_insert_cases listed with ⟨-, rfl⟩ | ⟨-, old⟩
    · simp
    · exact orderly.inhabited chain members old

theorem updateClockEvent {seq : Nat} {old : LocalClockEvent} (fits : RecordFits build c)
    (found : l.clockEvents[seq]? = some old)
    (same : c = { old with referencingEvents := c.referencingEvents })
    (updated : l.updateClockEvent c = .ok l') : Orderly build l' := by
  have hashed : c.hash = old.hash := by rw [same]
  have refs : c.referencedEvents = old.referencedEvents := by rw [same]
  have chains : c.chain = old.chain := by rw [same]
  have sound :=
    (orderly.sound.updateClockEvent
      (LmdbStore.mem_clocks_iff.mpr found) hashed chains refs updated).1
  obtain ⟨-, nonempty⟩ := (orderly.within.log.live seq old found).1
  have within := orderly.within.updateClockEvent (c := c)
    ⟨fits, hashed ▸ nonempty.1, refs ▸ nonempty.2⟩ updated
  obtain ⟨_, -, written⟩ := except_bind_ok_iff.mp updated
  split at written
  · cases written
    refine ⟨sound, within, orderly.timedRoutes, orderly.indexed,
      orderly.newest.imp_right fun newest => ?_, orderly.inhabited, orderly.single⟩
    exact ExtTreeMap.mem_insert.mpr (Or.inr newest)
  · cases written

theorem pruneChain {chain : UInt32} {keep : Nat} (pruned : l.pruneChain chain keep = .ok l') :
    Orderly build l' := by
  have sound := (orderly.sound.pruneChain pruned).1
  have within := orderly.within.pruneChain pruned
  rcases LmdbStore.pruneChain_inv pruned with rfl | ⟨members, middle, place, short, dropped, rfl⟩
  · exact orderly
  · have kept := (LmdbStore.dropClockEvents_dropped _ orderly.within.log dropped).1
    have trimmed := dropClockEvents_trimmed _ dropped
    refine ⟨sound, within, ?_, ?_, ?_, fun other others listed => ?_, trimmed.single orderly.single⟩
    · dsimp only
      rw [trimmed.timedRoutes]
      exact orderly.timedRoutes
    · dsimp only
      rw [trimmed.eventIndex, trimmed.nextEventSeq]
      exact orderly.indexed
    · dsimp only
      rw [kept.nextClockSeq]
      refine orderly.newest.imp_right fun newest => ?_
      rw [← ExtTreeMap.isSome_getElem?_iff_mem,
        kept.others _ (orderly.within.lanes.newest_kept place short),
        ExtTreeMap.isSome_getElem?_iff_mem]
      exact newest
    · rw [kept.chainSeqs] at listed
      rcases getElem?_insert_cases listed with ⟨-, rfl⟩ | ⟨-, old⟩
      · exact List.drop_eq_nil_iff.not.mpr (Nat.not_le.mpr short)
      · exact orderly.inhabited other others old

theorem tables (neighbors : ExtTreeMap NodeId (List EventHash)) (routes : ExtTreeMap NodeId NodeId)
    (timedRoutes : TimedRouteTable) (tips : ∀ (id : NodeId) (tips : List EventHash),
      neighbors[id]? = some tips → TipsFit build tips)
    (fit : ∀ (id : NodeId) (listed : List TimedRoute), timedRoutes[id]? = some listed →
      RoutesFit build listed) :
    Orderly build { l with neighbors, routes, timedRoutes } where
  sound :=
    have sound := orderly.sound
    ⟨⟨sound.logs, sound.ordered, sound.keys⟩, sound.laned, sound.dense, sound.eventKeys⟩
  within := ⟨orderly.within.events, orderly.within.log, orderly.within.lanes, tips⟩
  timedRoutes := fit
  indexed := orderly.indexed
  newest := orderly.newest
  inhabited := orderly.inhabited
  single := orderly.single

end

end Orderly

/-! Both stores -/

structure Known (writes : List StoreWrite) (l : LmdbStore) : Prop where
  events : ∀ hash ∈ l.eventIndex, hash ∈ writes.filterMap StoreWrite.event?
  clockEvents : ∀ hash ∈ l.clockIndex, hash ∈ writes.filterMap StoreWrite.clockEvent?
  nextEventSeq : l.nextEventSeq ≤ writes.length
  nextClockSeq : l.nextClockSeq ≤ writes.length

theorem Known.more {writes : List StoreWrite} (known : Known writes l) (write : StoreWrite) :
    Known (writes ++ [write]) l where
  events hash held := by
    rw [List.filterMap_append]
    exact List.mem_append_left _ (known.events hash held)
  clockEvents hash held := by
    rw [List.filterMap_append]
    exact List.mem_append_left _ (known.clockEvents hash held)
  nextEventSeq := by
    rw [List.length_append]
    exact Nat.le_add_right_of_le known.nextEventSeq
  nextClockSeq := by
    rw [List.length_append]
    exact Nat.le_add_right_of_le known.nextClockSeq

/-- The store that the file holds, and the one in memory, after the writes. -/
structure Twin (build : Build) (writes : List StoreWrite) (l : LmdbStore) (m : InMemoryStore) :
    Prop where
  orderly : Orderly build l
  mirrors : Mirrors l m
  known : Known writes l

theorem twin_empty : Twin build [] {} {} := ⟨.empty, .empty, by constructor <;> simp⟩

variable {writes : List StoreWrite} {write : StoreWrite} {given : Option Nat}

section

variable (twin : Twin build writes l m)

include twin

theorem Twin.live (updates : (StoreWrite.updateClockEvent c).Updates m) :
    ∃ seq old, l.clockIndex[c.hash]? = some seq ∧ l.clockEvents[seq]? = some old ∧
      c = { old with referencingEvents := c.referencingEvents } := by
  obtain ⟨old, found, same⟩ := updates
  simp only [Store.clockEventByHash, InMemoryStore.clockEventByHash,
    twin.mirrors.clockIndex] at found
  cases entry : l.clockIndex[c.hash]? with
  | none =>
      rw [entry] at found
      cases found
  | some seq =>
      rw [entry] at found
      obtain ⟨live, read, returned⟩ := except_map_ok_iff.mp found
      obtain rfl := Option.some.inj returned
      rw [InMemoryStore.clockEventBySeq, twin.mirrors.clockEvents] at read
      split at read
      · rename_i record stored
        obtain rfl := Except.ok.inj read
        exact ⟨seq, record, rfl, stored, same⟩
      · cases read

theorem Twin.takes (keyed : write.Keyed) (updates : write.Updates m) :
    ∃ given l', write.perform l = .ok (given, l') := by
  cases write with
  | appendEvent e =>
      obtain ⟨⟨number, l'⟩, appended⟩ : ∃ out, l.appendEvent e = .ok out := by
        rw [LmdbStore.appendEvent, LmdbStore.checkPut_ok_iff.mpr keyed]
        exact ⟨_, rfl⟩
      refine ⟨some number, l', ?_⟩
      simp only [StoreWrite.perform, Store.appendEvent, appended]
      rfl
  | appendClockEvent c =>
      obtain ⟨⟨number, l'⟩, appended⟩ := (LmdbStore.appendClockEvent_ok_iff l c).mpr keyed
      refine ⟨some number, l', ?_⟩
      simp only [StoreWrite.perform, Store.appendClockEvent, appended]
      rfl
  | updateClockEvent c =>
      obtain ⟨seq, old, entry, -⟩ := twin.live updates
      obtain ⟨l', updated⟩ : ∃ l', l.updateClockEvent c = .ok l' := by
        rw [LmdbStore.updateClockEvent, LmdbStore.checkGet_ok keyed.1.ne_nil, entry]
        exact ⟨_, rfl⟩
      refine ⟨none, l', ?_⟩
      simp only [StoreWrite.perform, Store.updateClockEvent, updated]
      rfl
  | pruneChain chain keep =>
      obtain ⟨l', pruned, -⟩ := twin.orderly.within.pruneChain_ok droppable_fitting chain keep
      refine ⟨none, l', ?_⟩
      simp only [StoreWrite.perform, Store.pruneChain, pruned]
      rfl
  | putNeighbor n => exact ⟨none, _, rfl⟩
  | putRoute destination nextHop => exact ⟨none, _, rfl⟩
  | putTimedRoutes table => exact ⟨none, _, rfl⟩
  | clear => exact ⟨none, _, rfl⟩

theorem Twin.sameNumber (performed : write.perform l = .ok (given, l')) :
    ∃ m', write.perform m = .ok (given, m') := by
  cases write with
  | appendEvent e =>
      obtain ⟨⟨number, after⟩, appended, same⟩ := except_bind_ok_iff.mp performed
      cases same
      obtain ⟨_, -, same⟩ := except_bind_ok_iff.mp appended
      cases same
      rw [← twin.mirrors.eventNumbers]
      exact ⟨_, rfl⟩
  | appendClockEvent c =>
      obtain ⟨⟨number, after⟩, appended, same⟩ := except_bind_ok_iff.mp performed
      cases same
      obtain ⟨rfl, -⟩ := LmdbStore.appendClockEvent_inv appended
      rw [← twin.mirrors.clockNumbers]
      exact ⟨_, rfl⟩
  | updateClockEvent c =>
      obtain ⟨after, -, same⟩ := except_bind_ok_iff.mp performed
      cases same
      exact ⟨_, rfl⟩
  | pruneChain chain keep =>
      obtain ⟨after, -, same⟩ := except_bind_ok_iff.mp performed
      cases same
      exact ⟨_, rfl⟩
  | putNeighbor _ | putRoute _ _ | putTimedRoutes _ | clear =>
      cases performed
      exact ⟨_, rfl⟩

theorem Twin.appendEvent {e : Event} (distinct : StoreWrite.Distinct (writes ++ [.appendEvent e]))
    (fits : EventFits build e) (appended : l.appendEvent e = .ok (number, l')) :
    Twin build (writes ++ [.appendEvent e]) l' (m.appendEvent e).2 := by
  have fresh : e.hash ∉ l.eventIndex := by
    intro held
    have earlier := twin.known.events _ held
    have events := distinct.events
    rw [List.filterMap_append, List.nodup_append] at events
    exact events.2.2 _ earlier _ (by simp [StoreWrite.event?]) rfl
  refine ⟨twin.orderly.appendEvent fits appended, (twin.mirrors.appendEvent fresh appended).2, ?_⟩
  have known := twin.known.more (.appendEvent e)
  obtain ⟨_, -, same⟩ := except_bind_ok_iff.mp appended
  cases same
  refine ⟨fun hash held => ?_, known.clockEvents, ?_, known.nextClockSeq⟩
  · rcases ExtTreeMap.mem_insert.mp held with same | old
    · rw [← LawfulEqOrd.eq_of_compare same, List.filterMap_append]
      exact List.mem_append_right _ (by simp [StoreWrite.event?])
    · exact known.events hash old
  · rw [List.length_append, List.length_singleton]
    exact Nat.add_le_add_right twin.known.nextEventSeq 1

theorem Twin.appendClockEvent (distinct : StoreWrite.Distinct (writes ++ [.appendClockEvent c]))
    (keyed : LmdbStore.ValidKey c.hash ∧ ∀ ref ∈ c.referencedEvents, LmdbStore.ValidKey ref.hash)
    (fits : RecordFits build c) (appended : l.appendClockEvent c = .ok (number, l')) :
    Twin build (writes ++ [.appendClockEvent c]) l' (m.appendClockEvent c).2 := by
  have fresh : c.hash ∉ l.clockIndex := fun held => distinct.fresh (twin.known.clockEvents _ held)
  refine ⟨twin.orderly.appendClockEvent fits keyed fresh appended,
    (twin.mirrors.appendClockEvent fresh twin.orderly.within.log.unused appended).2, ?_⟩
  have known := twin.known.more (.appendClockEvent c)
  obtain ⟨rfl, referencing, rfl⟩ := LmdbStore.appendClockEvent_inv appended
  refine ⟨known.events, fun hash held => ?_, known.nextEventSeq, ?_⟩
  · rcases ExtTreeMap.mem_insert.mp held with same | old
    · rw [← LawfulEqOrd.eq_of_compare same, List.filterMap_append]
      exact List.mem_append_right _ (by simp [StoreWrite.clockEvent?])
    · exact known.clockEvents hash old
  · rw [List.length_append, List.length_singleton]
    exact Nat.add_le_add_right twin.known.nextClockSeq 1

theorem Twin.updateClockEvent (updates : (StoreWrite.updateClockEvent c).Updates m)
    (fits : RecordFits build c) (updated : l.updateClockEvent c = .ok l') :
    Twin build (writes ++ [.updateClockEvent c]) l' (m.updateClockEvent c) := by
  obtain ⟨seq, old, entry, found, same⟩ := twin.live updates
  refine ⟨twin.orderly.updateClockEvent fits found same updated,
    twin.mirrors.updateClockEvent updated, ?_⟩
  have known := twin.known.more (.updateClockEvent c)
  obtain ⟨_, -, written⟩ := except_bind_ok_iff.mp updated
  rw [entry] at written
  cases written
  exact ⟨known.events, known.clockEvents, known.nextEventSeq, known.nextClockSeq⟩

theorem Twin.pruneChain {chain : UInt32} {keep : Nat} (pruned : l.pruneChain chain keep = .ok l') :
    Twin build (writes ++ [.pruneChain chain keep]) l' (m.pruneChain chain keep) := by
  refine ⟨twin.orderly.pruneChain pruned, twin.mirrors.pruneChain pruned, ?_⟩
  have known := twin.known.more (.pruneChain chain keep)
  rcases LmdbStore.pruneChain_inv pruned with rfl | ⟨members, middle, place, short, dropped, rfl⟩
  · exact known
  · have kept := (LmdbStore.dropClockEvents_dropped _ twin.orderly.within.log dropped).1
    have trimmed := dropClockEvents_trimmed _ dropped
    refine ⟨?_, fun hash held => known.clockEvents hash (trimmed.clockIndex hash held), ?_, ?_⟩
    · rw [trimmed.eventIndex]
      exact known.events
    · rw [trimmed.nextEventSeq]
      exact known.nextEventSeq
    · rw [kept.nextClockSeq]
      exact known.nextClockSeq

theorem Twin.perform {found : Option Nat} {m' : InMemoryStore} (keyed : write.Keyed)
    (updates : write.Updates m) (distinct : StoreWrite.Distinct (writes ++ [write]))
    (fits : WriteFits build write)
    (performed : write.perform l = .ok (given, l')) (made : write.perform m = .ok (found, m')) :
    Twin build (writes ++ [write]) l' m' := by
  have known := twin.known.more write
  cases write with
  | appendEvent e =>
      cases made
      obtain ⟨⟨number, after⟩, appended, same⟩ := except_bind_ok_iff.mp performed
      cases same
      exact twin.appendEvent distinct fits appended
  | appendClockEvent c =>
      cases made
      obtain ⟨⟨number, after⟩, appended, same⟩ := except_bind_ok_iff.mp performed
      cases same
      exact twin.appendClockEvent distinct keyed fits appended
  | updateClockEvent c =>
      cases made
      obtain ⟨after, updated, same⟩ := except_bind_ok_iff.mp performed
      cases same
      exact twin.updateClockEvent updates fits updated
  | putNeighbor n =>
      cases made
      cases performed
      refine ⟨twin.orderly.tables _ _ _ (fun id tips found => ?_) twin.orderly.timedRoutes,
        twin.mirrors.putNeighbor n, ⟨known.1, known.2, known.3, known.4⟩⟩
      rcases getElem?_insert_cases found with ⟨-, rfl⟩ | ⟨-, old⟩
      · exact fits
      · exact twin.orderly.within.neighbors id tips old
  | putRoute destination nextHop =>
      cases made
      cases performed
      refine ⟨twin.orderly.tables _ _ _ twin.orderly.within.neighbors twin.orderly.timedRoutes, ?_,
        ⟨known.1, known.2, known.3, known.4⟩⟩
      exact { twin.mirrors with routes := congrArg (·.insert destination nextHop) twin.mirrors.routes }
  | putTimedRoutes table =>
      cases made
      cases performed
      exact ⟨twin.orderly.tables _ _ _ twin.orderly.within.neighbors fits,
        { twin.mirrors with timedRoutes := rfl }, ⟨known.1, known.2, known.3, known.4⟩⟩
  | pruneChain chain keep =>
      cases made
      obtain ⟨after, pruned, same⟩ := except_bind_ok_iff.mp performed
      cases same
      exact twin.pruneChain pruned
  | clear =>
      cases made
      cases performed
      exact ⟨.empty, .empty, by constructor <;> simp⟩

end

/-! Runs -/

structure Admits (writes : List StoreWrite) (m : InMemoryStore) (write : StoreWrite) : Prop where
  keyed : write.Keyed
  updates : write.Updates m
  distinct : StoreWrite.Distinct (writes ++ [write])

def facing (s : LmdbFile) (script : List (Option ErrorCode)) : LmdbFile :=
  { s with env := { s.env with script } }

/-- Both stores after the same writes. Each write on the file meets calls that end as its script
says; one that throws is not made in memory. Closing keeps what is committed. -/
inductive Driven (build : Build) : List StoreWrite → LmdbFile → InMemoryStore → Prop
  | create {mapSize : Nat} {file : LmdbFile} : openFile build {} [] mapSize = .ok file →
      Driven build [] file {}
  | write {writes : List StoreWrite} {s after : LmdbFile} {m m' : InMemoryStore}
      {write : StoreWrite} {script : List (Option ErrorCode)} {given found : Option Nat} :
      Driven build writes s m → Admits writes m write → Mild (Retried write) script →
        perform build write (s.facing script) = .ok given after →
          write.perform m = .ok (found, m') → Driven build (writes ++ [write]) after m'
  | refuse {writes : List StoreWrite} {s after : LmdbFile} {m : InMemoryStore} {write : StoreWrite}
      {script : List (Option ErrorCode)} {fault : LmdbFault} :
      Driven build writes s m → Admits writes m write → Mild (Retried write) script →
        perform build write (s.facing script) = .error fault after → Driven build writes after m
  | reopen {writes : List StoreWrite} {s file : LmdbFile} {m : InMemoryStore} {mapSize : Nat} :
      Driven build writes s m → openFile build s.env.committed [] mapSize = .ok file →
      Driven build writes file m

def Tracks (build : Build) (writes : List StoreWrite) (s : LmdbFile) (m : InMemoryStore) : Prop :=
  ∃ l, Refines s l ∧ Twin build writes l m

variable {s : LmdbFile} {script : List (Option ErrorCode)}

theorem Refines.facing (refines : Refines s l) (script : List (Option ErrorCode)) :
    Refines (s.facing script) l :=
  ⟨refines.idle, refines.encodes, refines.counters⟩

theorem Refines.unharmed {after : LmdbFile} (refines : Refines s l) (unharmed : Unharmed s after) :
    Refines after l :=
  ⟨unharmed.closed, unharmed.within.committed ▸ refines.encodes,
    unharmed.counters.trans refines.counters⟩

theorem Refines.admitted (refines : Refines s l) (twin : Twin build writes l m)
    (few : writes.length < 2 ^ 64) (admits : Admits writes m write)
    (mild : Mild (Retried write) script) :
    ∃ given l', write.perform l = .ok (given, l') ∧
      Ends (LmdbFile.perform build write) (s.facing script) (fun value after => value = given ∧
        Refines after l') (Limited build (s.facing script)) := by
  obtain ⟨given, l', performed⟩ := twin.takes admits.keyed admits.updates
  have numbered : Numbered l.nextEventSeq ∧ Numbered l.nextClockSeq :=
    ⟨Nat.lt_of_le_of_lt twin.known.nextEventSeq few, Nat.lt_of_le_of_lt twin.known.nextClockSeq few⟩
  exact ⟨given, l', performed,
    (refines.facing script).perform mild twin.orderly.sound twin.orderly.within numbered performed⟩

theorem Driven.tracks (driven : Driven build writes s m)
    (fits : ∀ write ∈ writes, WriteFits build write) (few : writes.length < 2 ^ 64) :
    Tracks build writes s m := by
  induction driven with
  | create opened =>
      have orderly : Orderly build {} := .empty
      obtain ⟨file, same, refines⟩ := openFile_eq encodes_empty orderly [] _
      obtain rfl := ok_unique opened same
      exact ⟨{}, refines, twin_empty⟩
  | write _ admits mild written done ih =>
      rw [List.length_append, List.length_singleton] at few
      obtain ⟨l, refines, twin⟩ :=
        ih (fun write listed => fits write (List.mem_append_left _ listed)) (by omega)
      obtain ⟨given, l', performed, ends⟩ := refines.admitted twin (by omega) admits mild
      obtain ⟨-, refines⟩ := ends.of_ok written
      exact ⟨l', refines, twin.perform admits.keyed admits.updates admits.distinct
        (fits _ (by simp)) performed done⟩
  | refuse _ admits mild refused ih =>
      obtain ⟨l, refines, twin⟩ := ih fits few
      obtain ⟨given, l', performed, ends⟩ := refines.admitted twin few admits mild
      obtain ⟨-, -, unharmed⟩ := ends.of_error refused
      exact ⟨l, (refines.facing _).unharmed unharmed, twin⟩
  | reopen _ opened ih =>
      obtain ⟨l, refines, twin⟩ := ih fits few
      obtain ⟨file, same, reopened⟩ := openFile_eq refines.encodes twin.orderly [] _
      obtain rfl := ok_unique opened same
      exact ⟨l, reopened, twin⟩

/-! Reads -/

def Same {α : Type} (one : Except Fault α) (two : Except String α) : Prop :=
  ∃ value, one = .ok value ∧ two = .ok value

structure Agree (build : Build) (s : LmdbFile) (m : InMemoryStore) : Prop where
  eventBySeq : ∀ seq, seq < 2 ^ 64 →
    (s.eventBySeq build seq).toOption = (Store.eventBySeq m seq).toOption
  clockEventBySeq : ∀ seq, seq < 2 ^ 64 →
    (s.clockEventBySeq build seq).toOption = (Store.clockEventBySeq m seq).toOption
  eventByHash : ∀ hash : EventHash, hash ≠ [] →
    Same (s.eventByHash build hash) (Store.eventByHash m hash)
  clockEventByHash : ∀ hash : EventHash, hash ≠ [] → Same (s.clockEventByHash build hash)
    (Store.clockEventByHash m hash)
  clockEventSeq : ∀ hash : EventHash, hash ≠ [] →
    Same (s.clockEventSeq hash) (Store.clockEventSeq m hash)
  clockEventsReferencing : ∀ hash : EventHash, hash ≠ [] →
    ∃ one two, s.clockEventsReferencing hash = .ok one ∧
    Store.clockEventsReferencing m hash = .ok two ∧ one.Pairwise (· < ·) ∧ two.Pairwise (· ≤ ·) ∧
    ∀ seq, seq ∈ one ↔ seq ∈ two
  latestClockEvent : Same (s.latestClockEvent build) (Store.latestClockEvent m)
  latestClockEventOn :
  ∀ chain, Same (s.latestClockEventOn build chain) (Store.latestClockEventOn m chain)
  eventCount : s.eventCount = Store.eventCount m
  clockEventCount : s.clockEventCount = Store.clockEventCount m
  loadClockEvents : s.loadClockEvents build = .ok (Store.loadClockEvents m)
  loadNeighbors : s.loadNeighbors build = .ok (Store.loadNeighbors m)
  loadRoutes : s.loadRoutes = .ok (Store.loadRoutes m)
  loadTimedRoutes : s.loadTimedRoutes build = .ok (Store.loadTimedRoutes m)

theorem size_of_dense {Value : Type} {map : ExtTreeMap Nat Value} {next : Nat}
    (dense : ∀ seq, seq ∈ map ↔ seq < next) : map.size = next := by
  have distinct : map.keys.Nodup := ExtTreeMap.distinct_keys.imp fun apart same =>
    apart (LawfulEqCmp.compare_eq_iff_eq.mpr same)
  have listed : map.keys.Perm (List.range next) := by
    refine (List.perm_ext_iff_of_nodup distinct List.nodup_range).mpr fun seq => ?_
    rw [ExtTreeMap.mem_keys, dense, List.mem_range]
  rw [← ExtTreeMap.length_keys, listed.length_eq, List.length_range]

theorem Twin.latest (twin : Twin build writes l m) {seq : Nat} (live : seq ∈ l.clockEvents) :
    some <$> m.clockEventBySeq seq = .ok l.clockEvents[seq]? := by
  obtain ⟨c, found⟩ := Option.isSome_iff_exists.mp (ExtTreeMap.isSome_getElem?_iff_mem.mpr live)
  rw [InMemoryStore.clockEventBySeq, twin.mirrors.clockEvents, found]
  rfl

theorem Refines.agree (refines : Refines s l) (twin : Twin build writes l m) : Agree build s m where
  eventBySeq seq numbered := by
    rw [eventBySeq_eq refines twin.orderly numbered, ← twin.mirrors.events]
    simp only [Store.eventBySeq, InMemoryStore.eventBySeq]
    split <;> simp_all [Except.toOption]
  clockEventBySeq seq numbered := by
    rw [clockEventBySeq_eq refines twin.orderly numbered, ← twin.mirrors.clockEvents]
    simp only [Store.clockEventBySeq, InMemoryStore.clockEventBySeq]
    split <;> simp_all [Except.toOption]
  eventByHash hash nonempty := by
    refine ⟨_, eventByHash_eq refines twin.orderly nonempty, ?_⟩
    simp only [Store.eventByHash, twin.mirrors.eventIndex, twin.mirrors.events]
  clockEventByHash hash nonempty := by
    refine ⟨_, clockEventByHash_eq refines twin.orderly nonempty, ?_⟩
    simp only [Store.clockEventByHash, InMemoryStore.clockEventByHash, twin.mirrors.clockIndex]
    cases entry : l.clockIndex[hash]? with
    | none => rfl
    | some seq =>
        obtain ⟨c, found, -⟩ := (twin.orderly.sound.logs.indexed hash seq).mp entry
        exact twin.latest (mem_of_getElem? found)
  clockEventSeq hash nonempty :=
    ⟨_, clockEventSeq_eq refines twin.orderly nonempty,
      congrArg (fun index => Except.ok index[hash]?) twin.mirrors.clockIndex⟩
  clockEventsReferencing hash nonempty := by
    refine ⟨_, _, clockEventsReferencing_eq refines nonempty, rfl, ?_,
      List.pairwise_insertionSort _ _, fun seq => ?_⟩
    · exact ((twin.orderly.sound.ordered hash).and (twin.orderly.single hash)).imp fun ⟨below,
        apart⟩ => Nat.lt_of_le_of_ne below apart
    · rw [List.mem_insertionSort, twin.mirrors.referencing]
  latestClockEvent :=
    ⟨_, latestClockEvent_eq refines
      twin.orderly, by rw [Store.latestClockEvent, ← twin.mirrors.clockEvents]; rfl⟩
  latestClockEventOn chain := by
    refine ⟨_, latestClockEventOn_eq refines twin.orderly chain, ?_⟩
    simp only [Store.latestClockEventOn, InMemoryStore.latestClockEventOn, twin.mirrors.chainTipSeq]
    cases tip : l.chainTipSeq[chain]? with
    | none => rfl
    | some seq => exact twin.latest (twin.orderly.within.lanes.tip_live tip)
  eventCount := by
    rw [eventCount, refines.encodes.events.size_eq be64_ordered,
      size_of_dense twin.orderly.sound.dense]
    exact twin.mirrors.eventNumbers.symm
  clockEventCount := by
    rw [clockEventCount,
      refines.encodes.clockEvents.size_eq be64_ordered, ← twin.mirrors.clockEvents]
    rfl
  loadClockEvents := by
    rw [loadClockEvents_eq refines twin.orderly, ← twin.mirrors.clockEvents]
    rfl
  loadNeighbors := by
    rw [loadNeighbors_eq refines twin.orderly, ← twin.mirrors.neighbors]
    rfl
  loadRoutes := by
    rw [loadRoutes_eq refines, ← twin.mirrors.routes]
    rfl
  loadTimedRoutes := by
    rw [loadTimedRoutes_eq refines twin.orderly, ← twin.mirrors.timedRoutes]
    rfl

/--
`LmdbStore` refines `InMemoryStore`: after the same writes every read of the port returns the same,
the file can be closed and opened again, and the next write returns the same number on both, unless
the file may not grow any more.
-/
theorem lmdb_refines_inMemory (driven : Driven build writes s m)
    (fits : ∀ write ∈ writes, WriteFits build write) (few : writes.length < 2 ^ 64) :
    Agree build s m ∧ (∀ mapSize, ∃ file, openFile build s.env.committed [] mapSize = .ok file) ∧
      ∀ write script, Admits writes m write → Mild (Retried write) script →
        Ends (perform build write) (s.facing script)
          (fun given _ => ∃ m', write.perform m = .ok (given, m'))
          (Limited build (s.facing script)) := by
  obtain ⟨l, refines, twin⟩ := driven.tracks fits few
  refine ⟨refines.agree twin, fun mapSize => ?_, fun write script admits mild => ?_⟩
  · obtain ⟨file, opened, -⟩ := openFile_eq refines.encodes twin.orderly [] mapSize
    exact ⟨file, opened⟩
  · obtain ⟨given, l', performed, ends⟩ := refines.admitted twin few admits mild
    refine ends.weaken ?_
    rintro _ after ⟨rfl, -⟩
    exact twin.sameNumber performed

def inMemory (writes : List StoreWrite) : InMemoryStore :=
  writes.foldl (fun m write => match write.perform m with | .ok (_, m') => m' | .error _ => m) {}

inductive Admitted : List StoreWrite → Prop
  | nil : Admitted []
  | snoc {writes : List StoreWrite} {write : StoreWrite} :
      Admitted writes → Admits writes (inMemory writes) write → Admitted (writes ++ [write])

theorem Admitted.driven (admitted : Admitted writes)
    (fits : ∀ write ∈ writes, WriteFits build write) (few : writes.length < 2 ^ 64)
    (uncapped : build.maxMapSize = 0) : ∃ s, Driven build writes s (inMemory writes) := by
  induction admitted with
  | nil =>
      have orderly : Orderly build {} := .empty
      obtain ⟨file, opened, -⟩ := openFile_eq encodes_empty orderly [] 0
      exact ⟨file, .create opened⟩
  | @snoc writes write _ admits ih =>
      rw [List.length_append, List.length_singleton] at few
      have earlier : ∀ write ∈ writes, WriteFits build write := fun write listed =>
        fits write (List.mem_append_left _ listed)
      obtain ⟨s, driven⟩ := ih earlier (by omega)
      obtain ⟨l, refines, twin⟩ := driven.tracks earlier (by omega)
      have mild : Mild (Retried write) [] := ⟨by simp, .nil⟩
      obtain ⟨given, l', performed, ends⟩ := refines.admitted twin (by omega) admits mild
      obtain ⟨m', made⟩ := twin.sameNumber performed
      have after : inMemory (writes ++ [write]) = m' := by
        rw [inMemory, List.foldl_append, List.foldl_cons, List.foldl_nil, ← inMemory, made]
      rw [after]
      cases written : perform build write (s.facing []) with
      | ok number file => exact ⟨file, driven.write admits mild written made⟩
      | error fault file => exact absurd uncapped (ends.of_error written).2.1

instance (write : StoreWrite) : Decidable write.Keyed :=
  match write with
  | .appendEvent event => inferInstanceAs (Decidable (LmdbStore.ValidKey event.hash))
  | .appendClockEvent record | .updateClockEvent record =>
      inferInstanceAs (Decidable (LmdbStore.ValidKey record.hash ∧ ∀ ref ∈ record.referencedEvents,
        LmdbStore.ValidKey ref.hash))
  | .putNeighbor _ | .putRoute _ _ | .putTimedRoutes _ | .pruneChain _ _ | .clear => .isTrue trivial

instance (c : LocalClockEvent) : Decidable (RecordFits build c) :=
  inferInstanceAs (Decidable (_ ∧ _))

def sampleFirst :
    LocalClockEvent :=
    { (default : LocalClockEvent) with hash := [2], referencedEvents := [⟨default, [1]⟩, ⟨default, [1]⟩] }

def sampleSecond : LocalClockEvent :=
  { (default : LocalClockEvent) with hash := [3], referencedEvents := [⟨default, [2]⟩] }

def sampleUpdate : LocalClockEvent := { sampleSecond with referencingEvents := [⟨default, [4]⟩] }

def sampleWrites : List StoreWrite :=
  [.appendClockEvent sampleFirst, .appendClockEvent sampleSecond, .updateClockEvent sampleUpdate,
    .pruneChain 0 1]

/-- Two clock events, a reference learned for the second and the first pruned; then the file is
opened again. -/
theorem lmdb_refines_inMemory_sample : ∃ s file, Driven sampleBuild sampleWrites s
    (inMemory sampleWrites) ∧ openFile sampleBuild s.env.committed [] 0 = .ok file ∧
    Agree sampleBuild file (inMemory sampleWrites) := by
  have one : Admits [] (inMemory []) (.appendClockEvent sampleFirst) :=
    ⟨by decide, trivial, by decide, by decide⟩
  have two : Admits (sampleWrites.take 1) (inMemory (sampleWrites.take 1))
    (.appendClockEvent sampleSecond) :=
    ⟨by decide, trivial, by decide, by decide⟩
  have three : Admits (sampleWrites.take 2) (inMemory (sampleWrites.take 2))
    (.updateClockEvent sampleUpdate) :=
    ⟨by decide, ⟨sampleSecond, by decide +kernel, rfl⟩, by decide, by decide⟩
  have four : Admits (sampleWrites.take 3) (inMemory (sampleWrites.take 3)) (.pruneChain 0 1) :=
    ⟨by decide, trivial, by decide, by decide⟩
  have admitted : Admitted sampleWrites := .snoc (.snoc (.snoc (.snoc .nil one) two) three) four
  have records : RecordFits sampleBuild sampleFirst ∧ RecordFits sampleBuild sampleSecond ∧
    RecordFits sampleBuild sampleUpdate := by
    decide +kernel
  have fits : ∀ write ∈ sampleWrites, WriteFits sampleBuild write := by
    simp only [sampleWrites, List.forall_mem_cons]
    exact ⟨records.1, records.2.1, records.2.2, trivial, by simp⟩
  obtain ⟨s, driven⟩ := admitted.driven fits (by decide) rfl
  obtain ⟨file, opened⟩ := (lmdb_refines_inMemory driven fits (by decide)).2.1 0
  exact ⟨s, file, driven, opened, (lmdb_refines_inMemory (driven.reopen opened) fits (by decide)).1⟩

theorem readEvent_ok_iff {e : Event} (room : Room build (Wire.Writer.event e)) :
    readRecord build Wire.Reader.event (Wire.Writer.event e) = .ok e ↔ Wire.EventFits e := by
  constructor
  · intro read
    unfold readRecord at read
    split at read
    · rename_i value stop parsed
      cases read
      obtain ⟨-, ⟨fits, -⟩, -⟩ := (Wire.Reader.event_parses room 0 (Nat.zero_le _) _ _).mp parsed
      exact fits
    · cases read
  · intro fits
    exact EventFits.reads ⟨fits, room⟩

theorem oversized_lost {e : Event} (uncapped : build.maxMapSize = 0)
    (keyed : LmdbStore.ValidKey e.hash) (room : Room build (Wire.Writer.event e))
    (oversized : ¬Wire.EventFits e) :
    ∃ s, Driven build [.appendEvent e] s (inMemory [.appendEvent e]) ∧
    s.eventBySeq build 0 ≠ .ok e := by
  have orderly : Orderly build {} := .empty
  obtain ⟨file, opened, refines⟩ := openFile_eq encodes_empty orderly [] 0
  have admits : Admits [] {} (.appendEvent e) :=
    ⟨keyed, trivial, List.nodup_singleton _, List.nodup_nil⟩
  have mild : Mild True [] := ⟨by simp, .nil⟩
  obtain ⟨given, l', performed, ends⟩ := refines.admitted twin_empty (by decide) admits mild
  cases written : perform build (.appendEvent e) (file.facing []) with
  | error fault after => exact absurd uncapped (ends.of_error written).2.1
  | ok number after =>
      refine ⟨after, .write (.create opened) admits mild written rfl, fun read => ?_⟩
      obtain ⟨-, refines⟩ := ends.of_ok written
      obtain ⟨⟨number, l'⟩, appended, same⟩ := except_bind_ok_iff.mp performed
      cases same
      change LmdbStore.appendEvent {} e = .ok (number, l') at appended
      obtain ⟨_, -, same⟩ := except_bind_ok_iff.mp appended
      cases same
      rw [eventBySeq_reads refines ExtTreeMap.getElem?_insert_self, readEvent_ok_iff room] at read
      exact oversized read

def longEvent : Event := { (default : Event) with hash := [1], data := List.replicate (2 ^ 32) 0 }

theorem longEvent_length : (Wire.Writer.event longEvent).length = 2 ^ 32 + 41 := by
  simp only [longEvent, Wire.Writer.event, Wire.Writer.blob, Wire.Writer.refs, Wire.Writer.u64,
    Wire.Writer.u32, Wire.Writer.nodeId, List.length_append, BigEndian.digits_length,
    List.length_replicate, NodeId.size]
  rfl

/-- The record of an event with `2 ^ 32` bytes of data holds 0 as the length of its data. -/
theorem longEvent_lost : ∃ s, Driven sampleBuild [.appendEvent longEvent] s
    (inMemory [.appendEvent longEvent]) ∧ Store.eventBySeq (inMemory [.appendEvent longEvent]) 0 =
    .ok longEvent ∧ s.eventBySeq sampleBuild 0 ≠ .ok longEvent := by
  have keyed : LmdbStore.ValidKey longEvent.hash := ⟨Nat.one_pos, by decide⟩
  have room : Room sampleBuild (Wire.Writer.event longEvent) := by
    refine ⟨Or.inr rfl, ?_⟩
    rw [longEvent_length]
    decide
  have oversized : ¬Wire.EventFits longEvent := fun fits => Nat.lt_irrefl (2 ^ 32)
    (List.length_replicate ▸ fits.2.1)
  obtain ⟨s, driven, lost⟩ := oversized_lost rfl keyed room oversized
  exact ⟨s, driven, rfl, lost⟩

end LmdbFile

end Loti
