import Loti.History
import Loti.LmdbDag
import Loti.Survival

/-!
Whether a node on LMDB keeps ticking. A chain's timer is armed again only when its tick has
ended well, and `Reactor::safe_call` drops whatever a tick throws, so one failing write ends
the chain's clock. The only writes of a tick that LMDB can refuse are the references, and of
these only the tips that neighbors advertised.
-/

namespace Loti

open Std StateExcept LmdbStore

def keyedContents : Contents where
  event event := ValidKey event.hash
  clockEvent clockEvent := ValidKey clockEvent.hash ∧ ∀ ref ∈ clockEvent.referencedEvents,
  ref.hash ≠ []
  neighbor _ := True

def TipsFit (chain : UInt32) (s : NodeState LmdbStore) : Prop :=
  ∀ (id : NodeId) (neighbor : Neighbor), s.neighbors[id]? = some neighbor →
    ∀ hash, neighbor.lastClockEventHashes[chain.toNat]? = some hash → hash.length ≤ maxKeySize

instance (chain : UInt32) (s : NodeState LmdbStore) : Decidable (TipsFit chain s) :=
  decidable_of_iff
      (∀ neighbor ∈ valuesOf s.neighbors, ∀ hash ∈ neighbor.lastClockEventHashes[chain.toNat]?,
      hash.length ≤ maxKeySize) <| by
    simp only [mem_values_iff, TipsFit]
    exact ⟨fun fit id neighbor known => fit neighbor ⟨id, known⟩, fun fit neighbor ⟨id, known⟩ =>
      fit id neighbor known⟩

structure ClockReady (env : NodeEnv) (s : NodeState LmdbStore) : Prop where
  records : NodeWithin keyedContents s
  tails : s.unreferencedPerChain.length = env.numChains

structure Ticked (chain : UInt32) (s s' : NodeState LmdbStore) : Prop where
  appended : ∃ record : LocalClockEvent, record.chain = chain ∧
    s'.signed = s.signed ++ [.clockEvent record] ∧
    Store.latestClockEventOn s'.store chain = .ok (some record)
  once : s'.store.nextClockSeq = s.store.nextClockSeq + 1

def Ticks (env : NodeEnv) (chain : UInt32) (s : NodeState LmdbStore) : Prop :=
  ∃ s', perform env (.fireTimer (.clock chain)) s = .ok () s' ∧ Ticked chain s s' ∧
    s'.timers.count (.clock chain) = 1

def NodeAction.inProcess : NodeAction → Bool
  | .start | .hydrateFromStore | .restart | .restore _ => false
  | _ => true

section Tick

variable {env : NodeEnv} {s : NodeState LmdbStore} {chain : UInt32} {sha256 : Bytes → EventHash}

theorem validKey_digest (digests : ∀ bytes, (sha256 bytes).length = 32) (bytes : Bytes) :
    ValidKey (sha256 bytes) := by
  simp [ValidKey, digests, maxKeySize]

theorem makes_keyed {action : NodeAction} {object : Signed}
    (hashes : env.hasher = Hasher.ofSha256 sha256) (digests : ∀ bytes, (sha256 bytes).length = 32)
    (records : NodeWithin keyedContents s)
    (makes : Makes env s action object) : keyedContents.signed object := by
  rcases makes.cases with ⟨data, event, rfl, refs, -, rfl⟩ | ⟨chain, clockEvent, rfl, last, tail,
    read, found, rfl⟩
  · simp only [Contents.signed, keyedContents, makeEvent, hashes]
    exact validKey_digest digests _
  · refine ⟨?_, fun ref listed => ?_⟩
    · simp only [makeClockEvent, hashes]
      exact validKey_digest digests _
    · rcases clockReferences_mem listed with ⟨tip, rfl, rfl⟩ | ⟨id, neighbor, hash, -, -, nonempty,
        rfl⟩ | ⟨event, published, rfl⟩
      · exact ValidKey.ne_nil (LawfulStore.latestClockEventOn_within records.store read).1
      · exact nonempty
      · exact ValidKey.ne_nil
          (records.unreferenced tail (List.mem_of_getElem? found) event published)

theorem takes_keyed {action : NodeAction} (process : action.inProcess = true ∨ action = .start) :
    Takes keyedContents env s action := by
  cases action with
  | addNeighbor neighbor => trivial
  | onPacketReceived datagram => exact fun sender m _ _ =>
      ⟨fun _ _ => trivial, fun own held _ _ => held⟩
  | restore blob => simp [NodeAction.inProcess] at process
  | _ => trivial

theorem perform_ready {action : NodeAction} (hashes : env.hasher = Hasher.ofSha256 sha256)
    (digests : ∀ bytes, (sha256 bytes).length = 32) (process : action.inProcess = true ∨
      action = .start) :
    Keeps (ClockReady env) (perform env action) := by
  intro s ready
  have records := perform_within action ready.records
    (fun object makes _ => makes_keyed hashes digests ready.records makes) (takes_keyed process)
  exact (records.and (perform_follows action)).imp fun after kept =>
    ⟨kept.1, kept.2.tails ready.tails⟩

theorem ClockReady.makes (ready : ClockReady env s) (covered : chain.toNat < env.numChains) :
    ∃ clockEvent, MakesClockEvent env s chain clockEvent := by
  obtain ⟨last, read⟩ : ∃ last, Store.latestClockEventOn s.store chain = .ok last := by
    simp only [Store.latestClockEventOn, latestClockEventOn]
    split
    · rename_i seq tip
      have live : seq ∈ s.store.clockEvents := ready.records.store.lanes.tip_live tip
      obtain ⟨record, found⟩ := Option.isSome_iff_exists.mp
        (ExtTreeMap.isSome_getElem?_iff_mem.mpr live)
      exact ⟨some record, by simp [clockEventBySeq, found, Functor.map, Except.map]⟩
    · exact ⟨none, rfl⟩
  have bound : chain.toNat < s.unreferencedPerChain.length := by rw [ready.tails]; exact covered
  exact ⟨_, last, _, read, List.getElem?_eq_getElem bound, rfl⟩

theorem ClockReady.appendClockEvent_ok_iff (hashes : env.hasher = Hasher.ofSha256 sha256)
    (digests : ∀ bytes, (sha256 bytes).length = 32) (ready : ClockReady env s)
    {clockEvent : LocalClockEvent} (makes : MakesClockEvent env s chain clockEvent) :
    (∃ result, s.store.appendClockEvent clockEvent = .ok result) ↔ TipsFit chain s := by
  have tick : Makes env s (.createClockEvent chain) (.clockEvent clockEvent) := makes
  have own : ValidKey clockEvent.hash := (makes_keyed hashes digests ready.records tick).1
  rw [LmdbStore.appendClockEvent_ok_iff, and_iff_right own]
  obtain ⟨last, tail, read, found, rfl⟩ := makes
  constructor
  · intro valid id neighbor known hash advertised
    by_cases empty : hash = []
    · simp [empty]
    · refine (valid ⟨neighbor.nodeId, hash⟩ ?_).2
      refine List.mem_append_left _ (List.mem_append_right _ (List.mem_filterMap.mpr ?_))
      exact ⟨neighbor, mem_values_iff.mpr ⟨id, known⟩, by simp [tipReference, advertised, empty]⟩
  · intro fit ref listed
    rcases clockReferences_mem listed with ⟨tip, rfl, rfl⟩ | ⟨id, neighbor, hash, known, advertised,
      nonempty, rfl⟩ | ⟨event, published, rfl⟩
    · exact (LawfulStore.latestClockEventOn_within ready.records.store read).1
    · exact ⟨List.length_pos_of_ne_nil nonempty, fit id neighbor known hash advertised⟩
    · exact ready.records.unreferenced tail (List.mem_of_getElem? found) event published

theorem keyedContents_droppable : Droppable keyedContents :=
  fun _ keyed => ⟨ValidKey.ne_nil keyed.1, keyed.2⟩

theorem pruneToKeep_ends (records : NodeWithin keyedContents s) :
    Returns (pruneToKeep env chain) s
      (fun _ after => ∃ store : LmdbStore, after = { s with store } ∧
        store.nextClockSeq = s.store.nextClockSeq ∧ ∀ other,
        store.latestClockEventOn other = s.store.latestClockEventOn other) := by
  unfold pruneToKeep
  split
  · rename_i config _
    split
    · obtain ⟨pruned, ran, same⟩ :=
        Within.pruneChain_ok keyedContents_droppable records.store chain config.keep
      rw [Returns, ends_writeStore]
      refine ⟨fun store written => ?_, fun what failed => ?_⟩
      · obtain rfl := ok_unique ran written
        exact ⟨pruned, rfl, same⟩
      · cases ran.symm.trans failed
    · exact ⟨s.store, rfl, rfl, fun _ => rfl⟩
  · exact ⟨s.store, rfl, rfl, fun _ => rfl⟩

theorem notifyNeighbors_ends (clockEvent : LocalClockEvent) (neighbors : List Neighbor)
    (s : NodeState LmdbStore) :
    Returns (neighbors.forM (sendClockEventNotification env clockEvent)) s fun _ after => ∃ sent,
    after = { s with sent } := by
  refine ends_forM ⟨s.sent, rfl⟩ fun neighbor _ before kept => ?_
  obtain ⟨sent, rfl⟩ := kept
  simp only [sendClockEventNotification, ends_send]
  exact ⟨_, rfl⟩

theorem createClockEvent_ends (hashes : env.hasher = Hasher.ofSha256 sha256)
    (digests : ∀ bytes, (sha256 bytes).length = 32) (ready : ClockReady env s)
    (covered : chain.toNat < env.numChains) :
    Ends (createClockEvent env chain) s
      (fun _ after => TipsFit chain s ∧ Ticked chain s after ∧ after.timers = s.timers)
      (fun _ _ => ¬TipsFit chain s) := by
  simp only [createClockEvent, ends_bind, ends_modify, ends_get]
  refine (insertClockEvent_spec env chain s).mono ?_ ?_
  · rintro clockEvent _ ⟨makes, seq, store, appended, rfl⟩
    have fit := (ready.appendClockEvent_ok_iff hashes digests makes).mp ⟨_, appended⟩
    have tick : Makes env s (.createClockEvent chain) (.clockEvent clockEvent) := makes
    have stored := LawfulStore.within_appendClockEvent ready.records.store
      (makes_keyed hashes digests ready.records tick) appended
    have named : clockEvent.chain = chain := by
      obtain ⟨last, tail, -, -, rfl⟩ := makes
      rfl
    obtain ⟨-, referencing, rfl⟩ := appendClockEvent_inv appended
    refine (notifyNeighbors_ends clockEvent _ _).always ?_
    rintro _ _ ⟨sent, rfl⟩
    refine Ends.mono (pruneToKeep_ends ⟨stored, ready.records.neighbors, ?_⟩) ?_ fun _ _ no =>
      no.elim
    · intro waiting member event listed
      rcases List.mem_or_eq_of_mem_set member with old | rfl
      · exact ready.records.unreferenced waiting old event listed
      · cases listed
    · rintro _ _ ⟨store, rfl, next, tips⟩
      have latest := latestClockEventOn_withClockEvent s.store clockEvent referencing
      rw [named] at latest
      exact ⟨fit, ⟨⟨clockEvent, named, rfl, (tips chain).trans latest⟩, next⟩, rfl⟩
  · rintro _ _ (⟨rfl, nothing⟩ | ⟨clockEvent, what, makes, refused, rfl⟩)
    · obtain ⟨clockEvent, makes⟩ := ready.makes covered
      exact absurd makes (nothing clockEvent)
    · intro fit
      obtain ⟨result, taken⟩ := (ready.appendClockEvent_ok_iff hashes digests makes).mpr fit
      cases refused.symm.trans taken

theorem fireTimer_ends (hashes : env.hasher = Hasher.ofSha256 sha256)
    (digests : ∀ bytes, (sha256 bytes).length = 32) (ready : ClockReady env s)
    (configured : chain.toNat < env.config.chains.length) (pending : .clock chain ∈ s.timers) :
    Ends (fireTimer env (.clock chain)) s
      (fun _ after => TipsFit chain s ∧ Ticked chain s after ∧
        after.timers = s.timers.erase (.clock chain) ++ [.clock chain])
      (fun _ _ => ¬TipsFit chain s) := by
  simp only [fireTimer, ends_bind, ends_get, if_pos pending, ends_modify]
  have begun : ClockReady env { s with timers := s.timers.erase (.clock chain) } :=
    ⟨ready.records.of_same rfl rfl rfl, ready.tails⟩
  have covered : chain.toNat < env.numChains := by simp only [NodeEnv.numChains]; omega
  refine (createClockEvent_ends hashes digests begun covered).weaken ?_
  rintro _ after ⟨fit, ticked, timers⟩
  rw [scheduleClockTimer, if_pos configured]
  exact ⟨fit, ⟨ticked.appended, ticked.once⟩, by simp [timers]⟩

end Tick

section Run

variable {env : NodeEnv} {s : NodeState LmdbStore} {sha256 : Bytes → EventHash}

def NodeEnv.ticks (env : NodeEnv) (chain : Nat) : Bool :=
  match env.config.chains[chain]? with
  | some config => 0 < config.interval
  | none => false

structure ClockRunning (env : NodeEnv) (s : NodeState LmdbStore) : Prop where
  ready : ClockReady env s
  armed : ∀ chain, env.ticks chain.toNat = true → s.timers.count (.clock chain) = 1
  configured : ∀ chain, .clock chain ∈ s.timers → chain.toNat < env.config.chains.length

def NodeAction.fires : NodeAction → Option UInt32
  | .fireTimer (.clock chain) => some chain
  | _ => none

def TickFits (s : NodeState LmdbStore) (action : NodeAction) : Prop :=
  ∀ chain ∈ action.fires, TipsFit chain s

instance (s : NodeState LmdbStore) (action : NodeAction) : Decidable (TickFits s action) :=
  Option.decidableForallMem (p := fun chain => TipsFit chain s) action.fires

theorem count_rearmed {timers : List Timer} {timer other : Timer} (pending : timer ∈ timers) :
    (timers.erase timer ++ [timer]).count other = timers.count other := by
  have moved : (timers.erase timer ++ [timer]).Perm timers :=
    (List.perm_append_comm.trans (List.perm_cons_erase pending).symm)
  exact moved.count_eq other

theorem ClockRunning.of_timers {s' : NodeState LmdbStore} (running : ClockRunning env s)
    (ready : ClockReady env s') (same : s'.timers = s.timers) : ClockRunning env s' :=
  ⟨ready, fun chain ticking => same ▸ running.armed chain ticking,
    fun chain pending => running.configured chain (same ▸ pending)⟩

theorem ClockRunning.purged {s' : NodeState LmdbStore} (running : ClockRunning env s)
    (ready : ClockReady env s') (timers : s'.timers = s.timers.erase .purge ∨
      s'.timers = s.timers.erase .purge ++ [.purge]) :
    ClockRunning env s' := by
  refine ⟨ready, fun chain ticking => ?_, fun chain pending => running.configured chain ?_⟩
  · have others : (s.timers.erase .purge).count (.clock chain) = s.timers.count (.clock chain) :=
      List.count_erase_of_ne (by simp)
    rcases timers with same | same <;> simp [same, others, running.armed chain ticking]
  · rcases timers with same | same
    · exact List.mem_of_mem_erase (same ▸ pending)
    · rw [same, List.mem_append] at pending
      exact List.mem_of_mem_erase (pending.resolve_right (by simp))

theorem firePurge_timers :
    Ends (fireTimer env .purge) s
      (fun _ after => after.timers = s.timers ∨ after.timers = s.timers.erase .purge ++ [.purge])
      (fun _ after => after.timers = s.timers.erase .purge) := by
  simp only [fireTimer, ends_bind, ends_get]
  split
  · simp only [ends_bind, ends_modify]
    refine (purgeDiscoveries_history _).mono (fun _ after same => Or.inr ?_) fun _ after same => ?_
    · have timers := congrArg (fun h => h.2.1) same
      simp only [NodeState.history] at timers
      simp [timers]
    · exact congrArg (fun h => h.2.1) same
  · exact Or.inl rfl

/-- What a step has to keep to, for every clock to run on: the tips that a tick references fit, and
the process survives. -/
structure ClockSafe (env : NodeEnv) (s : NodeState LmdbStore) (action : NodeAction) : Prop where
  tips : TickFits s action
  bearable : Bearable env s action
  novel : Novel env s action

instance (env : NodeEnv) (s : NodeState LmdbStore) (action : NodeAction) :
    Decidable (ClockSafe env s action) :=
  decidable_of_iff (TickFits s action ∧ Bearable env s action ∧ Novel env s action)
    ⟨fun safe => ⟨safe.1, safe.2.1, safe.2.2⟩, fun safe => ⟨safe.tips, safe.bearable, safe.novel⟩⟩

theorem perform_running {action : NodeAction} (hashes : env.hasher = Hasher.ofSha256 sha256)
    (digests : ∀ bytes, (sha256 bytes).length = 32) (running : ClockRunning env s)
    (process : action.inProcess = true) (fits : TickFits s action) :
    EndsIn (perform env action) s (ClockRunning env) := by
  have ready := perform_ready hashes digests (Or.inl process) s running.ready
  have follows : EndsIn (perform env action) s (Follows env s action) :=
    perform_follows action
  by_cases timed : action.timed = true
  · cases action with
    | fireTimer timer =>
        cases timer with
        | clock chain =>
            by_cases pending : .clock chain ∈ s.timers
            · have fired := fireTimer_ends hashes digests running.ready
                (running.configured chain pending) pending
              refine (ready.and fired).mono ?_ fun _ _ outcome => absurd (fits chain rfl) outcome.2
              rintro _ after ⟨kept, -, -, timers⟩
              refine ⟨kept, fun other ticking => ?_, fun other member => ?_⟩
              · rw [timers, count_rearmed pending, running.armed other ticking]
              · have moved := List.count_pos_iff.mpr member
                rw [timers, count_rearmed pending] at moved
                exact running.configured other (List.count_pos_iff.mp moved)
            · have idle : EndsIn (fireTimer env (.clock chain)) s (fun after => after = s) := by
                simp [fireTimer, pending]
              refine (ready.and idle).imp ?_
              rintro after ⟨-, rfl⟩
              exact running
        | purge =>
            refine (ready.and firePurge_timers).mono ?_ ?_
            · rintro _ after ⟨kept, same | rearmed⟩
              · exact running.of_timers kept same
              · exact running.purged kept (Or.inr rearmed)
            · exact fun _ after outcome => running.purged outcome.1 (Or.inl outcome.2)
    | start => cases process
    | restart => cases process
    | _ => cases timed
  · have untimed : action.timed = false := by simpa using timed
    exact (ready.and follows).imp fun after outcome => running.of_timers outcome.1
      (outcome.2.timers untimed)

def NodeEnv.clockTimers (env : NodeEnv) (chains : List Nat) : List Timer :=
  (chains.filter env.ticks).map fun chain => .clock (UInt32.ofNat chain)

theorem armChains_timers (small : env.config.chains.length ≤ 2 ^ 32) (chains : List Nat)
    (bounded : ∀ chain ∈ chains, chain < env.config.chains.length) (s : NodeState LmdbStore) :
    Returns (chains.forM fun chain =>
        match env.config.chains[chain]? with
        | some config =>
            if 0 < config.interval then scheduleClockTimer env (UInt32.ofNat chain) else pure ()
        | none => pure ()) s
      (fun _ after => after.timers = s.timers ++ env.clockTimers chains) := by
  induction chains generalizing s with
  | nil => exact (List.append_nil _).symm
  | cons chain rest ih =>
      have bound := bounded chain (by simp)
      have exact32 : (UInt32.ofNat chain).toNat = chain :=
        UInt32.toNat_ofNat_of_lt' (by simp [UInt32.size]; omega)
      have others := fun after =>
        ih (fun other member => bounded other (List.mem_cons_of_mem _ member)) after
      simp only [List.forM_eq_forM, List.forM_cons, ends_bind, List.getElem?_eq_getElem bound]
        at others ⊢
      by_cases positive : 0 < (env.config.chains[chain]).interval
      · have ticking : env.ticks chain = true := by
          simp [NodeEnv.ticks, List.getElem?_eq_getElem bound, positive]
        rw [if_pos positive, scheduleClockTimer, exact32, if_pos bound, arm, ends_modify]
        refine (others _).weaken fun _ after same => ?_
        simp [same, NodeEnv.clockTimers, ticking]
      · have idle : env.ticks chain = false := by
          simp [NodeEnv.ticks, List.getElem?_eq_getElem bound, positive]
        rw [if_neg positive]
        refine (others _).weaken fun _ after same => ?_
        simp [same, NodeEnv.clockTimers, idle]

theorem start_timers (small : env.config.chains.length ≤ 2 ^ 32) (s : NodeState LmdbStore) :
    Returns (start env) s
      (fun _ after => ∃ purge, (purge = [] ∨ purge = [.purge]) ∧
        after.timers = s.timers ++ env.clockTimers
        (List.range env.config.chains.length) ++ purge) := by
  simp only [start, ends_bind]
  refine (armChains_timers small _ (fun chain member => List.mem_range.mp member) s).weaken ?_
  intro _ after same
  simp only [ends_when, arm, ends_modify]
  exact ⟨fun _ => ⟨[.purge], Or.inr rfl, by rw [same]⟩, fun _ =>
    ⟨[], Or.inl rfl, by rw [same, List.append_nil]⟩⟩

theorem count_clockTimers (small : env.config.chains.length ≤ 2 ^ 32) {chain : UInt32}
    (ticking : env.ticks chain.toNat = true) :
    (env.clockTimers (List.range env.config.chains.length)).count (.clock chain) = 1 := by
  have bound : chain.toNat < env.config.chains.length := by
    by_contra outside
    simp [NodeEnv.ticks, List.getElem?_eq_none (Nat.le_of_not_lt outside)] at ticking
  refine List.count_eq_one_of_mem (List.Nodup.map_on ?_ (List.nodup_range.filter _)) ?_
  · intro first firstListed second secondListed same
    have firstBound := List.mem_range.mp (List.mem_filter.mp firstListed).1
    have secondBound := List.mem_range.mp (List.mem_filter.mp secondListed).1
    have numbers := congrArg UInt32.toNat (Timer.clock.inj same)
    rwa [UInt32.toNat_ofNat_of_lt' (by simp [UInt32.size]; omega),
      UInt32.toNat_ofNat_of_lt' (by simp [UInt32.size]; omega)] at numbers
  · exact List.mem_map.mpr
      ⟨chain.toNat, List.mem_filter.mpr ⟨List.mem_range.mpr bound, ticking⟩, by simp⟩

theorem start_running (hashes : env.hasher = Hasher.ofSha256 sha256)
    (digests : ∀ bytes, (sha256 bytes).length = 32) (small : env.config.chains.length ≤ 2 ^ 32)
    (ready : ClockReady env s) (idle : s.timers = []) :
    Returns (perform env .start) s fun _ => ClockRunning env := by
  have kept := perform_ready hashes digests (Or.inr rfl) s ready
  refine (kept.and (start_timers small s)).mono ?_ fun _ _ outcome => outcome.2
  rintro _ after ⟨stays, purge, isPurge, timers⟩
  rw [idle, List.nil_append] at timers
  have noClock : ∀ chain, Timer.clock chain ∉ purge := by
    rcases isPurge with rfl | rfl <;> simp
  refine ⟨stays, fun chain ticking => ?_, fun chain pending => ?_⟩
  · rw [timers, List.count_append, count_clockTimers small ticking, List.count_eq_zero_of_not_mem
      (noClock chain)]
  · rw [timers, List.mem_append] at pending
    obtain ⟨number, listed, same⟩ := List.mem_map.mp (pending.resolve_right (noClock chain))
    have bound := List.mem_range.mp (List.mem_filter.mp listed).1
    rw [← Timer.clock.inj same, UInt32.toNat_ofNat_of_lt' (by simp [UInt32.size]; omega)]
    exact bound

structure Enduring (env : NodeEnv) (s : NodeState LmdbStore) : Prop extends ClockRunning env s where
  own : OwnDag env.id s.store
  sound : s.Justified env

theorem kind_of_process {action : NodeAction} (process : action.inProcess = true) (blob : Bytes) :
    action ≠ .restore blob := by
  rintro rfl
  cases process

theorem perform_enduring {action : NodeAction} (hashes : env.hasher = Hasher.ofSha256 sha256)
    (digests : ∀ bytes, (sha256 bytes).length = 32) (enduring : Enduring env s)
    (process : action.inProcess = true)
    (fits : ClockSafe env s action) (safe : ResolutionSafe env s action) :
    Ends (perform env action) s (fun _ => Enduring env) (fun fault after => fault.Contained ∧
      Enduring env after) := by
  have kind := kind_of_process process
  have running := perform_running hashes digests enduring.toClockRunning process fits.tips
  have own := perform_ownDag enduring.own fits.novel kind
  have advances := perform_advances action enduring.sound (fun _ _ _ => trivial)
    (fitting_trivially action)
  have survives := perform_survives enduring.own enduring.ready.tails enduring.configured
    enduring.sound kind fits.bearable safe
  have kept := (running.and (own.and advances)).imp
    fun after outcome => (⟨outcome.1, outcome.2.1, outcome.2.2.sound⟩ : Enduring env after)
  exact (survives.and kept).weaken fun _ _ outcome => outcome.2

theorem boot_ready {store : LmdbStore} (keyed : LawfulStore.Within keyedContents store) :
    ClockReady env (NodeState.boot env store) ∧ (NodeState.boot env store).timers = [] := by
  obtain ⟨-, idle, tails⟩ :=
    ends_final.mp (hydrateWorkingState_ends : Ends (hydrateWorkingState env)
    (NodeState.fresh store) _ _)
  exact ⟨⟨boot_within keyed, tails⟩, idle⟩

theorem start_enduring (hashes : env.hasher = Hasher.ofSha256 sha256)
    (digests : ∀ bytes, (sha256 bytes).length = 32) (small : env.config.chains.length ≤ 2 ^ 32)
    {store : LmdbStore} (keyed : LawfulStore.Within keyedContents store)
    (own : OwnDag env.id store) :
    ∃ started, contain (perform env .start) (NodeState.boot env store) = .ok () started ∧
    Enduring env started := by
  obtain ⟨ready, idle⟩ : ClockReady env _ ∧ _ := boot_ready keyed
  have sound : (NodeState.boot env store).Justified env :=
    boot_sound env store
  have same : (NodeState.boot env store).store = store :=
    (hydrateWorkingState_reads env (s := NodeState.fresh store) own.sound).final_of_returns.1
  have novel : Novel env (NodeState.boot env store) .start := fun _ listed =>
    (mem_appendedBy_iff.mp listed).1.elim
  have kept := perform_ownDag (same.symm ▸ own) novel (by simp)
  have advances := perform_advances .start sound (fun _ _ _ => trivial) (fitting_trivially _)
  obtain ⟨_, started, ran, running, stays, serves⟩ :=
    ((start_running hashes digests small ready idle).and (kept.and advances)).returns fun _ _
      ended => ended.1
  exact ⟨started, by simp [contain, ran], running, stays, serves.sound⟩

theorem runActions_enduring (hashes : env.hasher = Hasher.ofSha256 sha256)
    (digests : ∀ bytes, (sha256 bytes).length = 32) {actions : List NodeAction}
    (enduring : Enduring env s) (process : ∀ action ∈ actions, action.inProcess = true)
    (fits : EachStep (ClockSafe env) env s actions)
    (safe : EachStep (ResolutionSafe env) env s actions) :
    ∃ after, runActions env actions s = .ok () after ∧ Enduring env after := by
  have step : ∀ (done : List NodeAction) action before, Enduring env before →
      action.inProcess = true ∧ ClockSafe env before action ∧ ResolutionSafe env before action →
      Ends (perform env action) before (fun _ => Enduring env) (fun fault after => fault.Contained ∧
        Enduring env after) :=
    fun _ action before kept meets =>
      perform_enduring hashes digests kept meets.1 meets.2.1 meets.2.2
  have run := @ends_runActions _ _ _ s env (fun _ => Enduring env) Fault.Contained step actions
    [] enduring ((eachStep_of_forall (fun _ => process) s).and (fits.and safe))
  obtain ⟨_, after, ran, kept, -⟩ :=
    (run.and (runActions_raises env actions s)).returns fun _ _ ended => ended.2 ended.1.1
  exact ⟨after, ran, kept⟩

end Run

/-! A node with one chain, whose neighbor advertises a tip. -/

def paddedDigest (bytes : Bytes) : EventHash := (bytes ++ List.replicate 32 0).take 32

theorem paddedDigest_length (bytes : Bytes) : (paddedDigest bytes).length = 32 := by
  simp [paddedDigest]

def tickEnv : NodeEnv :=
  NodeEnv.simulated paddedDigest 1 { chains := [{ interval := 1, keep := 1 }] }

def advertise (tip : EventHash) : NodeAction :=
  .onPacketReceived (Wire.encode ⟨.ofUInt64 2, .clockNotification ⟨0, tip, [1]⟩⟩)

def tickRun (tip : EventHash) : List NodeAction :=
  [.start, .addNeighbor (.ofUInt64 2), advertise tip, .fireTimer (.clock 0)]

def tickStart : NodeState LmdbStore := .boot tickEnv {}

/-- A process on LMDB survives, and keeps all its clocks running, as long as its steps are safe; and
a tick that is due succeeds exactly when the tips fit that it references. -/
theorem clock_ticks_iff {sha256 : Bytes → EventHash} (digests : ∀ bytes, (sha256 bytes).length = 32)
    {env : NodeEnv} (hashes : env.hasher = Hasher.ofSha256 sha256)
    (small : env.config.chains.length ≤ 2 ^ 32) {store : LmdbStore}
    (keyed : LawfulStore.Within keyedContents store) (own : OwnDag env.id store)
    {actions : List NodeAction} (process : ∀ action ∈ actions, action.inProcess = true)
    (fits : EachStep (ClockSafe env) env (NodeState.boot env store) (.start :: actions))
    (safe : EachStep (ResolutionSafe env) env (NodeState.boot env store) (.start :: actions)) :
    ∃ s, runActions env (.start :: actions) (NodeState.boot env store) = .ok () s ∧
      ∀ (chain : UInt32) (config : ChainConfig), env.config.chains[chain.toNat]? = some config →
        0 < config.interval → s.timers.count (.clock chain) = 1 ∧
        (Ticks env chain s ↔ TipsFit chain s) := by
  obtain ⟨started, contained, enduring⟩ := start_enduring hashes digests small keyed own
  obtain ⟨s, ran, kept⟩ := runActions_enduring hashes digests enduring process
    (fits.2 started contained) (safe.2 started contained)
  refine ⟨s, runActions_cons_ok_iff.mpr ⟨started, contained, ran⟩,
    fun chain config configured ticking => ?_⟩
  have one := kept.armed chain (by simp [NodeEnv.ticks, configured, ticking])
  have pending : .clock chain ∈ s.timers := List.count_pos_iff.mp (by omega)
  have fired := fireTimer_ends hashes digests kept.ready (kept.configured chain pending) pending
  refine ⟨one, ?_, fun fit => ?_⟩
  · rintro ⟨after, ran, -⟩
    exact (fired.of_ok ran).1
  · obtain ⟨_, after, ran, -, ticked, timers⟩ := fired.returns fun _ _ unfit => unfit fit
    exact ⟨after, ran, ticked, by rw [timers, count_rearmed pending, one]⟩

theorem clock_ticks_sample :
    ∃ s, runActions tickEnv (tickRun (List.replicate 32 7)) tickStart = .ok () s ∧
      ∀ (chain : UInt32) (config : ChainConfig), tickEnv.config.chains[chain.toNat]? = some config →
        0 < config.interval → s.timers.count (.clock chain) = 1 ∧
        (Ticks tickEnv chain s ↔ TipsFit chain s) := by
  refine clock_ticks_iff paddedDigest_length rfl (by decide) (within_fresh _)
    ⟨⟨sound_empty, ?_⟩, ?_⟩ (by decide) (by decide +kernel)
    (eachStep_of_forall (fun s action listed => ?_) _)
  · simp [DagStore.dag, dag]
  · simp [Unforeseen, DagStore.dag, dag]
  · have read :
        Wire.decode ⟨Wire.encode ⟨.ofUInt64 2, .clockNotification ⟨0, List.replicate 32 7, [1]⟩⟩,
          tickEnv.wordBits⟩ =
        .ok ⟨.ofUInt64 2, .clockNotification ⟨0, List.replicate 32 7, [1]⟩⟩ := by decide +kernel
    simp only [List.mem_cons, List.not_mem_nil, or_false] at listed
    rcases listed with rfl | rfl | rfl | rfl
    · trivial
    · trivial
    · intro sender m entry decoded
      cases read.symm.trans decoded
    · trivial

/-- A tip of 512 bytes: the timer that was pending is gone, nothing was appended, and the process
runs on without a clock. -/
theorem longTip_stops_clock :
    .clock 0 ∈
      (final (runActions tickEnv (tickRun (List.replicate 512 7)).dropLast) tickStart).timers ∧
    raised (runActions tickEnv (tickRun (List.replicate 512 7))) tickStart = none ∧
    (final (runActions tickEnv (tickRun (List.replicate 512 7))) tickStart).timers = [] ∧
    (final (runActions tickEnv (tickRun (List.replicate 512 7)))
      tickStart).store.nextClockSeq = 0 := by
  decide +kernel

end Loti
