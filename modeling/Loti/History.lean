import Loti.Records

/-!
What an action adds to a node's history: the reading of the clock, the objects made, the
timers pending. Every action makes what `Makes` says and nothing else.
-/

namespace Loti

open Std StateExcept

variable {σ : Type} [Store σ] {env : NodeEnv} {s : NodeState σ} {action : NodeAction}
    {after : NodeState σ}

def NodeState.past (s : NodeState σ) : Timestamp × List Signed := (s.now, s.signed)

def NodeState.history (s : NodeState σ) :
    (Timestamp × List Signed) × List Timer × List (List Event) :=
  (s.past, s.timers, s.unreferencedPerChain)

def NodeAction.reading (now : Timestamp) : NodeAction → Timestamp
  | .setClock later => later
  | _ => now

def NodeAction.timed : NodeAction → Bool
  | .start | .fireTimer _ | .restart => true
  | _ => false

/-- The clock reads what the action sets, what the action makes was signed, no timer was
touched but by the actions that may, and every chain still has its list of waiting events. -/
structure Follows (env : NodeEnv) (s : NodeState σ) (action : NodeAction) (s' : NodeState σ) :
    Prop where
  now : s'.now = action.reading s.now
  signed : ∃ made, s'.signed = s.signed ++ made ∧ ∀ object, object ∈ made ↔
  Makes env s action object
  timers : action.timed = false → s'.timers = s.timers
  tails : s.unreferencedPerChain.length = env.numChains →
  s'.unreferencedPerChain.length = env.numChains

omit [Store σ] in
theorem writeStore_history (write : σ → Except String σ) :
    Preserves NodeState.history (writeStore write) := by
  intro s
  simp [NodeState.history, NodeState.past]

omit [Store σ] in
theorem readStore_history {α : Type} (read : σ → Except String α) :
    Preserves NodeState.history (readStore read) := by
  intro s
  simp

theorem pruneToKeep_history (chain : UInt32) :
    Preserves NodeState.history (pruneToKeep (σ := σ) env chain) := by
  unfold pruneToKeep
  split
  · split
    · exact writeStore_history _
    · exact fun _ => rfl
  · exact fun _ => rfl

theorem processClockEventNotification_history (sender : NodeId) (neighbor : Neighbor)
    (m : Wire.ClockNotification) :
    Preserves NodeState.history (processClockEventNotification (σ := σ) sender neighbor m) := by
  refine Preserves.bind (fun s => by simp [NodeState.history, NodeState.past]) fun _ => ?_
  split
  · exact fun _ => rfl
  · refine Preserves.bind (fun s => by simp [NodeState.history, NodeState.past]) fun _ => ?_
    refine (readStore_history _).bind fun found s => ?_
    cases found <;> simp [NodeState.history, NodeState.past]

structure Frame (env : NodeEnv) (s s' : NodeState σ) : Prop where
  past : s'.past = s.past
  timers : s'.timers = s.timers
  tails : s.unreferencedPerChain.length = env.numChains →
  s'.unreferencedPerChain.length = env.numChains

omit [Store σ] in
theorem Frame.then_history {before after : NodeState σ} (frame : Frame env s before)
    (same : after.history = before.history) : Frame env s after := by
  obtain ⟨past, rest⟩ := Prod.mk.inj same
  obtain ⟨timers, tails⟩ := Prod.mk.inj rest
  exact ⟨past.trans frame.past, timers.trans frame.timers,
    fun full => by rw [tails, frame.tails full]⟩

omit [Store σ] in
theorem frame_refl (env : NodeEnv) (s : NodeState σ) : Frame env s s := ⟨rfl, rfl, id⟩

omit [Store σ] in
theorem Preserves.frame {α : Type} {m : NodeM σ α} (preserves : Preserves NodeState.history m) :
    Keeps (Frame env s) m :=
  fun before kept => (preserves before).imp fun _ same => kept.then_history same

theorem hydrateWorkingState_ends :
    EndsIn (hydrateWorkingState env) s
      (fun after => after.past = s.past ∧ after.timers = s.timers ∧
        after.unreferencedPerChain.length = env.numChains) := by
  simp only [hydrateWorkingState, ends_bind, ends_modify]
  refine keeps_forM (fun chain _ before kept => ?_) _ ⟨rfl, rfl, List.length_replicate⟩
  simp only [ends_bind, ends_readStore, ends_modify]
  exact ⟨fun tail _ => ⟨kept.1, kept.2.1, by simpa using kept.2.2⟩, fun _ _ => kept⟩

theorem hydrateWorkingState_frame : Keeps (Frame (σ := σ) env s) (hydrateWorkingState env) := by
  intro before kept
  have frame : ∀ {after : NodeState σ}, after.past = before.past ∧ after.timers = before.timers ∧
      after.unreferencedPerChain.length = env.numChains → Frame env s after :=
    fun read => ⟨read.1.trans kept.past, read.2.1.trans kept.timers, fun _ => read.2.2⟩
  exact hydrateWorkingState_ends.imp fun _ => frame

theorem restore_frame (blob : Bytes) : Keeps (Frame (σ := σ) env s) (restore env blob) := by
  unfold restore
  split
  · refine Keeps.bind (Preserves.frame (writeStore_history _)) fun _ => ?_
    refine Keeps.bind (keeps_forM fun _ _ => Preserves.frame (writeStore_history _)) fun _ => ?_
    refine Keeps.bind (keeps_forM fun _ _ => Preserves.frame (writeStore_history _)) fun _ => ?_
    refine Keeps.bind (keeps_forM fun _ _ => Preserves.frame (writeStore_history _)) fun _ => ?_
    exact Keeps.bind (keeps_forM fun _ _ => Preserves.frame (writeStore_history _)) fun _ =>
      hydrateWorkingState_frame
  · exact fun _ kept => kept

omit [Store σ] in
theorem Asks.history {s' : NodeState σ} (asks : Asks env s s') : s'.history = s.history := by
  obtain ⟨d, drawn, seen, sent, rfl, -⟩ := asks
  rfl

omit [Store σ] in
theorem Transmits.history {s' : NodeState σ} {sent : List Sent} (transmits : Transmits sent s s') :
    s'.history = s.history := by
  obtain ⟨drawn, seen, rfl⟩ := transmits
  rfl

theorem onPacketReceived_history (datagram : Bytes) :
    Preserves NodeState.history (onPacketReceived (σ := σ) env datagram) := by
  intro s
  unfold onPacketReceived
  split
  · simp only [receive, ends_bind, ends_get]
    split
    · rfl
    · split
      · exact processClockEventNotification_history _ _ _ s
      · refine (processChainRequest_transmits _ _).mono ?_ ?_
        · rintro _ after ⟨sent, transmits, -⟩
          exact transmits.history
        · rintro _ _ rfl
          rfl
      · refine (processChainResponse_effect _ _).mono ?_ fun _ _ asks => asks.history
        rintro _ after (asks | ⟨sent, transmits, -⟩)
        · exact asks.history
        · exact transmits.history
  · rfl
  · rfl

def NodeState.untimed (s : NodeState σ) : (Timestamp × List Signed) × List (List Event) :=
  (s.past, s.unreferencedPerChain)

omit [Store σ] in
theorem purgeDiscoveries_history : Preserves NodeState.history (purgeDiscoveries (σ := σ) env) := by
  intro s
  simp only [purgeDiscoveries, ends_bind, ends_get, ends_when, ends_throw,
    ends_withDiscoveries, ends_modify]
  refine ⟨fun _ => trivial, fun _ => ?_⟩
  unfold Ends
  split <;> rfl

def NodeAction.quiet : NodeAction → Bool
  | .publishEvent _ | .createClockEvent _ | .fireTimer (.clock _) | .setClock _ => false
  | _ => true

theorem NodeAction.quiet_makes (quiet : action.quiet = true) (object : Signed) :
    ¬Makes env s action object := by
  unfold NodeAction.quiet at quiet
  unfold Makes
  split at quiet <;> split <;> simp_all

omit [Store σ] in
theorem NodeAction.quiet_reading (quiet : action.quiet = true) (now : Timestamp) :
    action.reading now = now := by
  cases action with
  | setClock later => cases quiet
  | _ => rfl

theorem follows_of_quiet (quiet : action.quiet = true)
    (past : after.past = s.past) (timers : action.timed = false → after.timers = s.timers)
    (tails : s.unreferencedPerChain.length = env.numChains →
      after.unreferencedPerChain.length = env.numChains) :
    Follows env s action after := by
  refine ⟨(congrArg Prod.fst past).trans (NodeAction.quiet_reading quiet s.now).symm,
    ⟨[], ?_, fun object => ?_⟩, timers, tails⟩
  · rw [List.append_nil]
    exact congrArg Prod.snd past
  · simp [NodeAction.quiet_makes quiet object]

theorem Frame.follows (frame : Frame env s after)
    (quiet : action.quiet = true) : Follows env s action after :=
  follows_of_quiet quiet frame.past (fun _ => frame.timers) frame.tails

theorem follows_of_untimed (same : after.untimed = s.untimed)
    (quiet : action.quiet = true) (timed : action.timed = true) : Follows env s action after := by
  obtain ⟨past, tails⟩ := Prod.mk.inj same
  refine follows_of_quiet quiet past (fun untimed => ?_) fun full => by rw [tails, full]
  cases timed.symm.trans untimed

theorem follows_of_keeps {m : NodeM σ Unit} (keeps : Keeps (Frame env s) m)
    (quiet : action.quiet = true) : EndsIn m s (Follows env s action) :=
  (keeps s (frame_refl env s)).imp fun _ frame => frame.follows quiet

theorem follows_of_preserves {m : NodeM σ Unit} (preserves : Preserves NodeState.history m)
    (quiet : action.quiet = true) : EndsIn m s (Follows env s action) :=
  follows_of_keeps (Preserves.frame preserves) quiet

structure Signs (env : NodeEnv) (s : NodeState σ) (object : Signed) (s' : NodeState σ) : Prop where
  past : s'.past = (s.afterSigning object).past
  timers : s'.timers = s.timers
  tails : s.unreferencedPerChain.length = env.numChains →
  s'.unreferencedPerChain.length = env.numChains

omit [Store σ] in
theorem Signs.then_history {object : Signed} {before after : NodeState σ}
    (signs : Signs env s object before) (same : after.history = before.history) :
    Signs env s object after := by
  obtain ⟨past, rest⟩ := Prod.mk.inj same
  obtain ⟨timers, tails⟩ := Prod.mk.inj rest
  exact ⟨past.trans signs.past, timers.trans signs.timers,
    fun full => by rw [tails, signs.tails full]⟩

theorem publishEvent_follows (data : Bytes) :
    EndsIn (publishEvent env data) s (Follows env s (.publishEvent data)) := by
  have signs : ∀ {event : Event} {after : NodeState σ}, MakesEvent env s data event →
      Signs env s (.event event) after → Follows env s (.publishEvent data) after := by
    intro event after makes signs
    refine ⟨congrArg Prod.fst signs.past,
      ⟨[.event event], congrArg Prod.snd signs.past, fun object => ?_⟩,
      fun _ => signs.timers, signs.tails⟩
    rw [List.mem_singleton]
    constructor
    · rintro rfl
      exact makes
    · intro other
      cases object with
      | event second => rw [makes.unique other]
      | clockEvent clockEvent => exact other.elim
  simp only [publishEvent, ends_bind, ends_modify]
  refine (insertEvent_spec env data s).mono ?_ ?_
  · rintro event _ ⟨makes, seq, store, -, rfl⟩
    exact signs makes ⟨rfl, rfl, fun full => (List.length_map _).trans full⟩
  · rintro _ _ (⟨rfl, nothing⟩ | ⟨event, what, makes, -, rfl⟩)
    · refine ⟨rfl, ⟨[], by simp, fun object => ?_⟩, fun _ => rfl, id⟩
      cases object with
      | event event => simpa [Makes] using nothing event
      | clockEvent clockEvent => simp [Makes]
    · exact signs makes ⟨rfl, rfl, id⟩

theorem createClockEvent_signs (chain : UInt32) :
    Ends (createClockEvent env chain) s
      (fun _ after => ∃ clockEvent, MakesClockEvent env s chain clockEvent ∧
        Signs env s (.clockEvent clockEvent) after)
      (fun _ after => (Frame env s after ∧ ∀ clockEvent, ¬MakesClockEvent env s chain clockEvent) ∨
        ∃ clockEvent, MakesClockEvent env s chain clockEvent ∧
        Signs env s (.clockEvent clockEvent) after) := by
  simp only [createClockEvent, ends_bind, ends_modify, ends_get]
  refine (insertClockEvent_spec env chain s).mono ?_ ?_
  · rintro clockEvent _ ⟨makes, seq, store, -, rfl⟩
    have rest : Preserves NodeState.history (do
        (valuesOf s.neighbors).forM (sendClockEventNotification (σ := σ) env clockEvent)
        pruneToKeep env chain) :=
      Preserves.bind (preserves_forM fun neighbor _ before => by
          simp [sendClockEventNotification, NodeState.history, NodeState.past])
        fun _ => pruneToKeep_history chain
    have signed :
      Signs env s (.clockEvent clockEvent) ({ s.afterSigning (.clockEvent clockEvent) with
        store, unreferencedPerChain := s.unreferencedPerChain.set chain.toNat [] } : NodeState σ) :=
      ⟨rfl, rfl, fun full => List.length_set.trans full⟩
    exact ends_bind.mp
      ((rest _).mono (fun _ _ same => ⟨clockEvent, makes, signed.then_history same⟩)
      fun _ _ same => Or.inr ⟨clockEvent, makes, signed.then_history same⟩)
  · rintro _ _ (⟨rfl, nothing⟩ | ⟨clockEvent, what, makes, -, rfl⟩)
    · exact Or.inl ⟨⟨rfl, rfl, id⟩, nothing⟩
    · exact Or.inr ⟨clockEvent, makes, ⟨rfl, rfl, id⟩⟩

theorem follows_of_tick {chain : UInt32} {clockEvent : LocalClockEvent}
    (still : action.reading s.now = s.now) (noEvent : ∀ event, ¬Makes env s action (.event event))
    (ticks : ∀ other, Makes env s action (.clockEvent other) ↔ MakesClockEvent env s chain other)
    (makes : MakesClockEvent env s chain clockEvent)
    (past : after.past = (s.afterSigning (.clockEvent clockEvent)).past)
    (timers : action.timed = false → after.timers = s.timers)
    (tails : s.unreferencedPerChain.length = env.numChains →
      after.unreferencedPerChain.length = env.numChains) :
    Follows env s action after := by
  refine ⟨(congrArg Prod.fst past).trans still.symm,
    ⟨[.clockEvent clockEvent], congrArg Prod.snd past, fun object => ?_⟩, timers, tails⟩
  rw [List.mem_singleton]
  constructor
  · rintro rfl
    exact (ticks clockEvent).mpr makes
  · intro other
    cases object with
    | event event => exact absurd other (noEvent event)
    | clockEvent second => rw [makes.unique ((ticks second).mp other)]

theorem follows_of_no_tick {chain : UInt32}
    (still : action.reading s.now = s.now) (noEvent : ∀ event, ¬Makes env s action (.event event))
    (ticks : ∀ other, Makes env s action (.clockEvent other) ↔ MakesClockEvent env s chain other)
    (nothing : ∀ clockEvent, ¬MakesClockEvent env s chain clockEvent) (past : after.past = s.past)
    (timers : action.timed = false → after.timers = s.timers)
    (tails : s.unreferencedPerChain.length = env.numChains →
      after.unreferencedPerChain.length = env.numChains) :
    Follows env s action after := by
  refine ⟨(congrArg Prod.fst past).trans still.symm, ⟨[], ?_, fun object => ?_⟩, timers, tails⟩
  · rw [List.append_nil]
    exact congrArg Prod.snd past
  · cases object with
    | event event => simp [noEvent event]
    | clockEvent clockEvent => simp [ticks clockEvent, nothing clockEvent]

theorem createClockEvent_follows (chain : UInt32) :
    EndsIn (createClockEvent env chain) s (Follows env s (.createClockEvent chain)) := by
  refine (createClockEvent_signs chain).mono ?_ ?_
  · rintro _ after ⟨clockEvent, makes, signs⟩
    exact follows_of_tick rfl (fun _ no => no) (fun _ => Iff.rfl) makes signs.past
      (fun _ => signs.timers) signs.tails
  · rintro _ after (⟨frame, nothing⟩ | ⟨clockEvent, makes, signs⟩)
    · exact follows_of_no_tick rfl (fun _ no => no) (fun _ => Iff.rfl) nothing frame.past
        (fun _ => frame.timers) frame.tails
    · exact follows_of_tick rfl (fun _ no => no) (fun _ => Iff.rfl) makes signs.past
        (fun _ => signs.timers) signs.tails

theorem fireTimer_follows (timer : Timer) :
    EndsIn (fireTimer env timer) s (Follows env s (.fireTimer timer)) := by
  simp only [fireTimer, ends_bind, ends_get]
  split
  · rename_i pending
    simp only [ends_bind, ends_modify]
    cases timer with
    | clock chain =>
        rw [ends_bind]
        have ticks : ∀ other, Makes env s (.fireTimer (.clock chain)) (.clockEvent other) ↔
            MakesClockEvent env s chain other := fun other => and_iff_right pending
        refine (createClockEvent_signs chain).mono ?_ ?_
        · rintro _ ticked ⟨clockEvent, makes, signs⟩
          refine (scheduleClockTimer_arms chain).imp ?_
          rintro _ ⟨timers, rfl⟩
          exact follows_of_tick rfl (fun _ no => no) ticks makes signs.past
            (by simp [NodeAction.timed]) signs.tails
        · rintro _ after (⟨frame, nothing⟩ | ⟨clockEvent, makes, signs⟩)
          · exact follows_of_no_tick rfl (fun _ no => no) ticks nothing frame.past
              (by simp [NodeAction.timed]) frame.tails
          · exact follows_of_tick rfl (fun _ no => no) ticks makes signs.past
              (by simp [NodeAction.timed]) signs.tails
    | purge =>
        have follows : ∀ before after : NodeState σ, before.history = ({ s with
            timers := s.timers.erase .purge } : NodeState σ).history →
              after.untimed = before.untimed →
            Follows env s (.fireTimer .purge) after := by
          intro before after purged same
          have untimed : before.untimed = s.untimed := congrArg (fun h => (h.1, h.2.2)) purged
          exact follows_of_untimed (same.trans untimed) rfl rfl
        rw [ends_bind]
        refine (purgeDiscoveries_history _).mono ?_ ?_
        · exact fun _ before purged => follows before _ purged rfl
        · exact fun _ before purged => follows before _ purged rfl
  · rename_i idle
    refine ⟨rfl, ⟨[], by simp, fun object => ?_⟩, (by simp [NodeAction.timed]), id⟩
    cases timer with
    | clock chain => cases object <;> simp [Makes, idle]
    | purge => cases object <;> simp [Makes]

theorem perform_follows (action : NodeAction) :
    EndsIn (perform env action) s (Follows env s action) := by
  cases action with
  | publishEvent data =>
      simp only [perform, ends_discard]
      exact publishEvent_follows data
  | createClockEvent chain => exact createClockEvent_follows chain
  | fireTimer timer => exact fireTimer_follows timer
  | setClock now => exact ⟨rfl, ⟨[], by simp, fun object => by cases object <;> simp [Makes]⟩,
      fun _ => rfl, id⟩
  | start =>
      refine start_arms.imp ?_
      rintro _ ⟨timers, rfl⟩
      exact follows_of_untimed rfl rfl rfl
  | addNeighbor neighbor =>
      refine follows_of_preserves (fun before => ?_) rfl
      simp only [perform, addNeighbor, ends_bind, ends_get]
      split <;> simp [NodeState.history, NodeState.past]
  | learnRoute destination nextHop =>
      exact follows_of_preserves
        (fun before => by simp [perform, learnRoute, NodeState.history, NodeState.past]) rfl
  | learnRouteAt destination nextHop validity =>
      refine follows_of_preserves (fun before => ?_) rfl
      simp [perform, learnRouteAt, NodeState.history, NodeState.past]
  | discoverEventChain | discoverEventBounds | discoverEventOrder =>
      exact (perform_asks rfl).imp fun _ asks =>
        ((frame_refl env s).then_history asks.history).follows rfl
  | onPacketReceived datagram => exact follows_of_preserves (onPacketReceived_history datagram) rfl
  | gc => exact follows_of_preserves (preserves_forM fun chain _ => pruneToKeep_history _) rfl
  | hydrateFromStore => exact follows_of_keeps hydrateWorkingState_frame rfl
  | restart =>
      have follows : ∀ {after : NodeState σ}, Frame env s.stopped after →
        Follows env s .restart after :=
        fun frame => follows_of_quiet rfl frame.past (by simp [NodeAction.timed]) frame.tails
      exact ends_restart.mpr ((hydrateWorkingState_frame _ (frame_refl env _)).imp fun _ => follows)
  | restore blob => exact follows_of_keeps (restore_frame blob) rfl

end Loti
