import Mathlib.Logic.Function.Basic
import Loti.Attribution
import Loti.DagInvariants
import Loti.InMemoryDag
import Loti.Outbox

/-!
A network of honest nodes. Every node runs the code and talks only to the others: a datagram
that reaches a node is one that was sent to it, any number of times and at any later moment,
or not at all. The log lists all objects that the nodes have stored, in the order in which
they came into being.
-/

namespace Loti

open Std StateExcept Wire

structure Peers where
  env : NodeId → NodeEnv
  identified : ∀ id, (env id).id = id
  steady : NodeId → Prop

structure PeerWorld (σ : Type) where
  nodes : NodeId → NodeState σ
  log : List Signed

def Signed.creator (object : Signed) : NodeId := object.reference.creator

section Network

variable {σ : Type} [Store σ]

/-- A node acts. If the action ends the process, the node keeps the state it reached. -/
def Peers.act (peers : Peers) (w : PeerWorld σ) (id : NodeId) (action : NodeAction) :
    PeerWorld σ where
  nodes := Function.update w.nodes id (final (perform (peers.env id) action) (w.nodes id))
  log := w.log ++ appendedBy (peers.env id) (w.nodes id) action

def Peers.Allows (peers : Peers) (w : PeerWorld σ) (id : NodeId) : NodeAction → Prop
  | .onPacketReceived bytes => ∀ sender payload,
      decode ⟨bytes, (peers.env id).wordBits⟩ = .ok ⟨sender, payload⟩ →
        ⟨id, ⟨sender, payload⟩⟩ ∈ (w.nodes sender).sent
  | .setClock now => peers.steady id → (w.nodes id).now ≤ now
  | .restore _ => False
  | _ => True

instance (peers : Peers) [DecidablePred peers.steady] (w : PeerWorld σ) (id : NodeId)
    (action : NodeAction) : Decidable (peers.Allows w id action) :=
  match action with
  | .onPacketReceived bytes =>
      match read : decode ⟨bytes, (peers.env id).wordBits⟩ with
      | .ok datagram => decidable_of_iff (⟨id, datagram⟩ ∈ (w.nodes datagram.sender).sent)
          ⟨fun sent sender payload decoded => by cases read.symm.trans decoded; exact sent,
            fun allows => allows _ _ read⟩
      | .error _ => isTrue fun sender payload decoded => nomatch read.symm.trans decoded
  | .setClock now => inferInstanceAs (Decidable (peers.steady id → (w.nodes id).now ≤ now))
  | .restore _ => isFalse fun no => no
  | .start | .addNeighbor _ | .learnRoute .. | .learnRouteAt .. | .publishEvent
      _ | .createClockEvent _
  | .discoverEventChain .. | .discoverEventBounds .. | .discoverEventOrder .. | .fireTimer
      _ | .gc | .hydrateFromStore
  | .restart => isTrue trivial

inductive Peers.Leads (peers : Peers) (start : PeerWorld σ) : PeerWorld σ → Prop
  | refl : peers.Leads start start
  | step {w : PeerWorld σ} (id : NodeId) (action : NodeAction) : peers.Leads start w →
      peers.Allows w id action → peers.Leads start (peers.act w id action)

structure Peers.Initial [LawfulStore σ] [DagStore σ] (peers : Peers) (w : PeerWorld σ) : Prop where
  log : w.log = []
  nodes : ∀ id, ∃ store now, EmptyStore store ∧ w.nodes id = .bootAt (peers.env id) store now

def Peers.Reachable [LawfulStore σ] [DagStore σ] (peers : Peers) (w : PeerWorld σ) : Prop :=
  ∃ start, peers.Initial start ∧ peers.Leads start w

variable {peers : Peers} {start w : PeerWorld σ} {id : NodeId} {action : NodeAction}

theorem Peers.act_self : (peers.act w id action).nodes id = final (perform (peers.env id) action)
    (w.nodes id) := by
  simp [Peers.act]

theorem Peers.act_other {other : NodeId} (different : other ≠ id) :
    (peers.act w id action).nodes other = w.nodes other := by
  simp [Peers.act, different]

theorem Peers.Leads.trans {middle : PeerWorld σ} (first : peers.Leads start middle)
    (rest : peers.Leads middle w) : peers.Leads start w := by
  induction rest with
  | refl => exact first
  | step id action _ allowed ih => exact .step id action ih allowed

theorem Peers.Leads.log_prefix (leads : peers.Leads start w) : start.log <+: w.log := by
  induction leads with
  | refl => exact List.prefix_rfl
  | step id action _ _ ih => exact ih.trans (List.prefix_append _ _)

def Peers.play (peers : Peers) (w : PeerWorld σ) : List (PeerWorld σ → NodeId × NodeAction) →
    PeerWorld σ
  | [] => w
  | move :: rest => peers.play (peers.act w (move w).1 (move w).2) rest

def Peers.Admits (peers : Peers) (w : PeerWorld σ) : List (PeerWorld σ → NodeId × NodeAction) → Prop
  | [] => True
  | move :: rest => peers.Allows w (move w).1 (move w).2 ∧
      peers.Admits (peers.act w (move w).1 (move w).2) rest

instance Peers.decidableAdmits (peers : Peers) [DecidablePred peers.steady] : (w : PeerWorld σ) →
    (moves : List (PeerWorld σ → NodeId × NodeAction)) → Decidable (peers.Admits w moves)
  | _, [] => isTrue trivial
  | w, move :: rest =>
      have : Decidable (peers.Admits (peers.act w (move w).1 (move w).2) rest) :=
        decidableAdmits peers _ rest
      inferInstanceAs (Decidable (_ ∧ _))

theorem Peers.Leads.play {moves : List (PeerWorld σ → NodeId × NodeAction)}
    (admits : peers.Admits w moves) : peers.Leads w (peers.play w moves) := by
  induction moves generalizing w with
  | nil => exact .refl
  | cons move rest ih => exact (Peers.Leads.step _ _ .refl admits.1).trans (ih admits.2)

theorem Peers.sent_act : ∃ new, ((peers.act w id action).nodes id).sent = (w.nodes id).sent ++ new ∧
    ∀ sent ∈ new, SentBy (peers.env id) (w.nodes id) action sent := by
  rw [Peers.act_self]
  exact ends_final.mp (perform_sends action)

theorem Peers.mem_sent_act {other : NodeId} {sent : Sent}
    (member : sent ∈ ((peers.act w id action).nodes other).sent) :
    sent ∈ (w.nodes other).sent ∨ other = id ∧ SentBy (peers.env id) (w.nodes id) action sent := by
  by_cases same : other = id
  · subst same
    obtain ⟨new, grown, reasons⟩ :
        ∃ new, ((peers.act w other action).nodes other).sent = (w.nodes other).sent ++ new ∧
        ∀ sent ∈ new, SentBy (peers.env other) (w.nodes other) action sent := Peers.sent_act
    rw [grown] at member
    exact (List.mem_append.mp member).imp_right fun added => ⟨rfl, reasons sent added⟩
  · rw [Peers.act_other same] at member
    exact Or.inl member

variable [LawfulStore σ] [DagStore σ]

theorem Peers.Initial.sent (initial : peers.Initial w) (id : NodeId) : (w.nodes id).sent = [] := by
  obtain ⟨store, now, -, same⟩ := initial.nodes id
  rw [same]
  exact (hydrateWorkingState_aside sent_aside).final

theorem Peers.Reachable.leads {after : PeerWorld σ} (reached : peers.Reachable w)
    (leads : peers.Leads w after) : peers.Reachable after := by
  obtain ⟨start, initial, first⟩ := reached
  exact ⟨start, initial, first.trans leads⟩

/-- What holds at first and what every step keeps holds in every world, as long as the log meets
a condition that its prefixes meet too. -/
theorem Peers.Reachable.invariant (reached : peers.Reachable w) (invariant : PeerWorld σ → Prop)
    (condition : List Signed → Prop) (meets : condition w.log)
    (closed : ∀ log more, condition (log ++ more) → condition log)
    (initial : ∀ w, peers.Initial w → invariant w)
    (step : ∀ w id action, peers.Allows w id action → condition (peers.act w id action).log →
      invariant w → invariant (peers.act w id action)) : invariant w := by
  obtain ⟨start, begins, leads⟩ := reached
  induction leads with
  | refl => exact initial start begins
  | step id action _ allowed ih => exact step _ id action allowed meets (ih (closed _ _ meets))

end Network

/-! What the nodes tell one another. -/

section Truth

def TickedOn (log : List Signed) (creator : NodeId) (chain : Nat) (hash : EventHash) : Prop :=
  ∃ ce, .clockEvent ce ∈ log ∧ ce.creator = creator ∧ ce.chain.toNat = chain ∧ ce.hash = hash

/-- The reverse edge `ref` of `own` is true: there is such a clock event, on the same chain, and it
references `own`. -/
def TrueEdge (log : List Signed) (own : LocalClockEvent) (ref : EventReference) : Prop :=
  ∃ ce, .clockEvent ce ∈ log ∧ ce.reference = ref ∧ ce.chain = own.chain ∧
    own.reference ∈ ce.referencedEvents

/-- The notification tells of a clock event of the sender, and of one of the destination that
it references. -/
def TellsTruth (log : List Signed) (sender destination : NodeId) (m : ClockNotification) : Prop :=
  ∃ ce, .clockEvent ce ∈ log ∧ ce.reference = ⟨sender, m.lastClockEventHash⟩ ∧ ce.chain = m.chain ∧
    (m.neighborLastClockEventHash ≠ [] →
      ⟨destination, m.neighborLastClockEventHash⟩ ∈ ce.referencedEvents ∧
        TickedOn log destination m.chain.toNat m.neighborLastClockEventHash)

/-- What holds of every datagram in flight. The path of a request or response is a simple one that
does not lead through the node it is sent to; the path of a request ends with the sender. -/
def Honest (log : List Signed) (destination : NodeId) : Datagram → Prop
  | ⟨sender, .clockNotification m⟩ => TellsTruth log sender destination m
  | ⟨sender, .chainRequest m⟩ => m.path.Nodup ∧ destination ∉ m.path ∧ m.path.getLast? = some sender
  | ⟨_, .chainResponse m⟩ => m.path.Nodup ∧ destination ∉ m.path

/-- What the records of node `id` hold: objects of its own, true and distinct reverse edges, and the
neighbors' clock events as tips. -/
def honestContents (log : List Signed) (id : NodeId) : Contents where
  event event := .event event ∈ log ∧ event.creator = id
  clockEvent own := .clockEvent own.bare ∈ log ∧ own.creator = id ∧ own.referencingEvents.Nodup ∧
    ∀ ref ∈ own.referencingEvents, TrueEdge log own ref
  neighbor neighbor := ∀ (chain : Nat) (hash : EventHash),
    neighbor.lastClockEventHashes[chain]? = some hash → hash ≠ [] →
    TickedOn log neighbor.nodeId chain hash

structure Unambiguous (log : List Signed) : Prop where
  nonempty : ∀ object ∈ log, object.hash ≠ []
  chains : ∀ first second, .clockEvent first ∈ log → .clockEvent second ∈ log →
    first.creator = second.creator → first.hash = second.hash → first.chain = second.chain

structure Truthful {σ : Type} [Store σ] [LawfulStore σ] (w : PeerWorld σ) : Prop where
  records : ∀ id, NodeWithin (honestContents w.log id) (w.nodes id)
  senders : ∀ id, ∀ sent ∈ (w.nodes id).sent, sent.datagram.sender = id
  honest : ∀ id, ∀ sent ∈ (w.nodes id).sent, Honest w.log sent.destination sent.datagram

variable {log more : List Signed} {id : NodeId}

theorem TickedOn.append {chain : Nat} {hash : EventHash} (ticked : TickedOn log id chain hash)
    (more : List Signed) : TickedOn (log ++ more) id chain hash := by
  obtain ⟨ce, made, rest⟩ := ticked
  exact ⟨ce, List.mem_append_left more made, rest⟩

theorem TrueEdge.append {own : LocalClockEvent} {ref : EventReference} (edge : TrueEdge log own ref)
    (more : List Signed) : TrueEdge (log ++ more) own ref := by
  obtain ⟨ce, made, rest⟩ := edge
  exact ⟨ce, List.mem_append_left more made, rest⟩

theorem TellsTruth.append {sender destination : NodeId} {m : ClockNotification}
    (told : TellsTruth log sender destination m) (more : List Signed) :
    TellsTruth (log ++ more) sender destination m := by
  obtain ⟨ce, made, named, chain, crossed⟩ := told
  refine ⟨ce, List.mem_append_left more made, named, chain, fun heard => ?_⟩
  exact ⟨(crossed heard).1, (crossed heard).2.append more⟩

theorem Honest.append {destination : NodeId} {datagram : Datagram}
    (honest : Honest log destination datagram) (more : List Signed) :
    Honest (log ++ more) destination datagram := by
  obtain ⟨sender, payload⟩ := datagram
  cases payload with
  | clockNotification m => exact TellsTruth.append honest more
  | chainRequest m => exact honest
  | chainResponse m => exact honest

theorem honestContents_append (log more : List Signed) (id : NodeId) :
    (honestContents log id).Implies (honestContents (log ++ more) id) where
  event _ held := ⟨List.mem_append_left more held.1, held.2⟩
  clockEvent _ held := ⟨List.mem_append_left more held.1, held.2.1, held.2.2.1,
    fun ref listed => (held.2.2.2 ref listed).append more⟩
  neighbor _ held chain hash found nonempty := (held chain hash found nonempty).append more

theorem Unambiguous.append (unambiguous : Unambiguous (log ++ more)) : Unambiguous log where
  nonempty object member := unambiguous.nonempty object (List.mem_append_left more member)
  chains first second one other :=
    unambiguous.chains first second (List.mem_append_left more one)
      (List.mem_append_left more other)

variable {σ : Type} [Store σ] [LawfulStore σ] {peers : Peers} {w : PeerWorld σ}
    {action : NodeAction} {s : NodeState σ}

omit [LawfulStore σ] in
theorem makes_creator {env : NodeEnv} {object : Signed} (makes : Makes env s action object) :
    object.creator = env.id := by
  rcases makes.cases with ⟨_, _, rfl, _, -, rfl⟩ | ⟨_, _, rfl, _, _, -, -, rfl⟩
  · rfl
  · rfl

omit [LawfulStore σ] in
theorem makes_honestContents {object : Signed} (makes : Makes (peers.env id) s action object)
    (listed : object ∈ log) : (honestContents log id).signed object := by
  have creator := (makes_creator makes).trans (peers.identified id)
  rcases makes.cases with ⟨_, event, rfl, -⟩ | ⟨_, record, rfl, _, _, -, -, rfl⟩
  · exact ⟨listed, creator⟩
  · exact ⟨listed, creator, List.nodup_nil, fun ref none => nomatch none⟩

theorem TellsTruth.hears {sender : NodeId} {m : ClockNotification} (unambiguous : Unambiguous log)
    (told : TellsTruth log sender id m) : Hears (honestContents log id) sender m := by
  obtain ⟨ce, made, named, chain, crossed⟩ := told
  refine ⟨fun tips old slot hash found nonempty => ?_, fun own held same fresh => ?_⟩
  · rcases getElem?_coveringTips_set found with kept | rfl | ⟨rfl, rfl⟩
    · exact old slot hash kept nonempty
    · exact absurd rfl nonempty
    · exact ⟨ce, made, congrArg EventReference.creator named, congrArg UInt32.toNat chain,
        congrArg EventReference.hash named⟩
  · obtain ⟨recorded, mine, distinct, edges⟩ := held
    -- the hash that the sender speaks of is the one of `own`, so the chains agree
    have spoken : m.neighborLastClockEventHash ≠ [] := same ▸ unambiguous.nonempty _ recorded
    obtain ⟨referenced, tip, ticked, byMe, onChain, sameHash⟩ := crossed spoken
    have chains : ce.chain = own.chain := by
      rw [chain, ← UInt32.toNat_inj, ← onChain]
      exact congrArg UInt32.toNat
        (unambiguous.chains tip own.bare ticked recorded (byMe.trans mine.symm)
        (sameHash.trans same.symm))
    refine ⟨recorded, mine, ?_, fun ref listed => ?_⟩
    · exact List.nodup_append.mpr ⟨distinct, List.nodup_singleton _, fun old listed new last => by
        rintro rfl
        exact fresh (List.mem_singleton.mp last ▸ listed)⟩
    · rcases List.mem_append.mp listed with old | new
      · exact edges ref old
      · obtain rfl := List.mem_singleton.mp new
        refine ⟨ce, made, named, chains, ?_⟩
        have reference : own.reference = ⟨id, m.neighborLastClockEventHash⟩ := by
          rw [← same, ← mine]
          rfl
        exact reference ▸ referenced

theorem Peers.Allows.takes (truthful : Truthful w) (unambiguous : Unambiguous (w.log ++ more))
    (allows : peers.Allows w id action) :
    Takes (honestContents (w.log ++ more) id) (peers.env id) (w.nodes id) action := by
  cases action with
  | addNeighbor neighbor => exact fun chain hash found => nomatch found
  | onPacketReceived bytes =>
      intro sender m decoded _
      have told : TellsTruth w.log sender id m := truthful.honest sender _ (allows sender _ decoded)
      exact (told.append more).hears unambiguous
  | restore blob => exact allows.elim
  | _ => trivial

theorem not_mem_dropLast {path : List NodeId} {next : NodeId} (simple : path.Nodup)
    (last : path.getLast? = some next) : path.dropLast.Nodup ∧ next ∉ path.dropLast := by
  obtain ⟨before, rfl⟩ := List.getLast?_eq_some_iff.mp last
  rw [List.dropLast_concat]
  obtain ⟨kept, -, apart⟩ := List.nodup_append.mp simple
  exact ⟨kept, fun member => apart next member next (List.mem_singleton_self _) rfl⟩

theorem SentBy.honest {sent : Sent} (truthful : Truthful w) (allows : peers.Allows w id action)
    (sentBy : SentBy (peers.env id) (w.nodes id) action sent) : sent.datagram.sender = id ∧
      Honest (w.log ++ appendedBy (peers.env id) (w.nodes id) action) sent.destination
      sent.datagram := by
  have within := truthful.records id
  have delivered : ∀ {neighbor payload}, action.Delivers (peers.env id)
      (w.nodes id) neighbor payload → ∃ sender, Honest w.log id ⟨sender, payload⟩ := by
    rintro neighbor payload ⟨bytes, sender, rfl, decoded, -⟩
    exact ⟨sender, truthful.honest sender _ (allows sender payload decoded)⟩
  have identified := peers.identified id
  have forwards : ∀ {base : ChainRequest} {sent : Sent}, base.path.Nodup → id ∉ base.path →
      sent.Forwards (peers.env id) (w.nodes id) base → sent.datagram.sender = id ∧
        Honest (w.log ++ appendedBy (peers.env id) (w.nodes id) action) sent.destination
        sent.datagram := by
    rintro base _ simple unvisited ⟨hop, neighbor, away, off, known, rfl⟩
    obtain ⟨named, -⟩ := within.neighbors hop neighbor known
    refine ⟨identified, List.nodup_append.mpr ⟨simple, List.nodup_singleton _, ?_⟩, ?_, by simp⟩
    · intro visited member last single same
      rw [List.mem_singleton.mp single, identified] at same
      exact unvisited (same ▸ member)
    · simp [named, off, away]
  cases sentBy with
  | @notified record key neighbor makes stored known =>
      refine ⟨identified, record, List.mem_append_right _ (mem_appendedBy_iff.mpr ⟨makes, stored⟩),
        ?_, rfl, fun heard => ?_⟩
      · exact congrArg (EventReference.mk · record.hash) (makes_creator makes)
      · obtain ⟨-, last, tail, -, -, built⟩ := makes_ticks makes
        obtain ⟨hash, advertised⟩ :
          ∃ hash, neighbor.lastClockEventHashes[record.chain.toNat]? = some hash := by
          refine Option.ne_none_iff_exists'.mp fun missing => heard ?_
          simp [notificationTo, missing]
        have spoken : (notificationTo record neighbor).neighborLastClockEventHash = hash := by
          simp [notificationTo, advertised]
        rw [spoken] at heard ⊢
        refine ⟨?_, ((within.neighbors key neighbor known).2 _ hash advertised heard).append _⟩
        rw [built]
        exact tip_mem_clockReferences known advertised heard
  | asked request =>
      obtain ⟨base, -, begins, -, forwarded⟩ := request
      exact forwards (by simp [begins]) (by simp [begins]) forwarded
  | relayed relayed =>
      cases relayed with
      | forwarded delivers _ unvisited _ forwarded =>
          obtain ⟨sender, simple, -⟩ := delivered delivers
          exact forwards simple (identified ▸ unvisited) forwarded
      | answered delivers _ _ response =>
          obtain ⟨sender, simple, -, -⟩ := delivered delivers
          obtain ⟨next, chain, last, -, rfl⟩ := response.path within
          exact ⟨identified, not_mem_dropLast simple last⟩
      | returned delivers _ response =>
          obtain ⟨sender, simple, -⟩ := delivered delivers
          obtain ⟨next, chain, last, -, rfl⟩ := response.path within
          exact ⟨identified, not_mem_dropLast simple last⟩

theorem Truthful.act (truthful : Truthful w) (allows : peers.Allows w id action)
    (unambiguous : Unambiguous (peers.act w id action).log) : Truthful (peers.act w id action) := by
  have datagrams : ∀ other, ∀ x ∈ ((peers.act w id action).nodes other).sent,
      x.datagram.sender = other ∧ Honest (peers.act w id action).log x.destination x.datagram := by
    intro other x member
    rcases Peers.mem_sent_act member with earlier | ⟨rfl, reason⟩
    · exact ⟨truthful.senders other x earlier, (truthful.honest other x earlier).append _⟩
    · exact reason.honest truthful allows
  refine ⟨fun other => ?_, fun other x member => (datagrams other x member).1,
    fun other x member => (datagrams other x member).2⟩
  have kept := (truthful.records other).mono (honestContents_append w.log
    (appendedBy (peers.env id) (w.nodes id) action) other)
  by_cases same : other = id
  · subst same
    rw [Peers.act_self]
    refine ends_final.mp (perform_within action kept (fun object makes stored => ?_)
      (allows.takes truthful unambiguous))
    exact makes_honestContents makes
      (List.mem_append_right _ (mem_appendedBy_iff.mpr ⟨makes, stored⟩))
  · rw [Peers.act_other same]
    exact kept

variable [DagStore σ]

theorem Peers.Initial.truthful (initial : peers.Initial w) : Truthful w := by
  refine ⟨fun id => ?_, fun id x member => ?_, fun id x member => ?_⟩
  · obtain ⟨store, now, empty, same⟩ := initial.nodes id
    rw [same]
    exact (boot_within (empty.within _)).of_same rfl rfl rfl
  · rw [initial.sent id] at member
    cases member
  · rw [initial.sent id] at member
    cases member

theorem Peers.Reachable.truthful (reached : peers.Reachable w) (unambiguous : Unambiguous w.log) :
    Truthful w :=
  reached.invariant Truthful Unambiguous unambiguous (fun _ _ => Unambiguous.append)
    (fun _ initial => initial.truthful) fun _ _ _ allows unambiguous truthful =>
    truthful.act allows unambiguous

theorem Peers.Reachable.genuine (reached : peers.Reachable w) :
    ∀ object ∈ w.log, object.Genuine (peers.env object.creator) := by
  refine reached.invariant (fun w => ∀ object ∈ w.log, object.Genuine (peers.env object.creator))
    (fun _ => True) trivial (fun _ _ _ => trivial) (fun w initial => by simp [initial.log]) fun w id
    action _ _ genuine object member => ?_
  rcases List.mem_append.mp member with old | new
  · exact genuine object old
  · obtain ⟨makes, -⟩ := mem_appendedBy_iff.mp new
    rw [(makes_creator makes).trans (peers.identified id)]
    exact makes.genuine

end Truth

/-! Reverse edges -/

section Edges

variable {σ : Type} [Store σ] [LawfulStore σ] [DagStore σ] {peers : Peers} {w : PeerWorld σ}
    {sha256 : Bytes → EventHash}

def CollisionFree (sha256 : Bytes → EventHash) (log : List Signed) : Prop :=
  ∀ first second, .clockEvent first ∈ log → .clockEvent second ∈ log →
    sha256 (clockEventPreimage first.toClockEvent) = sha256
      (clockEventPreimage second.toClockEvent) →
      clockEventPreimage first.toClockEvent = clockEventPreimage second.toClockEvent

theorem same_of_hash {log : List Signed} (distinct : (log.map Signed.hash).Nodup)
    {first second : Signed} (one : first ∈ log) (other : second ∈ log)
    (same : first.hash = second.hash) : first = second :=
  List.inj_on_of_nodup_map distinct one other same

theorem genuine_hash {env : NodeEnv} {object : Signed}
    (hashed : env.hasher = Hasher.ofSha256 sha256) (genuine : object.Genuine env) :
      ∃ bytes, object.hash = sha256 bytes ∧ ∀ ce, object = .clockEvent ce →
      bytes = clockEventPreimage ce.toClockEvent := by
  cases object with
  | event published =>
      obtain ⟨data, salt, refs, rfl⟩ := genuine
      refine ⟨_, by simp only [Signed.hash, makeEvent, hashed]; rfl, fun ce other => nomatch other⟩
  | clockEvent ticked =>
      obtain ⟨chain, salt, timestamp, refs, rfl⟩ := genuine
      refine ⟨_, by simp only [Signed.hash, makeClockEvent, hashed]; rfl, ?_⟩
      rintro ce ⟨⟩
      rfl

theorem CollisionFree.unambiguous (collisionFree : CollisionFree sha256 w.log)
    (reached : peers.Reachable w) (hashed : ∀ id, (peers.env id).hasher = Hasher.ofSha256 sha256)
    (nonempty : ∀ bytes, sha256 bytes ≠ []) :
    Unambiguous w.log := by
  have genuine := reached.genuine
  refine ⟨fun object member => ?_, fun first second one other _ same => ?_⟩
  · obtain ⟨bytes, hash, -⟩ := genuine_hash (hashed _) (genuine object member)
    exact hash ▸ nonempty bytes
  · obtain ⟨bytes, hash, preimage⟩ := genuine_hash (hashed _) (genuine _ one)
    obtain ⟨bytes', hash', preimage'⟩ := genuine_hash (hashed _) (genuine _ other)
    obtain rfl := preimage first rfl
    obtain rfl := preimage' second rfl
    exact (clockEventPreimage_fields
      (collisionFree first second one other (hash.symm.trans (same.trans hash')))).1

theorem collisionFree_of_distinct (reached : peers.Reachable w)
    (hashed : ∀ id, (peers.env id).hasher = Hasher.ofSha256 sha256)
    (distinct : (w.log.map Signed.hash).Nodup) :
    CollisionFree sha256 w.log := by
  intro first second one other same
  obtain ⟨bytes, hash, preimage⟩ := genuine_hash (hashed _) (reached.genuine _ one)
  obtain ⟨bytes', hash', preimage'⟩ := genuine_hash (hashed _) (reached.genuine _ other)
  obtain rfl := preimage first rfl
  obtain rfl := preimage' second rfl
  rw [Signed.clockEvent.inj (same_of_hash distinct one other (hash.trans (same.trans hash'.symm)))]

def Holds {σ : Type} [Store σ] (store : σ) (record : LocalClockEvent) : Prop :=
  (∃ seq, Store.clockEventBySeq store seq = .ok record) ∨
    (∃ hash, Store.clockEventByHash store hash = .ok (some record)) ∨
    ∃ chain, Store.latestClockEventOn store chain = .ok (some record)

omit [DagStore σ] in
theorem NodeWithin.holds {contents : Contents} {s : NodeState σ} {record : LocalClockEvent}
    (within : NodeWithin contents s) (held : Holds s.store record) :
    contents.clockEvent record := by
  rcases held with ⟨seq, read⟩ | ⟨hash, read⟩ | ⟨chain, read⟩
  · exact LawfulStore.clockEventBySeq_within within.store read
  · exact (LawfulStore.clockEventByHash_within within.store read).1
  · exact LawfulStore.latestClockEventOn_within within.store read

/-- Whatever reverse edge a stored clock event carries, its creator made such a clock event. -/
theorem reverse_edges_true (hashed : ∀ id, (peers.env id).hasher = Hasher.ofSha256 sha256)
    (nonempty : ∀ bytes, sha256 bytes ≠ []) (reached : peers.Reachable w)
    (collisionFree : CollisionFree sha256 w.log)
    (node : NodeId) (own : LocalClockEvent) (held : Holds (w.nodes node).store own) :
    own.referencingEvents.Nodup ∧ ∀ creator hash, ⟨creator, hash⟩ ∈ own.referencingEvents →
      ∃ ce, .clockEvent ce ∈ w.log ∧ ce.creator = creator ∧ ce.hash = hash ∧ ce.chain = own.chain ∧
        ⟨node, own.hash⟩ ∈ ce.referencedEvents := by
  have truthful := reached.truthful (collisionFree.unambiguous reached hashed nonempty)
  obtain ⟨-, mine, distinct, edges⟩ := (truthful.records node).holds held
  refine ⟨distinct, fun creator hash listed => ?_⟩
  obtain ⟨ce, made, named, sameChain, referenced⟩ := edges _ listed
  refine ⟨ce, made, congrArg EventReference.creator named, congrArg EventReference.hash named,
    sameChain, ?_⟩
  exact mine ▸ referenced

end Edges

/-! Two neighbors. -/

def plainPeers : Peers where
  env id := { NodeEnv.simulated checksum 0 {} with id }
  identified _ := rfl
  steady _ := True

instance : DecidablePred plainPeers.steady := fun _ => isTrue trivial

def plainStart : PeerWorld InMemoryStore := ⟨fun id => .bootAt (plainPeers.env id) {} 0, []⟩

theorem plainStart_initial : plainPeers.Initial plainStart :=
  ⟨rfl, fun _ => ⟨{}, 0, InMemoryStore.emptyStore, rfl⟩⟩

section Scenario

variable {σ : Type}

def acting (id : UInt64) (action : NodeAction) (_ : PeerWorld σ) : NodeId × NodeAction :=
  (.ofUInt64 id, action)

def arriving (id : UInt64) (ago : Nat) (w : PeerWorld σ) : NodeId × NodeAction :=
  match (w.nodes (.ofUInt64 id)).sent.reverse[ago]? with
  | some sent => (sent.destination, .onPacketReceived (encode sent.datagram))
  | none => (.ofUInt64 id, .start)

def ticking (id : UInt64) : List (PeerWorld σ → NodeId × NodeAction) :=
  [acting id (.createClockEvent 0), arriving id 0]

end Scenario

def pairMoves : List (PeerWorld InMemoryStore → NodeId × NodeAction) :=
  [acting 1 (.addNeighbor (.ofUInt64 2)), acting 2 (.addNeighbor (.ofUInt64 1))] ++ ticking 1 ++
    ticking 2 ++ [acting 2 (.publishEvent [7])] ++ ticking 1 ++ ticking 2 ++ ticking 1

def pairWorld : PeerWorld InMemoryStore := plainPeers.play plainStart pairMoves

theorem pairWorld_reachable : plainPeers.Reachable pairWorld :=
  ⟨plainStart, plainStart_initial, .play (by decide +kernel)⟩

def pairTick : LocalClockEvent :=
  (Store.loadClockEvents (pairWorld.nodes (.ofUInt64 2)).store).getD 1 default

theorem checksum_nonempty (bytes : Bytes) : checksum bytes ≠ [] := by
  simp [← List.length_pos_iff, checksum]

theorem reverse_edges_true_sample :
    pairTick.referencingEvents.map EventReference.creator = [.ofUInt64 1] ∧
    ∃ ce, .clockEvent ce ∈ pairWorld.log ∧ ce.creator = .ofUInt64 1 ∧ ce.chain = pairTick.chain ∧
      ⟨.ofUInt64 2, pairTick.hash⟩ ∈ ce.referencedEvents := by
  have distinct : (pairWorld.log.map Signed.hash).Nodup := by decide +kernel
  have held : Holds (pairWorld.nodes (.ofUInt64 2)).store pairTick := Or.inl ⟨1, by decide +kernel⟩
  obtain ⟨-, edges⟩ := reverse_edges_true (fun _ => rfl) checksum_nonempty pairWorld_reachable
    (collisionFree_of_distinct pairWorld_reachable (fun _ => rfl) distinct)
    (.ofUInt64 2) pairTick held
  obtain ⟨hash, listed⟩ : ∃ hash, ⟨.ofUInt64 1, hash⟩ ∈ pairTick.referencingEvents :=
    ⟨(pairTick.referencingEvents.headD default).hash, by decide +kernel⟩
  obtain ⟨ce, made, creator, -, chain, referenced⟩ := edges _ hash listed
  exact ⟨by decide +kernel, ce, made, creator, chain, referenced⟩

end Loti
