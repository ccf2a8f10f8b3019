import Loti.ControlDispatch

/-!
Control clients over whole runs of the daemon: what each is sent, what is dispatched for it, and
which entries wait for it. The daemon serves its clients in a step exactly when the step ends no
discovery that a client waits for, reads no second time from a connection whose request it has
dispatched, takes no order request for a pair that another client waits for, and answers no
client that has hung up.
-/

namespace Loti.Lotid

open Std StateExcept Handles

section Clients

variable {α : Type} {c : Control} {fd connection : Nat} {acc : Text} {request : Request}
    {callbacks : List Notification}
  {other : Nat} {trace : List ControlEvent}

def sentTo (connection : Nat) (trace : List ControlEvent) : List Text := trace.filterMap fun
  | .sent target bytes => if target = connection then some bytes else none
  | .dispatched _ _ => none

def dispatchedFor (connection : Nat) (trace : List ControlEvent) : List (List Text) :=
  trace.filterMap fun
  | .dispatched target args => if target = connection then some args else none
  | .sent _ _ => none

@[simp] theorem sentTo_sent {target : Nat} {bytes : Text} :
    sentTo connection (trace ++ [.sent target bytes]) =
      sentTo connection trace ++ if target = connection then [bytes] else [] := by
  simp only [sentTo, List.filterMap_append, List.filterMap_cons, List.filterMap_nil]
  split_ifs <;> rfl

@[simp] theorem sentTo_dispatched {target : Nat} {args : List Text} :
    sentTo connection (trace ++ [.dispatched target args]) = sentTo connection trace := by
  simp [sentTo]

@[simp] theorem dispatchedFor_sent {target : Nat} {bytes : Text} :
    dispatchedFor connection (trace ++ [.sent target bytes]) = dispatchedFor connection trace := by
  simp [dispatchedFor]

@[simp] theorem dispatchedFor_dispatched {target : Nat} {args : List Text} :
    dispatchedFor connection (trace ++ [.dispatched target args]) =
      dispatchedFor connection trace ++ if target = connection then [args] else [] := by
  simp only [dispatchedFor, List.filterMap_append, List.filterMap_cons, List.filterMap_nil]
  split_ifs <;> rfl

structure Control.Numbered (c : Control) : Prop where
  opened : ∀ fd, fd ∈ c.connections ↔ fd ∈ c.clientBuf
  numbered : ∀ fd connection : Nat, c.connections[fd]? = some connection → connection < c.accepted
  apart : ∀ fd other connection : Nat, c.connections[fd]? = some connection →
    c.connections[other]? = some connection → fd = other

structure Attended (trace : List ControlEvent) (connection : Nat) (buffer : Text) : Prop where
  unanswered : sentTo connection trace = []
  line : dispatchedFor connection trace = if 10 ∈ buffer then [requestLine buffer] else []
  nonblank : 10 ∈ buffer → requestLine buffer ≠ []

structure Control.Kept (c : Control) : Prop extends c.Held, c.Numbered where
  complete : ∀ fd request, c.Waits fd request → 10 ∈ c.buffer fd
  attended : ∀ fd connection : Nat, c.connections[fd]? = some connection →
  Attended c.trace connection (c.buffer fd)
  once : ∀ connection, (sentTo connection c.trace).length ≤ 1 ∧
  (dispatchedFor connection c.trace).length ≤ 1
  unused : ∀ connection, c.accepted ≤ connection → sentTo connection c.trace = [] ∧
  dispatchedFor connection c.trace = []

def Control.received (c : Control) (fd : Nat) (acc : Text) : Control :=
  { c with clientBuf := c.clientBuf.insert fd acc }

theorem replied_sent {r : Reply} (known : c.connections[fd]? = some connection)
    (connected : fd ∈ c.clientBuf) : c.replied fd r =
      { c.closeClient fd with trace :=
        c.trace ++ [.sent connection (formatReply r.code r.error r.fields)] } := by
  simp only [Control.replied, Control.closeClient, if_pos connected, known,
    Control.purgePendingForFd]

theorem closeClient_waits (connected : fd ∈ c.clientBuf) :
    (c.closeClient fd).Waits other request ↔ c.Waits other request ∧ other ≠ fd := by
  simp only [Control.closeClient, if_pos connected]
  cases request with
  | orderProof a b =>
      simp only [Control.Waits, Control.purgePendingForFd, Cells.values_eraseIf, List.mem_filter]
      constructor
      · rintro ⟨proof, ⟨member, stays⟩, rfl, rest⟩
        exact ⟨⟨proof, member, rfl, rest⟩, by simpa using stays⟩
      · rintro ⟨⟨proof, member, rfl, rest⟩, apart⟩
        exact ⟨proof, ⟨member, by simpa using apart⟩, rfl, rest⟩
  | _ => simp [Control.Waits, Control.purgePendingForFd]

theorem received_buffer :
    (c.received fd acc).buffer other = if fd = other then acc else c.buffer other := by
  simp [Control.received, Control.buffer, ExtTreeMap.getD_insert]

theorem accept_buffer (differs : fd ≠ other) : (c.accept fd).buffer other = c.buffer other := by
  simp [Control.accept, Control.buffer, ExtTreeMap.getD_insert, differs]

theorem closeClient_buffer (connected : fd ∈ c.clientBuf) (differs : fd ≠ other) :
    (c.closeClient fd).buffer other = c.buffer other := by
  simp [Control.closeClient, connected, Control.buffer, ExtTreeMap.getD_erase, differs]

theorem closeClient_connections (connected : fd ∈ c.clientBuf) :
    (c.closeClient fd).connections[other]? =
      if fd = other then none else c.connections[other]? := by
  simp [Control.closeClient, connected, ExtTreeMap.getElem?_erase]

@[simp] theorem closeClient_trace : (c.closeClient fd).trace = c.trace := by
  unfold Control.closeClient
  split <;> rfl

@[simp] theorem closeClient_accepted : (c.closeClient fd).accepted = c.accepted := by
  unfold Control.closeClient
  split <;> rfl

theorem mem_connections (known : c.connections[fd]? = some connection) : fd ∈ c.connections :=
  ExtTreeMap.isSome_getElem?_iff_mem.mp (by simp [known])

theorem exists_connection (there : fd ∈ c.connections) :
    ∃ connection, c.connections[fd]? = some connection :=
  Option.isSome_iff_exists.mp (ExtTreeMap.isSome_getElem?_iff_mem.mpr there)

theorem accept_cases {other number : Nat}
    (known : (c.accept fd).connections[other]? = some number) :
    fd = other ∧ number = c.accepted ∨ fd ≠ other ∧ c.connections[other]? = some number := by
  simp only [Control.accept, ExtTreeMap.getElem?_insert, Nat.compare_eq_eq] at known
  split_ifs at known with same
  · exact Or.inl ⟨same, (Option.some.inj known).symm⟩
  · exact Or.inr ⟨same, known⟩

theorem closeClient_cases {other number : Nat} (connected : fd ∈ c.clientBuf)
    (known : (c.closeClient fd).connections[other]? = some number) :
    fd ≠ other ∧ c.connections[other]? = some number := by
  rw [closeClient_connections connected] at known
  split_ifs at known with same
  exact ⟨same, known⟩

namespace Control.Numbered

variable (numbers : c.Numbered)

include numbers

theorem accept (fd : Nat) : (c.accept fd).Numbered := by
  refine ⟨fun other => ?_, fun other number known => ?_, fun one two number first second => ?_⟩
  · simp only [Control.accept, ExtTreeMap.mem_insert, numbers.opened]
  · rcases accept_cases known with ⟨-, rfl⟩ | ⟨-, known⟩
    · exact Nat.lt_succ_self _
    · exact Nat.lt_succ_of_lt (numbers.numbered other number known)
  · rcases accept_cases first with ⟨rfl, rfl⟩ | ⟨-, first⟩ <;> rcases accept_cases second with
      ⟨rfl, same⟩ | ⟨-, second⟩
    · rfl
    · exact absurd (numbers.numbered two _ second) (lt_irrefl _)
    · exact absurd (numbers.numbered one _ (same ▸ first)) (lt_irrefl _)
    · exact numbers.apart one two number first second

theorem closeClient (connected : fd ∈ c.clientBuf) : (c.closeClient fd).Numbered := by
  refine ⟨fun other => ?_, fun other number known => ?_, fun one two number first second => ?_⟩
  · simp only [Control.closeClient, if_pos connected, ExtTreeMap.mem_erase, numbers.opened]
  · rw [closeClient_accepted]
    exact numbers.numbered other number (closeClient_cases connected known).2
  · exact numbers.apart one two number (closeClient_cases connected first).2
      (closeClient_cases connected second).2

theorem closed (known : c.connections[fd]? = some connection) {other : Nat} :
    (c.closeClient fd).connections[other]? ≠ some connection := by
  intro still
  obtain ⟨differs, there⟩ :=
    closeClient_cases ((numbers.opened fd).mp (mem_connections known)) still
  exact differs (numbers.apart fd other connection known there)

theorem received (there : fd ∈ c.connections) : (c.received fd acc).Numbered := by
  refine ⟨fun other => ?_, numbers.numbered, numbers.apart⟩
  rw [Control.received, ExtTreeMap.mem_insert, Nat.compare_eq_eq, ← numbers.opened]
  refine ⟨Or.inr, ?_⟩
  rintro (rfl | listed)
  · exact there
  · exact listed

end Control.Numbered

theorem Control.Kept.accept (kept : c.Kept) (free : fd ∉ c.connections) : (c.accept fd).Kept := by
  have unknown : ∀ other, other ∈ c.connections → fd ≠ other := by
    rintro other there rfl
    exact free there
  have waits {other : Nat} {request : Request} (waits : (c.accept fd).Waits other request) :
    c.Waits other request := by
    cases request <;> exact waits
  have started : (c.accept fd).buffer fd = [] := by simp [Control.accept, Control.buffer]
  refine { kept.toNumbered.accept fd with
    connected := ?_, incomplete := kept.incomplete, complete := ?_, attended := ?_, once :=
      kept.once, unused := ?_ }
  · intro other request waiting
    exact ExtTreeMap.mem_insert.mpr (Or.inr (kept.connected other request (waits waiting)))
  · intro other request waiting
    have line := kept.complete other request (waits waiting)
    rwa [accept_buffer
      (unknown other ((kept.opened other).mpr (kept.connected other request (waits waiting))))]
  · intro other number known
    rcases accept_cases known with ⟨rfl, rfl⟩ | ⟨differs, known⟩
    · rw [started]
      exact ⟨(kept.unused _ le_rfl).1, (kept.unused _ le_rfl).2, by simp⟩
    · rw [accept_buffer differs]
      exact kept.attended other number known
  · intro number bound
    exact kept.unused number (Nat.le_of_succ_le bound)

theorem Control.Kept.closeClient (kept : c.Kept) (there : fd ∈ c.connections) :
    (c.closeClient fd).Kept := by
  have connected := (kept.opened fd).mp there
  refine { kept.toNumbered.closeClient connected with
    connected := ?_, incomplete := ?_, complete := ?_, attended := ?_, once := ?_, unused := ?_ }
  · intro other request waits
    obtain ⟨waits, differs⟩ := (closeClient_waits connected).mp waits
    simp only [Control.closeClient, if_pos connected, ExtTreeMap.mem_erase]
    exact ⟨by simpa using differs.symm, kept.connected other request waits⟩
  · intro proof member
    simp only [Control.closeClient, if_pos connected, Control.purgePendingForFd,
      Cells.values_eraseIf, List.mem_filter] at member
    exact kept.incomplete proof member.1
  · intro other request waits
    obtain ⟨waits, differs⟩ := (closeClient_waits connected).mp waits
    rw [closeClient_buffer connected differs.symm]
    exact kept.complete other request waits
  · intro other number known
    obtain ⟨differs, known⟩ := closeClient_cases connected known
    rw [closeClient_trace, closeClient_buffer connected differs]
    exact kept.attended other number known
  · rw [closeClient_trace]
    exact kept.once
  · rw [closeClient_trace, closeClient_accepted]
    exact kept.unused

theorem Control.Kept.replied {r : Reply} (kept : c.Kept)
    (known : c.connections[fd]? = some connection) : (c.replied fd r).Kept := by
  have there := mem_connections known
  have connected := (kept.opened fd).mp there
  have closed := kept.closeClient there
  have apart {other number : Nat} (still : (c.closeClient fd).connections[other]? = some number) :
    connection ≠ number := by
    rintro rfl
    exact kept.toNumbered.closed known still
  rw [replied_sent known connected]
  refine { closed with connected := ?_, complete := ?_, attended := ?_, once := ?_, unused := ?_ }
  · intro other request waits
    refine closed.connected other request ?_
    cases request <;> exact waits
  · intro other request waits
    refine closed.complete other request ?_
    cases request <;> exact waits
  · intro other number still
    have attended := closed.attended other number still
    rw [closeClient_trace] at attended
    exact ⟨by simpa [apart still] using attended.unanswered, dispatchedFor_sent.trans attended.line,
      attended.nonblank⟩
  · intro number
    obtain ⟨sent, dispatched⟩ := kept.once number
    refine ⟨?_, by simpa using dispatched⟩
    by_cases same : connection = number
    · subst same
      simp [(kept.attended fd connection known).unanswered]
    · simpa [same] using sent
  · intro number bound
    have unused := closed.unused number bound
    have differs : connection ≠ number := by
      rintro rfl
      exact absurd (kept.numbered fd connection known) (Nat.not_lt.mpr (by simpa using bound))
    rw [closeClient_trace] at unused
    simpa [differs] using unused

theorem Control.Kept.received (kept : c.Kept) (there : fd ∈ c.connections)
    (unfinished : 10 ∉ c.buffer fd) (more : 10 ∉ acc) : (c.received fd acc).Kept := by
  have waits {other : Nat} {request : Request} (waits : (c.received fd acc).Waits other request) :
    c.Waits other request := by
    cases request <;> exact waits
  refine
    { kept with
      connected := ?_, opened := (kept.toNumbered.received there).opened, complete := ?_
      attended := ?_ }
  · intro other request waiting
    exact ExtTreeMap.mem_insert.mpr (Or.inr (kept.connected other request (waits waiting)))
  · intro other request waiting
    have line := kept.complete other request (waits waiting)
    rw [received_buffer, if_neg]
    · exact line
    · rintro rfl
      exact unfinished line
  · intro other number known
    have attended := kept.attended other number known
    rw [received_buffer]
    split_ifs with same
    · subst same
      refine ⟨attended.unanswered, attended.line.trans ?_, fun hit => absurd hit more⟩
      rw [if_neg unfinished, if_neg more]
    · exact attended

def Control.requested (c : Control) (fd connection : Nat) (acc : Text) : Control :=
  { c with
    clientBuf := c.clientBuf.insert fd acc
    trace := c.trace ++ [.dispatched connection (requestLine acc)] }

theorem noteDispatch_received (known : c.connections[fd]? = some connection) :
    (c.received fd acc).noteDispatch fd (requestLine acc) = c.requested fd connection acc := by
  have there : (c.received fd acc).connections[fd]? = some connection := known
  simp only [Control.noteDispatch, there]
  rfl

theorem requested_waits : (c.requested fd connection acc).Waits other request ↔
    c.Waits other request := by
  cases request <;> rfl

theorem requested_buffer :
    (c.requested fd connection acc).buffer other = if fd = other then acc else c.buffer other :=
    received_buffer

theorem Control.Held.requested (held : c.Held) : (c.requested fd connection acc).Held where
  connected := fun other request waits =>
    ExtTreeMap.mem_insert.mpr (Or.inr (held.connected other request (requested_waits.mp waits)))
  incomplete := held.incomplete

theorem Control.Kept.requested (kept : c.Kept) (known : c.connections[fd]? = some connection)
    (unfinished : 10 ∉ c.buffer fd) (complete : 10 ∈ acc) (nonblank : requestLine acc ≠ []) :
    (c.requested fd connection acc).Kept := by
  have quiet : dispatchedFor connection c.trace = [] := by
    simpa [unfinished] using (kept.attended fd connection known).line
  refine { kept.toHeld.requested with
    opened := (kept.toNumbered.received (mem_connections known)).opened, numbered := kept.numbered,
      apart := kept.apart
    complete := ?_, attended := ?_, once := ?_, unused := ?_ }
  · intro other request waiting
    have line := kept.complete other request (requested_waits.mp waiting)
    rw [requested_buffer]
    split_ifs
    · exact complete
    · exact line
  · intro other number there
    have attended := kept.attended other number there
    refine ⟨sentTo_dispatched.trans attended.unanswered, dispatchedFor_dispatched.trans ?_,
      ?_⟩ <;> rw [requested_buffer]
    · by_cases same : connection = number
      · obtain rfl := same
        obtain rfl := kept.apart fd other connection known there
        simp [quiet, complete]
      · have differs : fd ≠ other := by
          rintro rfl
          exact same (Option.mem_unique known there)
        simpa [same, differs] using attended.line
    · split_ifs with same
      · exact fun _ => nonblank
      · exact attended.nonblank
  · intro number
    obtain ⟨sent, dispatched⟩ := kept.once number
    refine ⟨by simpa [Control.requested] using sent, ?_⟩
    by_cases same : connection = number
    · subst same
      simp [Control.requested, quiet]
    · simpa [Control.requested, same] using dispatched
  · intro number bound
    have differs : connection ≠ number := by
      rintro rfl
      exact absurd (kept.numbered fd connection known) (Nat.not_lt.mpr bound)
    simpa [Control.requested, differs] using kept.unused number bound

/-- A new entry takes the place of another only in the table of order requests. -/
theorem register_waits {asked : Request} : (c.register fd asked).Waits other request ↔
    (request = asked ∧ other = fd) ∨ c.Waits other request ∧ ∀ a b, asked = .order a b →
    request ≠ asked := by
  cases asked <;> cases request <;> simp [Control.register, Control.Waits, Assoc.mem_assign]
  case proof.proof => tauto
  case orderProof.orderProof a b a' b' =>
    constructor
    · rintro ⟨proof, member, rfl, rfl, rfl⟩
      rcases Cells.mem_insertBefore.mp member with rfl | before
      · exact Or.inl ⟨⟨rfl, rfl⟩, rfl⟩
      · exact Or.inr ⟨proof, before, rfl, rfl, rfl⟩
    · rintro (⟨⟨rfl, rfl⟩, rfl⟩ | ⟨proof, before, same⟩)
      · exact ⟨_, Cells.mem_insertBefore.mpr (Or.inl rfl), rfl, rfl, rfl⟩
      · exact ⟨proof, Cells.mem_insertBefore.mpr (Or.inr before), same⟩

@[simp] theorem register_clientBuf : (c.register fd request).clientBuf = c.clientBuf := by
  cases request <;> rfl

@[simp] theorem register_connections : (c.register fd request).connections = c.connections := by
  cases request <;> rfl

@[simp] theorem register_trace : (c.register fd request).trace = c.trace := by
  cases request <;> rfl

@[simp] theorem register_accepted : (c.register fd request).accepted = c.accepted := by
  cases request <;> rfl

@[simp] theorem register_hungUp : (c.register fd request).hungUp = c.hungUp := by
  cases request <;> rfl

theorem Control.Held.register (held : c.Held) (connected : fd ∈ c.clientBuf) :
    (c.register fd request).Held := by
  refine ⟨fun other asked waits => ?_, fun proof member => ?_⟩
  · rw [register_clientBuf]
    rcases register_waits.mp waits with ⟨-, rfl⟩ | ⟨before, -⟩
    · exact connected
    · exact held.connected other asked before
  · cases request with
    | orderProof a b =>
        rcases Cells.mem_insertBefore.mp member with rfl | before
        · exact Or.inl rfl
        · exact held.incomplete proof before
    | _ => exact held.incomplete proof member

theorem Control.Kept.transfer {after : Control} (kept : c.Kept) (held : after.Held)
    (complete : ∀ fd request, after.Waits fd request → 10 ∈ c.buffer fd)
    (clientBuf : after.clientBuf = c.clientBuf)
    (connections : after.connections = c.connections) (accepted : after.accepted = c.accepted)
    (trace : after.trace = c.trace) : after.Kept := by
  have buffer (fd : Nat) : after.buffer fd = c.buffer fd := by simp only [Control.buffer, clientBuf]
  refine { held with
    opened := ?_, numbered := ?_, apart := ?_, complete := ?_, attended := ?_, once :=
      ?_, unused := ?_ }
  · simpa only [clientBuf, connections] using kept.opened
  · simpa only [connections, accepted] using kept.numbered
  · simpa only [connections] using kept.apart
  · simpa only [buffer] using complete
  · simpa only [connections, trace, buffer] using kept.attended
  · simpa only [trace] using kept.once
  · simpa only [accepted, trace] using kept.unused

theorem Control.Kept.register (kept : c.Kept) (there : fd ∈ c.connections)
    (line : 10 ∈ c.buffer fd) : (c.register fd request).Kept := by
  refine kept.transfer (kept.toHeld.register ((kept.opened fd).mp there))
    (fun other asked waits => ?_) register_clientBuf register_connections
    register_accepted register_trace
  rcases register_waits.mp waits with ⟨-, rfl⟩ | ⟨before, -⟩
  · exact line
  · exact kept.complete other asked before

theorem recordAll_waits : (c.recordAll callbacks).Waits other request ↔ c.Waits other request := by
  induction callbacks generalizing c with
  | nil => rfl
  | cons n rest ih => exact ih.trans record_waits

theorem recordAll_clients : (c.recordAll callbacks).clientBuf = c.clientBuf ∧
    (c.recordAll callbacks).connections = c.connections ∧
    (c.recordAll callbacks).accepted = c.accepted ∧ (c.recordAll callbacks).trace = c.trace ∧
    (c.recordAll callbacks).hungUp = c.hungUp := by
  induction callbacks generalizing c with
  | nil => exact ⟨rfl, rfl, rfl, rfl, rfl⟩
  | cons n rest ih =>
      obtain ⟨clientBuf, connections, accepted, trace, hungUp⟩ := @ih (c.record n)
      exact ⟨clientBuf.trans record_clientBuf, connections.trans record_connections,
        accepted.trans record_accepted, trace.trans record_trace, hungUp.trans record_hungUp⟩

theorem Control.Kept.recordAll (kept : c.Kept)
    (quiet : ∀ fd request, ¬c.Finished callbacks fd request) : (c.recordAll callbacks).Kept := by
  obtain ⟨clientBuf, connections, accepted, trace, -⟩ := @recordAll_clients c callbacks
  exact kept.transfer (kept.toHeld.recordAll quiet)
    (fun fd request waits => kept.complete fd request (recordAll_waits.mp waits))
    clientBuf connections accepted trace

theorem hangUp_eq (c : Control) (fd : Nat) : ∃ hungUp, c.hangUp fd = { c with hungUp } := by
  unfold Control.hangUp
  split
  · exact ⟨_, rfl⟩
  · exact ⟨c.hungUp, rfl⟩

theorem hungUp_waits {hungUp : List Nat} : ({ c with hungUp } : Control).Waits fd request ↔
    c.Waits fd request := by
  cases request <;> rfl

theorem Control.Kept.hangUp (kept : c.Kept) : (c.hangUp fd).Kept := by
  obtain ⟨hungUp, same⟩ := hangUp_eq c fd
  rw [same]
  refine kept.transfer ⟨fun other request waits => ?_, kept.incomplete⟩
    (fun other request waits => ?_) rfl rfl rfl rfl
  · exact kept.connected other request (hungUp_waits.mp waits)
  · exact kept.complete other request (hungUp_waits.mp waits)

end Clients

section Steps

variable {ν : Type} {host : Host ν} {s : Daemon ν} {input : Input ν} {fd connection : Nat}
    {chunk : Text} {acc : Text}
  {control : Control} {c : Control} {request : Request} {other : Nat} {r : Reply}

/-- The connection whose request the step dispatches, and all that the connection has sent. -/
def Daemon.dispatching (s : Daemon ν) : Input ν → Option (Nat × Text)
  | .readable fd chunk =>
      if chunk ≠ [] ∧ 10 ∈ s.control.buffer fd ++ chunk ∧
        requestLine (s.control.buffer fd ++ chunk) ≠ [] then
        some (fd, s.control.buffer fd ++ chunk)
      else none
  | _ => none

/-- The request that the step registers, its connection, and the call of the node for it. -/
def Daemon.planned (host : Host ν) (s : Daemon ν) (input : Input ν) :
    Option (Nat × Request × Call ν) :=
  match s.dispatching input with
  | some (fd, acc) => (host.plan (requestLine acc) s.node).map fun plan => (fd, plan)
  | none => none

def Daemon.asked (host : Host ν) (s : Daemon ν) (input : Input ν) : Control :=
  match s.planned host input with
  | some (fd, request, _) => s.control.register fd request
  | none => s.control

def Daemon.callbacks (host : Host ν) (s : Daemon ν) (input : Input ν) : List Notification :=
  match input with
  | .activity _ callbacks => callbacks
  | _ =>
      match s.planned host input with
      | some (_, _, call) => call.callbacks
      | none => []

/-- How the dispatch of the line ends that the input completes. -/
def DispatchEnds (host : Host ν) (s : Daemon ν) (input : Input ν) (fd : Nat)
    (ended : EStateM.Result ControlFault (Daemon ν) Reply) : Prop :=
  ∃ acc connection, s.dispatching input = some (fd, acc) ∧
    s.control.connections[fd]? = some connection ∧ dispatchGuarded host (requestLine acc) (some fd)
    ⟨s.node, s.control.requested fd connection acc⟩ = ended

/-- The step answers the connection itself: its line is blank, or what the dispatch replies is not
deferred. -/
inductive AnswersNow (host : Host ν) (s : Daemon ν) : Input ν → Nat → Prop
  | blank (fd : Nat) (chunk : Text) : chunk ≠ [] → 10 ∈ s.control.buffer fd ++ chunk →
      requestLine (s.control.buffer fd ++ chunk) = [] → AnswersNow host s (.readable fd chunk) fd
  | prompt (input : Input ν) (fd : Nat) (r : Reply) (after : Daemon ν) :
      DispatchEnds host s input fd (.ok r after) → r.deferred = false → AnswersNow host s input fd

/-- The step ends nothing that a client waits for, it reads nothing more from a connection whose
request is complete, it takes no order request for a pair that a client waits for, it answers no
client that has hung up, and no assertion fails and nothing is undefined in what it dispatches. -/
structure Careful (host : Host ν) (s : Daemon ν) (input : Input ν) : Prop where
  unfinished : ∀ fd request, ¬(s.asked host input).Finished (s.callbacks host input) fd request
  single : ∀ fd chunk, input = .readable fd chunk → chunk ≠ [] → 10 ∉ s.control.buffer fd
  unshared : ∀ fd a b call, s.planned host input = some (fd, .order a b, call) →
    ∀ other, ¬s.control.Waits other (.order a b)
  listening : ∀ fd, AnswersNow host s input fd → ¬s.control.HungUp fd
  survives : ∀ fd inner after, ¬DispatchEnds host s input fd (.error (.fault inner) after)

/-- What clients may rely on in a step: it ends by no invalid handle and with no signal, a client
whose discovery ends is sent one reply, nobody else is sent one, what a client waits for stays until
it is answered or goes, and no connection is answered or served twice. -/
structure Serves (host : Host ν) (s : Daemon ν) (input : Input ν) : Prop where
  returns : raised (step host input) s = none
  answered : ∀ fd request connection, (s.asked host input).Finished
    (s.callbacks host input) fd request → s.control.connections[fd]? = some connection →
    (sentTo connection (final (step host input) s).control.trace).length = 1
  own : ∀ connection bytes, bytes ∈ sentTo connection (final (step host input) s).control.trace →
    bytes ∈ sentTo connection s.control.trace ∨ ∃ fd, s.control.connections[fd]? = some connection ∧
      ((∃ chunk, input = .readable fd chunk) ∨
        ∃ request, (s.asked host input).Finished (s.callbacks host input) fd request)
  kept : ∀ fd request connection, s.control.Waits fd request →
    s.control.connections[fd]? = some connection →
        (final (step host input) s).control.Waits fd request ∧
        (final (step host input) s).control.connections[fd]? = some connection ∨
      sentTo connection (final (step host input) s).control.trace ≠ [] ∨ input = .readable fd []
  dispatched : ∀ fd acc connection, s.dispatching input = some (fd, acc) →
    s.control.connections[fd]? = some connection →
    dispatchedFor connection (final (step host input) s).control.trace = [requestLine acc]
  once : ∀ connection, (sentTo connection (final (step host input) s).control.trace).length ≤ 1 ∧
    (dispatchedFor connection (final (step host input) s).control.trace).length ≤ 1

def Daemon.awaiting (host : Host ν) (s : Daemon ν) (fd connection : Nat) (acc : Text) : Control :=
  ((s.control.requested fd connection acc).asked fd (host.plan (requestLine acc) s.node)).recordAll
    (planCallbacks (host.plan (requestLine acc) s.node))

inductive Outcome (host : Host ν) (s : Daemon ν) : Input ν → Control → Prop
  | accepted (fd : Nat) : Outcome host s (.accept fd) (s.control.accept fd)
  | gone (fd : Nat) : Outcome host s (.readable fd []) (s.control.closeClient fd)
  | incomplete (fd : Nat) (chunk : Text) : chunk ≠ [] → 10 ∉ s.control.buffer fd ++ chunk →
      Outcome host s (.readable fd chunk) (s.control.received fd (s.control.buffer fd ++ chunk))
  | blank (fd : Nat) (chunk : Text) (reply : Reply) :
      chunk ≠ [] → 10 ∈ s.control.buffer fd ++ chunk →
      requestLine (s.control.buffer fd ++ chunk) = [] →
      Outcome host s (.readable fd chunk) (s.control.replied fd reply)
  | deferred (input : Input ν) (fd connection : Nat) (acc : Text) :
      s.dispatching input = some (fd, acc) → s.control.connections[fd]? = some connection →
      Outcome host s input (s.awaiting host fd connection acc)
  | replied (input : Input ν) (fd connection : Nat) (acc : Text) (reply : Reply) :
      s.dispatching input = some (fd, acc) → s.control.connections[fd]? = some connection →
      Outcome host s input ((s.awaiting host fd connection acc).replied fd reply)
  | hungUp (fd : Nat) : Outcome host s (.hangUp fd) (s.control.hangUp fd)
  | active (after : ν) (callbacks : List Notification) :
      Outcome host s (.activity after callbacks) (s.control.recordAll callbacks)

theorem replied_received (connected : fd ∈ c.clientBuf) :
    (c.received fd acc).replied fd r = c.replied fd r := by
  have same : (c.clientBuf.insert fd acc).erase fd = c.clientBuf.erase fd := by
    refine ExtTreeMap.ext_getElem? fun other => ?_
    simp only [ExtTreeMap.getElem?_erase, ExtTreeMap.getElem?_insert]
    split_ifs <;> rfl
  cases known : c.connections[fd]? <;>
    simp [Control.replied, Control.received, Control.closeClient, Control.purgePendingForFd, known,
      connected, same]

theorem requested_asked_finished {plan : Option (Request × Call ν)}
    {callbacks : List Notification} :
    ((c.requested fd connection acc).asked fd plan).Finished callbacks other request ↔
      (c.asked fd plan).Finished callbacks other request := by
  match plan with
  | none => cases request <;> rfl
  | some (asked, call) => cases asked <;> cases request <;> rfl

theorem dispatching_readable (dispatching : s.dispatching input = some (fd, acc)) :
    ∃ chunk, input = .readable fd chunk ∧ acc = s.control.buffer fd ++ chunk ∧ chunk ≠ [] ∧
    10 ∈ acc ∧ requestLine acc ≠ [] := by
  cases input with
  | readable other chunk =>
      simp only [Daemon.dispatching] at dispatching
      split_ifs at dispatching with request
      cases dispatching
      exact ⟨chunk, rfl, rfl, request⟩
  | _ => simp [Daemon.dispatching] at dispatching

theorem asked_dispatching (host : Host ν) (dispatching : s.dispatching input = some (fd, acc)) :
    s.asked host input = s.control.asked fd (host.plan (requestLine acc) s.node) ∧
      s.callbacks host input = planCallbacks (host.plan (requestLine acc) s.node) := by
  obtain ⟨chunk, rfl, -⟩ := dispatching_readable dispatching
  simp only [Daemon.asked, Daemon.callbacks, Daemon.planned, dispatching]
  cases host.plan (requestLine acc) s.node <;> exact ⟨rfl, rfl⟩

theorem asked_undispatching (dispatching : s.dispatching input = none) :
    s.asked host input = s.control := by
  simp only [Daemon.asked, Daemon.planned, dispatching]

theorem Control.Held.asked {plan : Option (Request × Call ν)} (held : c.Held)
    (connected : fd ∈ c.clientBuf) : (c.asked fd plan).Held := by
  match plan with
  | none => exact held
  | some (request, _) => exact held.register connected

theorem awaiting_clients :
    (s.awaiting host fd connection acc).clientBuf = s.control.clientBuf.insert fd acc ∧
    (s.awaiting host fd connection acc).connections = s.control.connections ∧
      (s.awaiting host fd connection acc).trace = s.control.trace ++
      [.dispatched connection (requestLine acc)] ∧
      (s.awaiting host fd connection acc).hungUp = s.control.hungUp := by
  unfold Daemon.awaiting
  obtain ⟨clientBuf, connections, -, trace, hungUp⟩ := @recordAll_clients
    ((s.control.requested fd connection acc).asked fd (host.plan (requestLine acc) s.node))
    (planCallbacks (host.plan (requestLine acc) s.node))
  rw [clientBuf, connections, trace, hungUp]
  match host.plan (requestLine acc) s.node with
  | none => exact ⟨rfl, rfl, rfl, rfl⟩
  | some (request, call) => exact ⟨register_clientBuf, register_connections, register_trace,
      register_hungUp⟩

theorem awaiting_hungUp : (s.awaiting host fd connection acc).HungUp other ↔
    s.control.HungUp other := by
  obtain ⟨-, connections, -, hungUp⟩ := @awaiting_clients ν host s fd connection acc
  rw [Control.HungUp, connections, hungUp, Control.HungUp]

theorem dispatched_awaiting (kept : s.control.Kept)
    (known : s.control.connections[fd]? = some connection)
    (dispatching : s.dispatching (.readable fd chunk) = some (fd, acc))
    (quiet : ∀ other request, ¬(s.asked host (.readable fd chunk)).Finished
      (s.callbacks host (.readable fd chunk)) other request) :
    Ends (dispatchGuarded host (requestLine acc) (some fd))
      ⟨s.node, s.control.requested fd connection acc⟩
      (fun _ after => after.control = s.awaiting host fd connection acc) fun fault _ => ∃ inner,
      fault = .fault inner := by
  obtain ⟨asked, callbacks⟩ := asked_dispatching host dispatching
  obtain ⟨_, -, -, -, -, nonblank⟩ := dispatching_readable dispatching
  rw [asked, callbacks] at quiet
  have opened : fd ∈ (s.control.requested fd connection acc).clientBuf :=
    ExtTreeMap.mem_insert.mpr (Or.inr ((kept.opened fd).mp (mem_connections known)))
  refine (dispatchGuarded_quietly nonblank (kept.toHeld.requested.asked opened) fun other request
    finished => ?_).mono (fun _ _ ends => ends.1) fun _ _ ends => ends.1
  exact quiet other request (requested_asked_finished.mp finished)

theorem readable_dispatches (known : s.control.connections[fd]? = some connection)
    (dispatching : s.dispatching (.readable fd chunk) = some (fd, acc))
    {post : Unit → Daemon ν → Prop} {thrown : ControlFault → Daemon ν → Prop} :
    Ends (step host (.readable fd chunk)) s post thrown ↔
      Ends (dispatchGuarded host (requestLine acc) (some fd))
        ⟨s.node, s.control.requested fd connection acc⟩ (fun r after => (r.deferred = false →
            if fd ∈ after.control.clientBuf ∧ after.control.HungUp fd then thrown .brokenPipe after
            else post () ⟨after.node, after.control.replied fd r⟩) ∧
          (¬r.deferred = false → post () after))
        thrown := by
  obtain ⟨_, same, rfl, nonempty, complete, nonblank⟩ := dispatching_readable dispatching
  obtain rfl : chunk = _ := (Input.readable.inj same).2
  have noted : Control.noteDispatch
      { s.control with clientBuf := s.control.clientBuf.insert fd (s.control.buffer fd ++ chunk) }
      fd (requestLine (s.control.buffer fd ++ chunk)) =
        s.control.requested fd connection (s.control.buffer fd ++ chunk) :=
    noteDispatch_received known
  simp only [step, onControlReadable, if_neg nonempty, ends_onControl, ends_respond, ends_bind,
    ends_get, ends_modify, ends_when, complete, nonblank, true_implies, not_true_eq_false,
    false_implies, and_true, if_false, noted]

theorem readable_blank (nonempty : chunk ≠ []) (complete : 10 ∈ s.control.buffer fd ++ chunk)
    (blank : requestLine (s.control.buffer fd ++ chunk) = []) (connected : fd ∈ s.control.clientBuf)
    {post : Unit → Daemon ν → Prop} {thrown : ControlFault → Daemon ν → Prop} :
    Ends (step host (.readable fd chunk)) s post thrown ↔
      if s.control.HungUp fd then thrown .brokenPipe
        ⟨s.node, s.control.received fd (s.control.buffer fd ++ chunk)⟩
      else post ()
        ⟨s.node, s.control.replied fd { code := kUsage, error := text "empty request" }⟩ := by
  have same {r : Reply} : Control.replied
      { s.control with clientBuf := s.control.clientBuf.insert fd (s.control.buffer fd ++ chunk) }
      fd r = s.control.replied fd r := replied_received connected
  simp only [step, onControlReadable, if_neg nonempty, ends_onControl, ends_respond, ends_bind,
    ends_get, ends_modify, ends_when, complete, blank, true_implies, not_true_eq_false,
    false_implies, and_true, if_true, same, ExtTreeMap.mem_insert_self, true_and]
  rfl

theorem step_outcome (kept : s.control.Kept) (allowed : s.Allows input)
    (quiet : ∀ fd request, ¬(s.asked host input).Finished (s.callbacks host input) fd request) :
    Ends (step host input) s (fun _ after => Outcome host s input after.control)
      fun _ _ => (∃ fd inner after, DispatchEnds host s input fd (.error (.fault inner) after)) ∨
        ∃ fd, AnswersNow host s input fd ∧ s.control.HungUp fd := by
  cases input with
  | accept fd => exact .accepted fd
  | hangUp fd => exact .hungUp fd
  | activity after callbacks =>
      have quietly : Ends (callNode host fun _ => { after, callbacks }) s _ _ :=
        callNode_quietly quiet
      refine quietly.mono ?_ ?_
      · rintro _ _ ⟨-, rfl⟩
        exact .active after callbacks
      · rintro _ _ ⟨⟨inner, ended, -⟩, -⟩
        cases ended
  | readable fd chunk =>
      have connected := (kept.opened fd).mp allowed
      obtain ⟨connection, known⟩ := exists_connection allowed
      by_cases nonempty : chunk = []
      · subst nonempty
        exact .gone fd
      by_cases complete : 10 ∈ s.control.buffer fd ++ chunk
      · by_cases blank : requestLine (s.control.buffer fd ++ chunk) = []
        · rw [readable_blank nonempty complete blank connected]
          split
          · rename_i closed
            exact Or.inr ⟨fd, .blank fd chunk nonempty complete blank, closed⟩
          · exact .blank fd chunk _ nonempty complete blank
        · have dispatching :
            s.dispatching (.readable fd chunk) = some (fd, s.control.buffer fd ++ chunk) :=
            if_pos ⟨nonempty, complete, blank⟩
          rw [readable_dispatches known dispatching]
          refine ((dispatched_awaiting kept known dispatching quiet).and ends_self).mono ?_ ?_
          · rintro r ⟨node, _⟩ ⟨rfl, ran⟩
            refine ⟨fun prompt => ?_, fun _ => .deferred _ fd connection _ dispatching known⟩
            split
            · rename_i broken
              exact Or.inr ⟨fd, .prompt _ fd r _ ⟨_, connection, dispatching, known, ran⟩ prompt,
                awaiting_hungUp.mp broken.2⟩
            · exact .replied _ fd connection _ r dispatching known
          · rintro _ after ⟨⟨inner, rfl⟩, failed⟩
            exact Or.inl ⟨fd, inner, after, _, connection, dispatching, known, failed⟩
      · simp only [step, onControlReadable, if_neg nonempty, ends_onControl, ends_bind, ends_get,
          ends_modify, ends_when, complete, false_implies, not_false_eq_true, true_implies, true_and]
        exact .incomplete fd chunk nonempty complete

theorem DispatchEnds.raises {fault : ControlFault} {after : Daemon ν}
    (ended : DispatchEnds host s input fd (.error fault after)) :
    raised (step host input) s ≠ none := by
  obtain ⟨acc, connection, dispatching, known, failed⟩ := ended
  obtain ⟨chunk, rfl, -⟩ := dispatching_readable dispatching
  have fails : Ends (step host (.readable fd chunk)) s (fun _ _ => False) (fun _ _ => True) :=
    (readable_dispatches known dispatching).mpr (ends_error failed trivial)
  exact fun returned => fails.of_ok (ok_of_not_raised returned)

theorem answersNow_breaks (kept : s.control.Kept)
    (quiet : ∀ fd request, ¬(s.asked host input).Finished (s.callbacks host input) fd request)
    (answers : AnswersNow host s input fd) (closed : s.control.HungUp fd) :
    Breaks (step host input) s := by
  cases answers with
  | blank _ chunk nonempty complete blank =>
      have connected : fd ∈ s.control.clientBuf := by
        obtain ⟨connection, -, known⟩ := closed
        exact (kept.opened fd).mp (mem_connections known)
      rw [Breaks, readable_blank nonempty complete blank connected, if_pos closed]
      trivial
  | prompt _ _ r after ended prompt =>
      obtain ⟨acc, connection, dispatching, known, ran⟩ := ended
      obtain ⟨chunk, rfl, -⟩ := dispatching_readable dispatching
      rw [Breaks, readable_dispatches known dispatching]
      have same := (dispatched_awaiting kept known dispatching quiet).of_ok ran
      refine ends_ok ran ⟨fun _ => ?_, fun deferred => absurd prompt deferred⟩
      have broken : fd ∈ after.control.clientBuf ∧ after.control.HungUp fd := by
        rw [same]
        exact ⟨awaiting_clients.1 ▸ ExtTreeMap.mem_insert_self, awaiting_hungUp.mpr closed⟩
      rw [if_pos broken]
      trivial

theorem step_breaks (kept : s.control.Kept) (allowed : s.Allows input)
    (finished : ∃ fd request, (s.asked host input).Finished (s.callbacks host input) fd request) :
    Breaks (step host input) s := by
  have unasked (dispatching : s.dispatching input = none) :
    ¬∃ fd request, (s.asked host input).Finished [] fd request := by
    rintro ⟨fd, request, finished⟩
    rw [asked_undispatching dispatching] at finished
    exact kept.toHeld.not_finished_nil finished
  cases input with
  | accept fd => exact absurd finished (unasked rfl)
  | hangUp fd => exact absurd finished (unasked rfl)
  | activity after callbacks =>
      have breaks : Breaks (callNode host fun _ => { after, callbacks }) s :=
        callNode_breaks kept.toHeld finished
      exact breaks
  | readable fd chunk =>
      obtain ⟨connection, known⟩ := exists_connection allowed
      cases dispatching : s.dispatching (.readable fd chunk) with
      | none =>
          refine absurd ?_ (unasked dispatching)
          simpa only [Daemon.callbacks, Daemon.planned, dispatching] using finished
      | some request =>
          obtain ⟨other, acc⟩ := request
          obtain ⟨_, same, -, -, -, nonblank⟩ := dispatching_readable dispatching
          obtain rfl : fd = other := (Input.readable.inj same).1
          obtain ⟨asked, callbacks⟩ := asked_dispatching host dispatching
          rw [asked, callbacks] at finished
          have opened : fd ∈ (s.control.requested fd connection acc).clientBuf :=
            ExtTreeMap.mem_insert.mpr (Or.inr ((kept.opened fd).mp allowed))
          refine (readable_dispatches known dispatching).mpr ?_
          obtain ⟨other, request, finished⟩ := finished
          exact (dispatchGuarded_breaks nonblank (kept.toHeld.requested.asked opened)
            ⟨other, request, requested_asked_finished.mpr finished⟩).weaken fun _ _ no => no.elim

theorem awaiting_replied_trace (known : s.control.connections[fd]? = some connection) :
    ((s.awaiting host fd connection acc).replied fd r).trace = s.control.trace ++
    [.dispatched connection (requestLine acc)] ++
    [.sent connection (formatReply r.code r.error r.fields)] := by
  obtain ⟨clientBuf, connections, trace, -⟩ := @awaiting_clients ν host s fd connection acc
  rw [replied_sent (connections.symm ▸ known) (clientBuf ▸ ExtTreeMap.mem_insert_self)]
  exact congrArg (· ++ _) trace

section

variable (kept : s.control.Kept) (allowed : s.Allows input) (outcome : Outcome host s input control)

include kept allowed outcome

theorem Outcome.trace :
    ∃ noted replied, control.trace = s.control.trace ++ noted ++ replied ∧
      (s.dispatching input = none ∧ noted = [] ∨ ∃ fd acc connection,
        s.dispatching input = some (fd, acc) ∧ s.control.connections[fd]? = some connection ∧
        noted = [.dispatched connection (requestLine acc)]) ∧
      (replied = [] ∨ ∃ fd chunk connection bytes, input = .readable fd chunk ∧
        s.control.connections[fd]? = some connection ∧ replied = [.sent connection bytes]) := by
  cases outcome with
  | accepted fd => exact ⟨[], [], by simp [Control.accept], Or.inl ⟨rfl, rfl⟩, Or.inl rfl⟩
  | gone fd => exact ⟨[], [], by simp, Or.inl ⟨by simp [Daemon.dispatching], rfl⟩, Or.inl rfl⟩
  | incomplete fd chunk nonempty more =>
      exact ⟨[], [], by simp [Control.received],
        Or.inl ⟨if_neg fun request => more request.2.1, rfl⟩, Or.inl rfl⟩
  | blank fd chunk reply nonempty complete blank =>
      obtain ⟨connection, known⟩ := exists_connection allowed
      refine ⟨[], [.sent connection (formatReply reply.code reply.error reply.fields)], ?_,
        Or.inl ⟨if_neg fun request => request.2.2 blank, rfl⟩,
        Or.inr ⟨fd, chunk, connection, _, rfl, known, rfl⟩⟩
      rw [replied_sent known ((kept.opened fd).mp allowed), List.append_nil]
  | deferred _ fd connection acc dispatching known =>
      refine ⟨_, [], ?_, Or.inr ⟨fd, acc, connection, dispatching, known, rfl⟩, Or.inl rfl⟩
      rw [awaiting_clients.2.2.1, List.append_nil]
  | replied _ fd connection acc reply dispatching known =>
      obtain ⟨chunk, rfl, -⟩ := dispatching_readable dispatching
      exact ⟨_, _, awaiting_replied_trace known,
        Or.inr ⟨fd, acc, connection, dispatching, known, rfl⟩,
        Or.inr ⟨fd, chunk, connection, _, rfl, known, rfl⟩⟩
  | hungUp fd =>
      obtain ⟨hungUp, same⟩ := hangUp_eq s.control fd
      exact ⟨[], [], by simp [same], Or.inl ⟨rfl, rfl⟩, Or.inl rfl⟩
  | active after callbacks =>
      exact ⟨[], [], by simp [recordAll_clients], Or.inl ⟨rfl, rfl⟩, Or.inl rfl⟩

theorem Outcome.sent {bytes : Text} (sent : bytes ∈ sentTo connection control.trace) :
    bytes ∈ sentTo connection s.control.trace ∨
      ∃ fd chunk, input = .readable fd chunk ∧ s.control.connections[fd]? = some connection := by
  obtain ⟨noted, replied, trace, dispatches, replies⟩ := outcome.trace kept allowed
  have before :
    sentTo connection (s.control.trace ++ noted) = sentTo connection s.control.trace := by
    rcases dispatches with ⟨-, rfl⟩ | ⟨fd, acc, number, -, -, rfl⟩ <;> simp
  rw [trace] at sent
  rcases replies with rfl | ⟨fd, chunk, number, reply, rfl, known, rfl⟩
  · rw [List.append_nil, before] at sent
    exact Or.inl sent
  · rw [sentTo_sent, before, List.mem_append] at sent
    rcases sent with sent | sent
    · exact Or.inl sent
    · by_cases same : number = connection
      · exact Or.inr ⟨fd, chunk, rfl, same ▸ known⟩
      · simp [same] at sent

theorem Outcome.dispatched (dispatching : s.dispatching input = some (fd, acc))
    (known : s.control.connections[fd]? = some connection) :
    dispatchedFor connection control.trace = dispatchedFor connection s.control.trace ++
    [requestLine acc] := by
  obtain ⟨noted, replied, trace, dispatches, replies⟩ := outcome.trace kept allowed
  have after : dispatchedFor connection control.trace = dispatchedFor connection
    (s.control.trace ++ noted) := by
    rw [trace]
    rcases replies with rfl | ⟨_, _, _, _, -, -, rfl⟩
    · rw [List.append_nil]
    · exact dispatchedFor_sent
  rw [after]
  rcases dispatches with ⟨no, -⟩ | ⟨fd', acc', number, same, there, rfl⟩
  · rw [dispatching] at no
    cases no
  · obtain ⟨rfl, rfl⟩ := Prod.mk.inj (Option.mem_unique dispatching same)
    obtain rfl := Option.mem_unique known there
    simp

end

theorem Careful.registers (careful : Careful host s input)
    (dispatching : s.dispatching input = some (fd, acc)) (waits : s.control.Waits other request) :
    (s.awaiting host fd connection acc).Waits other request := by
  refine recordAll_waits.mpr ?_
  have unshared := careful.unshared fd
  simp only [Daemon.planned, dispatching] at unshared
  match plan : host.plan (requestLine acc) s.node with
  | none => exact requested_waits.mpr waits
  | some (asked, call) =>
      refine register_waits.mpr (Or.inr ⟨requested_waits.mpr waits, ?_⟩)
      rintro a b rfl rfl
      exact unshared a b call (by rw [plan]; rfl) other waits

theorem Outcome.preserves (kept : s.control.Kept) (allowed : s.Allows input)
    (careful : Careful host s input) (outcome : Outcome host s input control) : control.Kept := by
  have awaits {fd connection : Nat} {acc : Text}
      (dispatching : s.dispatching input = some (fd, acc))
      (known : s.control.connections[fd]? = some connection) :
      (s.awaiting host fd connection acc).Kept := by
    obtain ⟨chunk, rfl, -, nonempty, complete, nonblank⟩ := dispatching_readable dispatching
    have requested := kept.requested known (careful.single fd chunk rfl nonempty) complete nonblank
    have line : 10 ∈ (s.control.requested fd connection acc).buffer fd := by
      rwa [requested_buffer, if_pos rfl]
    obtain ⟨asked, callbacks⟩ := asked_dispatching host dispatching
    have quiet := careful.unfinished
    rw [asked, callbacks] at quiet
    refine Control.Kept.recordAll ?_ fun other request finished =>
      quiet other request (requested_asked_finished.mp finished)
    match host.plan (requestLine acc) s.node with
    | none => exact requested
    | some (request, call) => exact requested.register (mem_connections known) line
  cases outcome with
  | accepted fd => exact kept.accept allowed
  | gone fd => exact kept.closeClient allowed
  | incomplete fd chunk nonempty more =>
      exact kept.received allowed (careful.single fd chunk rfl nonempty) more
  | blank fd chunk reply nonempty complete blank =>
      obtain ⟨connection, known⟩ := exists_connection allowed
      exact kept.replied known
  | deferred _ fd connection acc dispatching known => exact awaits dispatching known
  | replied _ fd connection acc reply dispatching known =>
      exact (awaits dispatching known).replied (awaiting_clients.2.1.symm ▸ known)
  | hungUp fd => exact kept.hangUp
  | active after callbacks => exact kept.recordAll careful.unfinished

section

variable (known : c.connections[fd]? = some connection) (connected : fd ∈ c.clientBuf)

include known connected

theorem replied_waits :
    (c.replied fd r).Waits other request ↔ c.Waits other request ∧ other ≠ fd := by
  rw [replied_sent known connected, ← closeClient_waits connected]
  cases request <;> rfl

theorem replied_connections :
    (c.replied fd r).connections[other]? = if fd = other then none else c.connections[other]? := by
  rw [replied_sent known connected, ← closeClient_connections connected]

theorem replied_sentTo :
    sentTo connection (c.replied fd r).trace ≠ [] := by
  rw [replied_sent known connected]
  simp

end

theorem replied_keeps {other number : Nat} (waits : c.Waits other request)
    (there : c.connections[other]? = some number) (known : c.connections[fd]? = some connection)
    (connected : fd ∈ c.clientBuf) :
    (c.replied fd r).Waits other request ∧ (c.replied fd r).connections[other]? = some number ∨
      sentTo number (c.replied fd r).trace ≠ [] := by
  by_cases same : fd = other
  · subst same
    obtain rfl := Option.mem_unique known there
    exact Or.inr (replied_sentTo known connected)
  · rw [replied_waits known connected, replied_connections known connected, if_neg same]
    exact Or.inl ⟨⟨waits, Ne.symm same⟩, there⟩

theorem Outcome.keeps (kept : s.control.Kept) (allowed : s.Allows input)
    (careful : Careful host s input) (outcome : Outcome host s input control) {other number : Nat}
    (waits : s.control.Waits other request) (there : s.control.connections[other]? = some number) :
    control.Waits other request ∧ control.connections[other]? = some number ∨
      sentTo number control.trace ≠ [] ∨ input = .readable other [] := by
  cases outcome with
  | accepted fd =>
      have differs : fd ≠ other := by
        rintro rfl
        exact allowed (mem_connections there)
      refine Or.inl ⟨by cases request <;> exact waits, ?_⟩
      simpa [Control.accept, ExtTreeMap.getElem?_insert, differs] using there
  | gone fd =>
      have connected := (kept.opened fd).mp allowed
      by_cases same : fd = other
      · exact Or.inr (Or.inr (same ▸ rfl))
      · rw [closeClient_waits connected, closeClient_connections connected, if_neg same]
        exact Or.inl ⟨⟨waits, Ne.symm same⟩, there⟩
  | incomplete fd chunk nonempty more => exact Or.inl ⟨by cases request <;> exact waits, there⟩
  | blank fd chunk reply nonempty complete blank =>
      obtain ⟨connection, known⟩ := exists_connection allowed
      exact (replied_keeps waits there known ((kept.opened fd).mp allowed)).imp_right Or.inl
  | deferred _ fd connection acc dispatching known =>
      exact Or.inl ⟨careful.registers dispatching waits, awaiting_clients.2.1.symm ▸ there⟩
  | replied _ fd connection acc reply dispatching known =>
      obtain ⟨clientBuf, connections, -⟩ := @awaiting_clients ν host s fd connection acc
      exact (replied_keeps (careful.registers dispatching waits) (connections.symm ▸ there)
        (connections.symm ▸ known) (clientBuf ▸ ExtTreeMap.mem_insert_self)).imp_right Or.inl
  | hungUp fd =>
      obtain ⟨hungUp, same⟩ := hangUp_eq s.control fd
      rw [same]
      exact Or.inl ⟨hungUp_waits.mpr waits, there⟩
  | active after callbacks =>
      exact Or.inl ⟨recordAll_waits.mpr waits, recordAll_clients.2.1.symm ▸ there⟩

theorem overwritten {a b : EventHash} {call : Call ν}
    (plan : host.plan (requestLine acc) s.node = some (.order a b, call)) (differs : other ≠ fd) :
    ¬(s.awaiting host fd connection acc).Waits other (.order a b) := by
  intro waits
  rw [Daemon.awaiting, plan] at waits
  rcases Assoc.mem_assign.mp (recordAll_waits.mp waits) with same | ⟨-, apart⟩
  · exact differs (congrArg Prod.snd same)
  · exact apart rfl

theorem Outcome.overwrites {a b : EventHash} {call : Call ν}
    (outcome : Outcome host s input control) (dispatching : s.dispatching input = some (fd, acc))
    (plan : host.plan (requestLine acc) s.node = some (.order a b, call)) (differs : other ≠ fd) :
    ¬control.Waits other (.order a b) := by
  obtain ⟨chunk, rfl, rfl, nonempty, complete, nonblank⟩ := dispatching_readable dispatching
  cases outcome with
  | gone => exact absurd rfl nonempty
  | incomplete _ _ _ more => exact absurd complete more
  | blank _ _ _ _ _ blank => exact absurd blank nonblank
  | deferred _ fd' connection acc' again known =>
      obtain ⟨rfl, rfl⟩ := Prod.mk.inj (Option.mem_unique dispatching again)
      exact overwritten plan differs
  | replied _ fd' connection acc' reply again known =>
      obtain ⟨rfl, rfl⟩ := Prod.mk.inj (Option.mem_unique dispatching again)
      obtain ⟨clientBuf, connections, -⟩ := @awaiting_clients ν host s fd connection
        (s.control.buffer fd ++ chunk)
      rw [replied_waits (connections.symm ▸ known) (clientBuf ▸ ExtTreeMap.mem_insert_self)]
      exact fun waits => overwritten plan differs waits.1

theorem serves_of_careful (kept : s.control.Kept) (allowed : s.Allows input)
    (careful : Careful host s input) : Serves host s input := by
  have returns : raised (step host input) s = none := by
    cases failed : raised (step host input) s with
    | none => rfl
    | some fault =>
        obtain ⟨-, ⟨fd, inner, after, ended⟩ | ⟨fd, answers, closed⟩⟩ :=
          ends_raised (step_outcome kept allowed careful.unfinished) failed
        · exact absurd ended (careful.survives fd inner after)
        · exact absurd closed (careful.listening fd answers)
  have outcome := (step_outcome kept allowed careful.unfinished).of_ok (ok_of_not_raised returns)
  refine
    { returns, answered := fun fd request _ finished => absurd finished (careful.unfinished fd request)
      own := fun connection bytes sent => ?_, kept := fun _ _ _ waits there =>
      outcome.keeps kept allowed careful waits there
      dispatched := fun fd acc connection dispatching known => ?_, once :=
      (outcome.preserves kept allowed careful).once }
  · refine (outcome.sent kept allowed sent).imp_right ?_
    rintro ⟨fd, chunk, readable, known⟩
    exact ⟨fd, known, Or.inl ⟨chunk, readable⟩⟩
  · obtain ⟨chunk, rfl, -, nonempty, -⟩ := dispatching_readable dispatching
    have line := (kept.attended fd connection known).line
    rw [if_neg (careful.single fd chunk rfl nonempty)] at line
    rw [outcome.dispatched kept allowed dispatching known, line, List.nil_append]

theorem careful_of_serves (kept : s.control.Kept) (allowed : s.Allows input)
    (serves : Serves host s input) : Careful host s input := by
  have quiet : ∀ fd request, ¬(s.asked host input).Finished (s.callbacks host input) fd request :=
    fun fd request finished =>
      (step_breaks kept allowed ⟨fd, request, finished⟩).raised serves.returns
  have outcome := (step_outcome kept allowed quiet).of_ok (ok_of_not_raised serves.returns)
  have single : ∀ fd chunk, input = .readable fd chunk → chunk ≠ [] → 10 ∉ s.control.buffer fd := by
    rintro fd chunk rfl nonempty complete
    have line : requestLine (s.control.buffer fd ++ chunk) = requestLine (s.control.buffer fd) :=
      requestLine_append complete
    obtain ⟨connection, known⟩ := exists_connection allowed
    have attended := kept.attended fd connection known
    have dispatching :
      s.dispatching (.readable fd chunk) = some (fd, s.control.buffer fd ++ chunk) :=
      if_pos ⟨nonempty, by simp [complete], line ▸ attended.nonblank complete⟩
    -- The line is still in the buffer, so it is dispatched again.
    have twice := outcome.dispatched kept allowed dispatching known
    have once := serves.once connection
    rw [twice, attended.line, if_pos complete] at once
    simp at once
  refine ⟨quiet, single, fun fd a b call planned other waits => ?_, fun fd answers closed => ?_,
    fun _ _ _ ended => ended.raises serves.returns⟩
  swap
  · exact (answersNow_breaks kept quiet answers closed).raised serves.returns
  unfold Daemon.planned at planned
  split at planned
  · rename_i reader acc dispatching
    obtain ⟨⟨request, call'⟩, plan, same⟩ := Option.map_eq_some_iff.mp planned
    obtain ⟨rfl, rfl⟩ := Prod.mk.inj (Prod.mk.inj same).2
    obtain ⟨chunk, rfl, -, nonempty, -⟩ := dispatching_readable dispatching
    have differs : other ≠ reader := by
      rintro rfl
      exact single other chunk rfl nonempty (kept.complete other _ waits)
    obtain ⟨number, there⟩ :=
      exists_connection ((kept.opened other).mpr (kept.connected other _ waits))
    rcases serves.kept other _ number waits there with ⟨still, -⟩ | sent | gone
    · exact outcome.overwrites dispatching plan differs still
    · obtain ⟨bytes, member⟩ := List.exists_mem_of_ne_nil _ sent
      rcases outcome.sent kept allowed member with before | ⟨fd, _, readable, same⟩
      · rw [(kept.attended other number there).unanswered] at before
        cases before
      · obtain rfl := (Input.readable.inj readable).1
        exact differs (kept.apart other reader number there same)
    · exact nonempty (Input.readable.inj gone).2
  · cases planned

inductive Reaches (host : Host ν) (start : ν) : Daemon ν → Prop
  | start : Reaches host start ⟨start, {}⟩
  | step {s after : Daemon ν} {input : Input ν} : Reaches host start s → s.Allows input →
      Careful host s input → Lotid.step host input s = .ok () after → Reaches host start after

theorem kept_start : ({} : Control).Kept := by
  have none (fd connection : Nat) : ({} : Control).connections[fd]? ≠ some connection := by simp
  refine
    { connected := ?_, incomplete := ?_, opened := ?_, numbered := ?_, apart := ?_, complete := ?_
      attended := ?_, once := ?_, unused := ?_ }
  · intro fd request waits
    cases request <;> simp [Control.Waits, Multimap.empty, Assoc.empty] at waits
  · intro proof member
    simp at member
  · simp
  · exact fun fd connection known => absurd known (none fd connection)
  · exact fun fd other connection known => absurd known (none fd connection)
  · intro fd request waits
    cases request <;> simp [Control.Waits, Multimap.empty, Assoc.empty] at waits
  · exact fun fd connection known => absurd known (none fd connection)
  · simp [sentTo, dispatchedFor]
  · simp [sentTo, dispatchedFor]

theorem Reaches.kept {start : ν} (reached : Reaches host start s) : s.control.Kept := by
  induction reached with
  | start => exact kept_start
  | step _ allowed careful ran ih =>
      exact ((step_outcome ih allowed careful.unfinished).of_ok ran).preserves ih allowed careful

end Steps

def waitingHost : Host Unit where
  reference := ⟨NodeId.ofUInt64 1, []⟩
  resolveEvent ref _ := .ok (some { (default : Event) with hash := ref })
  discoverEventChain _ _ _ := { after := () }
  discoverEventBounds _ _ _ := { after := () }
  discoverEventOrder _ _ _ _ := { after := () }
  command _ _ := (.ok { code := kUsage, error := text "unknown command" }, ())
  prompt := by
    rintro args node reply replied
    cases replied
    rfl

def sampleAccepted : Daemon Unit := ⟨(), ({} : Control).accept 5⟩

def sampleRequest : Input Unit := .readable 5 (text "bounds ab\n")

theorem sampleAccepted_reached : Reaches waitingHost () sampleAccepted := by
  have idle : ∀ fd ended, ¬DispatchEnds waitingHost ⟨(), {}⟩ (.accept 5) fd ended := by
    simp [DispatchEnds, Daemon.dispatching]
  have careful : Careful waitingHost ⟨(), {}⟩ (.accept 5) := by
    refine ⟨fun fd request finished => kept_start.toHeld.not_finished_nil finished, by simp, nofun,
      fun fd answers => ?_, fun fd _ _ => idle fd _⟩
    cases answers with
    | prompt _ _ _ _ ended => exact absurd ended (idle fd _)
  exact .step .start (by simp [Daemon.Allows]) careful rfl

theorem sampleRequest_careful : Careful waitingHost sampleAccepted sampleRequest := by
  have facts : (sampleAccepted.asked waitingHost sampleRequest).orderProofs.values = [] ∧
      sampleAccepted.callbacks waitingHost sampleRequest = [] ∧
      10 ∉ sampleAccepted.control.buffer 5 ∧
      (sampleAccepted.planned waitingHost sampleRequest).map
      (fun plan => plan.2.1) = some (.bounds (text "ab")) ∧
      raised (step waitingHost sampleRequest) sampleAccepted = none := by
    decide +kernel
  obtain ⟨proofs, callbacks, buffer, planned, ran⟩ := facts
  refine ⟨fun fd request finished => ?_, ?_, fun fd a b call order => ?_, ?_, fun _ _ _ ended =>
    ended.raises ran⟩
  · rw [callbacks] at finished
    obtain ⟨proof, member, -⟩ := finished_nil finished
    simp [proofs] at member
  · rintro _ _ same -
    obtain ⟨rfl, -⟩ := Input.readable.inj same
    exact buffer
  · simp [order] at planned
  · rintro fd - ⟨connection, closed, -⟩
    cases closed

/-- A client that closes its end before it is answered ends the daemon. -/
example : raised (step waitingHost (.readable 5 (text "status\n")))
    (final (step waitingHost (.hangUp 5)) sampleAccepted) = some .brokenPipe := by decide +kernel

def sampleAsked : Daemon Unit := final (step waitingHost sampleRequest) sampleAccepted

end Loti.Lotid
