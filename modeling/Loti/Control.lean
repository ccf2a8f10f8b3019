import Loti.Discovery
import Loti.Library.Handles

/-!
The control side of the daemon in `src/app/lotid/lotid.cpp`, with the reply format of
`src/adapters/os/control.hpp`: the connections of control clients, the five tables of requests
whose reply waits for a discovery, the callbacks that answer them, and the dispatch of a request.

`std::string` is a list of bytes. Iterators are handles into the containers; what `respond` and
`close_client` erase makes the handles of the callers' loops invalid. The node and the commands
that are answered at once stand behind the interface `Host`, with any callbacks during a call.
-/

namespace Loti.Lotid

open Std StateExcept Handles OfflineProof

abbrev Text := Bytes

def text (literal : String) : Text := literal.toUTF8.data.toList

@[simp] theorem text_inj {a b : String} : text a = text b ↔ a = b :=
  ⟨fun same => String.toByteArray_inj.mp (ByteArray.ext (Array.toList_inj.mp same)),
    fun same => same ▸ rfl⟩

@[simp] theorem text_eq_nil {a : String} : text a = [] ↔ a = "" := text_inj (b := "")

def decimal (value : Int) : Text := text (toString value)

def hexDigit (value : Nat) : UInt8 := UInt8.ofNat (if value < 10 then 48 + value else 87 + value)

def hex (bytes : Bytes) : Text :=
  bytes.flatMap fun byte => [hexDigit (byte.toNat / 16), hexDigit (byte.toNat % 16)]

def hexId (id : NodeId) : Text := text "0x" ++ hex id.bytes

def printable (bytes : Bytes) : Text :=
  bytes.map fun byte => if 0x20 ≤ byte ∧ byte < 0x7f then byte else 46

def tokenizeFrom (cur : Text) : Text → List Text
  | [] => if cur = [] then [] else [cur]
  | c :: rest =>
      if c = 32 ∨ c = 9 ∨ c = 13 then
        if cur = [] then tokenizeFrom [] rest else cur :: tokenizeFrom [] rest
      else tokenizeFrom (cur ++ [c]) rest

def tokenize (line : Text) : List Text := tokenizeFrom [] line

/-- `std::stoll`; it throws when there is no digit or the value does not fit. -/
def stoll (s : Text) : Option Int64 :=
  let unspaced := s.dropWhile fun c => c = 32 || 9 ≤ c && c ≤ 13
  let (negative, unsigned) := match unspaced with
    | 45 :: rest => (true, rest)
    | 43 :: rest => (false, rest)
    | rest => (false, rest)
  let digits := unsigned.takeWhile fun c => 48 ≤ c && c ≤ 57
  let magnitude : Int := digits.foldl (fun value digit => value * 10 + (digit.toNat - 48)) 0
  let value := if negative then -magnitude else magnitude
  if digits = [] ∨ value < Int64.minValue.toInt ∨ Int64.maxValue.toInt < value then none
  else some (Int64.ofInt value)

def parseRange (args : List Text) (start : Nat) : TimeRange :=
  match args[start]?, args[start + 1]? with
  | some first, some second =>
      match stoll first, stoll second with
      | some lo, some hi => ⟨lo, hi⟩
      | _, _ => .all
  | _, _ => .all

/-! Replies -/

abbrev ControlFields := List (Text × Text)

def kOk : Nat := 0
def kUsage : Nat := 2
def kNotFound : Nat := 4
def kInvalidResult : Nat := 6

structure Reply where
  code : Nat := kOk
  deferred : Bool := false
  error : Text := []
  fields : ControlFields := []
deriving DecidableEq

def formatReply (code : Int) (error : Text) (fields : ControlFields) : Text :=
  let status :=
    if error = [] then text " OK " ++ decimal code ++ [10]
    else text " ERR " ++ decimal code ++ [32] ++ error ++ [10]
  text "LOTI/1" ++ status ++ (fields.flatMap fun field => field.1 ++ [9] ++ field.2 ++ [10]) ++ [10]

def clockLine (ce : ClockEvent) : Text :=
  text "creator=" ++ hexId ce.creator ++ text " hash=" ++ hex ce.hash ++ text " ts=" ++
    decimal ce.timestamp.toInt

def chainPathFields (c : EventChain) : ControlFields :=
  let reference := match c.lowerBound with
    | [] => NodeId.ofUInt64 0
    | front :: _ => front.creator
  [(text "reference", hexId reference)] ++
    c.lowerBound.map (fun ce => (text "lower", clockLine ce)) ++
    [(text "event", hex c.event.hash), (text "content", printable c.event.data)] ++
    c.upperBound.map (fun ce => (text "upper", clockLine ce)) ++
    [(text "clockEvents", decimal (c.lowerBound.length + c.upperBound.length))]

def kindName : Kind → Text
  | .bounds => text "bounds"
  | .order => text "order"
  | .chain => text "chain"
  | .other _ => text "unknown"

def orderNumber : Order → Int
  | .before => -1
  | .undetermined => 0
  | .after => 1
  | .other value => value.toInt

/-- `none` is the undefined `front()` or `back()` of an empty bound. -/
def proofReply (p : Proof) : Option Reply := do
  let shared : ControlFields :=
    [(text "proof", hex (serialize p)), (text "kind", kindName p.kind),
      (text "reference", hexId p.reference.node),
      (text "chainLength", decimal (p.chain.lowerBound.length + p.chain.upperBound.length))]
  if p.kind = .order then
    return { fields := shared ++
      [(text "chain2Length", decimal (p.chain2.lowerBound.length + p.chain2.upperBound.length)),
        (text "order", decimal (orderNumber p.order))] }
  let lower ← p.chain.lowerBound.head?
  let upper ← p.chain.upperBound.getLast?
  return { fields := shared ++ [(text "lower", decimal lower.timestamp.toInt),
    (text "upper", decimal upper.timestamp.toInt)] }

def abortedReply : Reply := { code := kInvalidResult, error := text "discovery aborted" }

/-! Clients and what they wait for -/

structure ProofRequest where
  fd : Nat
  kind : Kind
deriving DecidableEq

structure OrderProof where
  fd : Nat
  a : EventHash
  b : EventHash
  chainA : Option EventChain := none
  chainB : Option EventChain := none
deriving DecidableEq

/-- What a client can observe, by connection: its request is dispatched, and it is sent bytes. -/
inductive ControlEvent
  | dispatched (connection : Nat) (args : List Text)
  | sent (connection : Nat) (bytes : Text)
deriving DecidableEq

/-- The members of `Lotid` that serve control clients, and below them the system's sockets:
descriptors are reused, connections are numbered as they are accepted. -/
structure Control where
  clientBuf : ExtTreeMap Nat Text := ∅
  pendingBounds : Multimap EventHash Nat := .empty
  pendingChain : Multimap EventHash Nat := .empty
  pendingOrder : Assoc (EventHash × EventHash) Nat := .empty
  pendingProof : Multimap EventHash ProofRequest := .empty
  orderProofs : Cells OrderProof := .empty
  connections : ExtTreeMap Nat Nat := ∅
  accepted : Nat := 0
  /-- The connections whose clients have closed their end. -/
  hungUp : List Nat := []
  trace : List ControlEvent := []

/-- How a call ends other than by returning: it uses an iterator whose element is gone, or the
front of an empty deque; it writes to a client that has closed its end, and `SIGPIPE` ends the
process; or by a fault of what it calls. -/
inductive ControlFault
  | invalidHandle
  | brokenPipe
  | fault (fault : Fault)
deriving DecidableEq

abbrev ControlM := EStateM ControlFault Control

def valid {σ α : Type} : Option α → EStateM ControlFault σ α
  | some value => pure value
  | none => throw .invalidHandle

/-- The sockets block, so a write ends when all bytes are with the system, or not at all. -/
def writeAll (fd : Nat) (bytes : Text) : ControlM Bool := do
  let c ← get
  match c.connections[fd]? with
  | some connection =>
      when (connection ∈ c.hungUp) (throw .brokenPipe)
      modify fun c => { c with trace := c.trace ++ [.sent connection bytes] }
      return true
  | none => return false

def Control.purgePendingForFd (c : Control) (fd : Nat) : Control :=
  { c with
    pendingBounds := c.pendingBounds.eraseIf fun entry => entry.2 == fd
    pendingChain := c.pendingChain.eraseIf fun entry => entry.2 == fd
    pendingOrder := c.pendingOrder.eraseIf fun entry => entry.2 == fd
    pendingProof := c.pendingProof.eraseIf fun entry => entry.2.fd == fd
    orderProofs := c.orderProofs.eraseIf fun proof => proof.fd == fd }

def Control.closeClient (c : Control) (fd : Nat) : Control :=
  if fd ∈ c.clientBuf then
    { c.purgePendingForFd fd with connections := c.connections.erase fd, clientBuf := c.clientBuf.erase fd }
  else c

def respond (fd : Nat) (r : Reply) : ControlM Unit := do
  when (fd ∈ (← get).clientBuf) do
    let _ ← writeAll fd (formatReply r.code r.error r.fields)
    modify fun c => c.closeClient fd

structure Pending (α : Type) where
  read : Control → Multimap EventHash α
  write : Multimap EventHash α → Control → Control

def Pending.bounds : Pending Nat :=
  ⟨Control.pendingBounds, fun table c => { c with pendingBounds := table }⟩

def Pending.chain : Pending Nat :=
  ⟨Control.pendingChain, fun table c => { c with pendingChain := table }⟩

def Pending.proof : Pending ProofRequest :=
  ⟨Control.pendingProof, fun table c => { c with pendingProof := table }⟩

/-- `for (it = first; it != last; ++it)`. Elements are only ever erased meanwhile, so the loop
ends within as many rounds as there were elements at first. -/
def Pending.forRange {α : Type} (pending : Pending α) (body : α → ControlM Unit)
    (last : Option Nat) : Nat → Option Nat → ControlM Unit
  | rounds, it =>
      if it = last then pure ()
      else
        match rounds, it with
        | rounds + 1, some handle => do
            let entry ← valid ((pending.read (← get)).entries.get? handle)
            body entry.2
            let next ← valid ((pending.read (← get)).entries.after? handle)
            pending.forRange body last rounds next
        | _, none => throw .invalidHandle
        | 0, some _ => throw (.fault .diverges)

def Pending.serve {α : Type} (pending : Pending α) (hash : EventHash) (body : α → ControlM Unit) :
    ControlM Unit := do
  let table := pending.read (← get)
  let range := table.equalRange hash
  pending.forRange body range.2 table.entries.cells.length range.1
  let rest ← valid ((pending.read (← get)).eraseRange? range.1 range.2)
  modify (pending.write rest)

def answer (pending : Pending Nat) (hash : EventHash) (reply : Reply) : ControlM Unit :=
  pending.serve hash fun fd => respond fd reply

def abortPending (pending : Pending Nat) (hash : EventHash) : ControlM Unit :=
  answer pending hash abortedReply

def finishSingleProof (reference : Reference) (hash : EventHash) (c : EventChain) : ControlM Unit :=
  Pending.proof.serve hash fun request => do
    let reply ← valid (proofReply ⟨request.kind, reference, c, ⟨default, [], []⟩, .undetermined⟩)
    respond request.fd reply

def abortSingleProof (hash : EventHash) : ControlM Unit :=
  Pending.proof.serve hash fun request => respond request.fd abortedReply

/-- The loop over `order_proofs_`; `visit` returns the next iterator. -/
def forOrderProofs (visit : Nat → ControlM (Option Nat)) : Nat → Option Nat → ControlM Unit
  | _, none => pure ()
  | 0, some _ => throw (.fault .diverges)
  | rounds + 1, some handle => do
      let next ← visit handle
      forOrderProofs visit rounds next

def eachOrderProof (visit : Nat → ControlM (Option Nat)) : ControlM Unit := do
  let proofs := (← get).orderProofs
  forOrderProofs visit proofs.cells.length proofs.begin

def eraseOrderProof (handle : Nat) : ControlM (Option Nat) := do
  let (rest, next) ← valid ((← get).orderProofs.erase? handle)
  modify fun c => { c with orderProofs := rest }
  pure next

def OrderProof.take (proof : OrderProof) (hash : EventHash) (c : EventChain) : OrderProof :=
  { proof with
    chainA := if proof.a = hash ∧ proof.chainA = none then some c else proof.chainA
    chainB := if proof.b = hash ∧ proof.chainB = none then some c else proof.chainB }

def finishOrderProofAt (reference : Reference) (hash : EventHash) (c : EventChain) (handle : Nat) :
    ControlM (Option Nat) := do
  let proof ← valid ((← get).orderProofs.get? handle)
  let proof := proof.take hash c
  modify fun s => { s with orderProofs := s.orderProofs.set handle proof }
  match proof.chainA, proof.chainB with
  | some chainA, some chainB => do
      let order ← valid (compare chainA chainB)
      let reply ← valid (proofReply ⟨.order, reference, chainA, chainB, order⟩)
      respond proof.fd reply
      eraseOrderProof handle
  | _, _ => valid ((← get).orderProofs.after? handle)

def finishOrderProof (reference : Reference) (hash : EventHash) (c : EventChain) : ControlM Unit :=
  eachOrderProof (finishOrderProofAt reference hash c)

def abortOrderProofAt (hash : EventHash) (handle : Nat) : ControlM (Option Nat) := do
  let proof ← valid ((← get).orderProofs.get? handle)
  if proof.a = hash ∨ proof.b = hash then
    respond proof.fd abortedReply
    eraseOrderProof handle
  else valid ((← get).orderProofs.after? handle)

def abortOrderProof (hash : EventHash) : ControlM Unit := eachOrderProof (abortOrderProofAt hash)

/-! Discovery callbacks -/

def onChainCompleted (reference : Reference) (e : Event) (c : EventChain) : ControlM Unit := do
  when (e.hash ∈ (← get).pendingChain.entries.values.map Prod.fst)
    (answer .chain e.hash { fields := chainPathFields c })
  finishSingleProof reference e.hash c
  finishOrderProof reference e.hash c

def onChainAborted (e : Event) : ControlM Unit := do
  abortPending .chain e.hash
  abortSingleProof e.hash
  abortOrderProof e.hash

def onBoundsCompleted (e : Event) (lo hi : Timestamp) : ControlM Unit :=
  answer .bounds e.hash { fields :=
    [(text "event", hex e.hash), (text "lower", decimal lo.toInt), (text "upper", decimal hi.toInt),
      (text "interval", decimal (hi - lo).toInt)] }

def onBoundsAborted (e : Event) : ControlM Unit := abortPending .bounds e.hash

/-- What both order callbacks do: one client is answered and its entry erased. -/
def answerOrder (a b : Event) (reply : Reply) : ControlM Unit := do
  match (← get).pendingOrder.find (a.hash, b.hash) with
  | none => pure ()
  | some handle =>
      let entry ← valid ((← get).pendingOrder.entries.get? handle)
      respond entry.2 reply
      let rest ← valid ((← get).pendingOrder.erase? handle)
      modify fun c => { c with pendingOrder := rest }

def onOrderCompleted (a b : Event) (o : Order) : ControlM Unit :=
  answerOrder a b { fields :=
    [(text "event1", hex a.hash), (text "event2", hex b.hash),
      (text "order", decimal (orderNumber o))] }

def onOrderAborted (a b : Event) : ControlM Unit := answerOrder a b abortedReply

/-- The node invokes a callback. Its own callbacks do not reach the daemon, and the daemon is its
only client. -/
def onNotification (reference : Reference) : Notification → ControlM Unit
  | .chainCompleted (.client _) e c => onChainCompleted reference e c
  | .chainAborted (.client _) e => onChainAborted e
  | .chainCompleted .node _ _ | .chainAborted .node _ => pure ()
  | .boundsCompleted _ e lo hi => onBoundsCompleted e lo hi
  | .boundsAborted _ e => onBoundsAborted e
  | .orderCompleted _ a b o => onOrderCompleted a b o
  | .orderAborted _ a b => onOrderAborted a b

/-! Requests -/

inductive Request
  | bounds (hash : EventHash)
  | chain (hash : EventHash)
  | order (a b : EventHash)
  | proof (hash : EventHash) (kind : Kind)
  | orderProof (a b : EventHash)
deriving DecidableEq

def Control.register (c : Control) (fd : Nat) : Request → Control
  | .bounds hash => { c with pendingBounds := c.pendingBounds.insert hash fd }
  | .chain hash => { c with pendingChain := c.pendingChain.insert hash fd }
  | .order a b => { c with pendingOrder := c.pendingOrder.assign (a, b) fd }
  | .proof hash kind => { c with pendingProof := c.pendingProof.insert hash ⟨fd, kind⟩ }
  | .orderProof a b => { c with orderProofs := c.orderProofs.pushBack { fd, a, b } }

/-- A call of the node: the node after it, the callbacks invoked meanwhile, and how it ends. -/
structure Call (ν : Type) where
  after : ν
  callbacks : List Notification := []
  ended : Except Fault Unit := .ok ()

/-- The node as the dispatch uses it: `my_reference`, `resolve_event`, the discoveries, and the
verbs that are answered at once. -/
structure Host (ν : Type) where
  reference : Reference
  resolveEvent : Text → ν → Except Fault (Option Event)
  discoverEventChain : Event → TimeRange → ν → Call ν
  discoverEventBounds : Event → TimeRange → ν → Call ν
  discoverEventOrder : Event → Event → TimeRange → ν → Call ν
  command : List Text → ν → Except Fault Reply × ν
  prompt : ∀ args node reply, (command args node).1 = .ok reply → reply.deferred = false

structure Daemon (ν : Type) where
  node : ν
  control : Control := {}

abbrev DaemonM (ν : Type) := EStateM ControlFault (Daemon ν)

section Dispatch

variable {ν : Type} (host : Host ν)

def onControl {α : Type} (m : ControlM α) : DaemonM ν α :=
  zoom Daemon.control (fun control s => { s with control }) m

@[simp] theorem ends_onControl {α : Type} {m : ControlM α} {s : Daemon ν}
    {post : α → Daemon ν → Prop} {thrown : ControlFault → Daemon ν → Prop} :
    Ends (onControl m) s post thrown ↔
      Ends m s.control (fun value control => post value { s with control })
      fun fault control => thrown fault { s with control } := ends_zoom

def callNode (call : ν → Call ν) : DaemonM ν Unit := do
  let result := call (← get).node
  modify fun s => { s with node := result.after }
  onControl (result.callbacks.forM (onNotification host.reference))
  ofExcept .fault result.ended

def resolveEvent (ref : Text) : DaemonM ν (Option Event) := do
  ofExcept .fault (host.resolveEvent ref (← get).node)

def register (request : Request) (replyFd : Option Nat) : DaemonM ν Unit :=
  match replyFd with
  | some fd => modify fun s => { s with control := s.control.register fd request }
  | none => pure ()

def startedReply (replyFd : Option Nat) : Reply :=
  if replyFd.isSome then { deferred := true } else { fields := [(text "status", text "started")] }

def noSuchEvent : Reply := { code := kNotFound, error := text "no such event" }

def dispatchQuery (verb : Text) (args : List Text) (replyFd : Option Nat) : DaemonM ν Reply :=
  if verb = text "order" then
    match args with
    | _ :: first :: second :: _ => do
        match ← resolveEvent host first, ← resolveEvent host second with
        | some a, some b =>
            register (.order a.hash b.hash) replyFd
            callNode host (host.discoverEventOrder a b (parseRange args 3))
            pure (startedReply replyFd)
        | _, _ => pure noSuchEvent
    | _ => pure { code := kUsage, error := text "usage: order <a> <b>" }
  else
    match args with
    | _ :: ref :: _ => do
        match ← resolveEvent host ref with
        | some e =>
            if verb = text "bounds" then
              register (.bounds e.hash) replyFd
              callNode host (host.discoverEventBounds e (parseRange args 2))
            else
              register (.chain e.hash) replyFd
              callNode host (host.discoverEventChain e (parseRange args 2))
            pure (startedReply replyFd)
        | none => pure noSuchEvent
    | _ => pure { code := kUsage, error := text "usage: " ++ verb ++ text " <event>" }

def dispatchProve (args : List Text) (replyFd : Option Nat) : DaemonM ν Reply :=
  match args, replyFd with
  | _ :: sub :: rest, some fd =>
      if sub = text "order" then
        match rest with
        | first :: second :: _ => do
            match ← resolveEvent host first, ← resolveEvent host second with
            | some a, some b =>
                register (.orderProof a.hash b.hash) (some fd)
                callNode host (host.discoverEventChain a (parseRange args 4))
                callNode host (host.discoverEventChain b (parseRange args 4))
                pure { deferred := true }
            | _, _ => pure noSuchEvent
        | _ => pure { code := kUsage, error := text "usage: prove order <a> <b>" }
      else if sub ≠ text "bounds" ∧ sub ≠ text "chain" then
        pure { code := kUsage, error := text "prove kind must be bounds|order|chain" }
      else
        match rest with
        | ref :: _ => do
            match ← resolveEvent host ref with
            | some e =>
                register (.proof e.hash (if sub = text "chain" then .chain else .bounds)) (some fd)
                callNode host (host.discoverEventChain e (parseRange args 3))
                pure { deferred := true }
            | none => pure noSuchEvent
        | [] => pure { code := kUsage, error := text "usage: prove " ++ sub ++ text " <event>" }
  | _ :: _ :: _, none => pure { code := kUsage, error := text "prove requires the control socket" }
  | _, _ =>
      pure { code := kUsage, error := text "usage: prove <bounds|order|chain> <event> [event2]" }

def dispatch (args : List Text) (replyFd : Option Nat) : DaemonM ν Reply :=
  let verb := args.headD []
  if verb = text "bounds" ∨ verb = text "chain" ∨ verb = text "order" then
    dispatchQuery host verb args replyFd
  else if verb = text "prove" then dispatchProve host args replyFd
  else do
    let (reply, after) := host.command args (← get).node
    modify fun s => { s with node := after }
    ofExcept .fault reply

def dispatchGuarded (args : List Text) (replyFd : Option Nat) : DaemonM ν Reply :=
  tryCatch (dispatch host args replyFd) fun
    | .fault (.exception what) =>
        pure { code := kUsage, error := text "command failed: " ++ text what }
    | fault => throw fault

def Control.accept (c : Control) (fd : Nat) : Control :=
  { c with
    clientBuf := c.clientBuf.insert fd []
    connections := c.connections.insert fd c.accepted
    accepted := c.accepted + 1 }

/-- The client closes its end. What it has sent is still read, and after that the end of the
stream. -/
def Control.hangUp (c : Control) (fd : Nat) : Control :=
  match c.connections[fd]? with
  | some connection => { c with hungUp := connection :: c.hungUp }
  | none => c

def Control.buffer (c : Control) (fd : Nat) : Text := c.clientBuf.getD fd []

def Control.noteDispatch (c : Control) (fd : Nat) (args : List Text) : Control :=
  match c.connections[fd]? with
  | some connection => { c with trace := c.trace ++ [.dispatched connection args] }
  | none => c

def requestLine (acc : Text) : List Text := tokenize (acc.takeWhile (· ≠ 10))

theorem requestLine_append {acc chunk : Text} (complete : 10 ∈ acc) :
    requestLine (acc ++ chunk) = requestLine acc := by
  have stops : acc.takeWhile (· ≠ 10) ≠ acc := by
    intro same
    simpa using List.takeWhile_eq_self_iff.mp same 10 complete
  rw [requestLine, requestLine, List.takeWhile_append, if_neg]
  intro whole
  exact stops ((List.takeWhile_prefix _).eq_of_length whole)

/-- An empty chunk is the end of the stream, or an error of `read`. -/
def onControlReadable (fd : Nat) (chunk : Text) : DaemonM ν Unit :=
  if chunk = [] then onControl (modify fun c => c.closeClient fd)
  else do
    let acc := (← get).control.buffer fd ++ chunk
    onControl (modify fun c => { c with clientBuf := c.clientBuf.insert fd acc })
    when (10 ∈ acc) do
      let args := requestLine acc
      if args = [] then onControl (respond fd { code := kUsage, error := text "empty request" })
      else
        onControl (modify fun c => c.noteDispatch fd args)
        let r ← dispatchGuarded host args (some fd)
        when (r.deferred = false) (onControl (respond fd r))

/-- What reaches the daemon: a connection, bytes or the end of a connection, or any activity of the
node (a datagram, a timer, a command on standard input) with the callbacks it invokes. A client
that hangs up reaches it only in what it then reads or writes. -/
inductive Input (ν : Type)
  | accept (fd : Nat)
  | readable (fd : Nat) (chunk : Text)
  | hangUp (fd : Nat)
  | activity (after : ν) (callbacks : List Notification)

def step : Input ν → DaemonM ν Unit
  | .accept fd => onControl (modify fun c => c.accept fd)
  | .readable fd chunk => onControlReadable host fd chunk
  | .hangUp fd => onControl (modify fun c => c.hangUp fd)
  | .activity after callbacks => callNode host fun _ => { after, callbacks }

def Daemon.Allows (s : Daemon ν) : Input ν → Prop
  | .accept fd => fd ∉ s.control.connections
  | .readable fd _ | .hangUp fd => fd ∈ s.control.connections
  | .activity _ _ => True

end Dispatch

end Loti.Lotid
