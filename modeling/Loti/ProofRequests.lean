import Loti.CommandEffects
import Loti.ControlClients
import Loti.DiscoverySoundness
import Loti.ProofExport

/-!
The `prove` requests of the daemon over whole runs. Each entry of the tables belongs to an open
connection and to the request line that it has sent, and the chains that come in through the
callbacks are those that the node's validator accepts. Whatever a callback does to the tables, and
whether or not it goes on with an invalid handle afterwards, what a client of a `prove` request has
been sent is an error or a proof that verifies.
-/

namespace Loti.Lotid

open Std StateExcept Handles OfflineProof

/-! Replies to `prove` -/

structure Validator where
  hasher : Hasher
  signer : Signer
  reference : Reference

section Honesty

variable (v : Validator)

structure Proves (args : List Text) (p : Proof) : Prop where
  reference : p.reference = v.reference
  backed : OfflineProof.Backed v.hasher v.signer p
  kind : args[1]? = some (kindName p.kind)

def Reply.Fair (args : List Text) (r : Reply) : Prop :=
  args.headD [] = text "prove" → r.error ≠ [] ∨ ∃ p, proofReply p = some r ∧ Proves v args p

def Accepted (chain : EventChain) : Prop :=
  (verifyChain v.hasher chain v.reference.node v.signer).ok = true

structure Control.Honest (c : Control) : Prop extends c.Numbered where
  noted : ∀ connection args, .dispatched connection args ∈ c.trace → connection < c.accepted ∧
    ∀ fd : Nat, c.connections[fd]? = some connection → 10 ∈ c.buffer fd ∧
    args = requestLine (c.buffer fd)
  owned : ∀ fd request, c.Waits fd request → fd ∈ c.connections ∧ 10 ∈ c.buffer fd ∧
    request.Of (requestLine (c.buffer fd))
  taken : ∀ proof ∈ c.orderProofs.values, ∀ chain, proof.chainA = some chain ∨
    proof.chainB = some chain → Accepted v chain
  sent : ∀ connection bytes, .sent connection bytes ∈ c.trace → connection < c.accepted ∧
    (∀ fd : Nat, c.connections[fd]? ≠ some connection) ∧
      ∃ r : Reply, bytes = formatReply r.code r.error r.fields ∧
        ∀ args, .dispatched connection args ∈ c.trace → r.Fair v args

variable {v} {c c' : Control} {fd connection : Nat} {r : Reply} {request : Request}

theorem honest_start : ({} : Control).Honest v where
  opened := by simp
  numbered := by simp
  apart := by simp
  noted := by simp
  owned fd request waits := by cases request <;> simp [Control.Waits, Multimap.empty, Assoc.empty] at waits
  taken := by simp
  sent := by simp

namespace Control.Honest

variable (honest : c.Honest v)

include honest

theorem narrow (clientBuf : c'.clientBuf = c.clientBuf)
    (connections : c'.connections = c.connections) (accepted : c'.accepted = c.accepted)
    (trace : c'.trace = c.trace) (waits : ∀ fd request, c'.Waits fd request → c.Waits fd request)
    (taken : ∀ proof ∈ c'.orderProofs.values, ∀ chain, proof.chainA = some chain ∨
      proof.chainB = some chain → Accepted v chain) : c'.Honest v := by
  have buffer (fd : Nat) : c'.buffer fd = c.buffer fd := by simp only [Control.buffer, clientBuf]
  refine ⟨⟨?_, ?_, ?_⟩, ?_, fun fd request waiting => ?_, taken, ?_⟩
  · simpa only [clientBuf, connections] using honest.opened
  · simpa only [connections, accepted] using honest.numbered
  · simpa only [connections] using honest.apart
  · simpa only [trace, accepted, connections, buffer] using honest.noted
  · simpa only [connections, buffer] using honest.owned fd request (waits fd request waiting)
  · simpa only [trace, accepted, connections] using honest.sent

theorem accept (free : fd ∉ c.connections) : (c.accept fd).Honest v := by
  refine ⟨honest.toNumbered.accept fd, fun number args noted => ?_, fun other request waits => ?_,
    honest.taken, fun number bytes sent => ?_⟩
  · obtain ⟨earlier, lines⟩ := honest.noted number args noted
    refine ⟨Nat.lt_succ_of_lt earlier, fun other known => ?_⟩
    rcases accept_cases known with ⟨-, rfl⟩ | ⟨differs, known⟩
    · exact absurd earlier (Nat.lt_irrefl _)
    · rw [accept_buffer differs]
      exact lines other known
  · obtain ⟨there, complete, of⟩ := honest.owned other request (by cases request <;> exact waits)
    have differs : fd ≠ other := by
      rintro rfl
      exact free there
    rw [accept_buffer differs]
    exact ⟨ExtTreeMap.mem_insert.mpr (Or.inr there), complete, of⟩
  · obtain ⟨earlier, closed, replied⟩ := honest.sent number bytes sent
    refine ⟨Nat.lt_succ_of_lt earlier, fun other known => ?_, replied⟩
    rcases accept_cases known with ⟨-, rfl⟩ | ⟨-, known⟩
    · exact absurd earlier (Nat.lt_irrefl _)
    · exact closed other known

theorem closeClient (fd : Nat) : (c.closeClient fd).Honest v := by
  by_cases connected : fd ∈ c.clientBuf
  · refine ⟨honest.toNumbered.closeClient connected, fun number args noted => ?_,
      fun other request waits => ?_, fun proof listed => ?_, fun number bytes sent => ?_⟩
    · rw [closeClient_trace] at noted
      obtain ⟨earlier, lines⟩ := honest.noted number args noted
      rw [closeClient_accepted]
      refine ⟨earlier, fun other known => ?_⟩
      obtain ⟨differs, known⟩ := closeClient_cases connected known
      rw [closeClient_buffer connected differs]
      exact lines other known
    · obtain ⟨before, differs⟩ := (closeClient_waits connected).mp waits
      obtain ⟨there, complete, of⟩ := honest.owned other request before
      rw [closeClient_buffer connected differs.symm]
      refine ⟨?_, complete, of⟩
      rw [← ExtTreeMap.isSome_getElem?_iff_mem, closeClient_connections connected,
        if_neg differs.symm]
      exact ExtTreeMap.isSome_getElem?_iff_mem.mpr there
    · rw [Control.closeClient, if_pos connected] at listed
      exact honest.taken proof ((Cells.values_keep_sublist _).subset listed)
    · rw [closeClient_trace] at sent ⊢
      obtain ⟨earlier, closed, replied⟩ := honest.sent number bytes sent
      rw [closeClient_accepted]
      exact ⟨earlier, fun other known =>
        closed other (closeClient_cases connected known).2, replied⟩
  · rw [Control.closeClient, if_neg connected]
    exact honest

theorem replied (fair : 10 ∈ c.buffer fd → r.Fair v (requestLine (c.buffer fd))) :
    (c.replied fd r).Honest v := by
  by_cases connected : fd ∈ c.clientBuf
  · obtain ⟨connection, known⟩ := exists_connection ((honest.opened fd).mpr connected)
    have closed := honest.closeClient fd
    rw [replied_sent known connected]
    refine ⟨⟨closed.opened, closed.numbered, closed.apart⟩, fun number args noted => ?_,
      closed.owned, closed.taken, fun number bytes sent => ?_⟩
    · rcases List.mem_append.mp noted with before | new
      · exact closed.noted number args (closeClient_trace.symm ▸ before)
      · simp at new
    · have noted :
          ∀ args, .dispatched number args ∈ c.trace ++
          [.sent connection (formatReply r.code r.error r.fields)] →
          .dispatched number args ∈ c.trace := by simp
      rcases List.mem_append.mp sent with before | new
      · obtain ⟨earlier, away, reply, same, fair⟩ := closed.sent number bytes
          (closeClient_trace.symm ▸ before)
        rw [closeClient_trace] at fair
        exact ⟨earlier, away, reply, same, fun args asked => fair args (noted args asked)⟩
      · obtain ⟨rfl, rfl⟩ := ControlEvent.sent.inj (List.mem_singleton.mp new)
        refine ⟨?_, fun _ => honest.toNumbered.closed known, r, rfl, fun args asked => ?_⟩
        · dsimp only
          rw [closeClient_accepted]
          exact honest.numbered fd number known
        · obtain ⟨complete, rfl⟩ := (honest.noted number args (noted args asked)).2 fd known
          exact fair complete
  · rw [Control.replied, if_neg connected]
    exact honest

theorem respond (fair : 10 ∈ c.buffer fd → r.Fair v (requestLine (c.buffer fd))) :
    EndsIn (Lotid.respond fd r) c (Control.Honest v) := by
  rw [EndsIn, ends_respond]
  split
  · exact honest
  · exact honest.replied fair

theorem received (chunk : Text) (there : fd ∈ c.connections) :
    (c.received fd (c.buffer fd ++ chunk)).Honest v := by
  have longer : ∀ other, 10 ∈ c.buffer other →
      10 ∈ (c.received fd (c.buffer fd ++ chunk)).buffer other ∧
      requestLine ((c.received fd (c.buffer fd ++ chunk)).buffer other) = requestLine
      (c.buffer other) := by
    intro other complete
    rw [received_buffer]
    split_ifs with same
    · subst same
      exact ⟨List.mem_append_left _ complete, requestLine_append complete⟩
    · exact ⟨complete, rfl⟩
  refine ⟨honest.toNumbered.received there, fun number args noted => ?_, fun other request waits =>
    ?_, honest.taken, honest.sent⟩
  · obtain ⟨earlier, lines⟩ := honest.noted number args noted
    refine ⟨earlier, fun other known => ?_⟩
    obtain ⟨complete, same⟩ := lines other known
    obtain ⟨still, line⟩ := longer other complete
    exact ⟨still, same.trans line.symm⟩
  · have before : c.Waits other request := by cases request <;> exact waits
    obtain ⟨known, complete, of⟩ := honest.owned other request before
    obtain ⟨still, line⟩ := longer other complete
    exact ⟨known, still, line.symm ▸ of⟩

theorem noteDispatch (complete : 10 ∈ c.buffer fd) :
    (c.noteDispatch fd (requestLine (c.buffer fd))).Honest v := by
  unfold Control.noteDispatch
  split
  · rename_i connection known
    refine ⟨⟨honest.opened, honest.numbered, honest.apart⟩, fun number args noted => ?_,
      fun other request waits => ?_, honest.taken, fun number bytes sent => ?_⟩
    · rcases List.mem_append.mp noted with before | new
      · exact honest.noted number args before
      · obtain ⟨rfl, rfl⟩ := ControlEvent.dispatched.inj (List.mem_singleton.mp new)
        refine ⟨honest.numbered fd number known, fun other there => ?_⟩
        obtain rfl := honest.apart fd other number known there
        exact ⟨complete, rfl⟩
    · have before : c.Waits other request := by cases request <;> exact waits
      exact honest.owned other request before
    · rcases List.mem_append.mp sent with before | new
      · obtain ⟨earlier, closed, reply, same, fair⟩ := honest.sent number bytes before
        refine ⟨earlier, closed, reply, same, fun args asked => ?_⟩
        rcases List.mem_append.mp asked with asked | new
        · exact fair args asked
        · obtain ⟨rfl, -⟩ := ControlEvent.dispatched.inj (List.mem_singleton.mp new)
          exact absurd known (closed fd)
      · simp at new
  · exact honest

theorem register (there : fd ∈ c.connections) (complete : 10 ∈ c.buffer fd)
    (of : request.Of (requestLine (c.buffer fd))) : (c.register fd request).Honest v := by
  have buffer (other : Nat) : (c.register fd request).buffer other = c.buffer other := by
    simp only [Control.buffer, register_clientBuf]
  refine ⟨⟨?_, ?_, ?_⟩, ?_, fun other asked waits => ?_, fun proof listed => ?_, ?_⟩
  · simpa only [register_clientBuf, register_connections] using honest.opened
  · simpa only [register_connections, register_accepted] using honest.numbered
  · simpa only [register_connections] using honest.apart
  · simpa only [register_trace, register_accepted, register_connections, buffer] using honest.noted
  · rw [register_connections, buffer]
    rcases register_waits.mp waits with ⟨rfl, rfl⟩ | ⟨before, -⟩
    · exact ⟨there, complete, of⟩
    · exact honest.owned other asked before
  · cases request with
    | orderProof a b =>
        rcases Cells.mem_insertBefore.mp listed with rfl | before
        · simp
        · exact honest.taken proof before
    | _ => exact honest.taken proof listed
  · simpa only [register_trace, register_accepted, register_connections] using honest.sent

end Control.Honest

theorem noteDispatch_connections {args : List Text} :
    (c.noteDispatch fd args).connections = c.connections := by
  unfold Control.noteDispatch
  split <;> rfl

theorem noteDispatch_buffer {args : List Text} {other : Nat} :
    (c.noteDispatch fd args).buffer other = c.buffer other := by
  unfold Control.noteDispatch
  split <;> rfl

/-! The callbacks -/

theorem Request.Of.fair {args : List Text} (of : request.Of args)
    (other : ∀ hash kind, request ≠ .proof hash kind) (others : ∀ a b, request ≠ .orderProof a b) :
    r.Fair v args := by
  have verbs : text "bounds" ≠ text "prove" ∧ text "chain" ≠ text "prove" ∧
    text "order" ≠ text "prove" := by simp
  intro prove
  cases request with
  | bounds hash => exact absurd (of.symm.trans prove) verbs.1
  | chain hash => exact absurd (of.symm.trans prove) verbs.2.1
  | order a b => exact absurd (of.symm.trans prove) verbs.2.2
  | proof hash kind => exact absurd rfl (other hash kind)
  | orderProof a b => exact absurd rfl (others a b)

theorem abortedReply_error : abortedReply.error ≠ [] := by decide +kernel

theorem Control.Honest.abort (honest : c.Honest v) (fd : Nat) :
    EndsIn (Lotid.respond fd abortedReply) c (Control.Honest v) :=
  honest.respond fun _ _ => Or.inl abortedReply_error

section Tables

variable {α : Type} {pending : Pending α} {hash : EventHash} {body : α → ControlM Unit}

section

variable (serves : ∀ c key value, c.Honest v → (key, value) ∈ (pending.read c).entries.values →
    EndsIn (body value) c (Control.Honest v))

include serves

theorem forRange_honest
   
    (last : Option Nat) (rounds : Nat) (it : Option Nat) :
    Keeps (Control.Honest v) (pending.forRange body last rounds it) := by
  induction rounds generalizing it with
  | zero =>
      intro c honest
      unfold Pending.forRange
      split
      · exact honest
      · cases it <;> exact honest
  | succ rounds ih =>
      intro c honest
      unfold Pending.forRange
      split
      · exact honest
      · cases it with
        | none => exact honest
        | some handle =>
            simp only [ends_bind, ends_get, ends_valid]
            refine ⟨fun entry found => ?_, fun _ => honest⟩
            refine (serves c entry.1 entry.2 honest (Cells.mem_of_get? found)).weaken fun _
              after kept => ?_
            exact ⟨fun next _ => ih next after kept, fun _ => kept⟩

theorem serve_honest
   
    (erases : ∀ (c : Control) kept, c.Honest v →
      (pending.write ((pending.read c).keep kept) c).Honest v) :
    Keeps (Control.Honest v) (pending.serve hash body) := by
  intro c honest
  simp only [Pending.serve, ends_bind, ends_get, ends_valid, ends_modify]
  refine (forRange_honest serves _ _ _ c honest).weaken fun _ after kept =>
    ⟨fun rest erased => ?_, fun _ => kept⟩
  obtain ⟨handles, -, rfl⟩ := Option.map_eq_some_iff.mp erased
  exact erases after _ kept

end

end Tables

theorem answer_bounds_honest (hash : EventHash) (reply : Reply) :
    Keeps (Control.Honest v) (answer .bounds hash reply) := by
  refine serve_honest (fun c key fd honest listed => ?_) fun c kept honest => ?_
  · obtain ⟨-, -, of⟩ := honest.owned fd (.bounds key) listed
    exact honest.respond fun _ => of.fair nofun nofun
  · refine honest.narrow rfl rfl rfl rfl (fun fd request waits => ?_) honest.taken
    cases request with
    | bounds hash => exact (Cells.values_keep_sublist kept).subset waits
    | _ => exact waits

theorem answer_chain_honest (hash : EventHash) (reply : Reply) :
    Keeps (Control.Honest v) (answer .chain hash reply) := by
  refine serve_honest (fun c key fd honest listed => ?_) fun c kept honest => ?_
  · obtain ⟨-, -, of⟩ := honest.owned fd (.chain key) listed
    exact honest.respond fun _ => of.fair nofun nofun
  · refine honest.narrow rfl rfl rfl rfl (fun fd request waits => ?_) honest.taken
    cases request with
    | chain hash => exact (Cells.values_keep_sublist kept).subset waits
    | _ => exact waits

theorem proof_keep_honest (c : Control) (kept : Nat × EventHash × ProofRequest → Bool)
    (honest : c.Honest v) :
    (Pending.proof.write ((Pending.proof.read c).keep kept) c).Honest v := by
  refine honest.narrow rfl rfl rfl rfl (fun fd request waits => ?_) honest.taken
  cases request with
  | proof hash kind => exact (Cells.values_keep_sublist kept).subset waits
  | _ => exact waits

theorem abortSingleProof_honest (hash : EventHash) :
    Keeps (Control.Honest v) (abortSingleProof hash) :=
  serve_honest (fun _ _ request honest _ => honest.abort request.fd) proof_keep_honest

theorem finishSingleProof_honest (hash : EventHash) {chain : EventChain}
    (accepted : Accepted v chain) :
    Keeps (Control.Honest v) (finishSingleProof v.reference hash chain) := by
  refine serve_honest (fun c key request honest listed => ?_) proof_keep_honest
  obtain ⟨-, -, -, kind, single⟩ := honest.owned request.fd (.proof key request.kind) listed
  simp only [ends_bind, ends_valid]
  refine ⟨fun reply replied => ?_, fun _ => honest⟩
  have differs : request.kind ≠ .order := by rcases single with same | same <;> simp [same]
  exact honest.respond fun _ _ => Or.inr ⟨_, replied, rfl,
    ⟨accepted, fun order => absurd order differs, fun _ => ⟨rfl, rfl⟩, single.imp_right Or.inl⟩,
    kind⟩

theorem eraseOrderProof_honest (handle : Nat) :
    Keeps (Control.Honest v) (eraseOrderProof handle) := by
  intro c honest
  simp only [eraseOrderProof, ends_bind, ends_get, ends_valid, ends_modify, ends_pure]
  refine ⟨fun rest erased => ?_, fun _ => honest⟩
  obtain ⟨next, -, rfl⟩ := Option.map_eq_some_iff.mp erased
  have sublist := Cells.values_keep_sublist (c := c.orderProofs) fun cell => cell.1 != handle
  refine honest.narrow rfl rfl rfl rfl (fun fd request waits => ?_) fun proof listed =>
    honest.taken proof (sublist.subset listed)
  cases request with
  | orderProof a b =>
      obtain ⟨proof, listed, rest⟩ := waits
      exact ⟨proof, sublist.subset listed, rest⟩
  | _ => exact waits

theorem eachOrderProof_honest {visit : Nat → ControlM (Option Nat)}
    (visits : ∀ handle, Keeps (Control.Honest v) (visit handle)) :
    Keeps (Control.Honest v) (eachOrderProof visit) := by
  have loop : ∀ rounds it, Keeps (Control.Honest v) (forOrderProofs visit rounds it) := by
    intro rounds
    induction rounds with
    | zero =>
        intro it c honest
        cases it <;> exact honest
    | succ rounds ih =>
        intro it
        cases it with
        | none => exact fun c honest => honest
        | some handle => exact (visits handle).bind fun next => ih next
  exact Keeps.bind (fun c honest => honest) fun c => loop _ _

theorem abortOrderProofAt_honest (hash : EventHash) (handle : Nat) :
    Keeps (Control.Honest v) (abortOrderProofAt hash handle) := by
  intro c honest
  simp only [abortOrderProofAt, ends_bind, ends_get, ends_valid]
  refine ⟨fun proof found => ?_, fun _ => honest⟩
  split
  · rw [ends_bind]
    exact (honest.abort proof.fd).weaken fun _ => eraseOrderProof_honest handle
  · simp only [ends_bind, ends_get, ends_valid]
    exact ⟨fun _ _ => honest, fun _ => honest⟩

theorem Control.Honest.take (honest : c.Honest v) {proof : OrderProof} (handle : Nat)
    (hash : EventHash) {chain : EventChain} (listed : proof ∈ c.orderProofs.values)
    (accepted : Accepted v chain) :
    ({ c with orderProofs := c.orderProofs.set handle (proof.take hash chain) } : Control).Honest
      v ∧ ∀ other, (proof.take hash chain).chainA = some other ∨
        (proof.take hash chain).chainB = some other → Accepted v other := by
  have sides : ∀ other, (proof.take hash chain).chainA = some other ∨
      (proof.take hash chain).chainB = some other → Accepted v other := by
    intro other held
    simp only [OrderProof.take] at held
    rcases held with held | held <;> split_ifs at held
    · exact Option.some.inj held ▸ accepted
    · exact honest.taken proof listed other (Or.inl held)
    · exact Option.some.inj held ▸ accepted
    · exact honest.taken proof listed other (Or.inr held)
  refine ⟨honest.narrow rfl rfl rfl rfl (fun fd request waits => ?_) fun other inside => ?_, sides⟩
  · cases request with
    | orderProof a b =>
        obtain ⟨other, inside, same⟩ := waits
        rcases Cells.mem_set inside with rfl | before
        · exact ⟨proof, listed, same⟩
        · exact ⟨other, before, same⟩
    | _ => exact waits
  · rcases Cells.mem_set inside with rfl | before
    · exact sides
    · exact honest.taken other before

theorem finishOrderProofAt_honest (hash : EventHash) {chain : EventChain}
    (accepted : Accepted v chain) (handle : Nat) :
    Keeps (Control.Honest v) (finishOrderProofAt v.reference hash chain handle) := by
  intro c honest
  simp only [finishOrderProofAt, ends_bind, ends_get, ends_valid, ends_modify]
  refine ⟨fun proof found => ?_, fun _ => honest⟩
  have listed := Cells.mem_of_get? found
  obtain ⟨-, -, -, kind⟩ := honest.owned proof.fd (.orderProof proof.a proof.b)
    ⟨proof, listed, rfl, rfl, rfl⟩
  obtain ⟨taken, sides⟩ := honest.take handle hash listed accepted
  split
  · rename_i chainA chainB first second
    simp only [ends_bind, ends_valid]
    refine ⟨fun order compared => ⟨fun reply replied => ?_, fun _ => taken⟩, fun _ => taken⟩
    refine (taken.respond fun _ _ => Or.inr ⟨_, replied, rfl, ?_, kind⟩).weaken fun _ =>
      eraseOrderProof_honest handle
    exact ⟨sides _ (Or.inl first), fun _ => ⟨sides _ (Or.inr second), compared⟩, fun other =>
      absurd rfl other, Or.inr (Or.inr rfl)⟩
  · simp only [ends_bind, ends_get, ends_valid]
    exact ⟨fun _ _ => taken, fun _ => taken⟩

theorem answerOrder_honest (a b : Event) (reply : Reply) :
    Keeps (Control.Honest v) (answerOrder a b reply) := by
  intro c honest
  simp only [answerOrder, ends_bind, ends_get]
  split
  · exact honest
  · simp only [ends_bind, ends_get, ends_valid, ends_modify]
    refine ⟨fun entry found => ?_, fun _ => honest⟩
    obtain ⟨-, -, of⟩ := honest.owned entry.2 (.order entry.1.1 entry.1.2) (Cells.mem_of_get? found)
    refine (honest.respond fun _ => of.fair (by simp) (by simp)).weaken fun _ after answered => ?_
    refine ⟨fun rest erased => ?_, fun _ => answered⟩
    obtain ⟨next, -, rfl⟩ := Option.map_eq_some_iff.mp erased
    refine answered.narrow rfl rfl rfl rfl (fun fd request waits => ?_) answered.taken
    cases request with
    | order a b => exact (Cells.values_keep_sublist _).subset waits
    | _ => exact waits

theorem onNotification_honest {accepts : EventChain → Bool}
    (accepting : ∀ chain, accepts chain = true → Accepted v chain) {n : Notification}
    (justified : n.Justified accepts) :
    Keeps (Control.Honest v) (onNotification v.reference n) := by
  cases n with
  | chainCompleted callback e chain =>
      cases callback with
      | node => exact fun c honest => honest
      | client registration =>
          have accepted := accepting chain justified.1
          refine Keeps.bind (fun c honest => honest) fun c => Keeps.bind ?_ fun _ =>
            (finishSingleProof_honest e.hash accepted).bind fun _ =>
              eachOrderProof_honest (finishOrderProofAt_honest e.hash accepted)
          intro c honest
          rw [ends_when]
          exact ⟨fun _ => answer_chain_honest e.hash _ c honest, fun _ => honest⟩
  | chainAborted callback e =>
      cases callback with
      | node => exact fun c honest => honest
      | client registration =>
          exact (answer_chain_honest e.hash _).bind fun _ =>
            (abortSingleProof_honest e.hash).bind fun _ =>
            eachOrderProof_honest (abortOrderProofAt_honest e.hash)
  | boundsCompleted registration e lower upper => exact answer_bounds_honest e.hash _
  | boundsAborted registration e => exact answer_bounds_honest e.hash _
  | orderCompleted registration a b order => exact answerOrder_honest a b _
  | orderAborted registration a b => exact answerOrder_honest a b _

end Honesty

/-! The node and the commands -/

section Serving

variable {σ : Type} [Store σ] (setup : Setup)

theorem addPeer_discoveries (id : NodeId) (ip : Text) (port : UInt16) :
    Preserves (fun d : Members σ => d.node.discoveries) (addPeer setup id ip port) := by
  have aside : Aside (NodeState.discoveries (σ := σ)) := fun _ _ _ _ _ _ _ _ => rfl
  refine Preserves.bind (fun d => ?_) fun _ _ => rfl
  simp only [Loti.addPeer, Loti.onNode, ends_bind, ends_zoom, ends_get, ends_ofExcept, ends_modify]
  refine (addNeighbor_aside aside id d.node).weaken fun _ noted same => ?_
  refine (learnRoute_aside aside id id noted).mono (fun _ _ routed => ?_) fun _ _ routed =>
    routed.trans same
  exact ⟨fun _ _ => routed.trans same, fun _ _ => routed.trans same⟩

omit [Store σ] in
theorem onNode_discoveries {α : Type} {m : NodeM σ α}
    (preserves : Preserves NodeState.discoveries m) :
    Preserves (fun d : Members σ => d.node.discoveries) (onNode m) := by
  intro d
  rw [onNode, ends_zoom]
  exact preserves d.node

theorem restoreFrom_discoveries (path : Text) (blob : Bytes) :
    Preserves (fun d : Members σ => d.node.discoveries) (restoreFrom setup path blob) :=
  (onNode_discoveries (restore_aside (fun _ _ _ _ _ _ _ _ => rfl) blob)).bind fun _ =>
    preserves_get.bind fun _ => preserves_pure _

theorem dbRestore_discoveries (args : List Text) :
    Preserves (fun d : Members σ => d.node.discoveries) (dbRestore setup args) := by
  unfold dbRestore
  split
  · refine preserves_get.bind fun d => ?_
    split
    · exact preserves_pure _
    · intro d
      rw [ends_tryCatch]
      refine (restoreFrom_discoveries setup _ _ d).mono
        (fun _ _ same => same) fun fault after same => ?_
      split <;> exact same
  · exact preserves_pure _

theorem command_discoveries (args : List Text) :
    Preserves (fun d : Members σ => d.node.discoveries) (command setup args) := by
  have aside : Aside (NodeState.discoveries (σ := σ)) := fun _ _ _ _ _ _ _ _ => rfl
  intro d
  refine command_cases setup (fun entry member _ => ?_) rfl
  revert d
  change Preserves (fun d : Members σ => d.node.discoveries) (entry.2 args)
  simp only [verbs, List.mem_cons, List.not_mem_nil, or_false] at member
  rcases member with
    rfl | rfl | rfl | rfl | rfl | rfl | rfl | rfl | rfl | rfl | rfl | rfl | rfl | rfl | rfl <;> dsimp only
  · unfold publish
    split
    · exact (onNode_discoveries (publishEvent_aside aside _)).bind fun _ =>
        Preserves.bind (fun _ => rfl) fun _ => preserves_pure _
    · exact preserves_pure _
  · exact event_preserves args
  · exact eventFind_preserves args
  · exact (readStore_reads _).bind fun _ => preserves_pure _
  · unfold peerAdd
    split
    · split
      · exact (addPeer_discoveries setup _ _ _).bind fun _ => preserves_pure _
      · exact preserves_pure _
    · exact preserves_pure _
  · exact preserves_get.bind fun _ => preserves_pure _
  · exact preserves_get.bind fun _ => preserves_pure _
  · exact preserves_pure _
  · exact save_preserves setup args
  · exact dbStat_preserves setup args
  · exact (onNode_discoveries (gc_aside aside)).bind fun _ => preserves_get.bind fun _ =>
      preserves_pure _
  · exact dbBackup_preserves (fun _ _ => rfl) setup args
  · exact dbRestore_discoveries setup args
  · exact quit_preserves (fun _ _ => rfl) args
  · exact quit_preserves (fun _ _ => rfl) args

/-! The daemon -/

def Setup.validator : Validator := ⟨setup.env.hasher, setup.env.signer, myReference setup⟩

def Members.Sound (d : Members σ) : Prop :=
  d.node.Justified setup.env

structure Daemon.Truthful (s : Daemon (Members σ)) : Prop where
  sound : s.node.Sound setup
  honest : s.control.Honest setup.validator

/-- A call of the node that tells only what its validator accepts. -/
def Sincere (call : Members σ → Call (Members σ)) : Prop :=
  ∀ d, d.Sound setup → (call d).after.Sound setup ∧
    ∀ n ∈ (call d).callbacks, n.Justified (validateChainDiscoveryResult setup.env)

theorem fitting_any (s : NodeState σ) (action : NodeAction) :
    Fitting (fun _ _ => True) setup.env s action := by
  cases action with
  | onPacketReceived datagram => exact fun _ _ _ _ _ _ _ _ _ _ _ => trivial
  | _ => trivial

theorem perform_sound (action : NodeAction) :
    Keeps (fun s : NodeState σ => s.Justified setup.env)
      (perform setup.env action) := fun s sound =>
  (perform_advances action sound (fun _ _ _ => trivial) (fitting_any setup s action)).imp fun _
    serves => serves.sound

theorem nodeCall_sincere (action : NodeAction) :
    Sincere setup (nodeCall (σ := σ) (perform setup.env action)) := by
  intro d sound
  have after := ends_final.mp (perform_sound setup action d.node sound)
  exact ⟨after, fun n member => after.notified n (List.mem_of_mem_drop member)⟩

variable {setup} {s : Daemon (Members σ)} {args : List Text} {fd : Nat} {request : Request}
  {call : Members σ → Call (Members σ)}

theorem callNode_truthful (sincere : Sincere setup call) :
    Keeps (Daemon.Truthful setup) (callNode (lotidHost setup) call) := by
  intro s truthful
  obtain ⟨sound, justified⟩ := sincere s.node truthful.sound
  have told : ∀ n ∈ (call s.node).callbacks, Keeps (Control.Honest setup.validator)
    (onNotification (myReference setup) n) :=
    fun n member =>
    onNotification_honest (fun _ accepted => accepted) (justified n member)
  simp only [callNode, ends_bind, ends_get, ends_modify, ends_onControl, ends_ofExcept]
  refine (keeps_forM told s.control truthful.honest).mono
    (fun _ control honest => ?_) fun _ control honest => ⟨sound, honest⟩
  exact ⟨fun _ _ => ⟨sound, honest⟩, fun _ _ => ⟨sound, honest⟩⟩

/-- How a dispatch may end: a reply that is given at once is an error, or none to `prove`. -/
def Settles (setup : Setup) (args : List Text) (s : Daemon (Members σ)) (r : Reply)
    (after : Daemon (Members σ)) : Prop :=
  after.Truthful setup ∧
    (r.deferred = false → r.error ≠ [] ∨ args.headD [] ≠ text "prove" ∧ after.control = s.control)

omit [Store σ] in
theorem Daemon.Truthful.register (truthful : s.Truthful setup) (there : fd ∈ s.control.connections)
    (complete : 10 ∈ s.control.buffer fd) (of : request.Of (requestLine (s.control.buffer fd))) :
    Daemon.Truthful setup { s with control := s.control.register fd request } :=
  ⟨truthful.sound, truthful.honest.register there complete of⟩

theorem called_settles (sincere : Sincere setup call) {start : Daemon (Members σ)}
    (truthful : s.Truthful setup) :
    Ends (callNode (lotidHost setup) call >>= fun _ => pure { deferred := true }) s
      (Settles setup args start) fun _ => Daemon.Truthful setup := by
  rw [ends_bind]
  exact (callNode_truthful sincere s truthful).weaken fun _ _ kept => ⟨kept, nofun⟩

theorem discovers_sincere (discovers : (lotidHost setup).Discovers call) :
    Sincere setup call := by
  cases discovers with
  | chain e range => exact nodeCall_sincere setup (.discoverEventChain e range 0)
  | bounds e range => exact nodeCall_sincere setup (.discoverEventBounds e range 0)
  | order a b range => exact nodeCall_sincere setup (.discoverEventOrder a b range 0)

theorem runCommand_sound (args : List Text) (sound : s.node.Sound setup) :
    (runCommand setup args s.node).2.Sound setup := by
  have same : (final (command setup args) s.node).Sound setup := by
    unfold Members.Sound NodeState.Justified NodeState.Sound
    rw [(command_discoveries setup args).final (s := s.node)]
    exact sound
  unfold runCommand
  unfold final at same
  cases ran : command setup args s.node <;> rwa [ran] at same

section Dispatching

variable (truthful : s.Truthful setup) (there : fd ∈ s.control.connections)
    (complete : 10 ∈ s.control.buffer fd)
  (line : requestLine (s.control.buffer fd) = args) (nonempty : args ≠ [])

include truthful there complete line nonempty

theorem dispatch_settles :
    Ends (dispatch (lotidHost setup) args (some fd)) s (Settles setup args s) fun _ =>
    Daemon.Truthful setup := by
  have asks {request : Request} (of : request.Of args) := truthful.register there complete
    (line.symm ▸ of)
  have planned : Planned (lotidHost setup) args fd s
    (dispatch (lotidHost setup) args (some fd)) _ := dispatch_planned nonempty
  generalize (lotidHost setup).plan args s.node = plan at planned
  cases planned with
  | fails fault ran => exact ends_error ran truthful
  | refuses reply ran error _ => exact ends_ok ran ⟨truthful, fun _ => Or.inl error⟩
  | commands other ran =>
      have after := runCommand_sound args truthful.sound
      refine Ends.of_eq ?_ ran
      rw [ends_ofExcept]
      exact ⟨fun _ _ => ⟨⟨after, truthful.honest⟩, fun _ => Or.inr ⟨other, rfl⟩⟩, fun _ _ =>
        ⟨after, truthful.honest⟩⟩
  | asks request call of discovers ran =>
      exact (called_settles (discovers_sincere discovers) (asks of)).of_eq ran
  | asksTwice request first second of one two ran =>
      refine Ends.of_eq ?_ ran
      rw [ends_bind]
      refine (callNode_truthful (discovers_sincere one) _ (asks of)).weaken fun _ _ kept => ?_
      exact called_settles (discovers_sincere two) kept

theorem dispatchGuarded_settles :
    Ends (dispatchGuarded (lotidHost setup) args (some fd)) s (Settles setup args s) fun _ =>
    Daemon.Truthful setup := by
  unfold dispatchGuarded
  refine ends_tryCatch.mpr ((dispatch_settles truthful there complete line nonempty).mono
    (fun _ _ settled => settled) ?_)
  intro fault after kept
  split
  · refine ⟨kept, fun _ => Or.inl fun empty => ?_⟩
    exact absurd (List.append_eq_nil_iff.mp empty).1 (by decide +kernel)
  · exact kept

end Dispatching

theorem onControlReadable_truthful (truthful : s.Truthful setup)
    (there : fd ∈ s.control.connections) (chunk : Text) :
    EndsIn (onControlReadable (lotidHost setup) fd chunk) s (Daemon.Truthful setup) := by
  unfold onControlReadable
  split
  · exact ⟨truthful.sound, truthful.honest.closeClient fd⟩
  · have received := truthful.honest.received chunk there
    generalize taken : s.control.buffer fd ++ chunk = acc at received ⊢
    have buffer : (s.control.received fd acc).buffer fd = acc := received_buffer.trans (if_pos rfl)
    simp only [ends_onControl, ends_bind, ends_get, ends_modify, ends_when, taken]
    refine ⟨fun complete => ?_, fun _ => ⟨truthful.sound, received⟩⟩
    split
    · rw [ends_onControl]
      exact (received.respond fun _ _ => Or.inl (by decide +kernel)).imp fun _ kept =>
        ⟨truthful.sound, kept⟩
    · rename_i some
      have noted := received.noteDispatch (buffer.symm ▸ complete)
      rw [buffer] at noted
      have line : ((s.control.received fd acc).noteDispatch fd (requestLine acc)).buffer fd = acc :=
        noteDispatch_buffer.trans buffer
      have connected :
        fd ∈ ((s.control.received fd acc).noteDispatch fd (requestLine acc)).connections := by
        rw [noteDispatch_connections]
        exact there
      simp only [ends_onControl, ends_bind, ends_modify, ends_when]
      refine (dispatchGuarded_settles
        (s := ⟨s.node, (s.control.received fd acc).noteDispatch fd (requestLine acc)⟩)
        ⟨truthful.sound, noted⟩ connected (by rwa [line])
        (congrArg requestLine line) some).weaken ?_
      rintro r after ⟨kept, prompt⟩
      refine ⟨fun now => ?_, fun _ => kept⟩
      refine Ends.imp (kept.honest.respond fun _ prove => ?_) fun _ stays => ⟨kept.sound, stays⟩
      rcases prompt now with error | ⟨other, same⟩
      · exact Or.inl error
      · rw [same, line] at prove
        exact absurd prove other

/-- What the node does of its own accord, or for a command on standard input. -/
def Genuine (setup : Setup) (s : Daemon (Members σ)) : Input (Members σ) → Prop
  | .activity after callbacks => ∃ actions,
      after.node = final (runActions setup.env actions) s.node.node ∧
      callbacks = after.node.discoveries.notified.drop s.node.node.discoveries.notified.length
  | _ => True

theorem step_truthful (truthful : s.Truthful setup) {input : Input (Members σ)}
    (allowed : s.Allows input) (genuine : Genuine setup s input) :
    EndsIn (step (lotidHost setup) input) s (Daemon.Truthful setup) := by
  cases input with
  | accept fd => exact ⟨truthful.sound, truthful.honest.accept allowed⟩
  | hangUp fd =>
      obtain ⟨hungUp, same⟩ := hangUp_eq s.control fd
      have kept : (s.control.hangUp fd).Honest setup.validator := by
        rw [same]
        exact truthful.honest.narrow rfl rfl rfl rfl
          (fun _ _ => hungUp_waits.mp) truthful.honest.taken
      exact ⟨truthful.sound, kept⟩
  | readable fd chunk => exact onControlReadable_truthful truthful allowed chunk
  | activity after callbacks =>
      obtain ⟨actions, node, told⟩ := genuine
      have runs : Keeps (fun s : NodeState σ => s.Justified setup.env)
        (runActions setup.env actions) := keeps_runActions fun action _ =>
        perform_sound setup action
      have kept := ends_final.mp (runs s.node.node truthful.sound)
      rw [← node] at kept
      have sincere : Sincere setup fun _ => { after, callbacks } := fun _ _ =>
        ⟨kept, fun n member => kept.notified n (List.mem_of_mem_drop (told ▸ member))⟩
      exact callNode_truthful sincere s truthful

/-- The states of a daemon, those behind a step that did not return included. -/
inductive Serving (setup : Setup) : Daemon (Members σ) → Prop
  | start (d : Members σ) (store : σ) : d.node = .boot setup.env store → Serving setup ⟨d, {}⟩
  | step {s : Daemon (Members σ)} {input : Input (Members σ)} : Serving setup s → s.Allows input →
      Genuine setup s input → Serving setup (final (step (lotidHost setup) input) s)

theorem Serving.truthful (serving : Serving setup s) : s.Truthful setup := by
  induction serving with
  | start d store booted =>
      refine ⟨?_, honest_start⟩
      unfold Members.Sound
      rw [booted]
      exact boot_sound setup.env store
  | step serving allowed genuine ih => exact ends_final.mp (step_truthful ih allowed genuine)

end Serving

/-! Offline verification -/

structure Setup.SignedBy (setup : Setup) (ed : Ed25519) (keys : KeyStore) : Prop where
  id : setup.env.id = keys.nodeId ed setup.env.hasher
  publicKey : setup.publicKey = some (keys.publicKey ed)
  signer : setup.env.signer = keys.signer ed setup.env.hasher

theorem formatReply_ok {r : Reply}
    (completed : text "LOTI/1 OK" <+: formatReply r.code r.error r.fields) : r.error = [] := by
  by_contra failed
  have split : text "LOTI/1 OK" = text "LOTI/1" ++ text " OK" := by decide +kernel
  rw [split] at completed
  simp only [formatReply, if_neg failed, List.append_assoc] at completed
  have status := (List.prefix_append_right_inj _).mp completed
  have front : text " OK" = (text " ERR ").take (text " OK").length := by
    have taken := List.prefix_iff_eq_take.mp status
    rwa [List.take_append_of_le_length (by decide +kernel)] at taken
  exact absurd front (by decide +kernel)

/-- Offline verification accepts every proof that a signed daemon emits. Whenever a `prove` request
is answered with a reply that is not an error, the client reads the bytes of a proof of the kind
asked for; they read back as that proof, and any key store verifies it, with the bounds or the order
reported. -/
theorem proofs_verify_offline {σ : Type} [Store σ] {setup : Setup} {ed : Ed25519} {keys : KeyStore}
    (signed : setup.SignedBy ed keys) {s : Daemon (Members σ)} (serving : Serving setup s)
    {input : Input (Members σ)}
    (allowed : s.Allows input) (genuine : Genuine setup s input) {connection : Nat}
    {args : List Text} {bytes : Text}
    (asked : .dispatched connection args ∈ (final (step (lotidHost setup) input) s).control.trace)
    (prove : args.headD [] = text "prove")
    (sent : .sent connection bytes ∈ (final (step (lotidHost setup) input) s).control.trace)
    (completed : text "LOTI/1 OK" <+: bytes) :
    ∃ p, args[1]? = some (kindName p.kind) ∧ ∀ (chunks : List Text) (rest : List ReadResult),
      chunks.flatten = bytes → ∃ reply, controlRequest (chunks.map .bytes ++ rest) = .ok reply ∧
        lastField (text "proof") reply.fields = hex (serialize p) ∧
        doProve (.ok reply) = .wrote (serialize p) ∧
        (Fits p → ∀ wordBits, (⟨serialize p, wordBits⟩ : Wire.Buffer).Addressable →
          deserialize ⟨serialize p, wordBits⟩ = .ok p) ∧
        ∀ other : KeyStore, ∃ result, verify setup.env.hasher p (other.signer ed setup.env.hasher) =
          result ∧ result.valid = true ∧
          (p.kind = .order → lastField (text "order") reply.fields = decimal
            (orderNumber result.order)) ∧
          (p.kind ≠ .order → lastField (text "lower") reply.fields = decimal result.lower.toInt ∧
            lastField (text "upper") reply.fields = decimal result.upper.toInt) := by
  have honest := (ends_final.mp (step_truthful serving.truthful allowed genuine)).honest
  obtain ⟨-, -, r, rfl, fair⟩ := honest.sent connection bytes sent
  obtain ⟨p, replied, proves⟩ := (fair args asked prove).resolve_left
    (not_not_intro (formatReply_ok completed))
  refine ⟨p, proves.kind, fun chunks rest cut => ?_⟩
  obtain ⟨reply, read, answers, wrote⟩ := doProve_wrote replied cut rest
  refine ⟨reply, read, answers.proof, wrote, fun fits wordBits room =>
    deserialize_serialize proves.backed.canonical fits room, fun other => ?_⟩
  have identity : fingerprint setup.env.hasher p.reference.pubkey = p.reference.node := by
    rw [proves.reference]
    change fingerprint setup.env.hasher (setup.publicKey.getD []) = setup.env.id
    rw [signed.publicKey, signed.id]
    exact (KeyStore.fingerprint_eq _ _).symm
  have alike : setup.env.signer.verify = (other.signer ed setup.env.hasher).verify := by
    rw [signed.signer]
    rfl
  obtain ⟨front, back, frontFound, backFound, verified⟩ := proves.backed.verified alike
    (Or.inr identity)
  refine ⟨_, verified, rfl, answers.order, fun bounds => ⟨?_, ?_⟩⟩
  · obtain ⟨first, firstFound, reported⟩ := answers.lower bounds
    rw [reported, Option.mem_unique firstFound frontFound]
  · obtain ⟨last, lastFound, reported⟩ := answers.upper bounds
    rw [reported, Option.mem_unique lastFound backFound]

def signedSetup : Setup where
  env := signedEnv
  publicKey := some (sampleKeys.publicKey digestEd25519)
  lmdbPath := none
  system := sampleSystem

instance {ν : Type} (s : Daemon ν) (input : Input ν) : Decidable (s.Allows input) :=
  match input with
  | .accept fd => inferInstanceAs (Decidable (fd ∉ s.control.connections))
  | .readable fd _ | .hangUp fd => inferInstanceAs (Decidable (fd ∈ s.control.connections))
  | .activity _ _ => inferInstanceAs (Decidable True)

def acting (actions : List NodeAction) (s : Daemon (Members InMemoryStore)) :
    Input (Members InMemoryStore) :=
  let node := final (runActions signedSetup.env actions) s.node.node
  .activity { s.node with node }
  (node.discoveries.notified.drop s.node.node.discoveries.notified.length)

def tickingAt (now : Timestamp) : Daemon (Members InMemoryStore) → Input (Members InMemoryStore) :=
  acting [.setClock now, .createClockEvent 0]

def provingInputs : List (Daemon (Members InMemoryStore) → Input (Members InMemoryStore)) :=
  [tickingAt 10, fun _ => .accept 5, fun _ => .readable 5 (text "publish hello" ++ [10]),
    tickingAt 20, fun _ => .accept 5, fun _ => .readable 5 (text "publish again" ++ [10]),
    tickingAt 30, fun _ => .accept 5]

def provingDaemon : Daemon (Members InMemoryStore) :=
  provingInputs.foldl (fun s input => final (step (lotidHost signedSetup) (input s)) s)
    ⟨{ node := .boot signedSetup.env {} }, {}⟩

def firstEvent : Text := hex (provingDaemon.node.node.store.events.headD default).hash

def proveLine (what : Text) : Input (Members InMemoryStore) :=
  .readable 5 (text "prove " ++ what ++ [10])

def provedTrace (what : Text) : List ControlEvent :=
  (final (step (lotidHost signedSetup) (proveLine what)) provingDaemon).control.trace

def provedBytes (what : Text) : Text := (sentTo 2 (provedTrace what)).headD []

theorem provingDaemon_serving : Serving signedSetup provingDaemon := by
  have started : Serving signedSetup ⟨{ node := .boot signedSetup.env ({} : InMemoryStore) }, {}⟩ :=
    .start _ {} rfl
  have accepts {s : Daemon (Members InMemoryStore)} (serving : Serving signedSetup s)
      (free : 5 ∉ s.control.connections) :
      Serving signedSetup (final (step (lotidHost signedSetup) (.accept 5)) s) :=
      serving.step free trivial
  have ticks {s : Daemon (Members InMemoryStore)} (serving : Serving signedSetup s)
      (now : Timestamp) :
      Serving signedSetup (final (step (lotidHost signedSetup) (tickingAt now s)) s) :=
      serving.step trivial ⟨_, rfl, rfl⟩
  have sends {s : Daemon (Members InMemoryStore)} (serving : Serving signedSetup s) (line : Text)
      (there : 5 ∈ s.control.connections) :
      Serving signedSetup (final (step (lotidHost signedSetup) (.readable 5 line)) s) :=
    serving.step there trivial
  have hello := sends (accepts (ticks started 10) (by decide +kernel))
    (text "publish hello" ++ [10]) (by decide +kernel)
  have again := sends (accepts (ticks hello 20) (by decide +kernel)) (text "publish again" ++ [10])
    (by decide +kernel)
  exact accepts (ticks again 30) (by decide +kernel)

/-- The bytes the client gets, and what `loti` and a verifier make of them. -/
def ProvedOffline (what : Text) : Prop :=
  .sent 2 (provedBytes what) ∈ provedTrace what ∧ ∃ p, kindName p.kind = what.takeWhile (· ≠ 32) ∧
    doProve (controlRequest [.bytes (provedBytes what)]) = .wrote (serialize p) ∧
    ∀ other : KeyStore, (verify signedSetup.env.hasher p
      (other.signer digestEd25519 signedSetup.env.hasher)).valid = true

theorem proofs_verify_offline_sample :
    ProvedOffline (text "bounds last") ∧
    ProvedOffline (text "order " ++ firstEvent ++ text " last") := by
  have facts : ∀ what ∈ [text "bounds last", text "order " ++ firstEvent ++ text " last"],
      .dispatched 2 (requestLine (text "prove " ++ what ++ [10])) ∈ provedTrace what ∧
      .sent 2 (provedBytes what) ∈ provedTrace what ∧ text "LOTI/1 OK" <+: provedBytes what ∧
      (requestLine (text "prove " ++ what ++ [10]))[0]? = some (text "prove") ∧
      (requestLine (text "prove " ++ what ++ [10]))[1]? = some (what.takeWhile (· ≠ 32)) ∧
      provingDaemon.Allows (proveLine what) := by decide +kernel
  have signed : signedSetup.SignedBy digestEd25519 sampleKeys := ⟨rfl, rfl, rfl⟩
  have proved : ∀ what ∈ [text "bounds last", text "order " ++ firstEvent ++ text " last"],
    ProvedOffline what := by
    intro what listed
    obtain ⟨asked, sent, completed, verb, named, allowed⟩ := facts what listed
    obtain ⟨p, kind, read⟩ :=
      proofs_verify_offline signed provingDaemon_serving allowed trivial asked
      (by rw [List.headD_eq_head?_getD, List.head?_eq_getElem?, verb]; rfl) sent completed
    obtain ⟨reply, parsed, -, wrote, -, verified⟩ := read [provedBytes what] [] (List.append_nil _)
    refine ⟨sent, p, (Option.mem_unique named kind).symm, ?_, fun other => ?_⟩
    · rw [← wrote, ← parsed]
      rfl
    · obtain ⟨result, same, valid, -⟩ := verified other
      rw [same]
      exact valid
  exact ⟨proved _ (by simp), proved _ (by simp)⟩

end Loti.Lotid
