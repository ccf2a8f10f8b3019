import Loti.Control

/-!
What the discovery callbacks do to the tables of waiting clients. A callback that ends nothing a
client waits for passes through the tables. One that does answers the client, which erases the
entry the loop stands on, and the loop goes on with an invalid handle.
-/

namespace Loti.Lotid

open Std StateExcept Handles

def Control.Waits (c : Control) (fd : Nat) : Request → Prop
  | .bounds hash => (hash, fd) ∈ c.pendingBounds.entries.values
  | .chain hash => (hash, fd) ∈ c.pendingChain.entries.values
  | .order a b => ((a, b), fd) ∈ c.pendingOrder.entries.values
  | .proof hash kind => (hash, ⟨fd, kind⟩) ∈ c.pendingProof.entries.values
  | .orderProof a b => ∃ proof ∈ c.orderProofs.values, proof.fd = fd ∧ proof.a = a ∧ proof.b = b

def completes? : Notification → Option (EventHash × EventChain)
  | .chainCompleted (.client _) e c => some (e.hash, c)
  | _ => none

def aborts? : Notification → Option EventHash
  | .chainAborted (.client _) e => some e.hash
  | _ => none

def boundsEnded? : Notification → Option EventHash
  | .boundsCompleted _ e _ _ | .boundsAborted _ e => some e.hash
  | _ => none

def orderEnded? : Notification → Option (EventHash × EventHash)
  | .orderCompleted _ a b _ | .orderAborted _ a b => some (a.hash, b.hash)
  | _ => none

def Completed (callbacks : List Notification) (hash : EventHash) : Prop :=
  ∃ n ∈ callbacks, ∃ chain, completes? n = some (hash, chain)

def Aborted (callbacks : List Notification) (hash : EventHash) : Prop :=
  ∃ n ∈ callbacks, aborts? n = some hash

def OrderProof.FinishedBy (callbacks : List Notification) (proof : OrderProof) : Prop :=
  Aborted callbacks proof.a ∨ Aborted callbacks proof.b ∨
    (proof.chainA ≠ none ∨ Completed callbacks proof.a) ∧
    (proof.chainB ≠ none ∨ Completed callbacks proof.b)

/-- The client waits for the request, and the callbacks end the discoveries behind it. -/
def Control.Finished (c : Control) (callbacks : List Notification) (fd : Nat) : Request → Prop
  | .bounds hash => c.Waits fd (.bounds hash) ∧ ∃ n ∈ callbacks, boundsEnded? n = some hash
  | .chain hash => c.Waits fd (.chain hash) ∧ (Completed callbacks hash ∨ Aborted callbacks hash)
  | .order a b => c.Waits fd (.order a b) ∧ ∃ n ∈ callbacks, orderEnded? n = some (a, b)
  | .proof hash kind => c.Waits fd (.proof hash kind) ∧
      (Completed callbacks hash ∨ Aborted callbacks hash)
  | .orderProof a b => ∃ proof ∈ c.orderProofs.values, (proof.fd = fd ∧ proof.a = a ∧ proof.b = b) ∧
      proof.FinishedBy callbacks

def Control.record (c : Control) (n : Notification) : Control :=
  match completes? n with
  | some (hash, chain) =>
      { c with orderProofs := c.orderProofs.alter fun _ proof => proof.take hash chain }
  | none => c

structure Control.Held (c : Control) : Prop where
  connected : ∀ fd request, c.Waits fd request → fd ∈ c.clientBuf
  incomplete : ∀ proof ∈ c.orderProofs.values, proof.chainA = none ∨ proof.chainB = none

@[simp] theorem ends_valid {σ α : Type} {result : Option α} {s : σ} {post : α → σ → Prop}
    {thrown : ControlFault → σ → Prop} :
    Ends (valid result : EStateM ControlFault σ α) s post thrown ↔
      (∀ value, result = some value → post value s) ∧
      (result = none → thrown .invalidHandle s) := by
  cases result <;> simp [valid]

@[simp] def ControlFault.Fatal : ControlFault → Prop
  | .invalidHandle | .brokenPipe => True
  | .fault _ => False

def Breaks {σ α : Type} (m : EStateM ControlFault σ α) (s : σ) : Prop :=
  Ends m s (fun _ _ => False) fun fault _ => fault.Fatal

def Leaves {σ α : Type} (m : EStateM ControlFault σ α) (s after : σ) : Prop :=
  Returns m s (fun _ reached => reached = after)

section Rules

variable {σ α β : Type} {m : EStateM ControlFault σ α} {next : α → EStateM ControlFault σ β}
    {s middle after : σ}

theorem Breaks.bind (breaks : Breaks m s) : Breaks (m >>= next) s :=
  ends_bind.mpr (breaks.weaken fun _ _ no => no.elim)

theorem Leaves.bind (yields : Leaves m s middle)
    (rest : ∀ value, Leaves (next value) middle after) : Leaves (m >>= next) s after :=
  ends_bind.mpr (yields.always fun value _ same => same ▸ rest value)

theorem Leaves.bind_breaks (yields : Leaves m s middle)
    (rest : ∀ value, Breaks (next value) middle) : Breaks (m >>= next) s :=
  ends_bind.mpr (yields.always fun value _ same => same ▸ rest value)

theorem Breaks.raised (breaks : Breaks m s) : raised m s ≠ none := by
  unfold Breaks Ends at breaks
  unfold StateExcept.raised
  cases ran : m s <;> simp_all

end Rules

section Serving

variable {c : Control} {fd : Nat} {r : Reply} {hash : EventHash} {α : Type}

def Control.replied (c : Control) (fd : Nat) (r : Reply) : Control :=
  if fd ∈ c.clientBuf then
    Control.closeClient (match c.connections[fd]? with
      | some connection =>
          { c with trace := c.trace ++ [.sent connection (formatReply r.code r.error r.fields)] }
      | none => c) fd
  else c

structure Pending.Owned (pending : Pending α) (owner : α → Nat) : Prop where
  write_read : ∀ c, pending.write (pending.read c) c = c
  replied : ∀ c fd r, fd ∈ c.clientBuf →
    pending.read (c.replied fd r) = (pending.read c).eraseIf fun entry => owner entry.2 == fd

def Control.HungUp (c : Control) (fd : Nat) : Prop :=
  ∃ connection ∈ c.hungUp, c.connections[fd]? = some connection

instance (c : Control) (fd : Nat) : Decidable (c.HungUp fd) :=
  inferInstanceAs (Decidable (∃ connection ∈ c.hungUp, c.connections[fd]? = some connection))

@[simp] theorem ends_respond {post : Unit → Control → Prop}
    {thrown : ControlFault → Control → Prop} : Ends (respond fd r) c post thrown ↔
    if fd ∈ c.clientBuf ∧ c.HungUp fd then thrown .brokenPipe c
    else post () (c.replied fd r) := by
  by_cases connected : fd ∈ c.clientBuf
  · cases known : c.connections[fd]? with
    | none => simp [respond, writeAll, Control.replied, Control.HungUp, connected, known]
    | some connection =>
        by_cases closed : connection ∈ c.hungUp <;>
          simp [respond, writeAll, Control.replied, Control.HungUp, connected, known, closed]
  · simp [respond, Control.replied, connected]

theorem respond_breaks_or_leaves (c : Control) (fd : Nat) (r : Reply) :
    Breaks (respond fd r) c ∨ Leaves (respond fd r) c (c.replied fd r) := by
  by_cases broken : fd ∈ c.clientBuf ∧ c.HungUp fd
  · exact Or.inl (by simp [Breaks, broken])
  · exact Or.inr (by simp [Leaves, broken])

theorem replied_eq (connected : fd ∈ c.clientBuf) : ∃ trace, c.replied fd r =
    { c.purgePendingForFd fd with
      connections := c.connections.erase fd, clientBuf := c.clientBuf.erase fd, trace } := by
  cases known : c.connections[fd]? with
  | none => exact ⟨c.trace, by simp [Control.replied, Control.closeClient, connected, known,
      Control.purgePendingForFd]⟩
  | some connection =>
      refine ⟨c.trace ++ [.sent connection (formatReply r.code r.error r.fields)], ?_⟩
      simp [Control.replied, Control.closeClient, connected, known, Control.purgePendingForFd]

theorem bounds_owned : Pending.bounds.Owned fun fd => fd := by
  refine ⟨fun _ => rfl, fun c fd r connected => ?_⟩
  obtain ⟨trace, same⟩ := replied_eq (r := r) connected
  rw [same]
  rfl

theorem chain_owned : Pending.chain.Owned fun fd => fd := by
  refine ⟨fun _ => rfl, fun c fd r connected => ?_⟩
  obtain ⟨trace, same⟩ := replied_eq (r := r) connected
  rw [same]
  rfl

theorem proof_owned : Pending.proof.Owned ProofRequest.fd := by
  refine ⟨fun _ => rfl, fun c fd r connected => ?_⟩
  obtain ⟨trace, same⟩ := replied_eq (r := r) connected
  rw [same]
  rfl

variable {pending : Pending α} {owner : α → Nat} {body : α → ControlM Unit}

theorem serve_quiet (owned : pending.Owned owner)
    (absent : ∀ entry ∈ (pending.read c).entries.values, entry.1 ≠ hash) :
    Leaves (pending.serve hash body) c c := by
  obtain ⟨it, range⟩ := Multimap.equalRange_absent absent
  simp only [Leaves, Pending.serve, ends_bind, ends_get, range]
  unfold Pending.forRange
  simp [Multimap.eraseRange?_self, owned.write_read]

theorem serve_breaks (owned : pending.Owned owner) {value : α}
    (present : (hash, value) ∈ (pending.read c).entries.values)
    (connected : ∀ entry ∈ (pending.read c).entries.values, owner entry.2 ∈ c.clientBuf)
    (answers : ∀ value, Breaks (body value) c ∨ ∃ r, body value c = respond (owner value) r c) :
    Breaks (pending.serve hash body) c := by
  obtain ⟨handle, found, last, range, held, differs⟩ := Multimap.equalRange_present present
  have member : (hash, found) ∈ (pending.read c).entries.values := List.mem_map_of_mem held
  have rounds : (pending.read c).entries.cells.length ≠ 0 := by
    rw [Ne, List.length_eq_zero_iff]
    exact List.ne_nil_of_mem held
  obtain ⟨more, size⟩ := Nat.exists_eq_succ_of_ne_zero rounds
  simp only [Breaks, Pending.serve, ends_bind, ends_get, range, size]
  unfold Pending.forRange
  simp only [differs.symm, if_false, ends_bind, ends_get, ends_valid, Cells.get?_of_mem held]
  refine ⟨fun entry same => ?_, by simp⟩
  cases same
  have outcome : Breaks (body found) c ∨ ∃ r,
    Leaves (body found) c (c.replied (owner found) r) := by
    obtain breaks | ⟨r, same⟩ := answers found
    · exact Or.inl breaks
    exact (respond_breaks_or_leaves c (owner found) r).imp (·.of_eq same) fun leaves =>
      ⟨r, leaves.of_eq same⟩
  rcases outcome with breaks | ⟨r, answered⟩
  · exact breaks.weaken fun _ _ no => no.elim
  · refine answered.always fun _ after same => ?_
    -- The entry under the iterator is among those that were purged.
    have gone : (pending.read after).entries.after? handle = none := by
      rw [same, owned.replied c _ r (connected _ member)]
      exact Cells.after?_eraseIf (fun entry => owner entry.2 == owner found) held
        (beq_self_eq_true _)
    simp [gone]

end Serving

section OrderProofs

variable {c : Control} {visit : Nat → ControlM (Option Nat)} {stops : OrderProof → Prop}
    {next : OrderProof → OrderProof}

structure Visits (visit : Nat → ControlM (Option Nat)) (stops : OrderProof → Prop)
    (next : OrderProof → OrderProof) : Prop where
  breaks : ∀ c handle proof, (handle, proof) ∈ c.orderProofs.cells → proof.fd ∈ c.clientBuf →
    stops proof → Breaks (visit handle) c
  passes : ∀ c handle proof before rest, c.orderProofs.cells = before ++ (handle, proof) :: rest →
    ¬stops proof → Returns (visit handle) c (fun it after => it = rest.head?.map Prod.fst ∧
      ∃ proofs, after = { c with orderProofs := proofs } ∧
        proofs.cells = before ++ (handle, next proof) :: rest ∧ proofs.fresh = c.orderProofs.fresh)

variable (visits : Visits visit stops next)

include visits

theorem forOrderProofs_passes {rounds : Nat} {before rest : List (Nat × OrderProof)}
    (split : c.orderProofs.cells = before ++ rest) (enough : rest.length ≤ rounds)
    (quiet : ∀ cell ∈ rest, ¬stops cell.2) :
    Returns (forOrderProofs visit rounds (rest.head?.map Prod.fst)) c (fun _ after => ∃ proofs,
      after = { c with orderProofs := proofs } ∧
        proofs.cells = before ++ rest.map (fun cell => (cell.1, next cell.2)) ∧
        proofs.fresh = c.orderProofs.fresh) := by
  -- By induction on the elements still to visit; those before have been replaced.
  induction rest generalizing c before rounds with
  | nil => simpa [forOrderProofs] using ⟨c.orderProofs, rfl, by simpa using split, rfl⟩
  | cons cell rest ih =>
      cases rounds with
      | zero => simp at enough
      | succ rounds =>
          simp only [List.head?_cons, Option.map_some, forOrderProofs, ends_bind]
          refine (visits.passes c cell.1 cell.2 before rest
            split (quiet cell List.mem_cons_self)).always ?_
          rintro it after ⟨rfl, proofs, rfl, cells, fresh⟩
          have onward : proofs.cells = (before ++ [(cell.1, next cell.2)]) ++ rest := by
            simpa using cells
          refine (ih (c := { c with orderProofs := proofs }) onward
            (by simpa using enough) fun other member =>
            quiet other (List.mem_cons_of_mem _ member)).always ?_
          rintro _ after ⟨final, rfl, finalCells, finalFresh⟩
          exact ⟨final, rfl, by simpa using finalCells, finalFresh.trans fresh⟩

theorem forOrderProofs_breaks {rounds : Nat} {before rest : List (Nat × OrderProof)}
    (split : c.orderProofs.cells = before ++ rest) (enough : rest.length ≤ rounds)
    (connected : ∀ cell ∈ rest, cell.2.fd ∈ c.clientBuf) (stopped : ∃ cell ∈ rest, stops cell.2) :
    Breaks (forOrderProofs visit rounds (rest.head?.map Prod.fst)) c := by
  induction rest generalizing c before rounds with
  | nil => simp at stopped
  | cons cell rest ih =>
      cases rounds with
      | zero => simp at enough
      | succ rounds =>
          simp only [List.head?_cons, Option.map_some, forOrderProofs]
          by_cases here : stops cell.2
          · exact (visits.breaks c cell.1 cell.2 (by simp [split])
              (connected cell List.mem_cons_self) here).bind
          · rw [Breaks, ends_bind]
            refine (visits.passes c cell.1 cell.2 before rest split here).always ?_
            rintro it after ⟨rfl, proofs, rfl, cells, -⟩
            obtain ⟨other, member, stopsThere⟩ := stopped
            have later : other ∈ rest := (List.mem_cons.mp member).resolve_left fun same =>
              here (same ▸ stopsThere)
            have onward : proofs.cells = (before ++ [(cell.1, next cell.2)]) ++ rest := by
              simpa using cells
            exact ih (c := { c with orderProofs := proofs }) onward (by simpa using enough)
              (fun other member => connected other (List.mem_cons_of_mem _ member))
              ⟨other, later, stopsThere⟩

theorem eachOrderProof_passes (quiet : ∀ proof ∈ c.orderProofs.values, ¬stops proof) :
    Leaves (eachOrderProof visit) c
    { c with orderProofs := c.orderProofs.alter fun _ => next } := by
  have split : c.orderProofs.cells = [] ++ c.orderProofs.cells := rfl
  simp only [Leaves, eachOrderProof, ends_bind, ends_get]
  refine (forOrderProofs_passes visits split (Nat.le_refl _) fun cell member =>
    quiet cell.2 (List.mem_map_of_mem member)).weaken ?_
  rintro _ after ⟨proofs, rfl, cells, fresh⟩
  have same : proofs = c.orderProofs.alter fun _ => next := Cells.ext_cells cells fresh
  rw [same]

theorem eachOrderProof_breaks (connected : ∀ proof ∈ c.orderProofs.values, proof.fd ∈ c.clientBuf)
    (stopped : ∃ proof ∈ c.orderProofs.values, stops proof) : Breaks (eachOrderProof visit) c := by
  obtain ⟨proof, member, stopsThere⟩ := stopped
  obtain ⟨cell, held, rfl⟩ := List.mem_map.mp member
  have split : c.orderProofs.cells = [] ++ c.orderProofs.cells := rfl
  simp only [Breaks, eachOrderProof, ends_bind, ends_get]
  exact forOrderProofs_breaks visits split (Nat.le_refl _)
    (fun cell member => connected cell.2 (List.mem_map_of_mem member)) ⟨cell, held, stopsThere⟩

end OrderProofs

section Callbacks

variable {c : Control} {fd : Nat} {hash : EventHash} {reference : OfflineProof.Reference}
    {chain : EventChain}
  {r : Reply}

theorem eraseOrderProof_breaks {handle : Nat} {proof : OrderProof}
    (held : (handle, proof) ∈ c.orderProofs.cells) (connected : proof.fd ∈ c.clientBuf) :
    Breaks (respond proof.fd r >>= fun _ => eraseOrderProof handle) c := by
  rcases respond_breaks_or_leaves c proof.fd r with breaks | leaves
  · exact breaks.bind
  · refine leaves.bind_breaks fun _ => ?_
    have gone : (c.replied proof.fd r).orderProofs.erase? handle = none := by
      obtain ⟨trace, same⟩ := replied_eq (r := r) connected
      rw [same, Cells.erase?]
      simp only [Control.purgePendingForFd]
      rw [Cells.after?_eraseIf (fun other => other.fd == proof.fd) held (beq_self_eq_true _),
        Option.map_none]
    simp [Breaks, eraseOrderProof, gone]

theorem finishOrderProofAt_visits : Visits (finishOrderProofAt reference hash chain)
    (fun proof => (proof.take hash chain).chainA ≠ none ∧ (proof.take hash chain).chainB ≠ none)
    (fun proof => proof.take hash chain) := by
  constructor
  · rintro c handle proof held connected ⟨first, second⟩
    obtain ⟨before, rest, split⟩ := List.append_of_mem held
    obtain ⟨chainA, isA⟩ := Option.ne_none_iff_exists'.mp first
    obtain ⟨chainB, isB⟩ := Option.ne_none_iff_exists'.mp second
    simp only [Breaks, finishOrderProofAt, ends_bind, ends_get, ends_valid,
      Cells.get?_of_mem held, ends_modify]
    refine ⟨fun value same => ?_, by simp⟩
    cases same
    simp only [isA, isB, ends_bind, ends_valid]
    refine ⟨fun order _ => ⟨fun reply _ => ?_, fun _ => trivial⟩, fun _ => trivial⟩
    have placed :
      (handle, proof.take hash chain) ∈
      (c.orderProofs.set handle (proof.take hash chain)).cells := by
      simp [Cells.set_of_split split]
    exact ends_bind.mp (eraseOrderProof_breaks
      (c := { c with orderProofs := c.orderProofs.set handle (proof.take hash chain) })
      placed connected)
  · intro c handle proof before rest split continues
    have held : (handle, proof) ∈ c.orderProofs.cells := by simp [split]
    have cells := Cells.set_of_split split (proof.take hash chain)
    simp only [finishOrderProofAt, ends_bind, ends_get, ends_valid,
      Cells.get?_of_mem held, ends_modify]
    refine ⟨fun value same => ?_, by simp⟩
    cases same
    split
    · rename_i chainA chainB isA isB
      exact absurd ⟨by simp [isA], by simp [isB]⟩ continues
    · simp only [ends_bind, ends_get, ends_valid, Cells.after?_of_split cells]
      refine ⟨fun it same => ⟨(Option.some.inj same).symm, _, rfl, cells, rfl⟩, by simp⟩

theorem abortOrderProofAt_visits : Visits (abortOrderProofAt hash)
    (fun proof => proof.a = hash ∨ proof.b = hash) (fun proof => proof) := by
  constructor
  · intro c handle proof held connected lost
    simp only [Breaks, abortOrderProofAt, ends_bind, ends_get, ends_valid, Cells.get?_of_mem held]
    refine ⟨fun value same => ?_, by simp⟩
    cases same
    simp only [lost, if_true, ends_bind]
    exact ends_bind.mp (eraseOrderProof_breaks held connected)
  · intro c handle proof before rest split continues
    have held : (handle, proof) ∈ c.orderProofs.cells := by simp [split]
    simp only [abortOrderProofAt, ends_bind, ends_get, ends_valid, Cells.get?_of_mem held]
    refine ⟨fun value same => ?_, by simp⟩
    cases same
    simp only [continues, if_false, ends_bind, ends_get, ends_valid, Cells.after?_of_split split]
    exact ⟨fun it same => ⟨(Option.some.inj same).symm, _, rfl, split, rfl⟩, by simp⟩

theorem answer_leaves {pending : Pending Nat} (owned : pending.Owned fun fd => fd)
    (absent : ∀ entry ∈ (pending.read c).entries.values, entry.1 ≠ hash) :
    Leaves (answer pending hash r) c c :=
  serve_quiet owned absent

theorem answer_breaks {pending : Pending Nat} (owned : pending.Owned fun fd => fd)
    (connected : ∀ entry ∈ (pending.read c).entries.values, entry.2 ∈ c.clientBuf)
    (present : (hash, fd) ∈ (pending.read c).entries.values) : Breaks (answer pending hash r) c :=
  serve_breaks owned present connected fun _ => Or.inr ⟨r, rfl⟩

theorem finishSingleProof_breaks {request : ProofRequest}
    (connected : ∀ entry ∈ c.pendingProof.entries.values, entry.2.fd ∈ c.clientBuf)
    (present : (hash, request) ∈ c.pendingProof.entries.values) :
    Breaks (finishSingleProof reference hash chain) c := by
  refine serve_breaks proof_owned present connected fun value => ?_
  cases replied : proofReply ⟨value.kind, reference, chain, ⟨default, [], []⟩, .undetermined⟩ with
  | none => exact Or.inl (by simp [Breaks])
  | some r => exact Or.inr ⟨r, rfl⟩

theorem answerOrder_leaves {a b : Event}
    (absent : ∀ entry ∈ c.pendingOrder.entries.values, entry.1 ≠ (a.hash, b.hash)) :
    Leaves (answerOrder a b r) c c := by
  have missing : c.pendingOrder.find (a.hash, b.hash) = none :=
    Cells.first?_eq_none fun entry member => by simpa using absent entry member
  simp [Leaves, answerOrder, missing]

theorem answerOrder_breaks {a b : Event}
    (connected : ∀ entry ∈ c.pendingOrder.entries.values, entry.2 ∈ c.clientBuf)
    (present : ((a.hash, b.hash), fd) ∈ c.pendingOrder.entries.values) :
    Breaks (answerOrder a b r) c := by
  obtain ⟨before, handle, entry, rest, found, split, -, -⟩ :=
    Cells.exists_first? (fun entry => decide (entry.1 = (a.hash, b.hash))) present (by simp)
  have held : (handle, entry) ∈ c.pendingOrder.entries.cells := by simp [split]
  have member : entry ∈ c.pendingOrder.entries.values := List.mem_map_of_mem held
  obtain ⟨trace, same⟩ := replied_eq (r := r) (connected entry member)
  have gone : (c.replied entry.2 r).pendingOrder.erase? handle = none := by
    rw [same, Assoc.erase?]
    exact congrArg (Option.map _)
      (Cells.after?_eraseIf (fun other => other.2 == entry.2) held (beq_self_eq_true _))
  have finds : c.pendingOrder.find (a.hash, b.hash) = some handle := found
  simp only [Breaks, answerOrder, ends_bind, ends_get, finds, ends_valid,
    Cells.get?_of_mem held, ends_modify]
  refine ⟨fun value same => ?_, by simp⟩
  cases same
  simp [gone]

end Callbacks

theorem take_chainA {proof : OrderProof} {hash : EventHash} {chain : EventChain} :
    (proof.take hash chain).chainA ≠ none ↔ proof.chainA ≠ none ∨ proof.a = hash := by
  simp only [OrderProof.take]
  by_cases side : proof.a = hash <;> by_cases empty : proof.chainA = none <;> simp [side, empty]

theorem take_chainB {proof : OrderProof} {hash : EventHash} {chain : EventChain} :
    (proof.take hash chain).chainB ≠ none ↔ proof.chainB ≠ none ∨ proof.b = hash := by
  simp only [OrderProof.take]
  by_cases side : proof.b = hash <;> by_cases empty : proof.chainB = none <;> simp [side, empty]

section Notifications

variable {c : Control} {n : Notification} {callbacks rest : List Notification} {fd : Nat}
    {request : Request}
  {reference : OfflineProof.Reference} {proof : OrderProof} {hash : EventHash}

theorem completed_singleton : Completed [n] hash ↔ ∃ chain, completes? n = some (hash, chain) := by
  simp [Completed]

theorem aborted_singleton : Aborted [n] hash ↔ aborts? n = some hash := by simp [Aborted]

theorem onNotification_leaves (quiet : ∀ fd request, ¬c.Finished [n] fd request) :
    Leaves (onNotification reference n) c (c.record n) := by
  have chains : ∀ hash, Completed [n] hash ∨ Aborted [n] hash →
      (∀ entry ∈ c.pendingChain.entries.values, entry.1 ≠ hash) ∧
      ∀ entry ∈ c.pendingProof.entries.values, entry.1 ≠ hash := by
    refine fun hash ended => ⟨?_, ?_⟩
    · rintro ⟨other, fd⟩ member rfl
      exact quiet fd (.chain other) ⟨member, ended⟩
    · rintro ⟨other, request⟩ member rfl
      exact quiet request.fd (.proof other request.kind) ⟨member, ended⟩
  have proofs : ∀ proof ∈ c.orderProofs.values, ¬proof.FinishedBy [n] :=
    fun proof member finished =>
    quiet proof.fd (.orderProof proof.a proof.b) ⟨proof, member, ⟨rfl, rfl, rfl⟩, finished⟩
  have bounds : ∀ hash, boundsEnded? n = some hash → ∀ entry ∈ c.pendingBounds.entries.values,
    entry.1 ≠ hash := by
    rintro hash ended ⟨other, fd⟩ member rfl
    exact quiet fd (.bounds other) ⟨member, n, List.mem_singleton_self _, ended⟩
  have orders : ∀ key, orderEnded? n = some key → ∀ entry ∈ c.pendingOrder.entries.values,
    entry.1 ≠ key := by
    rintro key ended ⟨⟨a, b⟩, fd⟩ member rfl
    exact quiet fd (.order a b) ⟨member, n, List.mem_singleton_self _, ended⟩
  cases n with
  | chainCompleted callback e chain =>
      cases callback with
      | node => rfl
      | client registration =>
          obtain ⟨noChain, noProof⟩ := chains e.hash (Or.inl (completed_singleton.mpr ⟨chain, rfl⟩))
          have unlisted : e.hash ∉ c.pendingChain.entries.values.map Prod.fst := by
            rintro listed
            obtain ⟨entry, member, same⟩ := List.mem_map.mp listed
            exact noChain entry member same
          have single : Leaves (finishSingleProof reference e.hash chain) c c :=
            serve_quiet proof_owned noProof
          have order : Leaves (finishOrderProof reference e.hash chain) c
              { c with orderProofs := c.orderProofs.alter fun _ proof =>
                proof.take e.hash chain } := by
            refine eachOrderProof_passes finishOrderProofAt_visits fun proof member both =>
              proofs proof member ?_
            refine Or.inr (Or.inr ⟨?_, ?_⟩)
            · refine (take_chainA.mp both.1).imp_right fun side =>
                completed_singleton.mpr ⟨chain, ?_⟩
              rw [side]
              rfl
            · refine (take_chainB.mp both.2).imp_right fun side =>
                completed_singleton.mpr ⟨chain, ?_⟩
              rw [side]
              rfl
          simp only [Leaves, onNotification, onChainCompleted, ends_bind, ends_get, ends_when,
            unlisted, false_implies, not_false_eq_true, true_implies, true_and]
          exact ends_bind.mp (single.bind fun _ => order)
  | chainAborted callback e =>
      cases callback with
      | node => rfl
      | client registration =>
          obtain ⟨noChain, noProof⟩ := chains e.hash (Or.inr (aborted_singleton.mpr rfl))
          have order : Leaves (abortOrderProof e.hash) c c := by
            have quietly : ∀ proof ∈ c.orderProofs.values,
              ¬(proof.a = e.hash ∨ proof.b = e.hash) := by
              rintro proof member (a | b)
              · exact proofs proof member (Or.inl (aborted_singleton.mpr (congrArg some a.symm)))
              · exact proofs proof member
                  (Or.inr (Or.inl (aborted_singleton.mpr (congrArg some b.symm))))
            have same : c.orderProofs.alter (fun _ proof => proof) = c.orderProofs := by
              refine Cells.ext_cells ?_ rfl
              simp [Cells.alter]
            have passes := eachOrderProof_passes abortOrderProofAt_visits quietly
            rwa [same] at passes
          have single : Leaves (abortSingleProof e.hash) c c := serve_quiet proof_owned noProof
          exact (answer_leaves chain_owned noChain).bind fun _ => single.bind fun _ => order
  | boundsCompleted registration e lo hi => exact answer_leaves bounds_owned (bounds e.hash rfl)
  | boundsAborted registration e => exact answer_leaves bounds_owned (bounds e.hash rfl)
  | orderCompleted registration a b o => exact answerOrder_leaves (orders (a.hash, b.hash) rfl)
  | orderAborted registration a b => exact answerOrder_leaves (orders (a.hash, b.hash) rfl)

section Breaking

variable {e : Event} {chain : EventChain} (held : c.Held)

include held

theorem Control.Held.chainClients : ∀ entry ∈ c.pendingChain.entries.values,
    entry.2 ∈ c.clientBuf :=
  fun entry member => held.connected entry.2 (.chain entry.1) member

theorem Control.Held.proofClients : ∀ entry ∈ c.pendingProof.entries.values,
    entry.2.fd ∈ c.clientBuf :=
  fun entry member => held.connected entry.2.fd (.proof entry.1 entry.2.kind) member

theorem Control.Held.orderProofClients : ∀ proof ∈ c.orderProofs.values, proof.fd ∈ c.clientBuf :=
  fun proof member => held.connected proof.fd (.orderProof proof.a proof.b)
    ⟨proof, member, rfl, rfl, rfl⟩

theorem onChainCompleted_breaks (hit : (∃ entry ∈ c.pendingChain.entries.values, entry.1 = e.hash) ∨
      (∃ entry ∈ c.pendingProof.entries.values, entry.1 = e.hash) ∨
      ∃ proof ∈ c.orderProofs.values, (proof.chainA ≠ none ∨ proof.a = e.hash) ∧
      (proof.chainB ≠ none ∨ proof.b = e.hash)) :
    Breaks (onChainCompleted reference e chain) c := by
  simp only [Breaks, onChainCompleted, ends_bind, ends_get, ends_when]
  refine ⟨fun listed => ?_, fun unlisted => ?_⟩
  · obtain ⟨⟨hash, fd⟩, member, rfl⟩ := List.mem_map.mp listed
    exact (answer_breaks chain_owned held.chainClients member).weaken fun _ _ no => no.elim
  by_cases single : ∃ entry ∈ c.pendingProof.entries.values, entry.1 = e.hash
  · obtain ⟨⟨hash, request⟩, member, rfl⟩ := single
    exact (finishSingleProof_breaks held.proofClients member).weaken fun _ _ no => no.elim
  have passed : Leaves (finishSingleProof reference e.hash chain) c c :=
    serve_quiet proof_owned fun entry member same => single ⟨entry, member, same⟩
  refine passed.always fun _ after same => same ▸ ?_
  refine eachOrderProof_breaks finishOrderProofAt_visits held.orderProofClients ?_
  rcases hit with ⟨entry, member, same⟩ | waiting | ⟨proof, member, first, second⟩
  · exact absurd (List.mem_map.mpr ⟨entry, member, same⟩) unlisted
  · exact absurd waiting single
  · exact ⟨proof, member, take_chainA.mpr first, take_chainB.mpr second⟩

theorem onChainAborted_breaks (hit : (∃ entry ∈ c.pendingChain.entries.values, entry.1 = e.hash) ∨
      (∃ entry ∈ c.pendingProof.entries.values, entry.1 = e.hash) ∨
      ∃ proof ∈ c.orderProofs.values, proof.a = e.hash ∨ proof.b = e.hash) : Breaks
      (onChainAborted e) c := by
  by_cases listed : ∃ entry ∈ c.pendingChain.entries.values, entry.1 = e.hash
  · obtain ⟨⟨hash, fd⟩, member, rfl⟩ := listed
    exact (answer_breaks chain_owned held.chainClients member).bind
  have first : Leaves (abortPending .chain e.hash) c c :=
    answer_leaves chain_owned fun entry member same => listed ⟨entry, member, same⟩
  refine first.bind_breaks fun _ => ?_
  by_cases single : ∃ entry ∈ c.pendingProof.entries.values, entry.1 = e.hash
  · obtain ⟨⟨hash, request⟩, member, rfl⟩ := single
    have broken : Breaks (abortSingleProof e.hash) c :=
      serve_breaks proof_owned member held.proofClients fun _ => Or.inr ⟨abortedReply, rfl⟩
    exact broken.bind
  have second : Leaves (abortSingleProof e.hash) c c :=
    serve_quiet proof_owned fun entry member same => single ⟨entry, member, same⟩
  refine second.bind_breaks fun _ =>
    eachOrderProof_breaks abortOrderProofAt_visits held.orderProofClients ?_
  exact (hit.resolve_left listed).resolve_left single

theorem Control.Held.unfinished (completes : completes? n = none) (aborts : aborts? n = none) :
    ∀ proof ∈ c.orderProofs.values, ¬proof.FinishedBy [n] := by
  intro proof member finished
  simp only [OrderProof.FinishedBy, completed_singleton, aborted_singleton, completes, aborts,
    reduceCtorEq, exists_false, or_false, false_or] at finished
  exact (held.incomplete proof member).elim finished.1 finished.2

end Breaking

theorem onNotification_breaks (held : c.Held) (finished : c.Finished [n] fd request) :
    Breaks (onNotification reference n) c := by
  -- The requests that a callback of another kind would end are not finished by it.
  cases n with
  | chainCompleted callback e chain =>
      cases callback with
      | node =>
          cases request with
          | orderProof a b =>
              obtain ⟨proof, member, -, finished⟩ := finished
              exact absurd finished (held.unfinished rfl rfl proof member)
          | _ => simp [Control.Finished, completed_singleton, aborted_singleton, completes?,
              aborts?, boundsEnded?, orderEnded?] at finished
      | client registration =>
          refine onChainCompleted_breaks held ?_
          cases request with
          | chain hash =>
              obtain ⟨waits, ended⟩ := finished
              exact Or.inl ⟨_, waits, by simpa [completed_singleton, aborted_singleton, completes?,
                aborts?, eq_comm] using ended⟩
          | proof hash kind =>
              obtain ⟨waits, ended⟩ := finished
              exact Or.inr (Or.inl ⟨_, waits, by simpa [completed_singleton, aborted_singleton,
                completes?, aborts?, eq_comm] using ended⟩)
          | orderProof a b =>
              obtain ⟨proof, member, -, finished⟩ := finished
              simp only [OrderProof.FinishedBy, completed_singleton, aborted_singleton, completes?,
                aborts?, reduceCtorEq, false_or, Option.some.injEq, Prod.mk.injEq, exists_and_left,
                exists_eq', and_true] at finished
              exact Or.inr (Or.inr ⟨proof, member, finished.1.imp_right Eq.symm,
                finished.2.imp_right Eq.symm⟩)
          | _ => simp [Control.Finished, boundsEnded?, orderEnded?] at finished
  | chainAborted callback e =>
      cases callback with
      | node =>
          cases request with
          | orderProof a b =>
              obtain ⟨proof, member, -, finished⟩ := finished
              exact absurd finished (held.unfinished rfl rfl proof member)
          | _ => simp [Control.Finished, completed_singleton, aborted_singleton, completes?,
              aborts?, boundsEnded?, orderEnded?] at finished
      | client registration =>
          refine onChainAborted_breaks held ?_
          cases request with
          | chain hash =>
              obtain ⟨waits, ended⟩ := finished
              exact Or.inl ⟨_, waits, by simpa [completed_singleton, aborted_singleton, completes?,
                aborts?, eq_comm] using ended⟩
          | proof hash kind =>
              obtain ⟨waits, ended⟩ := finished
              exact Or.inr (Or.inl ⟨_, waits, by simpa [completed_singleton, aborted_singleton,
                completes?, aborts?, eq_comm] using ended⟩)
          | orderProof a b =>
              obtain ⟨proof, member, -, finished⟩ := finished
              simp only [OrderProof.FinishedBy, completed_singleton, aborted_singleton, completes?,
                aborts?, reduceCtorEq, exists_false, or_false, Option.some.injEq] at finished
              refine Or.inr (Or.inr ⟨proof, member, ?_⟩)
              rcases finished with a | b | both
              · exact Or.inl a.symm
              · exact Or.inr b.symm
              · exact ((held.incomplete proof member).elim both.1 both.2).elim
          | _ => simp [Control.Finished, boundsEnded?, orderEnded?] at finished
  | boundsCompleted registration e lo hi | boundsAborted registration e =>
      cases request with
      | bounds hash =>
          obtain ⟨waits, ended⟩ := finished
          obtain rfl : e.hash = hash := by simpa [boundsEnded?] using ended
          exact answer_breaks bounds_owned
            (fun entry member => held.connected entry.2 (.bounds entry.1) member) waits
      | orderProof a b =>
          obtain ⟨proof, member, -, finished⟩ := finished
          exact absurd finished (held.unfinished rfl rfl proof member)
      | _ => simp [Control.Finished, completed_singleton, aborted_singleton, completes?, aborts?,
          orderEnded?] at finished
  | orderCompleted registration a b o | orderAborted registration a b =>
      cases request with
      | order first second =>
          obtain ⟨waits, ended⟩ := finished
          obtain ⟨rfl, rfl⟩ : a.hash = first ∧ b.hash = second := by simpa [orderEnded?] using ended
          exact answerOrder_breaks
            (fun entry member => held.connected entry.2 (.order entry.1.1 entry.1.2) member) waits
      | orderProof first second =>
          obtain ⟨proof, member, -, finished⟩ := finished
          exact absurd finished (held.unfinished rfl rfl proof member)
      | _ => simp [Control.Finished, completed_singleton, aborted_singleton, completes?, aborts?,
          boundsEnded?] at finished

/-! A run of callbacks -/

theorem record_waits : (c.record n).Waits fd request ↔ c.Waits fd request := by
  unfold Control.record
  split
  · cases request with
    | orderProof a b =>
        simp only [Control.Waits, Cells.values_alter, List.mem_map]
        constructor
        · rintro ⟨_, ⟨proof, member, rfl⟩, same⟩
          exact ⟨proof, member, same⟩
        · rintro ⟨proof, member, same⟩
          exact ⟨_, ⟨proof, member, rfl⟩, same⟩
    | _ => rfl
  · rfl

@[simp] theorem record_clientBuf : (c.record n).clientBuf = c.clientBuf := by
  unfold Control.record
  split <;> rfl

@[simp] theorem record_connections : (c.record n).connections = c.connections := by
  unfold Control.record
  split <;> rfl

@[simp] theorem record_trace : (c.record n).trace = c.trace := by
  unfold Control.record
  split <;> rfl

@[simp] theorem record_accepted : (c.record n).accepted = c.accepted := by
  unfold Control.record
  split <;> rfl

@[simp] theorem record_hungUp : (c.record n).hungUp = c.hungUp := by
  unfold Control.record
  split <;> rfl

theorem completed_cons (n : Notification) (rest : List Notification) : Completed (n :: rest) hash ↔
    Completed [n] hash ∨ Completed rest hash := by
  simp [Completed]

theorem aborted_cons (n : Notification) (rest : List Notification) : Aborted (n :: rest) hash ↔
    Aborted [n] hash ∨ Aborted rest hash := by
  simp [Aborted]

def OrderProof.record (proof : OrderProof) (n : Notification) : OrderProof :=
  match completes? n with
  | some (hash, chain) => proof.take hash chain
  | none => proof

theorem record_orderProofs : (c.record n).orderProofs.values = c.orderProofs.values.map fun proof =>
    proof.record n := by
  unfold Control.record OrderProof.record
  split
  · rw [Cells.values_alter]
  · simp

theorem record_chainA :
    (proof.record n).chainA ≠ none ↔ proof.chainA ≠ none ∨ Completed [n] proof.a := by
  unfold OrderProof.record
  split
  · rename_i hash chain brought
    rw [take_chainA]
    simp [completed_singleton, brought, eq_comm]
  · rename_i brought
    simp [completed_singleton, brought]

theorem record_chainB :
    (proof.record n).chainB ≠ none ↔ proof.chainB ≠ none ∨ Completed [n] proof.b := by
  unfold OrderProof.record
  split
  · rename_i hash chain brought
    rw [take_chainB]
    simp [completed_singleton, brought, eq_comm]
  · rename_i brought
    simp [completed_singleton, brought]

@[simp] theorem orderProof_record_sides :
    (proof.record n).fd = proof.fd ∧ (proof.record n).a = proof.a ∧
    (proof.record n).b = proof.b := by
  unfold OrderProof.record
  split <;> exact ⟨rfl, rfl, rfl⟩

theorem finishedBy_cons (n : Notification) (rest : List Notification) :
    proof.FinishedBy (n :: rest) ↔ proof.FinishedBy [n] ∨ (proof.record n).FinishedBy rest := by
  obtain ⟨-, a, b⟩ := @orderProof_record_sides n proof
  simp only [OrderProof.FinishedBy, record_chainA, record_chainB, a, b, completed_cons n rest,
    aborted_cons n rest]
  tauto

theorem finished_cons : c.Finished (n :: rest) fd request ↔
    c.Finished [n] fd request ∨ (c.record n).Finished rest fd request := by
  cases request with
  | orderProof a b =>
      simp only [Control.Finished, record_orderProofs, List.mem_map, finishedBy_cons n rest]
      constructor
      · rintro ⟨proof, member, same, first | later⟩
        · exact Or.inl ⟨proof, member, same, first⟩
        · refine Or.inr ⟨_, ⟨proof, member, rfl⟩, ?_, later⟩
          simpa using same
      · rintro (⟨proof, member, same, first⟩ | ⟨_, ⟨proof, member, rfl⟩, same, later⟩)
        · exact ⟨proof, member, same, Or.inl first⟩
        · exact ⟨proof, member, by simpa using same, Or.inr later⟩
  | bounds hash =>
      simp only [Control.Finished, record_waits, List.mem_cons, exists_eq_or_imp, List.not_mem_nil,
        or_false, exists_eq_left]
      tauto
  | chain hash =>
      simp only [Control.Finished, record_waits, completed_cons n rest, aborted_cons n rest]
      tauto
  | order a b =>
      simp only [Control.Finished, record_waits, List.mem_cons, exists_eq_or_imp, List.not_mem_nil,
        or_false, exists_eq_left]
      tauto
  | proof hash kind =>
      simp only [Control.Finished, record_waits, completed_cons n rest, aborted_cons n rest]
      tauto

theorem finished_nil (finished : c.Finished [] fd request) :
    ∃ proof ∈ c.orderProofs.values, proof.chainA ≠ none ∧ proof.chainB ≠ none := by
  cases request with
  | orderProof a b =>
      obtain ⟨proof, member, -, lost | lost | both⟩ := finished
      · simp [Aborted] at lost
      · simp [Aborted] at lost
      · exact ⟨proof, member, by simpa [Completed] using both⟩
  | _ => simp [Control.Finished, Completed, Aborted] at finished

theorem Control.Held.not_finished_nil (held : c.Held) : ¬c.Finished [] fd request := by
  intro finished
  obtain ⟨proof, member, a, b⟩ := finished_nil finished
  exact (held.incomplete proof member).elim a b

theorem Control.Held.record (held : c.Held) (quiet : ∀ fd request, ¬c.Finished [n] fd request) :
    (c.record n).Held := by
  refine ⟨fun fd request waits => ?_, fun proof member => ?_⟩
  · rw [record_clientBuf]
    exact held.connected fd request (record_waits.mp waits)
  · rw [record_orderProofs] at member
    obtain ⟨before, listed, rfl⟩ := List.mem_map.mp member
    by_contra both
    rw [not_or] at both
    refine quiet before.fd (.orderProof before.a before.b)
      ⟨before, listed, ⟨rfl, rfl, rfl⟩, Or.inr (Or.inr ?_)⟩
    exact ⟨record_chainA.mp both.1, record_chainB.mp both.2⟩

def Control.recordAll (c : Control) (callbacks : List Notification) : Control :=
  callbacks.foldl Control.record c

theorem Control.Held.finished_append (held : c.Held) {later : List Notification} :
    (∃ fd request, c.Finished (callbacks ++ later) fd request) ↔
      (∃ fd request, c.Finished callbacks fd request) ∨ ∃ fd request,
      (c.recordAll callbacks).Finished later fd request := by
  induction callbacks generalizing c with
  | nil => simp [held.not_finished_nil, Control.recordAll]
  | cons n rest ih =>
      by_cases now : ∃ fd request, c.Finished [n] fd request
      · obtain ⟨fd, request, here⟩ := now
        exact iff_of_true ⟨fd, request, finished_cons.mpr (Or.inl here)⟩
          (Or.inl ⟨fd, request, finished_cons.mpr (Or.inl here)⟩)
      · have quiet : ∀ fd request, ¬c.Finished [n] fd request := fun fd request here =>
          now ⟨fd, request, here⟩
        have onward := ih (held.record quiet)
        have skip (callbacks : List Notification) (fd : Nat) (request : Request) :
            c.Finished (n :: callbacks) fd request ↔ (c.record n).Finished callbacks fd request :=
          finished_cons.trans (or_iff_right (quiet fd request))
        simp only [List.cons_append, skip]
        exact onward

theorem Control.Held.recordAll (held : c.Held)
    (quiet : ∀ fd request, ¬c.Finished callbacks fd request) : (c.recordAll callbacks).Held := by
  induction callbacks generalizing c with
  | nil => exact held
  | cons n rest ih =>
      refine ih (held.record fun fd request finished => ?_) fun fd request finished => ?_
      · exact quiet fd request (finished_cons.mpr (Or.inl finished))
      · exact quiet fd request (finished_cons.mpr (Or.inr finished))

theorem callbacks_yield (quiet : ∀ fd request, ¬c.Finished callbacks fd request) :
    Leaves (callbacks.forM (onNotification reference)) c (c.recordAll callbacks) := by
  induction callbacks generalizing c with
  | nil => rfl
  | cons n rest ih =>
      have now : ∀ fd request, ¬c.Finished [n] fd request := fun fd request finished =>
        quiet fd request (finished_cons.mpr (Or.inl finished))
      exact (onNotification_leaves now).bind fun _ => ih fun fd request finished =>
        quiet fd request (finished_cons.mpr (Or.inr finished))

theorem callbacks_break (held : c.Held) (finished : ∃ fd request, c.Finished callbacks fd request) :
    Breaks (callbacks.forM (onNotification reference)) c := by
  induction callbacks generalizing c with
  | nil =>
      obtain ⟨fd, request, finished⟩ := finished
      exact absurd finished held.not_finished_nil
  | cons n rest ih =>
      by_cases now : ∃ fd request, c.Finished [n] fd request
      · obtain ⟨fd, request, here⟩ := now
        exact (onNotification_breaks held here).bind
      · have quiet : ∀ fd request, ¬c.Finished [n] fd request := fun fd request here =>
          now ⟨fd, request, here⟩
        obtain ⟨fd, request, here⟩ := finished
        refine (onNotification_leaves quiet).bind_breaks fun _ => ih (held.record quiet)
          ⟨fd, request, ?_⟩
        exact (finished_cons.mp here).resolve_left (quiet fd request)

end Notifications

end Loti.Lotid
