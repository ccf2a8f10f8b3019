import Loti.Node

/-!
Runs of one node: any sequence of API calls, timer firings, datagrams and clock changes.
Whoever calls the node contains its exceptions (`Reactor::safe_call` around timers and
datagrams, `dispatch_guarded` around commands); a failed assertion, undefined behaviour
or an endless loop ends the run.
-/

namespace Loti

open StateExcept

inductive NodeAction
  | start
  | addNeighbor (neighbor : NodeId)
  | learnRoute (destination nextHop : NodeId)
  | learnRouteAt (destination nextHop : NodeId) (validity : TimeRange)
  | publishEvent (data : Bytes)
  | createClockEvent (chain : UInt32)
  | discoverEventChain (event : Event) (range : TimeRange) (registration : Nat)
  | discoverEventBounds (event : Event) (range : TimeRange) (registration : Nat)
  | discoverEventOrder (event1 event2 : Event) (range : TimeRange) (registration : Nat)
  | onPacketReceived (datagram : Bytes)
  | fireTimer (timer : Timer)
  | setClock (now : Timestamp)
  | gc
  | hydrateFromStore
  | restart
  | restore (blob : Bytes)
deriving DecidableEq

variable {σ : Type} [Store σ] {condition : NodeState σ → NodeAction → Prop} {s : NodeState σ}
  {env : NodeEnv} {actions : List NodeAction} {invariant : NodeState σ → Prop}

def perform (env : NodeEnv) : NodeAction → NodeM σ Unit
  | .start => start env
  | .addNeighbor neighbor => addNeighbor neighbor
  | .learnRoute destination nextHop => learnRoute destination nextHop
  | .learnRouteAt destination nextHop validity => learnRouteAt destination nextHop validity
  | .publishEvent data => discard (publishEvent env data)
  | .createClockEvent chain => createClockEvent env chain
  | .discoverEventChain event range registration => discoverEventChain env event range
      (.client registration)
  | .discoverEventBounds event range registration =>
      discoverEventBounds env event range registration
  | .discoverEventOrder event1 event2 range registration =>
      discoverEventOrder env event1 event2 range registration
  | .onPacketReceived datagram => onPacketReceived env datagram
  | .fireTimer timer => fireTimer env timer
  | .setClock now => modify fun s => { s with now }
  | .gc => gc env
  | .hydrateFromStore => hydrateWorkingState env
  | .restart => restart env
  | .restore blob => restore env blob

def contain (m : NodeM σ Unit) : NodeM σ Unit := fun s =>
  match m s with
  | .error (.exception _) after => .ok () after
  | result => result

/-- What `contain` lets no one see. -/
def Fault.Contained (fault : Fault) : Prop := ∃ what, fault = .exception what

def runActions (env : NodeEnv) (actions : List NodeAction) : NodeM σ Unit :=
  actions.forM fun action => contain (perform env action)

def NodeState.fresh (store : σ) : NodeState σ where
  store := store
  now := 0
  saltsDrawn := 0
  neighbors := ∅
  unreferencedPerChain := []
  destinationToNextHop := ∅
  timedRoutes := ∅
  discoveries := {}
  floodSeen := ∅
  timers := []
  signed := []
  sent := []

def NodeState.boot (env : NodeEnv) (store : σ) : NodeState σ :=
  final (hydrateWorkingState env) (NodeState.fresh store)

def nullSigner : Signer where
  sign _ := []
  verify _ _ _ := true

def NodeEnv.simulated (sha256 : Bytes → EventHash) (id : UInt64) (config : NodeConfig) :
    NodeEnv where
  id := NodeId.ofUInt64 id
  hasher := Hasher.ofSha256 sha256
  signer := nullSigner
  salts := UInt64.ofNat
  config := config.withFloodDefaults
  wordBits := 64

omit [Store σ] in
theorem keeps_contain {m : NodeM σ Unit} (kept : Keeps invariant m) :
    Keeps invariant (contain m) := by
  intro s holds
  have outcome := kept s holds
  unfold Ends at outcome ⊢
  unfold contain
  cases result : m s with
  | ok value after => simpa [result] using outcome
  | error fault after =>
      rw [result] at outcome
      cases fault <;> exact outcome

theorem runActions_raises (env : NodeEnv) (actions : List NodeAction) :
    Raises (fun fault => ¬fault.Contained) (runActions (σ := σ) env actions) := by
  refine raises_forM fun action s => ?_
  unfold Ends contain
  split
  · trivial
  · rename_i ran
    split at ran
    · cases ran
    · rename_i escapes
      rintro ⟨what, rfl⟩
      exact escapes what _ ran

theorem keeps_runActions
    (step : ∀ action ∈ actions, Keeps invariant (perform (σ := σ) env action)) :
    Keeps invariant (runActions (σ := σ) env actions) :=
  keeps_forM fun action member => keeps_contain (step action member)

def EachStep (condition : NodeState σ → NodeAction → Prop) (env : NodeEnv) : NodeState σ →
    List NodeAction → Prop
  | _, [] => True
  | s, action :: rest =>
      condition s action ∧
        ∀ after, contain (perform env action) s = .ok () after → EachStep condition env after rest

theorem eachStep_cons_iff {action : NodeAction} {rest : List NodeAction} :
    (condition s action ∧
      match contain (perform env action) s with
      | .ok _ after => EachStep condition env after rest
      | .error _ _ => True) ↔ EachStep condition env s (action :: rest) := by
  simp only [EachStep]
  refine and_congr_right fun _ => ?_
  cases contain (perform env action) s <;> simp

instance EachStep.decidable {condition : NodeState σ → NodeAction → Prop}
    [∀ s action, Decidable (condition s action)] (env : NodeEnv) : (s : NodeState σ) →
    (actions : List NodeAction) → Decidable (EachStep condition env s actions)
  | _, [] => isTrue trivial
  | s, action :: rest =>
      have : Decidable (match contain (perform env action) s with
          | .ok _ after => EachStep condition env after rest
          | .error _ _ => True) :=
        match contain (perform env action) s with
        | .ok _ after => EachStep.decidable env after rest
        | .error _ _ => isTrue trivial
      decidable_of_iff _ eachStep_cons_iff

theorem EachStep.imp {first second : NodeState σ → NodeAction → Prop}
    (each : EachStep first env s actions)
    (weaken : ∀ s, ∀ action ∈ actions, first s action → second s action) :
    EachStep second env s actions := by
  induction actions generalizing s with
  | nil => trivial
  | cons action rest ih =>
      refine ⟨weaken s action List.mem_cons_self each.1, fun after performed =>
        ih (each.2 after performed) ?_⟩
      exact fun s other member => weaken s other (List.mem_cons_of_mem _ member)

theorem eachStep_of_forall (always : ∀ s, ∀ action ∈ actions, condition s action)
    (s : NodeState σ) : EachStep condition env s actions := by
  induction actions generalizing s with
  | nil => trivial
  | cons action rest ih =>
      exact ⟨always s action List.mem_cons_self,
        fun after _ =>
        ih (fun s other member => always s other (List.mem_cons_of_mem _ member)) after⟩

omit [Store σ] in
theorem ends_contain {m : NodeM σ Unit} {fine : Fault → Prop}
    (ends : Ends m s (fun _ => invariant) (fun fault after => fine fault ∧ invariant after)) :
    Ends (contain m) s (fun _ => invariant) (fun fault after => fine fault ∧ invariant after) := by
  unfold Ends at ends ⊢
  unfold contain
  cases result : m s with
  | ok value after => simpa [result] using ends
  | error fault after =>
      rw [result] at ends
      cases fault with
      | exception what => exact ends.2
      | assertion failed => exact ends
      | undefinedBehavior => exact ends
      | diverges => exact ends

omit [Store σ] in
theorem final_contain (m : NodeM σ Unit) (s : NodeState σ) : final (contain m) s = final m s := by
  unfold final contain
  cases m s with
  | ok value after => rfl
  | error fault after => cases fault <;> rfl

theorem final_runActions_one (env : NodeEnv) (action : NodeAction) (s : NodeState σ) :
    final (runActions env [action]) s = final (perform env action) s :=
  final_bind_pure.trans (final_contain _ s)

theorem final_runActions_cons {action : NodeAction} {after : NodeState σ}
    (performed : contain (perform env action) s = .ok () after) (rest : List NodeAction) :
    final (runActions env (action :: rest)) s = final (runActions env rest) after :=
  final_bind_ok performed

theorem runActions_cons_ok_iff {action : NodeAction} {rest : List NodeAction}
    {after : NodeState σ} : runActions env (action :: rest) s = .ok () after ↔
      ∃ middle, contain (perform env action) s = .ok () middle ∧
      runActions env rest middle = .ok () after := by
  simp only [runActions, List.forM_eq_forM, List.forM_cons, bind, EStateM.bind]
  cases contain (perform env action) s <;> simp

theorem final_runActions_snoc (env : NodeEnv) (performed : List NodeAction) (action : NodeAction)
    (s : NodeState σ) : final (runActions env (performed ++ [action])) s =
      match runActions env performed s with
      | .ok _ after => final (perform env action) after
      | .error _ after => after := by
  have split : runActions (σ := σ) env (performed ++ [action]) =
      runActions env performed >>= fun _ => runActions env [action] := List.forM_append
  rw [split]
  cases ran : runActions env performed s with
  | ok value after => rw [final_bind_ok ran, final_runActions_one]
  | error fault after => simp [final, bind, EStateM.bind, ran]

theorem EachStep.and {first second : NodeState σ → NodeAction → Prop}
    (one : EachStep first env s actions) (other : EachStep second env s actions) :
    EachStep (fun s action => first s action ∧ second s action) env s actions := by
  induction actions generalizing s with
  | nil => trivial
  | cons action rest ih =>
      exact ⟨⟨one.1, other.1⟩, fun after performed => ih (one.2 after performed)
        (other.2 after performed)⟩

theorem EachStep.mono_prefix {begun : List NodeAction} (each : EachStep condition env s actions)
    (begins : begun <+: actions) : EachStep condition env s begun := by
  induction begun generalizing actions s with
  | nil => trivial
  | cons action rest ih =>
      cases actions with
      | nil => simp at begins
      | cons first others =>
          obtain ⟨rfl, tail⟩ := List.cons_prefix_cons.mp begins
          exact ⟨each.1, fun after performed => ih (each.2 after performed) tail⟩

theorem ends_runActions {invariant : List NodeAction → NodeState σ → Prop} {fine : Fault → Prop}
    (step : ∀ done action s, invariant done s → condition s action → Ends (perform env action) s
      (fun _ => invariant (done ++ [action])) (fun fault after => fine fault ∧
        invariant (done ++ [action]) after))
    (actions : List NodeAction) {done : List NodeAction} (start : invariant done s)
    (meets : EachStep condition env s actions) :
    Ends (runActions env actions) s (fun _ => invariant (done ++ actions))
      (fun fault after => fine fault ∧ ∃ performed, performed <+: actions ∧
        invariant (done ++ performed) after) := by
  induction actions generalizing done s with
  | nil => simpa [runActions] using start
  | cons action rest ih =>
      have one := ends_contain (step done action s start meets.1)
      simp only [runActions, List.forM_eq_forM, List.forM_cons, ends_bind] at ih ⊢
      unfold Ends at one ⊢
      split at one
      · rename_i after performed
        have more := ih one (meets.2 after performed)
        rw [List.append_assoc, List.singleton_append] at more
        refine more.mono (fun _ _ kept => kept) fun fault last ended => ⟨ended.1, ?_⟩
        obtain ⟨begun, begins, kept⟩ := ended.2
        exact ⟨action :: begun, (List.prefix_cons_inj action).mpr begins, by simpa using kept⟩
      · exact ⟨one.1, [action], by simp, one.2⟩

end Loti
