import Loti.ControlTables

/-!
The dispatch of a request. A command registers no request, or it registers one request for its
connection and calls the node; then the callbacks of the call run over the tables.
-/

namespace Loti.Lotid

open Std StateExcept Handles

variable {ν : Type}

def Call.andThen (first : Call ν) (second : ν → Call ν) : Call ν :=
  match first.ended with
  | .ok () =>
      { second first.after with callbacks := first.callbacks ++ (second first.after).callbacks }
  | .error _ => first

def Host.plan (host : Host ν) (args : List Text) (node : ν) : Option (Request × Call ν) :=
  match args with
  | [] => none
  | verb :: rest =>
      if verb = text "bounds" ∨ verb = text "chain" ∨ verb = text "order" then
        if verb = text "order" then
          match rest with
          | first :: second :: _ =>
              match host.resolveEvent first node, host.resolveEvent second node with
              | .ok (some a), .ok (some b) =>
                  some (.order a.hash b.hash, host.discoverEventOrder a b (parseRange args 3) node)
              | _, _ => none
          | _ => none
        else
          match rest with
          | ref :: _ =>
              match host.resolveEvent ref node with
              | .ok (some e) =>
                  if verb = text "bounds" then
                    some (.bounds e.hash, host.discoverEventBounds e (parseRange args 2) node)
                  else some (.chain e.hash, host.discoverEventChain e (parseRange args 2) node)
              | _ => none
          | [] => none
      else if verb = text "prove" then
        match rest with
        | [] => none
        | sub :: rest =>
            if sub = text "order" then
              match rest with
              | first :: second :: _ =>
                  match host.resolveEvent first node, host.resolveEvent second node with
                  | .ok (some a), .ok (some b) =>
                      some (.orderProof a.hash b.hash,
                        (host.discoverEventChain a (parseRange args 4) node).andThen
                        (host.discoverEventChain b (parseRange args 4)))
                  | _, _ => none
              | _ => none
            else if sub ≠ text "bounds" ∧ sub ≠ text "chain" then none
            else
              match rest with
              | ref :: _ =>
                  match host.resolveEvent ref node with
                  | .ok (some e) =>
                      some (.proof e.hash (if sub = text "chain" then .chain else .bounds),
                        host.discoverEventChain e (parseRange args 3) node)
                  | _ => none
              | [] => none
      else none

variable {host : Host ν} {s : Daemon ν} {args : List Text} {fd : Nat}

def Request.Of (args : List Text) : Request → Prop
  | .bounds _ => args.headD [] = text "bounds"
  | .chain _ => args.headD [] = text "chain"
  | .order _ _ => args.headD [] = text "order"
  | .proof _ kind => args.headD [] = text "prove" ∧ args[1]? = some (kindName kind) ∧
      (kind = .bounds ∨ kind = .chain)
  | .orderProof _ _ => args.headD [] = text "prove" ∧ args[1]? = some (kindName .order)

inductive Host.Discovers (host : Host ν) : (ν → Call ν) → Prop
  | chain (e : Event) (range : TimeRange) : host.Discovers (host.discoverEventChain e range)
  | bounds (e : Event) (range : TimeRange) : host.Discovers (host.discoverEventBounds e range)
  | order (a b : Event) (range : TimeRange) : host.Discovers (host.discoverEventOrder a b range)

/-- What a dispatch over a control connection does, with the plan that it follows. -/
inductive Planned (host : Host ν) (args : List Text) (fd : Nat) (s : Daemon ν)
    (m : DaemonM ν Reply) : Option (Request × Call ν) → Prop
  | fails (fault : Fault) : m s = .error (.fault fault) s → Planned host args fd s m none
  | refuses (reply : Reply) : m s = .ok reply s → reply.error ≠ [] → reply.deferred = false →
      Planned host args fd s m none
  | commands : args.headD [] ≠ text "prove" →
      m s = (ofExcept .fault (host.command args s.node).1 : DaemonM ν Reply)
      { s with node := (host.command args s.node).2 } →
      Planned host args fd s m none
  | asks (request : Request) (call : ν → Call ν) : request.Of args → host.Discovers call →
      m s = (callNode host call >>= fun _ => pure { deferred := true })
      ⟨s.node, s.control.register fd request⟩ →
      Planned host args fd s m (some (request, call s.node))
  | asksTwice (request : Request) (first second : ν → Call ν) : request.Of args →
      host.Discovers first → host.Discovers second →
        m s = (callNode host first >>= fun _ => callNode host second >>= fun _ =>
          pure { deferred := true })
        ⟨s.node, s.control.register fd request⟩ →
      Planned host args fd s m (some (request, (first s.node).andThen second))

theorem Planned.resolve {ref : Text} {rest : Option Event → DaemonM ν Reply}
    {plan : Option (Request × Call ν)} {event : Option Event}
    (found : host.resolveEvent ref s.node = .ok event)
    (onward : Planned host args fd s (rest event) plan) :
    Planned host args fd s (resolveEvent host ref >>= rest) plan := by
  have same : (resolveEvent host ref >>= rest) s = rest event s := by
    simp only [resolveEvent, bind, EStateM.bind, get_run, found]
    rfl
  cases onward with
  | fails fault ran => exact .fails fault (same.trans ran)
  | refuses reply ran error prompt => exact .refuses reply (same.trans ran) error prompt
  | commands other ran => exact .commands other (same.trans ran)
  | asks request call of discovers ran => exact .asks request call of discovers (same.trans ran)
  | asksTwice request first second of one two ran =>
      exact .asksTwice request first second of one two (same.trans ran)

theorem Planned.unresolved {ref : Text} {rest : Option Event → DaemonM ν Reply} {fault : Fault}
    (failed : host.resolveEvent ref s.node = .error fault) :
    Planned host args fd s (resolveEvent host ref >>= rest) none := by
  refine .fails fault ?_
  simp only [resolveEvent, bind, EStateM.bind, get_run, failed]
  rfl

theorem noSuchEvent_error : noSuchEvent.error ≠ [] := by decide +kernel

theorem dispatchQuery_planned {verb : Text} {rest : List Text}
    (query : verb = text "bounds" ∨ verb = text "chain" ∨ verb = text "order") :
    Planned host (verb :: rest) fd s (dispatchQuery host verb (verb :: rest) (some fd))
      (host.plan (verb :: rest) s.node) := by
  simp only [Host.plan, if_pos query]
  by_cases order : verb = text "order"
  · simp only [dispatchQuery, if_pos order]
    rcases rest with _ | ⟨first, _ | ⟨second, more⟩⟩
    · exact .refuses _ rfl (by decide +kernel) rfl
    · exact .refuses _ rfl (by decide +kernel) rfl
    dsimp only
    cases one : host.resolveEvent first s.node with
    | error fault => exact .unresolved one
    | ok a =>
        cases two : host.resolveEvent second s.node with
        | error fault =>
            refine .resolve one ?_
            cases a <;> exact .unresolved two
        | ok b =>
            refine .resolve one (.resolve two ?_)
            cases a with
            | none => exact .refuses _ rfl noSuchEvent_error rfl
            | some a =>
                cases b with
                | none => exact .refuses _ rfl noSuchEvent_error rfl
                | some b => exact .asks _ _ order (.order a b _) rfl
  · simp only [dispatchQuery, if_neg order]
    cases rest with
    | nil =>
        refine .refuses _ rfl (fun empty => ?_) rfl
        exact absurd (List.append_eq_nil_iff.mp empty).2 (by decide +kernel)
    | cons ref more =>
        dsimp only
        cases found : host.resolveEvent ref s.node with
        | error fault => exact .unresolved found
        | ok event =>
            refine .resolve found ?_
            cases event with
            | none => exact .refuses _ rfl noSuchEvent_error rfl
            | some e =>
                by_cases bounds : verb = text "bounds"
                · simp only [if_pos bounds]
                  exact .asks _ _ bounds (.bounds e _) rfl
                · simp only [if_neg bounds]
                  exact .asks _ _ ((query.resolve_left bounds).resolve_right order) (.chain e _) rfl

theorem dispatchProve_planned {rest : List Text} :
    Planned host (text "prove" :: rest) fd s (dispatchProve host (text "prove" :: rest) (some fd))
      (host.plan (text "prove" :: rest) s.node) := by
  have query : ¬(text "prove" = text "bounds" ∨ text "prove" = text "chain" ∨
      text "prove" = text "order") := by decide +kernel
  simp only [Host.plan, if_neg query, if_true]
  cases rest with
  | nil => exact .refuses _ rfl (by decide +kernel) rfl
  | cons sub rest =>
      simp only [dispatchProve]
      by_cases order : sub = text "order"
      · simp only [if_pos order]
        rcases rest with _ | ⟨first, _ | ⟨second, more⟩⟩
        · exact .refuses _ rfl (by decide +kernel) rfl
        · exact .refuses _ rfl (by decide +kernel) rfl
        dsimp only
        cases one : host.resolveEvent first s.node with
        | error fault => exact .unresolved one
        | ok a =>
            cases two : host.resolveEvent second s.node with
            | error fault =>
                refine .resolve one ?_
                cases a <;> exact .unresolved two
            | ok b =>
                refine .resolve one (.resolve two ?_)
                cases a with
                | none => exact .refuses _ rfl noSuchEvent_error rfl
                | some a =>
                    cases b with
                    | none => exact .refuses _ rfl noSuchEvent_error rfl
                    | some b =>
                        exact .asksTwice _ _ _ ⟨rfl, congrArg some order⟩ (.chain a _) (.chain b _) rfl
      · simp only [if_neg order]
        by_cases kind : sub ≠ text "bounds" ∧ sub ≠ text "chain"
        · simp only [if_pos kind]
          exact .refuses _ rfl (by decide +kernel) rfl
        · simp only [if_neg kind]
          cases rest with
          | nil =>
              refine .refuses _ rfl (fun empty => ?_) rfl
              exact absurd (List.append_eq_nil_iff.mp empty).2 (by decide +kernel)
          | cons ref more =>
              dsimp only
              cases found : host.resolveEvent ref s.node with
              | error fault => exact .unresolved found
              | ok event =>
                  refine .resolve found ?_
                  cases event with
                  | none => exact .refuses _ rfl noSuchEvent_error rfl
                  | some e =>
                      refine .asks _ _ ⟨rfl, ?_, ?_⟩ (.chain e _) rfl
                      · split_ifs with chain
                        · exact congrArg some chain
                        · exact congrArg some (Classical.byContradiction fun bounds => kind ⟨bounds, chain⟩)
                      · split_ifs
                        · exact Or.inr rfl
                        · exact Or.inl rfl

theorem dispatch_planned (nonempty : args ≠ []) :
    Planned host args fd s (dispatch host args (some fd)) (host.plan args s.node) := by
  match args with
  | verb :: rest =>
      unfold dispatch
      dsimp only
      split
      · rename_i query
        exact dispatchQuery_planned query
      · rename_i query
        split
        · rename_i prove
          obtain rfl : verb = text "prove" := prove
          exact dispatchProve_planned
        · rename_i prove
          have unplanned : host.plan (verb :: rest) s.node = none := by
            simp only [Host.plan]
            exact (if_neg query).trans (if_neg prove)
          rw [unplanned]
          exact .commands prove rfl

def Quietly {α : Type} (m : DaemonM ν α) (s : Daemon ν) (control : Control)
    (post : α → Prop) : Prop :=
  Ends m s (fun value after => after.control = control ∧ post value)
    fun fault after => (∃ inner, fault = .fault inner) ∧ after.control = control

/-- A command registers no request, or it registers one and calls the node. A callback that ends
what a client waits for breaks the call. -/
inductive Dispatches (m : DaemonM ν Reply) (fd : Nat) (s : Daemon ν) :
    Option (Request × Call ν) → Prop
  | prompt : Quietly m s s.control (fun reply => reply.deferred = false) → Dispatches m fd s none
  | deferred (request : Request) (call : Call ν) :
      ((s.control.register fd request).Held →
        (∀ fd' other, ¬(s.control.register fd request).Finished call.callbacks fd' other) →
        Quietly m s ((s.control.register fd request).recordAll call.callbacks) fun _ => True) →
      ((s.control.register fd request).Held →
        (∃ fd' other, (s.control.register fd request).Finished call.callbacks fd' other) →
        Breaks m s) →
      Dispatches m fd s (some (request, call))

theorem callNode_quietly {call : ν → Call ν}
    (quiet : ∀ fd request, ¬s.control.Finished (call s.node).callbacks fd request) :
    Ends (callNode host call) s
      (fun _ after => (call s.node).ended = .ok () ∧
        after = ⟨(call s.node).after, s.control.recordAll (call s.node).callbacks⟩)
      fun fault after => (∃ inner, (call s.node).ended = .error inner ∧ fault = .fault inner) ∧
        after.control = s.control.recordAll (call s.node).callbacks := by
  simp only [callNode, ends_bind, ends_get, ends_modify, ends_onControl, ends_ofExcept]
  refine (callbacks_yield quiet).always fun _ control same => ?_
  exact ⟨fun _ ended => ⟨ended, by rw [same]⟩, fun inner ended => ⟨⟨inner, ended, rfl⟩, same⟩⟩

theorem callNode_breaks {call : ν → Call ν} (held : s.control.Held)
    (finished : ∃ fd request, s.control.Finished (call s.node).callbacks fd request) :
    Breaks (callNode host call) s := by
  simp only [Breaks, callNode, ends_bind, ends_get, ends_modify, ends_onControl]
  exact (callbacks_break held finished).weaken fun _ _ no => no.elim

theorem Dispatches.one {m : DaemonM ν Reply} (request : Request) (call : ν → Call ν)
    (ran : m s = (callNode host call >>= fun _ => pure ({ deferred := true } : Reply))
      ⟨s.node, s.control.register fd request⟩) :
    Dispatches m fd s (some (request, call s.node)) := by
  refine .deferred _ _ (fun held quiet => Ends.of_eq ?_ ran) fun held finished => Ends.of_eq ?_ ran
  · rw [ends_bind]
    refine (callNode_quietly quiet).mono ?_ ?_
    · rintro _ _ ⟨-, rfl⟩
      exact ⟨rfl, trivial⟩
    · rintro _ _ ⟨⟨inner, -, raised⟩, same⟩
      exact ⟨⟨inner, raised⟩, same⟩
  · exact (callNode_breaks held finished).bind

theorem Dispatches.two {m : DaemonM ν Reply} (request : Request) (first second : ν → Call ν)
    (ran : m s = (callNode host first >>= fun _ => callNode host second >>= fun _ =>
      pure ({ deferred := true } : Reply)) ⟨s.node, s.control.register fd request⟩) :
    Dispatches m fd s (some (request, (first s.node).andThen second)) := by
  cases ended : (first s.node).ended with
  | error fault =>
      have same : (first s.node).andThen second = first s.node := by simp only [Call.andThen, ended]
      rw [same]
      refine .deferred _ _ (fun held quiet => Ends.of_eq ?_ ran) fun held finished =>
        Ends.of_eq ?_ ran
      · rw [ends_bind]
        refine (callNode_quietly quiet).mono ?_ ?_
        · rintro _ _ ⟨fine, -⟩
          rw [ended] at fine
          cases fine
        · rintro _ _ ⟨⟨inner, -, raised⟩, same⟩
          exact ⟨⟨inner, raised⟩, same⟩
      · exact (callNode_breaks held finished).bind
  | ok =>
      have both : ((first s.node).andThen second).callbacks =
          (first s.node).callbacks ++ (second (first s.node).after).callbacks := by
        simp only [Call.andThen, ended]
      refine .deferred _ _ (fun held quiet => Ends.of_eq ?_ ran) fun held finished =>
        Ends.of_eq ?_ ran
      · rw [both] at quiet ⊢
        have apart := (not_congr held.finished_append).mp fun ⟨fd', other, finished⟩ =>
          quiet fd' other finished
        rw [not_or] at apart
        have now : ∀ fd' other, ¬(s.control.register fd request).Finished
          (first s.node).callbacks fd' other :=
          fun fd' other finished => apart.1 ⟨fd', other, finished⟩
        rw [ends_bind]
        refine (callNode_quietly now).mono ?_ ?_
        · rintro _ _ ⟨-, rfl⟩
          rw [ends_bind]
          refine (callNode_quietly
            fun fd' other finished => apart.2 ⟨fd', other, finished⟩).mono ?_ ?_
          · rintro _ _ ⟨-, rfl⟩
            exact ⟨by simp [Control.recordAll], trivial⟩
          · rintro _ _ ⟨⟨inner, -, raised⟩, same⟩
            exact ⟨⟨inner, raised⟩, by simpa [Control.recordAll] using same⟩
        · rintro _ _ ⟨⟨inner, failed, -⟩, -⟩
          rw [ended] at failed
          cases failed
      · rw [both] at finished
        by_cases now : ∃ fd' other, (s.control.register fd request).Finished
          (first s.node).callbacks fd' other
        · exact (callNode_breaks held now).bind
        · have quiet : ∀ fd' other, ¬(s.control.register fd request).Finished
            (first s.node).callbacks fd' other :=
            fun fd' other here => now ⟨fd', other, here⟩
          refine ends_bind.mpr ((callNode_quietly quiet).mono ?_ ?_)
          · rintro _ _ ⟨-, rfl⟩
            exact (callNode_breaks (held.recordAll quiet)
              ((held.finished_append.mp finished).resolve_left now)).bind
          · rintro _ _ ⟨⟨inner, failed, -⟩, -⟩
            rw [ended] at failed
            cases failed

theorem dispatch_plan (nonempty : args ≠ []) :
    Dispatches (dispatch host args (some fd)) fd s (host.plan args s.node) := by
  have planned : Planned host args fd s (dispatch host args (some fd)) (host.plan args s.node) :=
    dispatch_planned nonempty
  generalize host.plan args s.node = plan at planned ⊢
  cases planned with
  | fails fault ran => exact .prompt (ends_error ran ⟨⟨fault, rfl⟩, rfl⟩)
  | refuses reply ran _ prompt => exact .prompt (ends_ok ran ⟨rfl, prompt⟩)
  | commands _ ran =>
      refine .prompt (Ends.of_eq ?_ ran)
      rw [ends_ofExcept]
      exact ⟨fun reply replied => ⟨rfl, host.prompt _ _ reply replied⟩, fun fault _ =>
        ⟨⟨fault, rfl⟩, rfl⟩⟩
  | asks request call _ _ ran => exact .one request call ran
  | asksTwice request first second _ _ _ ran => exact .two request first second ran

def Control.asked (c : Control) (fd : Nat) : Option (Request × Call ν) → Control
  | some (request, _) => c.register fd request
  | none => c

def planCallbacks : Option (Request × Call ν) → List Notification
  | some (_, call) => call.callbacks
  | none => []

theorem dispatchGuarded_quietly (nonempty : args ≠ [])
    (held : (s.control.asked fd (host.plan args s.node)).Held)
    (quiet : ∀ fd' request, ¬(s.control.asked fd (host.plan args s.node)).Finished
      (planCallbacks (host.plan args s.node)) fd' request) :
    Quietly (dispatchGuarded host args (some fd)) s
      ((s.control.asked fd (host.plan args s.node)).recordAll
        (planCallbacks (host.plan args s.node))) fun _ => True := by
  have dispatches : Dispatches (dispatch host args (some fd)) fd s (host.plan args s.node) :=
    dispatch_plan nonempty
  have quietly : Quietly (dispatch host args (some fd)) s
      ((s.control.asked fd (host.plan args s.node)).recordAll
        (planCallbacks (host.plan args s.node))) fun _ => True := by
    generalize host.plan args s.node = plan at *
    cases dispatches with
    | prompt quietly => exact quietly.weaken fun _ _ ends => ⟨ends.1, trivial⟩
    | deferred request call quietly _ => exact quietly held quiet
  unfold dispatchGuarded
  refine ends_tryCatch.mpr (quietly.mono (fun _ _ ends => ends) ?_)
  rintro _ after ⟨⟨inner, rfl⟩, same⟩
  cases inner with
  | exception what => exact ⟨same, trivial⟩
  | _ => exact ⟨⟨_, rfl⟩, same⟩

theorem dispatchGuarded_breaks (nonempty : args ≠ [])
    (held : (s.control.asked fd (host.plan args s.node)).Held)
    (finished : ∃ fd' request, (s.control.asked fd (host.plan args s.node)).Finished
      (planCallbacks (host.plan args s.node)) fd' request) :
    Breaks (dispatchGuarded host args (some fd)) s := by
  have dispatches : Dispatches (dispatch host args (some fd)) fd s (host.plan args s.node) :=
    dispatch_plan nonempty
  have breaks : Breaks (dispatch host args (some fd)) s := by
    generalize host.plan args s.node = plan at *
    cases dispatches with
    | prompt quietly =>
        obtain ⟨fd', request, finished⟩ := finished
        exact absurd finished held.not_finished_nil
    | deferred request call _ breaks => exact breaks held finished
  unfold dispatchGuarded
  refine ends_tryCatch.mpr (breaks.mono (fun _ _ no => no.elim) ?_)
  rintro (_ | _ | inner) after fatal
  · trivial
  · trivial
  · exact fatal.elim

end Loti.Lotid
