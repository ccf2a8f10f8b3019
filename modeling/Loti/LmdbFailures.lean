import Loti.LmdbFile

/-!
What a write of `LmdbStore` that throws leaves behind. The writes that go through a batch, and
`reset`, always leave the store as it was, with no transaction open. Two do not: `put_timed_routes`
leaves its transaction open when a put fails, and `prune_chain` aborts its transaction once more
when the commit fails.
-/

namespace Loti.LmdbFile

open Std StateExcept Transactions

def counters (s : LmdbFile) := (s.nextEventSeq, s.nextClockSeq, s.chainTipSeq, s.chainSeqs)

/-- The write that led from `s` to `after` has left the store as it was, ready for the next one. -/
structure Unharmed (s after : LmdbFile) : Prop where
  closed : after.env.writer = none
  within : s.env.Within after.env
  counters : after.counters = s.counters

structure InTxn (s t : LmdbFile) : Prop where
  started : t.env.writer.isSome = true
  within : s.env.Within t.env
  counters : t.counters = s.counters

variable {s t after : LmdbFile} {invariant : LmdbFile → Prop} {α : Type} {change : Tables → Tables}
  {what : String}

theorem Unharmed.refl (idle : s.env.writer = none) : Unharmed s s := ⟨idle, .refl s.env, rfl⟩

theorem Unharmed.trans (first : Unharmed s t) (second : Unharmed t after) : Unharmed s after :=
  ⟨second.closed, first.within.trans second.within, second.counters.trans first.counters⟩

theorem Unharmed.matches {build : Build} (unharmed : Unharmed s after) (before : s.Matches build) :
    after.Matches build := by
  obtain ⟨events, clocks, trackers⟩ := before
  have same := unharmed.counters
  simp only [LmdbFile.counters, Prod.mk.injEq] at same
  unfold Matches
  rw [unharmed.within.committed, same.1, same.2.1, same.2.2.1, same.2.2.2]
  exact ⟨events, clocks, trackers⟩

/-! Inside a transaction -/

theorem InTxn.write (inside : InTxn s t) (change : Tables → Tables) :
    InTxn s { t with env := t.env.write change } :=
  ⟨(Env.writer_write t.env change).trans inside.started,
    inside.within.trans (Env.within_write t.env change), inside.counters⟩

theorem InTxn.abort (inside : InTxn s t) : Unharmed s { t with env := t.env.abort } :=
  ⟨Env.writer_abort t.env, inside.within.trans (Env.within_abort inside.started), inside.counters⟩

theorem keeps_check (what : String) (rc : Option ErrorCode) :
    Keeps invariant (check what rc) := by
  intro t holds
  cases rc <;> exact holds

theorem keeps_checkWrite (what : String) (rc : Option ErrorCode) :
    Keeps invariant (checkWrite what rc) := by
  unfold checkWrite
  split
  · exact fun _ holds => holds
  · exact keeps_check what _

theorem call_ends {post : Option ErrorCode → LmdbFile → Prop}
    {thrown : LmdbFault → LmdbFile → Prop} : Ends (call change) t post thrown ↔
    post t.env.result { t with env := t.env.write change } := Iff.rfl

theorem call_inTxn (change : Tables → Tables) : Keeps (InTxn s) (call change) :=
  fun _ inside => inside.write change

theorem mdbPut_inTxn (db : Db) (key value : Bytes) : Keeps (InTxn s) (mdbPut db key value) := by
  unfold mdbPut
  split
  · exact call_inTxn _
  · exact fun _ inside => inside

theorem mdbPutReferencing_inTxn (key value : Bytes) :
    Keeps (InTxn s) (mdbPutReferencing key value) := by
  unfold mdbPutReferencing
  split
  · exact call_inTxn _
  · exact fun _ inside => inside

theorem mdbGet_keeps (db : Db) (key : Bytes) : Keeps invariant (mdbGet db key) := by
  intro t holds
  unfold mdbGet
  split
  · exact holds
  · simp only [ends_bind, ends_get]
    split <;> exact holds

theorem checkedPut_inTxn {rc : LmdbM (Option ErrorCode)} (put : Keeps (InTxn s) rc)
    (what : String) : Keeps (InTxn s) (rc >>= checkWrite what) :=
  put.bind fun _ => keeps_checkWrite what _

/-! Batches -/

def Confined {α : Type} (op : Batch → LmdbM (α × Batch)) : Prop := ∀ s b, Keeps (InTxn s) (op b)

theorem appendEvent_confined (e : Event) : Confined (Batch.appendEvent e) := fun _ _ =>
  (mdbPut_inTxn _ _ _).bind fun _ => (keeps_checkWrite _ _).bind fun _ =>
    (mdbPut_inTxn _ _ _).bind fun _ => (keeps_checkWrite _ _).bind fun _ => fun _ inside => inside

theorem appendClockEvent_confined (c : LocalClockEvent) : Confined (Batch.appendClockEvent c) := by
  intro s b
  refine (mdbPut_inTxn _ _ _).bind fun _ => (keeps_checkWrite _ _).bind fun _ => ?_
  refine (mdbPut_inTxn _ _ _).bind fun _ => (keeps_checkWrite _ _).bind fun _ => ?_
  refine Keeps.bind (keeps_forM fun ref _ => ?_) fun _ => fun _ inside => inside
  exact checkedPut_inTxn (mdbPutReferencing_inTxn _ _) _

theorem updateClockEvent_confined (c : LocalClockEvent) : Confined (Batch.updateClockEvent c) := by
  intro s b
  refine (mdbGet_keeps _ _).bind fun found => ?_
  split
  · exact fun _ inside => inside
  · exact fun _ inside => inside
  · exact (mdbPut_inTxn _ _ _).bind fun _ => (keeps_checkWrite _ _).bind fun _ =>
      fun _ inside => inside

theorem putNeighbor_confined (n : Neighbor) : Confined (Batch.putNeighbor n) := fun _ _ =>
  (mdbPut_inTxn _ _ _).bind fun _ => (keeps_checkWrite _ _).bind fun _ => fun _ inside => inside

theorem putRoute_confined (destination nextHop : NodeId) :
    Confined (Batch.putRoute destination nextHop) := fun _ _ =>
  (mdbPut_inTxn _ _ _).bind fun _ => (keeps_checkWrite _ _).bind fun _ => fun _ inside => inside

theorem txnBegin_ends (idle : s.env.writer = none) {post : Unit → LmdbFile → Prop}
    {thrown : LmdbFault → LmdbFile → Prop} : Ends txnBegin s post thrown ↔
    post () { s with env := { s.env with writer := some s.env.committed } } := by
  simp [txnBegin, Env.start, idle]

theorem inTxn_started : InTxn s { s with env := { s.env with writer := some s.env.committed } } :=
  ⟨rfl, ⟨rfl, rfl⟩, rfl⟩

theorem InTxn.commit_failed (inside : InTxn s t) {code : ErrorCode}
    (failed : t.env.result = some code) : Unharmed s { t with env := t.env.commit } :=
  ⟨Env.writer_commit t.env, inside.within.trans (Env.within_commit_failed failed), inside.counters⟩

theorem InTxn.checkedCommit (inside : InTxn s t) {checked : Option ErrorCode → LmdbM Unit}
    (passes : checked none = pure ()) (stays : ∀ rc (invariant : LmdbFile → Prop),
      Keeps invariant (checked rc)) :
    Ends (txnCommit >>= checked) t (fun _ _ => True) (fun _ after => Unharmed s after) := by
  simp only [txnCommit, ends_bind, ends_get, ends_set, ends_pure]
  cases failed : t.env.result with
  | none =>
      rw [passes]
      trivial
  | some code =>
      exact (stays _ _ _ (inside.commit_failed failed)).weaken fun _ _ _ => trivial

theorem InTxn.commit (inside : InTxn s t) (b : Batch) :
    Ends b.commit t (fun _ _ => True) (fun _ after => Unharmed s after) := by
  unfold Batch.commit
  rw [← bind_assoc, ends_bind]
  exact (inside.checkedCommit rfl fun rc _ => keeps_checkWrite _ rc).weaken fun _ _ _ => trivial

theorem attempt_unharmed {op : Batch → LmdbM (α × Batch)} (confined : Confined op)
    (idle : s.env.writer = none) :
    Ends (attempt op) s (fun _ _ => True) (fun _ after => Unharmed s after) := by
  -- a fault finds the transaction open, or consumed by a commit that failed
  have destroyed : ∀ t, InTxn s t ∨ Unharmed s t →
      EndsIn (when (t.env.writer.isSome = true) txnAbort) t (fun after => Unharmed s after) := by
    intro t stopped
    simp only [ends_when, txnAbort, ends_modify]
    rcases stopped with inside | unharmed
    · exact ⟨fun _ => inside.abort, fun closed => absurd inside.started closed⟩
    · exact ⟨fun started => by simp [unharmed.closed] at started, fun _ => unharmed⟩
  simp only [attempt, ends_bind, txnBegin_ends idle, ends_get, ends_tryCatch, ends_throw, ends_pure]
  refine (confined s _ _ inTxn_started).mono (fun result t inside => ?_) fun _ t inside =>
    destroyed t (.inl inside)
  exact (inside.commit result.2).mono (fun _ _ _ => trivial) fun _ t unharmed =>
    destroyed t (.inr unharmed)

variable {build : Build}

theorem growMap_unharmed : Keeps (Unharmed s) (growMap build) := by
  intro t unharmed
  simp only [growMap, ends_bind, ends_get]
  split
  · exact unharmed
  · simp only [ends_pure, ends_set, call, ends_bind, ends_get]
    refine keeps_check _ _ _ ⟨?_, unharmed.within.trans (Env.within_write t.env id),
      unharmed.counters⟩
    have same := Env.writer_write t.env id
    rw [unharmed.closed] at same
    simpa using same

theorem durableIn_unharmed {op : Batch → LmdbM (α × Batch)} (confined : Confined op) (rounds : Nat)
    (idle : s.env.writer = none) :
    Ends (durableIn build op rounds) s (fun _ _ => True) (fun _ after => Unharmed s after) := by
  induction rounds generalizing s with
  | zero => exact .refl idle
  | succ rounds ih =>
      rw [durableIn, ends_tryCatch]
      refine (attempt_unharmed confined idle).mono (fun _ _ _ => trivial) fun fault t unharmed => ?_
      cases fault with
      | fault other => exact unharmed
      | mapFull =>
          rw [ends_bind]
          refine (growMap_unharmed t unharmed).weaken fun _ grown kept => ?_
          exact (ih kept.closed).mono (fun _ _ _ => trivial) fun _ _ later => kept.trans later

theorem durable_unharmed {op : Batch → LmdbM (α × Batch)} (confined : Confined op)
    (idle : s.env.writer = none) :
    Ends (durable build op) s (fun _ _ => True) (fun _ after => Unharmed s after) :=
  durableIn_unharmed confined _ idle

theorem reset_unharmed (idle : s.env.writer = none) :
    Ends reset s (fun _ _ => True) (fun _ after => Unharmed s after) := by
  rw [reset, ends_bind, txnBegin_ends idle, ends_bind]
  refine Ends.mono (ends_forM inTxn_started fun change _ t inside => ?_)
    (fun _ t inside => ?_) fun _ _ unharmed => unharmed
  · simp only [mdbDrop, ends_bind, call_ends]
    cases t.env.result with
    | none => exact inside.write change
    | some code => exact (inside.write change).abort
  · rw [← bind_assoc, ends_bind]
    exact (inside.checkedCommit rfl fun rc _ => keeps_check _ rc).weaken fun _ _ _ => trivial

/-! `put_timed_routes` -/

def Thrown : LmdbFault → Prop
  | .mapFull => True
  | .fault fault => ∃ reason, fault = .exception reason

theorem checkWrite_failed {code : ErrorCode} :
    ∃ fault, Thrown fault ∧ checkWrite what (some code) = throw fault := by
  cases code with
  | mapFull => exact ⟨.mapFull, trivial, rfl⟩
  | _ => exact ⟨.fault (.exception _), ⟨_, rfl⟩, rfl⟩

theorem validKey_nodeId (id : NodeId) : LmdbStore.ValidKey id.bytes := by
  simp [LmdbStore.ValidKey, LmdbStore.maxKeySize, id.size]

theorem putTimedRoute_forM (entries : List (NodeId × List TimedRoute)) (inside : InTxn s t) :
    Ends (entries.forM putTimedRoute) t (fun _ after => InTxn s after ∧ t.env.Smooth entries.length)
      (fun fault after => InTxn s after ∧ Thrown fault ∧ ¬t.env.Smooth entries.length) := by
  induction entries generalizing t with
  | nil => exact ⟨inside, Env.smooth_zero t.env⟩
  | cons entry rest ih =>
      simp only [List.forM_eq_forM, List.forM_cons, ends_bind, putTimedRoute, mdbPut,
        validKey_nodeId, if_true, call_ends, List.length_cons, Env.smooth_succ]
      cases outcome : t.env.result with
      | none =>
          refine (ih (inside.write _)).mono ?_ ?_
          · rintro - after ⟨kept, smooth⟩
            exact ⟨kept, rfl, (Env.smooth_write _ _ _).mp smooth⟩
          · rintro fault after ⟨kept, thrown, rough⟩
            exact ⟨kept, thrown, fun smooth => rough ((Env.smooth_write _ _ _).mpr smooth.2)⟩
      | some code =>
          obtain ⟨fault, thrown, same⟩ := @checkWrite_failed "put_timed_route" code
          rw [same]
          exact ⟨inside.write _, thrown, fun smooth => by cases smooth.1⟩

abbrev FailsClean {α : Type} (m : LmdbM α) (s : LmdbFile) : Prop :=
  Ends m s (fun _ _ => True) fun fault after => Thrown fault → Unharmed s after

theorem putTimedRoutes_clean_iff {table : TimedRouteTable} (idle : s.env.writer = none) :
    FailsClean (putTimedRoutes table) s ↔ s.env.called.Smooth table.toList.length := by
  have puts := putTimedRoute_forM table.toList ((inTxn_started (s := s)).write fun t =>
    t.drop .timedRoutes)
  rw [Env.smooth_write] at puts
  simp only [FailsClean, putTimedRoutes, ends_bind, txnBegin_ends idle, mdbDrop, call_ends]
  constructor
  · intro clean
    obtain ⟨_, _, _, both⟩ := (puts.and clean).returns fun fault after both => by
      have closed := (both.2 both.1.2.1).closed
      exact absurd both.1.1.started (by simp [closed])
    exact both.1.2
  · intro smooth
    refine puts.mono (fun _ t both => ?_) fun _ _ both => absurd smooth both.2.2
    have committed : Ends (txnCommit >>= checkWrite "commit timed_routes") t
      (fun _ _ => True) fun _ after => Unharmed s after :=
      both.1.checkedCommit rfl fun rc _ => keeps_checkWrite _ rc
    rw [ends_bind] at committed
    exact committed.mono
      (fun _ _ checked => checked.mono (fun _ _ _ => trivial) fun _ _ unharmed _ => unharmed)
      fun _ _ unharmed _ => unharmed

/-! `prune_chain` -/

def spendDelete (key : Bytes) (accepted : List (Option ErrorCode))
    (script : List (Option ErrorCode)) : Option (List (Option ErrorCode)) :=
  if key ≠ [] ∧ script.head?.join ∈ accepted then some script.tail else none

def lenient : List (Option ErrorCode) := [none, some .notFound]

def afterRecord (seq : Nat) (ce : ClockEvent) (script : List (Option ErrorCode)) :
    Option (List (Option ErrorCode)) := do
  let script ← ce.referencedEvents.foldlM
    (fun script ref => spendDelete ref.hash lenient script) script
  let script ← spendDelete ce.hash lenient script
  spendDelete (be64 seq) [none] script

def afterDeletes (build : Build) : ExtTreeMap Bytes Bytes → List Nat → List (Option ErrorCode) →
    Option (List (Option ErrorCode))
  | _, [], script => some script
  | records, seq :: rest, script =>
      match records[be64 seq]? with
      | none => afterDeletes build records rest script
      | some bytes =>
          match readClockEvent build bytes with
          | .error _ => none
          | .ok ce => do afterDeletes build (records.erase (be64 seq)) rest (← afterRecord seq ce script)

structure Deleting (s : LmdbFile) (records : ExtTreeMap Bytes Bytes)
    (script : List (Option ErrorCode)) (t : LmdbFile) : Prop
    extends InTxn s t where
  records : t.working.plain .clockEvents = records
  script : t.env.script = script

variable {records : ExtTreeMap Bytes Bytes} {script : List (Option ErrorCode)}

theorem working_write (t : LmdbFile) (started : t.env.writer.isSome = true)
    (change : Tables → Tables) : working { t with env := t.env.write change } =
      if t.env.result = none then change t.working else t.working := by
  obtain ⟨tables, opened⟩ := Option.isSome_iff_exists.mp started
  cases outcome : t.env.result <;> simp [working, Env.write, outcome, Env.called, opened]

theorem Deleting.write (deleting : Deleting s records script t)
    (apart : ∀ tables, (change tables).plain .clockEvents = tables.plain .clockEvents) :
    Deleting s records script.tail { t with env := t.env.write change } where
  toInTxn := deleting.toInTxn.write change
  records := by
    rw [working_write t deleting.started]
    split
    · rw [apart, deleting.records]
    · exact deleting.records
  script := by rw [Env.script_write, deleting.script]

theorem checkDelete_accepted {found : Bool} {outcome : Option ErrorCode}
    (accepted : outcome ∈ lenient) : checkDelete what (orNotFound found outcome) = pure () := by
  simp only [lenient, List.mem_cons, List.not_mem_nil, or_false] at accepted
  rcases accepted with rfl | rfl <;> cases found <;> rfl

theorem checkDelete_refused {found : Bool} {outcome : Option ErrorCode}
    (refused : outcome ∉ lenient) :
    ∃ fault, checkDelete what (orNotFound found outcome) = throw fault := by
  cases outcome with
  | none => exact absurd (by simp [lenient]) refused
  | some code =>
      have same : orNotFound found (some code) = some code := by cases found <;> rfl
      rw [same]
      cases code with
      | notFound => exact absurd (by simp [lenient]) refused
      | _ => exact ⟨_, rfl⟩

theorem Deleting.lenient (deleting : Deleting s records script t) {key : Bytes}
    {found : Tables → Bool}
    (apart : ∀ tables, (change tables).plain .clockEvents = tables.plain .clockEvents) :
    Ends (mdbDelete key found change >>= checkDelete what) t
      (fun _ after => ∃ left, spendDelete key lenient script = some left ∧
        Deleting s records left after)
      (fun _ after => InTxn s after ∧ spendDelete key lenient script = none) := by
  unfold spendDelete mdbDelete
  by_cases empty : key = []
  · simp only [empty, if_true, ends_bind, ends_pure, ne_eq, not_true_eq_false, false_and, if_false]
    exact ⟨deleting.toInTxn, trivial⟩
  · simp only [empty, if_false, ends_bind, ends_pure, ends_get, call_ends, ne_eq,
      not_false_eq_true, true_and]
    have outcome : t.env.result = script.head?.join := by rw [Env.result, deleting.script]
    rw [outcome]
    split
    · rename_i accepted
      rw [checkDelete_accepted accepted]
      exact ⟨_, rfl, deleting.write apart⟩
    · rename_i refused
      obtain ⟨fault, thrown⟩ := @checkDelete_refused what (found t.working) _ refused
      rw [thrown]
      exact ⟨(deleting.write apart).toInTxn, rfl⟩

theorem Deleting.references (deleting : Deleting s records script t) (seq : Nat)
    (refs : List EventReference) :
    Ends (refs.forM fun ref => do
        checkDelete "del referencing(prune)" (← mdbDelReferencing ref.hash (be64 seq))) t
      (fun _ after => ∃ left,
        refs.foldlM (fun script ref => spendDelete ref.hash LmdbFile.lenient script) script =
          some left ∧ Deleting s records left after)
      (fun _ after => InTxn s after ∧
        refs.foldlM (fun script ref => spendDelete ref.hash LmdbFile.lenient script) script =
          none) := by
  induction refs generalizing t script with
  | nil => exact ⟨script, rfl, deleting⟩
  | cons ref rest ih =>
      have first : Ends (do
            checkDelete "del referencing(prune)" (← mdbDelReferencing ref.hash (be64 seq))) t
          (fun _ after => ∃ left, spendDelete ref.hash LmdbFile.lenient script = some left ∧
            Deleting s records left after)
          (fun _ after => InTxn s after ∧ spendDelete ref.hash LmdbFile.lenient script = none) :=
        deleting.lenient fun _ => rfl
      rw [List.forM_eq_forM, List.forM_cons, ends_bind]
      simp only [List.foldlM_cons]
      refine first.mono ?_ ?_
      · rintro - after ⟨left, spent, kept⟩
        rw [spent]
        exact ih kept
      · rintro - after ⟨kept, refused⟩
        rw [refused]
        exact ⟨kept, rfl⟩

theorem be64_ne_nil (seq : Nat) : be64 seq ≠ [] := by
  intro empty
  have size := congrArg List.length empty
  simp [be64] at size

theorem Deleting.ofRecord (deleting : Deleting s records script t) {seq : Nat}
    (held : be64 seq ∈ records) :
      Ends (do check "del clock_event(prune)" (← mdbDel .clockEvents (be64 seq))) t
      (fun _ after => ∃ left, spendDelete (be64 seq) [none] script = some left ∧
        Deleting s (records.erase (be64 seq)) left after)
      (fun _ after => InTxn s after ∧ spendDelete (be64 seq) [none] script = none) := by
  have found : be64 seq ∈ t.working.plain .clockEvents := deleting.records ▸ held
  have outcome : t.env.result = script.head?.join := by rw [Env.result, deleting.script]
  simp only [mdbDel, mdbDelete, be64_ne_nil, if_false, ends_bind, ends_get, call_ends, ends_pure,
    found, decide_true, orNotFound, if_true, spendDelete, ne_eq, not_false_eq_true, true_and,
    List.mem_singleton, ← outcome]
  cases result : t.env.result with
  | none =>
      refine ⟨_, rfl, deleting.toInTxn.write _, ?_, by rw [Env.script_write, deleting.script]⟩
      rw [working_write t deleting.started, if_pos result, ← deleting.records]
      simp [Tables.del]
  | some code => exact ⟨deleting.toInTxn.write _, by simp⟩

theorem Deleting.deletes (deleting : Deleting s records script t) {seq : Nat}
    (held : be64 seq ∈ records) (ce : ClockEvent) : Ends (do
        ce.referencedEvents.forM fun ref => do
          checkDelete "del referencing(prune)" (← mdbDelReferencing ref.hash (be64 seq))
        checkDelete "del clock_index(prune)" (← mdbDel .clockIndex ce.hash)
        check "del clock_event(prune)" (← mdbDel .clockEvents (be64 seq))) t
      (fun _ after => ∃ left, afterRecord seq ce script = some left ∧
        Deleting s (records.erase (be64 seq)) left after)
      (fun _ after => InTxn s after ∧ afterRecord seq ce script = none) := by
  rw [ends_bind]
  unfold afterRecord
  refine (deleting.references seq ce.referencedEvents).mono ?_ ?_
  · rintro - middle ⟨left, spent, kept⟩
    simp only [spent, Option.bind_eq_bind, Option.bind_some]
    have index :
        Ends (do checkDelete "del clock_index(prune)" (← mdbDel .clockIndex ce.hash)) middle
        (fun _ after => ∃ rest, spendDelete ce.hash LmdbFile.lenient left = some rest ∧
          Deleting s records rest after)
        (fun _ after => InTxn s after ∧ spendDelete ce.hash LmdbFile.lenient left = none) :=
      kept.lenient fun tables => by simp [Tables.del]
    rw [← bind_assoc, ends_bind]
    refine index.mono ?_ ?_
    · rintro - after ⟨rest, spent, kept⟩
      rw [spent]
      exact kept.ofRecord held
    · rintro - after ⟨kept, refused⟩
      rw [refused]
      exact ⟨kept, rfl⟩
  · rintro - after ⟨kept, refused⟩
    rw [refused]
    exact ⟨kept, rfl⟩

theorem dropClockEvent_forM (build : Build) (seqs : List Nat)
    (deleting : Deleting s records script t) : Ends (seqs.forM (dropClockEvent build)) t
      (fun _ after => InTxn s after ∧
        afterDeletes build records seqs script = some after.env.script)
      (fun _ after => InTxn s after ∧ afterDeletes build records seqs script = none) := by
  induction seqs generalizing t records script with
  | nil => exact ⟨deleting.toInTxn, by rw [deleting.script, afterDeletes]⟩
  | cons seq rest ih =>
      rw [List.forM_eq_forM, List.forM_cons, ends_bind, afterDeletes, dropClockEvent, mdbGet,
        if_neg (be64_ne_nil seq)]
      rw [ends_bind, ends_bind, ends_get, deleting.records]
      cases read : records[be64 seq]? with
      | none => exact ih deleting
      | some bytes =>
          dsimp only
          rw [ends_pure, ends_bind, ends_ofExcept]
          cases decoded : readClockEvent build bytes with
          | error fault => exact ⟨nofun, fun _ _ => ⟨deleting.toInTxn, rfl⟩⟩
          | ok ce =>
              refine ⟨fun value same => ?_, nofun⟩
              cases same
              have held : be64 seq ∈ records := by
                rw [← ExtTreeMap.isSome_getElem?_iff_mem, read]
                rfl
              refine (deleting.deletes held ce).mono ?_ ?_
              · rintro - after ⟨left, spent, kept⟩
                simp only [spent, Option.bind_eq_bind, Option.bind_some]
                exact ih kept
              · rintro - after ⟨kept, refused⟩
                simp only [refused]
                exact ⟨kept, rfl⟩

/-- When the deletes of the pruning go through, so does the commit. -/
def PruneCommits (build : Build) (s : LmdbFile) (chain : UInt32) (keep : Nat) : Prop :=
  ∀ seqs ∈ s.chainSeqs[chain]?, keep ≠ 0 → keep < seqs.length → ∀ left ∈ afterDeletes build
    (s.env.committed.plain .clockEvents) (seqs.take (seqs.length - keep)) s.env.script,
    left.head?.join = none

theorem abort_consumed (t : LmdbFile) : t.env.commit.abort.reaborts = t.env.reaborts + 1 := by
  cases outcome : t.env.result <;> simp [Env.commit, Env.abort, outcome, Env.called]

theorem pruneChain_clean_iff {chain : UInt32} {keep : Nat} (idle : s.env.writer = none) :
    FailsClean (pruneChain build chain keep) s ↔ PruneCommits build s chain keep := by
  unfold FailsClean PruneCommits pruneChain
  rw [ends_bind, ends_get]
  cases tracked : s.chainSeqs[chain]? with
  | none => simp
  | some seqs =>
      by_cases nothing : keep = 0 ∨ seqs.length ≤ keep
      · simp only [nothing, if_true, ends_pure, true_iff]
        intro _ same used longer
        cases same
        omega
      · have deletes := dropClockEvent_forM build (seqs.take (seqs.length - keep))
          (⟨inTxn_started, rfl, rfl⟩ : Deleting s
            (s.env.committed.plain .clockEvents) s.env.script _)
        obtain ⟨used, longer⟩ : keep ≠ 0 ∧ keep < seqs.length := by omega
        simp only [nothing, if_false]
        simp only [ends_bind, txnBegin_ends idle, ends_tryCatch, txnAbort, ends_modify,
          ends_throw, txnCommit, ends_get, ends_set, ends_pure, Option.mem_some_iff, forall_eq',
          used, longer, ne_eq, not_false_eq_true, forall_true_left]
        constructor
        · intro clean left spent
          obtain ⟨_, t, _, ⟨inside, same⟩, committed⟩ :=
            (deletes.and clean).returns fun _ _ both => by
            simp [both.1.2] at spent
          obtain rfl : t.env.script = left := Option.mem_unique same spent
          cases outcome : t.env.result with
          | none => exact outcome
          | some code =>
              rw [outcome] at committed
              have unharmed : Unharmed s { t with env := t.env.commit.abort } := committed ⟨_, rfl⟩
              have again := abort_consumed t
              rw [unharmed.within.reaborts, inside.within.reaborts] at again
              omega
        · intro commits
          refine deletes.mono (fun _ t both => ?_) fun _ _ both _ => both.1.abort
          have outcome : t.env.result = none := commits _ both.2
          rw [outcome]
          trivial

/-! Every write -/

theorem txnBegin_waits (next : Unit → LmdbM α) (busy : s.env.writer ≠ none) :
    FailsClean (txnBegin >>= next) s := by
  obtain ⟨tables, opened⟩ := Option.ne_none_iff_exists'.mp busy
  simp [txnBegin, Env.start, opened, Thrown]

theorem durable_clean {op : Batch → LmdbM (α × Batch)} (confined : Confined op) (s : LmdbFile) :
    FailsClean (durable build op) s := by
  by_cases idle : s.env.writer = none
  · exact (durable_unharmed confined idle).mono (fun _ _ _ => trivial) fun _ _ unharmed _ =>
      unharmed
  · obtain ⟨tables, opened⟩ := Option.ne_none_iff_exists'.mp idle
    simp [durable, durableIn, attempt, ends_tryCatch, txnBegin, Env.start, opened, Thrown]

theorem reset_clean (s : LmdbFile) : FailsClean reset s := by
  by_cases idle : s.env.writer = none
  · exact (reset_unharmed idle).mono (fun _ _ _ => trivial) fun _ _ unharmed _ => unharmed
  · exact txnBegin_waits _ idle

/-- What a write needs of the state and of the calls it makes to leave the store unharmed when it
throws. -/
def WriteSafe (build : Build) (s : LmdbFile) : StoreWrite → Prop
  | .putTimedRoutes table => s.env.writer = none → s.env.called.Smooth table.toList.length
  | .pruneChain chain keep => s.env.writer = none → PruneCommits build s chain keep
  | _ => True

theorem putTimedRoutes_clean {table : TimedRouteTable} :
    FailsClean (putTimedRoutes table) s ↔
    (s.env.writer = none → s.env.called.Smooth table.toList.length) := by
  by_cases idle : s.env.writer = none
  · simp only [putTimedRoutes_clean_iff idle, idle, forall_true_left]
  · simp only [idle, false_imp_iff, iff_true]
    exact txnBegin_waits _ idle

theorem pruneChain_clean {chain : UInt32} {keep : Nat} :
    FailsClean (pruneChain build chain keep) s ↔
    (s.env.writer = none → PruneCommits build s chain keep) := by
  by_cases idle : s.env.writer = none
  · simp only [pruneChain_clean_iff idle, idle, forall_true_left]
  · simp only [idle, false_imp_iff, iff_true]
    unfold FailsClean pruneChain
    rw [ends_bind, ends_get]
    split
    · trivial
    · split
      · trivial
      · exact txnBegin_waits _ idle

theorem failsClean_map {β : Type} {m : LmdbM α} {function : α → β} : FailsClean (function <$> m) s ↔
    FailsClean m s := ends_map

theorem failsClean_return {m : LmdbM Unit} {value : α} : FailsClean (do m; return value) s ↔
    FailsClean m s := ends_bind

theorem perform_clean_iff (build : Build) (s : LmdbFile) (write : StoreWrite) :
    FailsClean (perform build write) s ↔ WriteSafe build s write := by
  cases write with
  | appendEvent event =>
      exact failsClean_map.trans (iff_true_intro (durable_clean (appendEvent_confined event) s))
  | appendClockEvent record =>
      exact failsClean_map.trans
        (iff_true_intro (durable_clean (appendClockEvent_confined record) s))
  | updateClockEvent record =>
      exact failsClean_return.trans
        (iff_true_intro (durable_clean (updateClockEvent_confined record) s))
  | putNeighbor neighbor =>
      exact failsClean_return.trans
        (iff_true_intro (durable_clean (putNeighbor_confined neighbor) s))
  | putRoute destination nextHop =>
      exact failsClean_return.trans
        (iff_true_intro (durable_clean (putRoute_confined destination nextHop) s))
  | putTimedRoutes table => exact failsClean_return.trans putTimedRoutes_clean
  | pruneChain chain keep => exact failsClean_return.trans pruneChain_clean
  | clear => exact failsClean_return.trans (iff_true_intro (reset_clean s))

/-- A write that throws leaves the store as it was, its counters those of the file and no
transaction open, exactly when it is not `put_timed_routes` with a put that fails and not
`prune_chain` with a commit that fails. -/
theorem failedWrite_iff (build : Build) (s : LmdbFile) (write : StoreWrite) :
    (∀ fault after, perform build write s = .error fault after → Thrown fault →
      Unharmed s after ∧ (s.Matches build → after.Matches build)) ↔ WriteSafe build s write := by
  rw [← perform_clean_iff, FailsClean, ends_thrown_iff]
  constructor
  · intro clean fault after failed thrown
    exact (clean fault after failed thrown).1
  · intro clean fault after failed thrown
    have unharmed := clean fault after failed thrown
    exact ⟨unharmed, unharmed.matches⟩

def sampleBuild : Build := ⟨64, 0⟩

def emptyFile (script : List (Option ErrorCode)) : LmdbFile :=
  { env := { committed := {}, script }, mapSize := 1048576 }

def oneRoute : TimedRouteTable := (∅ : TimedRouteTable).insert default []

/-- The map is full at the only put of `put_timed_routes`: its transaction stays open, and the next
write never begins. -/
theorem putTimedRoutes_leaks :
    Ends (perform sampleBuild (.putTimedRoutes oneRoute)) (emptyFile [none, some .mapFull])
      (fun _ _ => False) fun fault after => fault = .mapFull ∧ after.env.writer.isSome = true ∧
        Ends (perform sampleBuild .clear) after (fun _ _ => False) fun fault _ =>
        fault = .fault .diverges := by
  decide +kernel

end Loti.LmdbFile
