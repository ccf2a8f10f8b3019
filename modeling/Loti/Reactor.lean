import Mathlib.Data.List.Induction
import Loti.Domain
import Loti.Library.StableQueue

/-!
`src/adapters/os/reactor.hpp`: the timer queue of the daemon's event loop. `timers_` is a multimap
from due times, so a new timer goes behind those that are due at the same time, and `timer_due_`
finds the due time of an id. Ids are 64-bit numbers that are counted up.

The loop of `fire_due_timers` is cut where a callback runs: a callback is any sequence of calls of
the reactor that ends by returning or by throwing. What a run does to the timers is its history,
and `pending` says which timers are to be expected after it.
-/

namespace Loti

open Std StableQueue

abbrev Reactor.TimerId := UInt64

structure Reactor.Timer (Callback : Type) where
  due : Timestamp
  id : TimerId
  callback : Callback

structure Reactor (Callback : Type) where
  running : Bool := false
  nextTimerId : Reactor.TimerId := 0
  timers : List (Reactor.Timer Callback) := []
  timerDue : ExtTreeMap Reactor.TimerId Timestamp := ∅
  stderr : List String := []

namespace Reactor

variable {Callback : Type}

def addTimer (r : Reactor Callback) (due : Timestamp) (callback : Callback) :
    TimerId × Reactor Callback :=
  let id := r.nextTimerId + 1
  (id, { r with
    nextTimerId := id
    timers := place Timer.due ⟨due, id, callback⟩ r.timers
    timerDue := r.timerDue.insert id due })

/-- The first entry of the range of equal due times with this id is erased. -/
def cancelTimer (r : Reactor Callback) (id : TimerId) : Reactor Callback :=
  match r.timerDue[id]? with
  | none => r
  | some due => { r with
      timers := r.timers.eraseP fun timer => timer.due = due ∧ timer.id = id
      timerDue := r.timerDue.erase id }

def stop (r : Reactor Callback) : Reactor Callback := { r with running := false }

/-- The loop of `fire_due_timers` up to the call, with what the clock shows: the timer that fires,
unless the loop ends. -/
def takeDue (r : Reactor Callback) (now : Timestamp) : Option (Timer Callback × Reactor Callback) :=
  match r.timers with
  | [] => none
  | timer :: rest =>
      if now < timer.due then none
      else some (timer, { r with timerDue := r.timerDue.erase timer.id, timers := rest })

/-- How a callback ends; an exception that is not a `std::exception` has no text. -/
inductive Ending
  | returned
  | threw (what : Option String)

def contain (r : Reactor Callback) : Ending → Reactor Callback
  | .returned => r
  | .threw (some what) =>
      { r with stderr :=
        r.stderr ++ ["[lotid] reactor: dropped a failing callback: " ++ what ++ "\n"] }
  | .threw none =>
      { r with stderr := r.stderr ++ ["[lotid] reactor: dropped a failing callback (unknown)\n"] }

/-- Where a call of `fire_due_timers` is: at the head of its loop, or in the callback of a timer. -/
inductive Frame (Callback : Type)
  | looping
  | calling (timer : Timer Callback)

/-- The reactor with the calls of `fire_due_timers` that are under way, the innermost first. -/
structure Machine (Callback : Type) where
  reactor : Reactor Callback := {}
  stack : List (Frame Callback) := []

inductive Step (Callback : Type)
  | addTimer (due : Timestamp) (callback : Callback)
  | cancelTimer (id : TimerId)
  | run
  | stop
  | fireDueTimers
  | check (now : Timestamp)
  | finish (ending : Ending)

inductive Happening (Callback : Type)
  | added (timer : Timer Callback)
  | cancelled (id : TimerId)
  | fired (timer : Timer Callback) (now : Timestamp)

def Machine.call (m : Machine Callback) : Step Callback →
    Option (Machine Callback × List (Happening Callback))
  | .addTimer due callback =>
      let (id, reactor) := m.reactor.addTimer due callback
      some ({ m with reactor }, [.added ⟨due, id, callback⟩])
  | .cancelTimer id => some ({ m with reactor := m.reactor.cancelTimer id }, [.cancelled id])
  | .run => some ({ m with reactor := { m.reactor with running := true } }, [])
  | .stop => some ({ m with reactor := m.reactor.stop }, [])
  | .fireDueTimers => some ({ m with stack := .looping :: m.stack }, [])
  | .check _ | .finish _ => none

def Machine.step (m : Machine Callback) (step : Step Callback) :
    Option (Machine Callback × List (Happening Callback)) :=
  match m.stack, step with
  | .looping :: rest, .check now =>
      match m.reactor.takeDue now with
      | none => some ({ m with stack := rest }, [])
      | some (timer, left) => some (⟨left, .calling timer :: rest⟩, [.fired timer now])
  | .looping :: _, _ => none
  | .calling _ :: rest, .finish ending =>
      some (⟨m.reactor.contain ending, if m.reactor.running then .looping :: rest else rest⟩, [])
  | _, step => m.call step

/-- The machine after any steps, with what has become of timers. -/
inductive Runs : List (Happening Callback) → Machine Callback → Prop
  | start : Runs [] {}
  | step {history happened : List (Happening Callback)} {m after : Machine Callback}
      (step : Step Callback) : Runs history m → m.step step = some (after, happened) →
      Runs (history ++ happened) after

/-! What the history says -/

def Happening.added? : Happening Callback → Option (Timer Callback)
  | .added timer => some timer
  | _ => none

def Happening.fired? : Happening Callback → Option (Timer Callback)
  | .fired timer _ => some timer
  | _ => none

def added (history : List (Happening Callback)) : List (Timer Callback) :=
  history.filterMap Happening.added?

def fired (history : List (Happening Callback)) : List (Timer Callback) :=
  history.filterMap Happening.fired?

def expect (timers : List (Timer Callback)) : Happening Callback → List (Timer Callback)
  | .added timer => timers ++ [timer]
  | .cancelled id => timers.filter fun timer => timer.id ≠ id
  | .fired timer _ => timers.filter fun other => other.id ≠ timer.id

/-- The timers that were added and neither cancelled nor fired since, in the order in which they
were added. -/
def pending (history : List (Happening Callback)) : List (Timer Callback) := history.foldl expect []

structure Coherent (r : Reactor Callback) : Prop where
  unique : (r.timers.map Timer.id).Nodup
  same : ∀ (id : TimerId) (due : Timestamp), r.timerDue[id]? = some due ↔ ∃ timer ∈ r.timers,
  timer.id = id ∧ timer.due = due

variable {history happened before later : List (Happening Callback)} {m after : Machine Callback}
    {r : Reactor Callback}
  {timer : Timer Callback} {id : TimerId} {left : Reactor Callback} {timers : List (Timer Callback)}

theorem pending_append : pending (history ++ [happening]) = expect (pending history) happening := by
  rw [pending, List.foldl_append]
  rfl

theorem added_append (happening : Happening Callback) :
    added (history ++ [happening]) = added history ++ (Happening.added? happening).toList := by
  cases happening <;> simp [added, Happening.added?]

theorem fired_append (happening : Happening Callback) :
    fired (history ++ [happening]) = fired history ++ (Happening.fired? happening).toList := by
  cases happening <;> simp [fired, Happening.fired?]

theorem pending_sublist_added (history : List (Happening Callback)) :
    (pending history).Sublist (added history) := by
  induction history using List.reverseRecOn with
  | nil => exact List.Sublist.refl []
  | append_singleton front happening ih =>
      rw [pending_append, added_append]
      cases happening with
      | added timer => exact ih.append (List.Sublist.refl [timer])
      | cancelled id => simpa [expect, Happening.added?] using List.filter_sublist.trans ih
      | fired timer now => simpa [expect, Happening.added?] using List.filter_sublist.trans ih

theorem takeDue_eq_some {now : Timestamp} (taken : r.takeDue now = some (timer, left)) :
    timer.due ≤ now ∧ ∃ rest, r.timers = timer :: rest ∧
    left = { r with timerDue := r.timerDue.erase timer.id, timers := rest } := by
  unfold takeDue at taken
  split at taken
  · cases taken
  · rename_i front rest listed
    split at taken
    · cases taken
    · rename_i notEarly
      cases taken
      exact ⟨Std.not_lt.mp notEarly, rest, listed, rfl⟩

@[simp] theorem cancelTimer_nextTimerId (r : Reactor Callback) (id : TimerId) :
    (r.cancelTimer id).nextTimerId = r.nextTimerId := by
  unfold cancelTimer
  split <;> rfl

inductive Changes (r : Reactor Callback) : List (Happening Callback) → Reactor Callback → Prop
  | add (due : Timestamp) (callback : Callback) :
      Changes r [.added ⟨due, (r.addTimer due callback).1, callback⟩] (r.addTimer due callback).2
  | cancel (id : TimerId) : Changes r [.cancelled id] (r.cancelTimer id)
  | fire {timer : Timer Callback} {now : Timestamp} {left : Reactor Callback} :
      r.takeDue now = some (timer, left) → Changes r [.fired timer now] left
  | other {left : Reactor Callback} : left.timers = r.timers → left.timerDue = r.timerDue →
      left.nextTimerId = r.nextTimerId → Changes r [] left

theorem Changes.single (changes : Changes r happened left) :
    happened = [] ∨ ∃ only, happened = [only] := by
  cases changes <;> simp

theorem call_changes {step : Step Callback} (called : m.call step = some (after, happened)) :
    Changes m.reactor happened after.reactor := by
  cases step with
  | addTimer due callback =>
      cases called
      exact .add due callback
  | cancelTimer id =>
      cases called
      exact .cancel id
  | run | stop | fireDueTimers =>
      cases called
      exact .other rfl rfl rfl
  | check now | finish ending => cases called

theorem contain_changes (r : Reactor Callback) (ending : Ending) :
    Changes r [] (r.contain ending) := by
  rcases ending with _ | _ | what <;> exact .other rfl rfl rfl

theorem step_changes {step : Step Callback} (ran : m.step step = some (after, happened)) :
    Changes m.reactor happened after.reactor := by
  unfold Machine.step at ran
  split at ran
  · split at ran
    · cases ran
      exact .other rfl rfl rfl
    · rename_i taken
      cases ran
      exact .fire taken
  · cases ran
  · cases ran
    exact contain_changes m.reactor _
  · exact call_changes ran

/-! Ids -/

theorem ofNat_succ_inj {a b : Nat} (one : a < 2 ^ 64) (two : b < 2 ^ 64)
    (same : UInt64.ofNat (a + 1) = UInt64.ofNat (b + 1)) : a = b := by
  have numbers := congrArg UInt64.toNat same
  rw [UInt64.toNat_ofNat', UInt64.toNat_ofNat'] at numbers
  omega

structure Counted (history : List (Happening Callback)) (r : Reactor Callback) : Prop where
  next : r.nextTimerId = UInt64.ofNat (added history).length
  ids : (added history).map Timer.id = (List.range (added history).length).map fun k =>
  UInt64.ofNat (k + 1)

theorem Counted.changes (counted : Counted history r) (changes : Changes r happened left) :
    Counted (history ++ happened) left := by
  cases changes with
  | add due callback =>
      have next : r.nextTimerId + 1 = UInt64.ofNat ((added history).length + 1) := by
        rw [counted.next, UInt64.ofNat_add]
        rfl
      constructor <;> rw [added_append] <;> simp only [Happening.added?, Option.toList_some,
        List.length_append, List.length_singleton]
      · exact next
      · rw [List.map_append, counted.ids, List.range_succ, List.map_append, List.map_singleton,
          List.map_singleton, addTimer, next]
  | cancel id =>
      constructor <;> rw [added_append] <;> simp only [Happening.added?, Option.toList_none,
        List.append_nil]
      · rw [cancelTimer_nextTimerId]
        exact counted.next
      · exact counted.ids
  | fire taken =>
      obtain ⟨-, rest, -, rfl⟩ := takeDue_eq_some taken
      constructor <;> rw [added_append] <;> simp only [Happening.added?, Option.toList_none,
        List.append_nil]
      · exact counted.next
      · exact counted.ids
  | other _ _ kept =>
      rw [List.append_nil]
      exact ⟨kept.trans counted.next, counted.ids⟩

theorem Counted.unique (counted : Counted history r) (few : (added history).length ≤ 2 ^ 64) :
    ((added history).map Timer.id).Nodup := by
  rw [counted.ids]
  refine List.Nodup.map_on (fun a one b two same => ?_) List.nodup_range
  rw [List.mem_range] at one two
  exact ofNat_succ_inj (by omega) (by omega) same

/-! The two containers -/

structure Expected (history : List (Happening Callback)) (r : Reactor Callback) : Prop where
  sorts : Sorts Timer.due (pending history) r.timers
  dues : ∀ (id : TimerId) (due : Timestamp), r.timerDue[id]? = some due ↔ ∃ timer ∈ pending history,
  timer.id = id ∧ timer.due = due

theorem eraseP_eq_filter {matched : Timer Callback → Bool} (unique : (timers.map Timer.id).Nodup)
    (matches_iff : ∀ timer ∈ timers, matched timer = true ↔ timer.id = id) :
    timers.eraseP matched = timers.filter fun timer => timer.id ≠ id := by
  induction timers with
  | nil => rfl
  | cons front rest ih =>
      obtain ⟨absent, unique⟩ := List.nodup_cons.mp unique
      have known := matches_iff front List.mem_cons_self
      by_cases here : front.id = id
      · rw [List.eraseP_cons_of_pos (known.mpr here), List.filter_cons_of_neg (by simpa using here),
          eq_comm, List.filter_eq_self]
        intro other member
        have apart : other.id ≠ id := fun same =>
          absent (List.mem_map.mpr ⟨other, member, same.trans here.symm⟩)
        simpa using apart
      · rw [List.eraseP_cons_of_neg fun found => here (known.mp found), List.filter_cons_of_pos
          (by simpa using here), ih unique fun other member =>
          matches_iff other (List.mem_cons_of_mem _ member)]

theorem filter_of_absent (absent : ∀ timer ∈ timers, timer.id ≠ id) :
    (timers.filter fun timer => timer.id ≠ id) = timers := by
  rw [List.filter_eq_self]
  intro timer member
  simpa using absent timer member

theorem dues_erase {table : ExtTreeMap TimerId Timestamp}
    (dues : ∀ (id : TimerId) (due : Timestamp), table[id]? = some due ↔ ∃ timer ∈ timers,
      timer.id = id ∧ timer.due = due)
    (gone other : TimerId) (due : Timestamp) : (table.erase gone)[other]? = some due ↔
      ∃ timer ∈ timers.filter fun timer => timer.id ≠ gone, timer.id = other ∧ timer.due = due := by
  rw [ExtTreeMap.getElem?_erase]
  simp only [LawfulEqCmp.compare_eq_iff_eq, List.mem_filter, decide_eq_true_eq]
  split
  · rename_i here
    constructor
    · nofun
    · rintro ⟨timer, ⟨-, apart⟩, same, -⟩
      exact absurd (same.trans here.symm) apart
  · rename_i apart
    rw [dues]
    constructor
    · rintro ⟨timer, listed, rfl, rfl⟩
      exact ⟨timer, ⟨listed, fun same => apart same.symm⟩, rfl, rfl⟩
    · rintro ⟨timer, ⟨listed, -⟩, same⟩
      exact ⟨timer, listed, same⟩

theorem dues_insert {table : ExtTreeMap TimerId Timestamp}
    (dues : ∀ (id : TimerId) (due : Timestamp), table[id]? = some due ↔ ∃ timer ∈ timers,
      timer.id = id ∧ timer.due = due)
    (timer : Timer Callback) (fresh : ∀ other ∈ timers, other.id ≠ timer.id) (other : TimerId)
      (due : Timestamp) :
    (table.insert timer.id timer.due)[other]? = some due ↔ ∃ held ∈ timers ++ [timer],
      held.id = other ∧ held.due = due := by
  rw [ExtTreeMap.getElem?_insert]
  simp only [LawfulEqCmp.compare_eq_iff_eq, List.mem_append, List.mem_singleton]
  split
  · rename_i here
    subst here
    constructor
    · intro same
      exact ⟨timer, Or.inr rfl, rfl, Option.some.inj same⟩
    · rintro ⟨held, old | rfl, same, rfl⟩
      · exact absurd same (fresh held old)
      · rfl
  · rename_i apart
    rw [dues]
    constructor
    · rintro ⟨held, listed, same⟩
      exact ⟨held, Or.inl listed, same⟩
    · rintro ⟨held, old | rfl, same⟩
      · exact ⟨held, old, same⟩
      · exact absurd same.1 apart

theorem Expected.cancel (expected : Expected history r)
    (unique : ((pending history).map Timer.id).Nodup) (id : TimerId) :
    Expected (history ++ [.cancelled id]) (r.cancelTimer id) := by
  have ids : (r.timers.map Timer.id).Nodup :=
    (expected.sorts.perm.map Timer.id).nodup_iff.mpr unique
  unfold cancelTimer
  cases known : r.timerDue[id]? with
  | none =>
      have absent : ∀ timer ∈ pending history, timer.id ≠ id := by
        intro timer listed same
        have entry := (expected.dues id timer.due).mpr ⟨timer, listed, same, rfl⟩
        cases known.symm.trans entry
      have unchanged : pending (history ++ [.cancelled id]) = pending history := by
        rw [pending_append]
        exact filter_of_absent absent
      exact ⟨unchanged ▸ expected.sorts, unchanged ▸ expected.dues⟩
  | some due =>
      -- the one timer with this id is due then
      have matched : ∀ timer ∈ r.timers, decide (timer.due = due ∧ timer.id = id) = true ↔
        timer.id = id := by
        intro timer listed
        rw [decide_eq_true_eq]
        refine ⟨And.right, fun same => ⟨?_, same⟩⟩
        have entry := (expected.dues id timer.due).mpr
          ⟨timer, expected.sorts.perm.mem_iff.mp listed, same, rfl⟩
        exact Option.mem_unique entry known
      have agenda : pending (history ++ [.cancelled id]) = (pending history).filter fun timer =>
        timer.id ≠ id := pending_append
      constructor <;> dsimp only <;> rw [agenda]
      · rw [eraseP_eq_filter ids matched]
        exact expected.sorts.filter _
      · exact dues_erase expected.dues id

theorem Expected.fire {now : Timestamp} (expected : Expected history r)
    (unique : ((pending history).map Timer.id).Nodup) (taken : r.takeDue now = some (timer, left)) :
    Expected (history ++ [.fired timer now]) left := by
  obtain ⟨-, rest, listed, rfl⟩ := takeDue_eq_some taken
  have agenda : pending (history ++ [.fired timer now]) = (pending history).filter fun other =>
    other.id ≠ timer.id := pending_append
  have ids : (r.timers.map Timer.id).Nodup :=
    (expected.sorts.perm.map Timer.id).nodup_iff.mpr unique
  constructor <;> dsimp only <;> rw [agenda]
  · have sorts := expected.sorts.filter fun other => other.id ≠ timer.id
    rw [listed] at sorts ids
    have absent := (List.nodup_cons.mp ids).1
    rw [List.filter_cons_of_neg (by simp),
      filter_of_absent fun other member same =>
      absent (List.mem_map.mpr ⟨other, member, same⟩)] at sorts
    exact sorts
  · exact dues_erase expected.dues timer.id

theorem Expected.add (expected : Expected history r) (due : Timestamp) (callback : Callback)
    (fresh : ∀ other ∈ pending history, other.id ≠ r.nextTimerId + 1) :
    Expected (history ++ [.added ⟨due, (r.addTimer due callback).1, callback⟩])
    (r.addTimer due callback).2 := by
  have agenda : pending (history ++ [.added ⟨due, r.nextTimerId + 1, callback⟩]) =
      pending history ++ [⟨due, r.nextTimerId + 1, callback⟩] := pending_append
  constructor <;> dsimp only [addTimer] <;> rw [agenda]
  · exact expected.sorts.add _
  · exact dues_insert expected.dues ⟨due, r.nextTimerId + 1, callback⟩ fresh

theorem expected_initial : Expected [] ({} : Reactor Callback) := ⟨sorts_nil, by simp [pending]⟩

structure Kept (history : List (Happening Callback)) (r : Reactor Callback) :
    Prop extends Counted history r, Expected history r

theorem Kept.changes (kept : Kept history r) (changes : Changes r happened left)
    (few : (added (history ++ happened)).length ≤ 2 ^ 64) : Kept (history ++ happened) left := by
  have counted := kept.toCounted.changes changes
  have distinct := counted.unique few
  refine ⟨counted, ?_⟩
  have longer : (added history).Sublist (added (history ++ happened)) := by
    rw [added, added, List.filterMap_append]
    exact List.sublist_append_left _ _
  have unique : ((pending history).map Timer.id).Nodup :=
    distinct.sublist (((pending_sublist_added history).trans longer).map Timer.id)
  cases changes with
  | add due callback =>
      refine kept.toExpected.add due callback fun other listed same => ?_
      rw [added_append, List.map_append] at distinct
      have old := List.mem_map_of_mem (f := Timer.id)
        ((pending_sublist_added history).subset listed)
      exact (List.nodup_append.mp distinct).2.2 _ old _ (by simp [Happening.added?, addTimer]) same
  | cancel id => exact kept.toExpected.cancel unique id
  | fire taken => exact kept.toExpected.fire unique taken
  | other timers timerDue _ =>
      rw [List.append_nil]
      exact ⟨timers ▸ kept.sorts, timerDue ▸ kept.dues⟩

theorem Runs.kept (runs : Runs history m) (few : (added history).length ≤ 2 ^ 64) :
    Kept history m.reactor := by
  induction runs with
  | start => exact ⟨⟨rfl, rfl⟩, expected_initial⟩
  | step step reached ran ih =>
      refine (ih ?_).changes (step_changes ran) few
      rw [added, List.filterMap_append, List.length_append] at few
      exact Nat.le_trans (Nat.le_add_right _ _) few

/-! What holds of every run -/

theorem Runs.at (runs : Runs history m) {happening : Happening Callback}
    (split : history = before ++ happening :: later) : ∃ earlier left, Runs before earlier ∧
    Changes earlier.reactor [happening] left := by
  induction runs generalizing later with
  | start => simp at split
  | step step reached ran ih =>
      rename_i front happened m after
      have changes := step_changes ran
      rcases changes.single with rfl | ⟨only, rfl⟩
      · exact ih (by simpa using split)
      · rcases List.eq_nil_or_concat later with rfl | ⟨rest, last, rfl⟩
        · obtain ⟨rfl, same⟩ := List.append_inj' split rfl
          obtain rfl := List.singleton_inj.mp same
          exact ⟨m, after.reactor, reached, changes⟩
        · rw [List.concat_eq_append, ← List.cons_append, ← List.append_assoc] at split
          exact ih (List.append_inj' split rfl).1

theorem gone_for_good (issued : id ∈ (added history).map Timer.id)
    (gone : ∀ timer ∈ pending history, timer.id ≠ id)
    (distinct : ((added (history ++ later)).map Timer.id).Nodup) :
    ∀ timer ∈ pending (history ++ later), timer.id ≠ id := by
  induction later using List.reverseRecOn with
  | nil =>
      rw [List.append_nil]
      exact gone
  | append_singleton front happening ih =>
      rw [← List.append_assoc] at distinct ⊢
      rw [added_append, List.map_append, List.nodup_append] at distinct
      have before := ih distinct.1
      rw [pending_append]
      cases happening with
      | added timer =>
          intro other listed
          rcases List.mem_append.mp listed with old | new
          · exact before other old
          · have early : id ∈ (added (history ++ front)).map Timer.id := by
              rw [added, List.filterMap_append, List.map_append]
              exact List.mem_append_left _ issued
            obtain rfl := List.mem_singleton.mp new
            exact fun same => distinct.2.2 id early other.id (by simp [Happening.added?]) same.symm
      | cancelled other => exact fun timer listed => before timer (List.mem_of_mem_filter listed)
      | fired other now => exact fun timer listed => before timer (List.mem_of_mem_filter listed)

theorem added_part (before later : List (Happening Callback)) :
    (added before).Sublist (added (before ++ later)) := by
  rw [added, added, List.filterMap_append]
  exact List.sublist_append_left _ _

section

variable (runs : Runs history m) (few : (added history).length ≤ 2 ^ 64)

include runs few

theorem Runs.fires {now : Timestamp}
    (split : history = before ++ .fired timer now :: later) :
    timer.due ≤ now ∧ timer ∈ pending before ∧
      ∀ other ∈ pending before, other = timer ∨ Before Timer.due (pending before) timer other := by
  obtain ⟨earlier, left, reached, changes⟩ := runs.at split
  have kept := reached.kept ((added_part before _).length_le.trans (split ▸ few))
  cases changes with
  | fire taken =>
      obtain ⟨due, rest, listed, -⟩ := takeDue_eq_some taken
      have sorts := kept.sorts
      rw [listed] at sorts
      exact ⟨due, sorts.front⟩

theorem Runs.spent (listed : timer ∈ fired history) :
    timer.id ∈ (added history).map Timer.id ∧ ∀ other ∈ pending history, other.id ≠ timer.id := by
  obtain ⟨happening, member, same⟩ := List.mem_filterMap.mp listed
  cases happening with
  | fired held now =>
      obtain rfl := Option.some.inj same
      obtain ⟨before, later, split⟩ := List.append_of_mem member
      have distinct := (runs.kept few).unique few
      have issued := List.mem_map_of_mem (f := Timer.id)
        ((pending_sublist_added before).subset (runs.fires few split).2.1)
      rw [List.append_cons] at split
      subst split
      have early : held.id ∈ (added (before ++ [.fired held now])).map Timer.id := by
        rw [added_append]
        simpa [Happening.added?] using issued
      refine ⟨((added_part _ later).map Timer.id).subset early, gone_for_good early ?_ distinct⟩
      rw [pending_append]
      exact fun other kept => by simpa using List.of_mem_filter kept
  | added other => cases same
  | cancelled id => cases same

theorem Runs.fires_once : ((fired history).map Timer.id).Nodup := by
  induction runs with
  | start => exact List.nodup_nil
  | step step reached ran ih =>
      rename_i front happened m after
      have fewer := (added_part front happened).length_le.trans few
      have once := ih fewer
      have changes := step_changes ran
      generalize after.reactor = left at changes
      cases changes with
      | add due callback => simpa only [fired_append, Happening.fired?, Option.toList_none,
          List.append_nil] using once
      | cancel id => simpa only [fired_append, Happening.fired?, Option.toList_none,
          List.append_nil] using once
      | fire taken =>
          rename_i timer now
          obtain ⟨-, rest, listed, -⟩ := takeDue_eq_some taken
          have front : timer ∈ pending front := (reached.kept fewer).sorts.perm.mem_iff.mp
            (listed ▸ List.mem_cons_self)
          rw [fired_append, Happening.fired?, Option.toList_some, List.map_append,
            List.map_singleton]
          refine List.nodup_append.mpr
            ⟨once, List.nodup_singleton _, fun one early two late same => ?_⟩
          obtain ⟨earlier, spent, rfl⟩ := List.mem_map.mp early
          obtain rfl := List.mem_singleton.mp late
          exact (reached.spent fewer spent).2 timer front same.symm
      | other _ _ _ =>
          rw [List.append_nil]
          exact once

theorem Runs.coherent : m.reactor.Coherent where
  unique := by
    have kept := runs.kept few
    refine (kept.sorts.perm.map Timer.id).nodup_iff.mpr ?_
    exact (kept.unique few).sublist ((pending_sublist_added history).map Timer.id)
  same id due := by
    have kept := runs.kept few
    rw [kept.dues]
    exact exists_congr fun timer => and_congr_left' kept.sorts.perm.mem_iff.symm

theorem Runs.cancelled_silent (split : history = before ++ .cancelled id :: later)
    (issued : id ∈ (added before).map Timer.id) : ∀ timer ∈ fired later, timer.id ≠ id := by
  intro timer listed same
  obtain ⟨happening, member, told⟩ := List.mem_filterMap.mp listed
  cases happening with
  | fired held now =>
      obtain rfl := Option.some.inj told
      obtain ⟨middle, rest, rfl⟩ := List.append_of_mem member
      have split : history = before ++ [.cancelled id] ++ middle ++ .fired held now :: rest := by
        simp [split]
      have expected := (runs.fires few split).2.1
      have distinct := (runs.kept few).unique few
      have part := added_part (before ++ [.cancelled id] ++ middle) (.fired held now :: rest)
      rw [split] at distinct
      have known : id ∈ (added (before ++ [.cancelled id])).map Timer.id := by
        rw [added_append]
        simpa [Happening.added?] using issued
      have gone : ∀ other ∈ pending (before ++ [.cancelled id]), other.id ≠ id := by
        rw [pending_append]
        exact fun other kept => by simpa using List.of_mem_filter kept
      exact gone_for_good known gone (distinct.sublist (part.map Timer.id)) held expected same
  | added other => cases told
  | cancelled other => cases told

end

theorem Kept.cancel_absent (kept : Kept history r)
    (absent : ∀ timer ∈ pending history, timer.id ≠ id) : r.cancelTimer id = r := by
  unfold cancelTimer
  split
  · rfl
  · rename_i due known
    obtain ⟨timer, listed, same, -⟩ := (kept.dues id due).mp known
    exact absurd same (absent timer listed)

/-- In every run with at most `2 ^ 64` timers the two containers describe the pending timers, a
timer fires at most once, not early and not after it is cancelled, the pending timers fire in the
order of their due times and then of their additions, and cancelling a timer that has fired or an id
that was not given out changes nothing. -/
theorem timerQueue_correct (history : List (Happening Callback)) (m : Machine Callback)
    (runs : Runs history m) (few : (added history).length ≤ 2 ^ 64) :
    m.reactor.Coherent ∧ m.reactor.timers.Perm (pending history) ∧
      ((fired history).map Timer.id).Nodup ∧
      (∀ before timer now later, history = before ++ .fired timer now :: later → timer.due ≤ now ∧
        timer ∈ pending before ∧ ∀ other ∈ pending before, other = timer ∨ timer.due < other.due ∨
          timer.due = other.due ∧ [timer, other].Sublist (added before)) ∧
      (∀ before id later, history = before ++ .cancelled id :: later →
        id ∈ (added before).map Timer.id → ∀ timer ∈ fired later, timer.id ≠ id) ∧
      ∀ id, id ∈ (fired history).map Timer.id ∨ id ∉ (added history).map Timer.id →
        m.reactor.cancelTimer id = m.reactor := by
  have kept := runs.kept few
  refine ⟨runs.coherent few, kept.sorts.perm, runs.fires_once few,
    fun before timer now later split => ?_, fun before id later split issued =>
    runs.cancelled_silent few split issued, fun id unknown => kept.cancel_absent ?_⟩
  · obtain ⟨due, listed, front⟩ := runs.fires few split
    refine ⟨due, listed, fun other pending => (front other pending).imp_right ?_⟩
    rintro (less | ⟨same, order⟩)
    · exact Or.inl less
    · exact Or.inr ⟨same, order.trans (pending_sublist_added before)⟩
  · rcases unknown with early | never
    · obtain ⟨timer, listed, rfl⟩ := List.mem_map.mp early
      exact (runs.spent few listed).2
    · intro timer listed same
      exact never (List.mem_map.mpr ⟨timer, (pending_sublist_added history).subset listed, same⟩)

def Machine.steps (m : Machine Callback) : List (Step Callback) →
    Option (Machine Callback × List (Happening Callback))
  | [] => some (m, [])
  | step :: rest => do
      let (next, happened) ← m.step step
      let (after, more) ← next.steps rest
      return (after, happened ++ more)

theorem Runs.steps {steps : List (Step Callback)} (runs : Runs history m)
    (ran : m.steps steps = some (after, happened)) : Runs (history ++ happened) after := by
  induction steps generalizing history m happened with
  | nil =>
      cases ran
      rw [List.append_nil]
      exact runs
  | cons step rest ih =>
      simp only [Machine.steps, Option.bind_eq_bind, Option.bind_eq_some_iff, Prod.exists] at ran
      obtain ⟨next, first, one, last, more, others, same⟩ := ran
      cases same
      rw [← List.append_assoc]
      exact ih (runs.step step one) others

/-- The third timer is due first; its callback cancels the first one and throws, and the callback of
the second adds a fourth. -/
def sampleSteps : List (Step String) :=
  [.addTimer 5 "a", .addTimer 5 "b", .addTimer 3 "c", .run, .fireDueTimers, .check 10,
    .cancelTimer 1, .finish (.threw (some "failed")), .check 10, .addTimer 0 "d", .finish .returned,
    .check 10, .finish .returned, .check 10]

theorem timerQueue_sample : ∃ (history : List (Happening String)) (m : Machine String),
    Runs history m ∧ (added history).length ≤ 2 ^ 64 ∧ (fired history).map Timer.id = [3, 2, 4] ∧
    m.reactor.Coherent := by
  have runs : ∃ out, Machine.steps {} sampleSteps = some out ∧ (added out.2).length = 4 ∧
    (fired out.2).map Timer.id = [3, 2, 4] := by
    refine ⟨(Machine.steps {} sampleSteps).get
      (by decide +kernel), by simp, by decide +kernel, by decide +kernel⟩
  obtain ⟨⟨m, history⟩, ran, size, order⟩ := runs
  have reached := Runs.start.steps ran
  have few : (added history).length ≤ 2 ^ 64 := Nat.le_trans (Nat.le_of_eq size) (by norm_num)
  exact ⟨history, m, reached, few, order, (timerQueue_correct history m reached few).1⟩

theorem exists_lasting (count : Nat) (few : count < 2 ^ 64) :
    ∃ (history : List (Happening Unit)) (m : Machine Unit),
    Runs history m ∧ (added history).length = count + 1 ∧ m.stack = [] ∧
      m.reactor.nextTimerId.toNat = (count + 1) % 2 ^ 64 ∧ m.reactor.timers = [⟨0, 1, ()⟩] := by
  induction count with
  | zero => exact ⟨_, _, Runs.start.step (.addTimer 0 ()) rfl, rfl, rfl, rfl, rfl⟩
  | succ count ih =>
      obtain ⟨history, ⟨reactor, stack⟩, runs, size, rfl, last, alone⟩ := ih (by omega)
      have counted : (reactor.nextTimerId + 1).toNat = (count + 1 + 1) % 2 ^ 64 := by
        rw [UInt64.toNat_add, last]
        simp
      have apart : (1 : TimerId) ≠ reactor.nextTimerId + 1 := by
        intro same
        rw [← same] at counted
        simp at counted
        omega
      refine ⟨_, _, (runs.step (.addTimer 0 ()) rfl).step
        (.cancelTimer (reactor.nextTimerId + 1)) rfl, ?_, rfl, ?_, ?_⟩
      · simp only [added, List.filterMap_append, List.length_append] at size ⊢
        rw [size]
        rfl
      · simpa [cancelTimer, Machine.call, addTimer] using counted
      · have there : place Timer.due ⟨0, reactor.nextTimerId + 1, ()⟩ reactor.timers =
            [⟨0, 1, ()⟩, ⟨0, reactor.nextTimerId + 1, ()⟩] := by
          rw [alone]
          rfl
        simp [cancelTimer, there, apart]

/-- After `2 ^ 64` adds an id is given out again: two timers are pending, and they share it. -/
theorem timerIds_wrap : ∃ (history : List (Happening Unit)) (m : Machine Unit), Runs history m ∧
    (added history).length = 2 ^ 64 + 1 ∧ m.reactor.timers.length = 2 ∧ ¬m.reactor.Coherent := by
  obtain ⟨history, ⟨reactor, stack⟩, runs, size, rfl, last, alone⟩ :=
    exists_lasting (2 ^ 64 - 1) (by omega)
  have wrapped : reactor.nextTimerId = 0 := UInt64.toNat_inj.mp last
  have both :
    place Timer.due ⟨0, reactor.nextTimerId + 1, ()⟩ reactor.timers = [⟨0, 1, ()⟩, ⟨0, 1, ()⟩] := by
    rw [wrapped, show reactor.timers = [⟨0, 1, ()⟩] from alone]
    rfl
  refine ⟨_, _, runs.step (.addTimer 0 ()) rfl, ?_, ?_, fun coherent => ?_⟩
  · simp only [added, List.filterMap_append, List.length_append] at size ⊢
    rw [size]
    rfl
  · exact congrArg List.length both
  · have unique := coherent.unique
    simp only [both] at unique
    exact absurd unique (by decide)

end Reactor

end Loti
