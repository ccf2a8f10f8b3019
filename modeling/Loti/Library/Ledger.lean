import Mathlib.Data.List.Basic
import Mathlib.Tactic.Common
import Mathlib.Logic.Function.Basic

/-!
Pending requests. Whoever asks for a key registers: an account that waits collects the
registrations, a settled one answers at once. Settling an account fixes its outcome and
notifies who waits. Accounts may be forgotten; a key asked for again then starts afresh.
-/

namespace Ledger

variable {Key Outcome Registration : Type} {key : Key}

inductive Account (Outcome Registration : Type)
  | waiting (registrations : List Registration)
  | settled (outcome : Outcome)

structure Notice (Key Outcome Registration : Type) where
  registration : Registration
  key : Key
  outcome : Outcome

structure Book (Key Outcome Registration : Type) where
  account : Key → Option (Account Outcome Registration)
  notices : List (Notice Key Outcome Registration)

variable [DecidableEq Key]

/-- One move, indexed by the registrations it makes. A delivery that was cut short has reached
the first of those waiting. -/
inductive Step (mayForget : Prop) :
    Book Key Outcome Registration → List (Key × Registration) → Book Key Outcome Registration → Prop
  | opens {book : Book Key Outcome Registration} {key : Key} {registration : Registration}
      (absent : book.account key = none) :
      Step mayForget book [(key, registration)]
        { book with account := Function.update book.account key (some (.waiting [registration])) }
  | joins {book : Book Key Outcome Registration} {key : Key} {registration : Registration}
      {others : List Registration} (waits : book.account key = some (.waiting others)) :
      Step mayForget book [(key, registration)]
        { book with
          account := Function.update book.account key (some (.waiting (others ++ [registration]))) }
  | replays {book : Book Key Outcome Registration} {key : Key} {registration : Registration}
      {outcome : Outcome} (settled : book.account key = some (.settled outcome)) :
      Step mayForget book [(key, registration)]
        { book with notices := book.notices ++ [⟨registration, key, outcome⟩] }
  | settles {book : Book Key Outcome Registration} {key : Key} {outcome : Outcome}
      {waiting reached : List Registration} (waits : book.account key = some (.waiting waiting))
      (delivered : reached <+: waiting) :
      Step mayForget book []
        { account := Function.update book.account key (some (.settled outcome))
          notices := book.notices ++ reached.map fun registration => ⟨registration, key, outcome⟩ }
  | forgets {book : Book Key Outcome Registration}
      {remaining : Key → Option (Account Outcome Registration)}
      (allowed : mayForget) (fewer : ∀ key, remaining key = book.account key ∨
        remaining key = none) :
      Step mayForget book [] { book with account := remaining }

inductive Runs (mayForget : Prop) :
    Book Key Outcome Registration → List (Key × Registration) → Book Key Outcome Registration → Prop
  | done {book : Book Key Outcome Registration} : Runs mayForget book [] book
  | step {first middle last : Book Key Outcome Registration} {made more : List (Key × Registration)}
      (move : Step mayForget first made middle) (rest : Runs mayForget middle more last) :
      Runs mayForget first (made ++ more) last

variable {mayForget : Prop} {first middle last : Book Key Outcome Registration}
  {made more : List (Key × Registration)}

theorem Step.runs (move : Step mayForget first made last) : Runs mayForget first made last := by
  have one := Runs.step move .done
  rwa [List.append_nil] at one

theorem Runs.trans (begins : Runs mayForget first made middle)
    (continues : Runs mayForget middle more last) : Runs mayForget first (made ++ more) last := by
  induction begins with
  | done => exact continues
  | step move rest ih =>
      rw [List.append_assoc]
      exact .step move (ih continues)

theorem Runs.mono {allowed : Prop} (implies : mayForget → allowed)
    (runs : Runs mayForget first made last) : Runs allowed first made last := by
  induction runs with
  | done => exact .done
  | step move rest ih =>
      refine .step ?_ ih
      cases move with
      | opens absent => exact .opens absent
      | joins waits => exact .joins waits
      | replays settled => exact .replays settled
      | settles waits delivered => exact .settles waits delivered
      | forgets permitted fewer => exact .forgets (implies permitted) fewer

theorem update_other {Value : Type} {table : Key → Option Value} {changed : Key}
    {old new : Option Value} (here : table key = old) (there : table changed ≠ old) :
    Function.update table changed new key = table key :=
  Function.update_of_ne (by rintro rfl; exact there here) _ _

theorem Runs.settled_stays {outcome : Outcome} (runs : Runs mayForget first made last)
    (remembers : ¬mayForget) (settled : first.account key = some (.settled outcome)) :
    last.account key = some (.settled outcome) := by
  induction runs with
  | done => exact settled
  | step move rest ih =>
      apply ih
      cases move with
      | opens absent => exact (update_other settled (by simp [absent])).trans settled
      | joins waits => exact (update_other settled (by simp [waits])).trans settled
      | replays _ => exact settled
      | settles waits _ => exact (update_other settled (by simp [waits])).trans settled
      | forgets permitted _ => exact absurd permitted remembers

theorem Runs.settled_or_forgotten (runs : Runs mayForget first made last) (none_made : made = []) :
    (∀ outcome, first.account key = some (.settled outcome) →
      last.account key = some (.settled outcome) ∨ last.account key = none) ∧
    (first.account key = none → last.account key = none) := by
  induction runs with
  | done => exact ⟨fun _ settled => Or.inl settled, fun absent => absent⟩
  | @step before between after _ _ move rest ih =>
      obtain ⟨nothing, later⟩ := List.append_eq_nil_iff.mp none_made
      obtain ⟨keeps, stays⟩ := ih later
      have moved : (∀ outcome, before.account key = some (.settled outcome) →
            between.account key = some (.settled outcome) ∨ between.account key = none) ∧
          (before.account key = none → between.account key = none) := by
        cases move with
        | opens _ => cases nothing
        | joins _ => cases nothing
        | replays _ => cases nothing
        | settles waits _ =>
            constructor
            · intro outcome settled
              exact Or.inl ((update_other settled (by simp [waits])).trans settled)
            · intro absent
              exact (update_other absent (by simp [waits])).trans absent
        | forgets _ fewer =>
            rcases fewer key with kept | gone
            · exact ⟨fun _ settled => Or.inl (kept.trans settled), fun absent => kept.trans absent⟩
            · exact ⟨fun _ _ => Or.inr gone, fun _ => gone⟩
      constructor
      · intro outcome settled
        rcases moved.1 outcome settled with kept | gone
        · exact keeps outcome kept
        · exact Or.inr (stays gone)
      · intro absent
        exact stays (moved.2 absent)

theorem Runs.settled_decided {outcome : Outcome} {account : Account Outcome Registration}
    (runs : Runs mayForget first made last) (calm : mayForget → made = [])
    (settled : first.account key = some (.settled outcome))
    (found : last.account key = some account) :
    account = .settled outcome := by
  by_cases forgets : mayForget
  · rcases (runs.settled_or_forgotten (calm forgets)).1 outcome settled with kept | gone
    · exact Option.mem_unique found kept
    · exact absurd (found.symm.trans gone) (by simp)
  · exact Option.mem_unique found (runs.settled_stays forgets settled)

section Tables

open Std

variable {Value : Type} [Ord Key] [TransOrd Key]

omit [DecidableEq Key] in
def ofTable (view : Value → Account Outcome Registration) (table : ExtTreeMap Key Value)
    (notices : List (Notice Key Outcome Registration)) : Book Key Outcome Registration where
  account key := table[key]?.map view
  notices := notices

variable {view : Value → Account Outcome Registration} {table remaining : ExtTreeMap Key Value}
  {notices : List (Notice Key Outcome Registration)} {key : Key} {entry changed : Value}
  {registration : Registration} {registrations reached : List Registration} {outcome : Outcome}

theorem ofTable_insert [LawfulEqOrd Key] :
    ofTable view (table.insert key changed) notices =
      { account := Function.update (ofTable view table notices).account key (some (view changed)),
        notices } := by
  simp only [ofTable, Book.mk.injEq, and_true]
  funext other
  by_cases same : other = key
  · subst same
    simp
  · rw [Function.update_of_ne same, ExtTreeMap.getElem?_insert, if_neg]
    exact fun equal => same (LawfulEqCmp.compare_eq_iff_eq.mp equal).symm

omit [DecidableEq Key] in
theorem ofTable_account (found : table[key]? = some entry) {account : Account Outcome Registration}
    (seen : view entry = account) : (ofTable view table notices).account key = some account := by
  simp [ofTable, found, seen]

theorem ofTable_opens [LawfulEqOrd Key] (absent : table[key]? = none)
    (opened : view changed = .waiting [registration]) :
    Runs mayForget (ofTable view table notices) [(key, registration)]
      (ofTable view (table.insert key changed) notices) := by
  rw [ofTable_insert, opened]
  exact (Step.opens (by simp [ofTable, absent])).runs

theorem ofTable_joins [LawfulEqOrd Key] (found : table[key]? = some entry)
    (waits : view entry = .waiting registrations)
    (joined : view changed = .waiting (registrations ++ [registration])) :
    Runs mayForget (ofTable view table notices) [(key, registration)]
      (ofTable view (table.insert key changed) notices) := by
  rw [ofTable_insert, joined]
  exact (Step.joins (ofTable_account found waits)).runs

theorem ofTable_replays (found : table[key]? = some entry)
    (settled : view entry = .settled outcome) :
      Runs mayForget (ofTable view table notices) [(key, registration)]
      (ofTable view table (notices ++ [⟨registration, key, outcome⟩])) :=
  (Step.replays (ofTable_account found settled)).runs

theorem ofTable_settles [LawfulEqOrd Key] (found : table[key]? = some entry)
    (waits : view entry = .waiting registrations) (settled : view changed = .settled outcome)
    (delivered : reached <+: registrations) :
    Runs mayForget (ofTable view table notices) []
      (ofTable view (table.insert key changed)
        (notices ++ reached.map fun registration => ⟨registration, key, outcome⟩)) := by
  rw [ofTable_insert, settled]
  exact (Step.settles (ofTable_account found waits) delivered).runs

theorem ofTable_same [LawfulEqOrd Key] (found : table[key]? = some entry)
    (seen : view changed = view entry) :
    ofTable view (table.insert key changed) notices = ofTable view table notices := by
  rw [ofTable_insert, seen, ← ofTable_account found rfl, Function.update_eq_self]
  rfl

theorem ofTable_forgets (allowed : mayForget)
    (fewer : ∀ key : Key, remaining[key]? = table[key]? ∨ remaining[key]? = none) :
    Runs mayForget (ofTable view table notices) [] (ofTable view remaining notices) := by
  refine (Step.forgets allowed fun key => ?_).runs
  rcases fewer key with kept | gone
  · exact Or.inl (by simp [ofTable, kept])
  · exact Or.inr (by simp [gone])

theorem Runs.entry_stays {after : List (Notice Key Outcome Registration)} {later : Value}
    (runs : Runs mayForget (ofTable view table notices) made (ofTable view remaining after))
    (calm : mayForget → made = []) (found : table[key]? = some entry)
    (stays : remaining[key]? = some later)
    (settled : ∃ outcome, view entry = .settled outcome) : view later = view entry := by
  obtain ⟨outcome, settled⟩ := settled
  rw [settled]
  exact runs.settled_decided calm (ofTable_account found settled) (ofTable_account stays rfl)

end Tables

variable [DecidableEq Registration]

def Book.waitingFor (book : Book Key Outcome Registration) (key : Key)
    (registration : Registration) : Nat :=
  match book.account key with
  | some (.waiting registrations) => registrations.count registration
  | _ => 0

def Book.notifiedOf (book : Book Key Outcome Registration) (key : Key)
    (registration : Registration) : Nat :=
  book.notices.countP fun notice => notice.registration = registration ∧ notice.key = key

def timesMade (made : List (Key × Registration)) (key : Key) (registration : Registration) : Nat :=
  made.count (key, registration)

theorem timesMade_append (made more : List (Key × Registration)) (key : Key)
    (registration : Registration) :
    timesMade (made ++ more) key registration = timesMade made key registration +
    timesMade more key registration :=
  List.count_append ..

theorem timesMade_flatMap_le {Action : Type} (requests : Action → List (Key × Registration))
    (performed rest : List Action) (key : Key) (registration : Registration) :
    timesMade (performed.flatMap requests) key registration ≤
      timesMade ((performed ++ rest).flatMap requests) key registration := by
  rw [List.flatMap_append, timesMade_append]
  exact Nat.le_add_right _ _

theorem timesMade_filter (made : List (Key × Registration)) {keeps : Key × Registration → Bool}
    {registration : Registration} (kept : keeps (key, registration) = true) :
    timesMade (made.filter keeps) key registration = timesMade made key registration :=
  List.count_filter kept

theorem Step.accounts (move : Step mayForget first made last) (key : Key)
    (registration : Registration) :
      last.notifiedOf key registration + last.waitingFor key registration ≤
      first.notifiedOf key registration + first.waitingFor key registration +
        timesMade made key registration := by
  unfold timesMade
  cases move with
  | @opens other newcomer absent =>
      by_cases same : key = other
      · subst same
        by_cases it : newcomer = registration <;>
          simp [Book.notifiedOf, Book.waitingFor, absent, it]
      · simp [Book.notifiedOf, Book.waitingFor, Function.update_of_ne same]
  | @joins other newcomer others waits =>
      by_cases same : key = other
      · subst same
        by_cases it : newcomer = registration <;>
          simp [Book.notifiedOf, Book.waitingFor, waits, it, List.count_append, Nat.add_assoc]
      · simp [Book.notifiedOf, Book.waitingFor, Function.update_of_ne same]
  | @replays other newcomer outcome settled =>
      by_cases it : newcomer = registration ∧ other = key
      · simp [Book.notifiedOf, Book.waitingFor, it, List.countP_append]
        omega
      · have silent : decide (newcomer = registration ∧ other = key) = false := by simpa using it
        simp only [Book.notifiedOf, Book.waitingFor, List.countP_append, List.countP_cons,
          List.countP_nil, silent]
        simp
  | @settles other outcome waiting reached waits delivered =>
      have fewer : reached.count registration ≤ waiting.count registration :=
        delivered.sublist.count_le registration
      by_cases same : key = other
      · subst same
        have all :
            (reached.map fun r => (⟨r, key, outcome⟩ : Notice Key Outcome Registration)).countP
            (fun notice => notice.registration = registration ∧ notice.key = key) =
              reached.count registration := by
          simp [List.countP_map, List.count, Function.comp_def, BEq.beq]
        simp only [Book.notifiedOf, Book.waitingFor, waits, List.countP_append, all,
          Function.update_self]
        omega
      · have none_here :
            (reached.map fun r => (⟨r, other, outcome⟩ : Notice Key Outcome Registration)).countP
            (fun notice => notice.registration = registration ∧ notice.key = key) = 0 := by
          simp [List.countP_map, List.countP_eq_zero, Ne.symm same]
        simp only [Book.notifiedOf, Book.waitingFor, List.countP_append, none_here,
          Function.update_of_ne same]
        omega
  | forgets _ fewer =>
      rcases fewer key with kept | gone
      · simp [Book.notifiedOf, Book.waitingFor, kept]
      · simp [Book.notifiedOf, Book.waitingFor, gone]

theorem Runs.accounts (runs : Runs mayForget first made last) (key : Key)
    (registration : Registration) :
      last.notifiedOf key registration + last.waitingFor key registration ≤
      first.notifiedOf key registration + first.waitingFor key registration +
        timesMade made key registration := by
  induction runs with
  | done => simp [timesMade]
  | step move rest ih =>
      have one := move.accounts key registration
      rw [timesMade_append]
      omega

theorem Runs.notified_le (runs : Runs mayForget first made last)
    (empty : ∀ key, first.account key = none) (silent : first.notices = []) (key : Key)
    (registration : Registration) :
    last.notifiedOf key registration ≤ timesMade made key registration := by
  have bound := runs.accounts key registration
  have none_before : first.notifiedOf key registration + first.waitingFor key registration = 0 := by
    simp [Book.notifiedOf, Book.waitingFor, silent, empty]
  omega

theorem Runs.notice_made (runs : Runs mayForget first made last)
    (empty : ∀ key, first.account key = none) (silent : first.notices = [])
    {notice : Notice Key Outcome Registration} (told : notice ∈ last.notices) :
    (notice.key, notice.registration) ∈ made := by
  have bound := runs.notified_le empty silent notice.key notice.registration
  have once : 0 < last.notifiedOf notice.key notice.registration :=
    List.countP_pos_iff.mpr ⟨notice, told, by simp⟩
  exact List.count_pos_iff.mp (Nat.lt_of_lt_of_le once bound)

end Ledger
