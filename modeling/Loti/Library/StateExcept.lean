import Mathlib.Data.List.Basic
import Mathlib.Tactic.Common

/-!
Weakest preconditions for computations with a state and exceptions, where a throw
keeps the state reached so far (`EStateM`). `Ends` gives the rule of each control
structure as an equivalence, so a straight-line body is executed by rewriting;
a loop over a list takes an invariant.
-/

namespace StateExcept

variable {ε ε' σ τ α β : Type} {fault : ε} {result : Except ε α}

/-- `m` started in `s` ends as allowed: by `post` when it returns, by `thrown` when it throws. -/
def Ends (m : EStateM ε σ α) (s : σ) (post : α → σ → Prop) (thrown : ε → σ → Prop) : Prop :=
  match m s with
  | .ok value after => post value after
  | .error fault after => thrown fault after

instance {m : EStateM ε σ α} {s : σ} {post : α → σ → Prop} {thrown : ε → σ → Prop}
    [∀ value after, Decidable (post value after)] [∀ fault after, Decidable (thrown fault after)] :
    Decidable (Ends m s post thrown) :=
  match ran : m s with
  | .ok value after => decidable_of_iff (post value after) (by simp only [Ends, ran])
  | .error fault after => decidable_of_iff (thrown fault after) (by simp only [Ends, ran])

/-- However `m` ends from `s`, it leaves a state with `property`. -/
abbrev EndsIn (m : EStateM ε σ α) (s : σ) (property : σ → Prop) : Prop :=
  Ends m s (fun _ => property) fun _ => property

/-- `m` returns from `s`, with `post`. -/
abbrev Returns (m : EStateM ε σ α) (s : σ) (post : α → σ → Prop) : Prop :=
  Ends m s post fun _ _ => False

/-- `invariant` survives `m`, however `m` ends. -/
def Keeps (invariant : σ → Prop) (m : EStateM ε σ α) : Prop :=
  ∀ s, invariant s → Ends m s (fun _ => invariant) (fun _ => invariant)

def Preserves (part : σ → τ) (m : EStateM ε σ α) : Prop :=
  ∀ s, Ends m s (fun _ after => part after = part s) (fun _ after => part after = part s)

def Raises (fine : ε → Prop) (m : EStateM ε σ α) : Prop :=
  ∀ s, Ends m s (fun _ _ => True) (fun fault _ => fine fault)

def Yields (good : α → Prop) (m : EStateM ε σ α) : Prop :=
  ∀ s, Ends m s (fun value _ => good value) (fun _ _ => True)

def final (m : EStateM ε σ α) (s : σ) : σ :=
  match m s with
  | .ok _ after => after
  | .error _ after => after

def raised (m : EStateM ε σ α) (s : σ) : Option ε :=
  match m s with
  | .ok _ _ => none
  | .error fault _ => some fault

def zoom (part : σ → τ) (put : τ → σ → σ) (m : EStateM ε τ α) : EStateM ε σ α := fun s =>
  match m (part s) with
  | .ok value after => .ok value (put after s)
  | .error fault after => .error fault (put after s)

/-- A stateless fallible result, its error translated by `raise`. -/
def ofExcept (raise : ε' → ε) (result : Except ε' α) : EStateM ε σ α :=
  match result with
  | .ok value => pure value
  | .error fault => throw (raise fault)

def when (condition : Prop) [Decidable condition] (m : EStateM ε σ PUnit) : EStateM ε σ PUnit :=
  if condition then m else pure ()

theorem except_map_ok_iff {function : α → β} {value : β} :
    function <$> result = .ok value ↔ ∃ inner, result = .ok inner ∧ function inner = value := by
  cases result <;> simp [Functor.map, Except.map]

theorem except_map_error_iff {function : α → β} :
    function <$> result = .error fault ↔ result = .error fault := by
  cases result <;> simp [Functor.map, Except.map]

theorem except_bind_ok_iff {next : α → Except ε β} {value : β} :
    result >>= next = .ok value ↔ ∃ inner, result = .ok inner ∧ next inner = .ok value := by
  cases result <;> simp [bind, Except.bind]

theorem ok_unique {first second : α} (one : result = .ok first) (other : result = .ok second) :
    first = second := Except.ok.inj (one.symm.trans other)

theorem get_run {s : σ} : (get : EStateM ε σ σ) s = .ok s s :=
  rfl

theorem throw_run {s : σ} : (throw fault : EStateM ε σ α) s = .error fault s :=
  rfl

theorem bind_ok_iff {m : EStateM ε σ α} {next : α → EStateM ε σ β} {s after : σ} {result : β} :
    (m >>= next) s = .ok result after ↔
      ∃ value middle, m s = .ok value middle ∧ next value middle = .ok result after := by
  simp only [bind, EStateM.bind]
  cases m s <;> simp

theorem except_mapM_mem {function : α → Except ε β} {items : List α} {values : List β} {value : β}
    (mapped : items.mapM function = .ok values) (member : value ∈ values) :
    ∃ item ∈ items, function item = .ok value := by
  induction items generalizing values with
  | nil =>
      obtain rfl : [] = values := by simpa [pure, Except.pure] using mapped
      cases member
  | cons item rest ih =>
      rw [List.mapM_cons] at mapped
      obtain ⟨first, found, mapped⟩ := except_bind_ok_iff.mp mapped
      obtain ⟨others, tail, same⟩ := except_bind_ok_iff.mp mapped
      cases same
      rcases List.mem_cons.mp member with rfl | later
      · exact ⟨item, by simp, found⟩
      · obtain ⟨source, listed, read⟩ := ih tail later
        exact ⟨source, by simp [listed], read⟩

theorem except_mapM_eq_ok {function : α → Except ε β} {value : α → β} {items : List α}
    (each : ∀ item ∈ items, function item = .ok (value item)) :
    items.mapM function = .ok (items.map value) := by
  induction items with
  | nil => rfl
  | cons item rest ih =>
      rw [List.mapM_cons, each item List.mem_cons_self, ih fun other listed =>
        each other (List.mem_cons_of_mem _ listed)]
      rfl

theorem except_foldlM_eq_ok {step : β → α → Except ε β} {next : β → α → β} {items : List α}
    {start : β} (each : ∀ state, ∀ item ∈ items, step state item = .ok (next state item)) :
    items.foldlM step start = .ok (items.foldl next start) := by
  induction items generalizing start with
  | nil => rfl
  | cons item rest ih =>
      rw [List.foldlM_cons, each start item List.mem_cons_self]
      exact ih fun state other listed => each state other (List.mem_cons_of_mem _ listed)

section Rules

variable {m : EStateM ε σ α} {s : σ} {post post' : α → σ → Prop} {thrown thrown' : ε → σ → Prop}
  {thrown : ε → σ → Prop} {next : α → EStateM ε σ β} {part : σ → τ} {body : β → EStateM ε σ PUnit}
  {fine : ε → Prop} {items : List β} {value : α} {invariant : σ → Prop} {property : σ → Prop}

theorem Ends.mono (ends : Ends m s post thrown) (returns : ∀ value after, post value after →
    post' value after) (throws : ∀ fault after, thrown fault after → thrown' fault after) : Ends m s
    post' thrown' := by
  unfold Ends at *
  split at ends
  · exact returns _ _ ends
  · exact throws _ _ ends

theorem Ends.weaken (ends : Ends m s post thrown) (returns : ∀ value after, post value after →
    post' value after) : Ends m s post' thrown :=
  ends.mono returns fun _ _ same => same

theorem Ends.always (ends : Returns m s post)
    (returns : ∀ value after, post value after → post' value after) : Ends m s post' thrown :=
  ends.mono returns fun _ _ no => no.elim

theorem Ends.imp {property' : σ → Prop} (ends : EndsIn m s property)
    (weaker : ∀ after, property after → property' after) : EndsIn m s property' :=
  ends.mono (fun _ => weaker) fun _ => weaker

theorem Ends.of_eq {m' : EStateM ε σ α} {s' : σ} (ends : Ends m' s' post thrown)
    (same : m s = m' s') : Ends m s post thrown := by
  unfold Ends at ends ⊢
  rwa [same]

theorem ends_final :
    Ends m s (fun _ => property) (fun _ => property) ↔ property (final m s) := by
  unfold Ends final
  cases m s <;> rfl

theorem Ends.final_of_returns (ends : Returns m s fun _ => property) :
    property (final m s) :=
  ends_final.mp (ends.always fun _ _ kept => kept)

theorem ends_raised (ends : Ends m s post thrown) (ended : raised m s = some fault) :
    ∃ after, thrown fault after := by
  unfold Ends at ends
  unfold raised at ended
  cases result : m s with
  | ok value after => simp [result] at ended
  | error raisedFault after =>
      rw [result] at ends ended
      exact ⟨after, Option.some.inj ended ▸ ends⟩

theorem ends_self : Ends m s (fun value after => m s = .ok value after)
    (fun fault after => m s = .error fault after) := by
  unfold Ends
  cases m s <;> rfl

theorem Ends.of_ok {after : σ} (ends : Ends m s post thrown) (ran : m s = .ok value after) :
    post value after := by
  unfold Ends at ends
  rwa [ran] at ends

theorem Ends.of_error {after : σ} (ends : Ends m s post thrown)
    (failed : m s = .error fault after) :
    thrown fault after := by
  unfold Ends at ends
  rwa [failed] at ends

theorem ends_ok {after : σ} (ran : m s = .ok value after) (holds : post value after) :
    Ends m s post thrown := by
  unfold Ends
  rwa [ran]

theorem ends_error {after : σ} (failed : m s = .error fault after) (holds : thrown fault after) :
    Ends m s post thrown := by
  unfold Ends
  rwa [failed]

theorem ends_thrown_iff : Ends m s (fun _ _ => True) thrown ↔ ∀ fault after,
    m s = .error fault after → thrown fault after := by
  unfold Ends
  cases m s <;> simp

theorem ok_of_not_raised {m : EStateM ε σ PUnit} (returned : raised m s = none) :
    m s = .ok () (final m s) := by
  unfold raised at returned
  unfold final
  cases result : m s with
  | ok value after => rfl
  | error fault after => simp [result] at returned

theorem Ends.returns (ends : Ends m s post thrown) (never : ∀ fault after, ¬thrown fault after) :
    ∃ value after, m s = .ok value after ∧ post value after := by
  unfold Ends at ends
  cases result : m s with
  | ok value after => exact ⟨value, after, rfl, by rwa [result] at ends⟩
  | error fault after =>
      rw [result] at ends
      exact absurd ends (never fault after)

theorem Ends.and (first : Ends m s post thrown) (second : Ends m s post' thrown') :
    Ends m s (fun value after => post value after ∧ post' value after)
      (fun fault after => thrown fault after ∧ thrown' fault after) := by
  unfold Ends at *
  cases result : m s <;> simp_all

@[simp] theorem ends_pure {post : α → σ → Prop} :
    Ends (pure value : EStateM ε σ α) s post thrown ↔ post value s := Iff.rfl

@[simp] theorem ends_bind {post : β → σ → Prop} :
    Ends (m >>= next) s post thrown ↔
      Ends m s (fun value after => Ends (next value) after post thrown) thrown := by
  simp only [Ends, bind, EStateM.bind]
  cases m s <;> rfl

@[simp] theorem ends_map {function : α → β} {post : β → σ → Prop} :
    Ends (function <$> m) s post thrown ↔ Ends m s (fun value => post (function value)) thrown := by
  simp only [Ends, Functor.map, EStateM.map]
  cases m s <;> rfl

@[simp] theorem ends_discard {post : PUnit → σ → Prop} :
    Ends (discard m) s post thrown ↔ Ends m s (fun _ => post ()) thrown := by
  simp only [Ends, discard, Functor.discard, Functor.mapConst, EStateM.map,
    Function.comp, Function.const]
  cases m s <;> rfl

@[simp] theorem ends_get {post : σ → σ → Prop} :
    Ends (get : EStateM ε σ σ) s post thrown ↔ post s s := Iff.rfl

@[simp] theorem ends_set {value : σ} {post : PUnit → σ → Prop} :
    Ends (set value : EStateM ε σ PUnit) s post thrown ↔ post ⟨⟩ value := Iff.rfl

@[simp] theorem ends_modify {change : σ → σ} {post : Unit → σ → Prop} :
    Ends (modify change : EStateM ε σ PUnit) s post thrown ↔ post () (change s) := Iff.rfl

@[simp] theorem ends_throw {post : α → σ → Prop} :
    Ends (throw fault : EStateM ε σ α) s post thrown ↔ thrown fault s := Iff.rfl

theorem ends_tryCatch {handle : ε → EStateM ε σ α} :
    Ends (tryCatch m handle) s post thrown ↔ Ends m s post fun fault after =>
    Ends (handle fault) after post thrown := by
  simp only [Ends, tryCatch, tryCatchThe, MonadExceptOf.tryCatch, EStateM.tryCatch,
    EStateM.Backtrackable.restore, EStateM.dummyRestore]
  cases m s <;> rfl

@[simp] theorem ends_ofExcept {raise : ε' → ε} {result : Except ε' α} :
    Ends (ofExcept raise result : EStateM ε σ α) s post thrown ↔
      (∀ value, result = .ok value → post value s) ∧
        (∀ fault, result = .error fault → thrown (raise fault) s) := by
  cases result <;> simp [ofExcept]

@[simp] theorem ends_zoom {put : τ → σ → σ} {inner : EStateM ε τ α} :
    Ends (zoom part put inner) s post thrown ↔
      Ends inner (part s) (fun value after => post value (put after s))
        (fun fault after => thrown fault (put after s)) := by
  simp only [Ends, zoom]
  cases inner (part s) <;> rfl

@[simp] theorem ends_when {condition : Prop} [Decidable condition] {inner : EStateM ε σ PUnit}
    {post : PUnit → σ → Prop} :
    Ends (when condition inner) s post thrown ↔
      (condition → Ends inner s post thrown) ∧ (¬condition → post () s) := by
  by_cases holds : condition <;> simp [when, holds]

theorem ends_forM (start : invariant s)
    (step : ∀ item ∈ items, ∀ before, invariant before →
      Ends (body item) before (fun _ => invariant) thrown) :
    Ends (items.forM body) s (fun _ => invariant) thrown := by
  induction items generalizing s with
  | nil => exact start
  | cons item rest ih =>
      simp only [List.forM_eq_forM, List.forM_cons, ends_bind] at *
      refine (step item (by simp) s start).weaken fun _ after kept => ?_
      exact ih kept fun item member => step item (by simp [member])

theorem keeps_forM (step : ∀ item ∈ items, Keeps invariant (body item)) :
    Keeps invariant (items.forM body) :=
  fun _ start => ends_forM start fun item member before holds => step item member before holds

theorem Keeps.bind (first : Keeps invariant m)
    (rest : ∀ value, Keeps invariant (next value)) : Keeps invariant (m >>= next) := by
  intro before holds
  rw [ends_bind]
  exact (first before holds).weaken fun value after kept => rest value after kept

theorem final_bind_ok {after : σ} (ran : m s = .ok value after) :
    final (m >>= next) s = final (next value) after := by
  simp [final, bind, EStateM.bind, ran]

theorem final_bind_pure {value : β} : final (m >>= fun _ => pure value) s = final m s := by
  simp only [final, bind, EStateM.bind]
  cases m s <;> rfl

theorem Preserves.bind (first : Preserves part m)
    (rest : ∀ value, Preserves part (next value)) : Preserves part (m >>= next) := by
  intro before
  rw [ends_bind]
  refine (first before).weaken fun value middle same => ?_
  exact (rest value middle).mono (fun _ _ later => later.trans same) fun _ _ later =>
    later.trans same

theorem Preserves.final (preserves : Preserves part m) : part (final m s) = part s := by
  have ends := preserves s
  unfold Ends at ends
  unfold StateExcept.final
  cases result : m s <;> simpa [result] using ends

theorem preserves_pure (value : α) : Preserves part (pure value : EStateM ε σ α) := fun _ => rfl

theorem preserves_get : Preserves part (get : EStateM ε σ σ) := fun _ => rfl

theorem preserves_ofExcept {raise : ε' → ε} (result : Except ε' α) :
    Preserves part (ofExcept raise result : EStateM ε σ α) := by
  intro s
  simp

theorem preserves_forM (step : ∀ item ∈ items, Preserves part (body item)) :
    Preserves part (items.forM body) := by
  intro start
  refine keeps_forM (fun item member before same => ?_) start rfl
  exact (step item member before).mono (fun _ _ later => later.trans same) fun _ _ later =>
    later.trans same

theorem Raises.bind (first : Raises fine m)
    (rest : ∀ value, Raises fine (next value)) : Raises fine (m >>= next) := by
  intro before
  rw [ends_bind]
  exact (first before).weaken fun value middle _ => rest value middle

theorem raises_pure (value : α) : Raises fine (pure value : EStateM ε σ α) := fun _ => trivial

theorem raises_get : Raises fine (get : EStateM ε σ σ) := fun _ => trivial

theorem raises_modify (change : σ → σ) :
    Raises fine (modify change : EStateM ε σ PUnit) := fun _ => trivial

theorem raises_throw (raised : fine fault) :
    Raises fine (throw fault : EStateM ε σ α) := fun _ => raised

theorem raises_forM (step : ∀ item, Raises fine (body item)) : Raises fine (items.forM body) :=
  fun _ => ends_forM trivial fun item _ before _ => step item before

theorem yields_pure {good : α → Prop} (fine : good value) :
    Yields good (pure value : EStateM ε σ α) :=
  fun _ => fine

theorem yields_throw {good : α → Prop} (fault : ε) : Yields good (throw fault : EStateM ε σ α) :=
  fun _ => trivial

theorem yields_any (m : EStateM ε σ α) : Yields (fun _ => True) m := by
  intro s
  unfold Ends
  split <;> trivial

theorem Yields.after {good : β → Prop} (last : ∀ value, Yields good (next value)) :
    Yields good (m >>= next) := by
  intro s
  rw [ends_bind]
  exact (yields_any m s).mono (fun value after _ => last value after) fun _ _ _ => trivial

end Rules

end StateExcept
