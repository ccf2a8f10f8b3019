import Loti.Library.StateExcept

/-!
Readers over a position of an input, against the format they accept. `Parses` says both
halves at once: what a reader returns stands in the input, and what stands in the input
is returned. The rules follow the control structures readers are written with.
-/

namespace Parsing

open StateExcept

variable {ε α β γ : Type} {input : List γ}

/-- `read` returns `value` and stops at `stop` exactly when a spelling of `value` stands between. -/
def Parses (input : List γ) (read : EStateM ε Nat α) (spells : α → List γ → Prop) : Prop :=
  ∀ pos, pos ≤ input.length → ∀ value stop,
    read pos = .ok value stop ↔
      ∃ text, spells value text ∧ text <+: input.drop pos ∧ stop = pos + text.length

def Guards (input : List γ) (check : EStateM ε Nat PUnit) (needed : Nat) : Prop :=
  ∀ pos, pos ≤ input.length → ∀ stop,
    check pos = .ok () stop ↔ stop = pos ∧ needed ≤ input.length - pos

/-- The spellings of a list's items, one after the other. -/
inductive SpellsAll (spells : α → List γ → Prop) : List α → List γ → Prop
  | nil : SpellsAll spells [] []
  | cons {value : α} {values : List α} {text texts : List γ} : spells value text →
      SpellsAll spells values texts → SpellsAll spells (value :: values) (text ++ texts)

theorem append_prefix_drop_iff {first rest : List γ} {pos : Nat} :
    first ++ rest <+: input.drop pos ↔
      first <+: input.drop pos ∧ rest <+: input.drop (pos + first.length) := by
  constructor
  · rintro ⟨after, whole⟩
    have later : input.drop (pos + first.length) = rest ++ after := by
      rw [← List.drop_drop, ← whole, List.append_assoc, List.drop_left]
    exact ⟨⟨rest ++ after, by rw [← whole, List.append_assoc]⟩, ⟨after, later.symm⟩⟩
  · rintro ⟨⟨middle, whole⟩, after, tail⟩
    have same : middle = rest ++ after := by
      rw [← List.drop_drop, ← whole, List.drop_left] at tail
      exact tail.symm
    exact ⟨after, by rw [← whole, same, List.append_assoc]⟩

theorem prefix_drop_length {text : List γ} {pos : Nat} (within : pos ≤ input.length)
    (stands : text <+: input.drop pos) : pos + text.length ≤ input.length := by
  have short := stands.length_le
  rw [List.length_drop] at short
  omega

theorem parses_pure {value : α} :
    Parses input (pure value : EStateM ε Nat α) fun result text => result = value ∧ text = [] := by
  intro pos _ result stop
  constructor
  · intro returned
    obtain ⟨rfl, rfl⟩ := EStateM.Result.ok.inj returned
    exact ⟨[], ⟨rfl, rfl⟩, List.nil_prefix, rfl⟩
  · rintro ⟨text, ⟨rfl, rfl⟩, -, rfl⟩
    rfl

theorem parses_throw {fault : ε} :
    Parses input (throw fault : EStateM ε Nat α) fun _ _ => False := by
  intro pos _ result stop
  constructor
  · intro returned
    cases returned
  · rintro ⟨_, impossible, -⟩
    exact impossible.elim

section Rules

variable {read : EStateM ε Nat α} {next : α → EStateM ε Nat β} {spells spells' : α → List γ → Prop}
  {follows : α → β → List γ → Prop}

theorem Parses.congr (parses : Parses input read spells)
    (same : ∀ value text, spells value text ↔ spells' value text) : Parses input read spells' := by
  intro pos within value stop
  rw [parses pos within]
  simp only [same]

theorem Parses.bind (first : Parses input read spells)
    (rest : ∀ value, Parses input (next value) (follows value)) :
    Parses input (read >>= next) fun result text =>
      ∃ value front back, spells value front ∧ follows value result back ∧
        text = front ++ back := by
  intro pos within result stop
  rw [bind_ok_iff]
  constructor
  · rintro ⟨value, middle, one, two⟩
    obtain ⟨front, spelled, stands, rfl⟩ := (first pos within value middle).mp one
    have inside := prefix_drop_length within stands
    obtain ⟨back, followed, after, rfl⟩ := (rest value _ inside result stop).mp two
    exact ⟨front ++ back, ⟨value, front, back, spelled, followed, rfl⟩,
      append_prefix_drop_iff.mpr ⟨stands, after⟩, by simp [Nat.add_assoc]⟩
  · rintro ⟨_, ⟨value, front, back, spelled, followed, rfl⟩, stands, rfl⟩
    obtain ⟨before, after⟩ := append_prefix_drop_iff.mp stands
    have inside := prefix_drop_length within before
    refine ⟨value, pos + front.length, ?_, ?_⟩
    · exact (first pos within value _).mpr ⟨front, spelled, before, rfl⟩
    · exact (rest value _ inside result _).mpr ⟨back, followed, after, by simp [Nat.add_assoc]⟩

theorem Parses.map {function : α → β} (parses : Parses input read spells) :
    Parses input (read >>= fun value => pure (function value)) fun result text =>
      ∃ value, spells value text ∧ result = function value := by
  refine (parses.bind fun value => parses_pure).congr fun result text => ?_
  constructor
  · rintro ⟨value, front, _, spelled, ⟨rfl, rfl⟩, rfl⟩
    exact ⟨value, by simpa using spelled, rfl⟩
  · rintro ⟨value, spelled, rfl⟩
    exact ⟨value, text, [], spelled, ⟨rfl, rfl⟩, by simp⟩

theorem Parses.guarded {check : EStateM ε Nat PUnit} {needed : Nat}
    (guards : Guards input check needed) (parses : Parses input read spells)
    (long : ∀ value text, spells value text → needed ≤ text.length) :
    Parses input (check >>= fun _ => read) spells := by
  intro pos within value stop
  rw [bind_ok_iff]
  constructor
  · rintro ⟨_, middle, passed, returned⟩
    obtain ⟨rfl, -⟩ := (guards pos within middle).mp passed
    exact (parses middle within value stop).mp returned
  · rintro ⟨text, spelled, stands, rfl⟩
    have inside := prefix_drop_length within stands
    have enough := long value text spelled
    refine ⟨(), pos, (guards pos within pos).mpr ⟨rfl, by omega⟩, ?_⟩
    exact (parses pos within value _).mpr ⟨text, spelled, stands, rfl⟩

end Rules

theorem spellsAll_length {spells : α → List γ → Prop} {least : Nat}
    (long : ∀ value text, spells value text → least ≤ text.length) {values : List α} {text : List γ}
    (all : SpellsAll spells values text) : values.length * least ≤ text.length := by
  induction all with
  | nil => simp
  | cons spelled _ ih =>
      have head := long _ _ spelled
      rw [List.length_cons, List.length_append, Nat.add_mul, Nat.one_mul]
      omega

theorem spellsAll_flatMap {spells : α → List γ → Prop} {write : α → List γ} {values : List α}
    (each : ∀ value ∈ values, spells value (write value)) :
    SpellsAll spells values (values.flatMap write) := by
  induction values with
  | nil => exact .nil
  | cons value values ih =>
      rw [List.flatMap_cons]
      exact .cons (each value (by simp)) (ih fun later member => each later (by simp [member]))

theorem spellsAll_function_iff {fits : α → Prop} {write : α → List γ} {values : List α}
    {text : List γ} :
      SpellsAll (fun value spelling => fits value ∧ spelling = write value) values text ↔
      (∀ value ∈ values, fits value) ∧ text = values.flatMap write := by
  constructor
  · intro all
    induction all with
    | nil => simp
    | cons spelled _ ih =>
        obtain ⟨fit, rfl⟩ := spelled
        obtain ⟨fits, rfl⟩ := ih
        exact ⟨by simpa using ⟨fit, fits⟩, by simp⟩
  · rintro ⟨fits, rfl⟩
    exact spellsAll_flatMap fun value member => ⟨fits value member, rfl⟩

end Parsing
