import Mathlib.Data.List.Basic
import Mathlib.Tactic.Common

/-!
Objects that mention one another by name, listed in the order in which they came into
being. When no two objects share a name and nobody can mention a name before its bearer
exists, mentioning is a proof of having come later.
-/

namespace Provenance

variable {Object Name : Type} {name : Object → Name} {mentions : Object → List Name}
    {made more : List Object}

def Known (name : Object → Name) (made : List Object) (n : Name) : Prop :=
  ∀ object, name object = n → object ∈ made

/-- Every object mentions only names that were known before it. -/
def Grounded (name : Object → Name) (mentions : Object → List Name) (made : List Object) : Prop :=
  ∀ k object, made[k]? = some object → ∀ n ∈ mentions object, Known name (made.take k) n

theorem Known.append {n : Name} (known : Known name made n) (more : List Object) :
    Known name (made ++ more) n :=
  fun object named => List.mem_append_left more (known object named)

theorem known_of_mem {object : Object} (distinct : Function.Injective name)
    (member : object ∈ made) : Known name made (name object) := by
  intro other same
  rwa [distinct same]

theorem grounded_nil : Grounded name mentions ([] : List Object) := by
  intro k object found
  simp at found

theorem forall_take_append (relation : List Object → Object → Prop)
    (mono : ∀ before between object, relation before object → relation (before ++ between) object)
    (old : ∀ k object, made[k]? = some object → relation (made.take k) object)
    (new : ∀ object ∈ more, relation made object) :
    ∀ k object, (made ++ more)[k]? = some object → relation ((made ++ more).take k) object := by
  intro k object found
  by_cases before : k < made.length
  · rw [List.getElem?_append_left before] at found
    rw [List.take_append_of_le_length (Nat.le_of_lt before)]
    exact old k object found
  · have added : object ∈ more := by
      rw [List.getElem?_append_right (by omega)] at found
      exact List.mem_of_getElem? found
    rw [List.take_append, List.take_of_length_le (by omega)]
    exact mono _ _ _ (new object added)

theorem Grounded.append (grounded : Grounded name mentions made)
    (fresh : ∀ object ∈ more, ∀ n ∈ mentions object, Known name made n) :
    Grounded name mentions (made ++ more) :=
  forall_take_append (fun before object => ∀ n ∈ mentions object, Known name before n)
    (fun _ _ _ known n mentioned => (known n mentioned).append _) grounded fresh

variable [DecidableEq Object]

theorem Grounded.mentioned {earlier later : Object} (grounded : Grounded name mentions made)
    (member : later ∈ made) (mention : name earlier ∈ mentions later) :
    earlier ∈ made ∧ made.idxOf earlier < made.idxOf later := by
  have placed : made[made.idxOf later]? = some later := List.getElem?_idxOf member
  have before := grounded _ later placed _ mention earlier rfl
  refine ⟨List.mem_of_mem_take before, ?_⟩
  have split : made.idxOf earlier = (made.take (made.idxOf later)).idxOf earlier := by
    conv_lhs => rw [← List.take_append_drop (made.idxOf later) made]
    exact List.idxOf_append_of_mem before
  have inside := List.idxOf_lt_length_of_mem before
  have short := List.length_take_le (made.idxOf later) made
  omega

theorem Grounded.chain {objects : List Object} (grounded : Grounded name mentions made)
    (linked : objects.IsChain fun earlier later => name earlier ∈ mentions later)
    (ends : ∀ last, objects.getLast? = some last → last ∈ made) :
    (∀ object ∈ objects, object ∈ made) ∧
      objects.Pairwise fun earlier later => made.idxOf earlier < made.idxOf later := by
  induction objects with
  | nil => simp
  | cons first rest ih =>
      cases rest with
      | nil => simpa using ends
      | cons second others =>
          obtain ⟨mention, tail⟩ := List.isChain_cons_cons.mp linked
          obtain ⟨members, ordered⟩ := ih tail fun last found =>
            ends last (by rwa [List.getLast?_cons_cons])
          obtain ⟨member, before⟩ := grounded.mentioned (members second (by simp)) mention
          refine ⟨List.forall_mem_cons.mpr ⟨member, members⟩, List.pairwise_cons.mpr ⟨?_, ordered⟩⟩
          intro later listed
          rcases List.mem_cons.mp listed with rfl | after
          · exact before
          · exact Nat.lt_trans before ((List.pairwise_cons.mp ordered).1 later after)

end Provenance
