import Mathlib.Data.List.Nodup

/-!
Lists that gather items without repeats: each step adds those of its items that are not there
yet. Loops over such steps, and loops over such loops, gather the items of all of them.
-/

namespace Gathering

variable {α ι : Type}

/-- `after` is `before` with the `found` items it did not have, each once. -/
structure Gathers (found : α → Prop) (before after : List α) : Prop where
  mem : ∀ x, x ∈ after ↔ x ∈ before ∨ found x
  nodup : before.Nodup → after.Nodup

variable {found found' : α → Prop} {before middle after : List α}

theorem Gathers.refl (none : ∀ x, ¬found x) : Gathers found before before :=
  ⟨fun x => by simp [none x], fun distinct => distinct⟩

theorem Gathers.trans (first : Gathers found before middle) (second : Gathers found' middle after) :
    Gathers (fun x => found x ∨ found' x) before after := by
  refine ⟨fun x => ?_, fun distinct => second.nodup (first.nodup distinct)⟩
  rw [second.mem, first.mem, or_assoc]

theorem Gathers.congr (gathers : Gathers found before after) (same : ∀ x, found x ↔ found' x) :
    Gathers found' before after :=
  ⟨fun x => by rw [gathers.mem, same], gathers.nodup⟩

theorem gathers_add [DecidableEq α] (wanted : Prop) [Decidable wanted] (item : α) (out : List α) :
    Gathers (fun x => wanted ∧ x = item) out
    (if wanted ∧ item ∉ out then out ++ [item] else out) := by
  split
  · rename_i new
    refine ⟨fun x => by simp [new.1], fun distinct => ?_⟩
    rw [List.nodup_append]
    refine ⟨distinct, List.nodup_singleton item, ?_⟩
    intro x there y added same
    rw [List.mem_singleton] at added
    exact new.2 (added ▸ same ▸ there)
  · rename_i old
    refine ⟨fun x => ?_, fun distinct => distinct⟩
    constructor
    · exact Or.inl
    · rintro (there | ⟨holds, rfl⟩)
      · exact there
      · exact not_not.mp fun absent => old ⟨holds, absent⟩

theorem gathers_when (condition : Prop) [Decidable condition]
    (gathers : Gathers found before after) :
    Gathers (fun x => condition ∧ found x) before (if condition then after else before) := by
  split
  · rename_i holds
    exact gathers.congr fun x => by simp [holds]
  · rename_i fails
    exact .refl fun x => by simp [fails]

theorem gathers_foldl {step : List α → ι → List α} {found : ι → α → Prop}
    (gathers : ∀ out item, Gathers (found item) out (step out item)) (items : List ι)
    (out : List α) :
    Gathers (fun x => ∃ item ∈ items, found item x) out (items.foldl step out) := by
  induction items generalizing out with
  | nil => exact .refl (by simp)
  | cons item rest ih =>
      refine ((gathers out item).trans (ih (step out item))).congr fun x => ?_
      simp

end Gathering
