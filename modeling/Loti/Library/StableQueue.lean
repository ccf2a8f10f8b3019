import Mathlib.Data.List.Sort
import Mathlib.Data.List.Perm.Basic

/-!
A queue that is kept in the order of its keys, entries with equal keys in the order in which they
were added. The agenda lists the same entries in the order in which they were added.
-/

namespace StableQueue

variable {Key Item : Type} [LT Key] [LE Key] [DecidableLT Key] [Std.IsLinearOrder Key]
    [Std.LawfulOrderLT Key]

def place (key : Item → Key) (item : Item) (queue : List Item) : List Item :=
  queue.orderedInsert (fun a b => key a < key b) item

variable {key : Item → Key} {agenda queue rest : List Item} {item first second : Item}

def Before (key : Item → Key) (agenda : List Item) (first second : Item) : Prop :=
  key first < key second ∨ key first = key second ∧ [first, second].Sublist agenda

structure Sorts (key : Item → Key) (agenda queue : List Item) : Prop where
  perm : queue.Perm agenda
  ordered : queue.Pairwise (Before key agenda)

omit [LE Key] [DecidableLT Key] [Std.IsLinearOrder Key] [Std.LawfulOrderLT Key] in
theorem sorts_nil : Sorts key [] [] := ⟨.refl _, .nil⟩

omit [LE Key] [DecidableLT Key] [Std.IsLinearOrder Key] [Std.LawfulOrderLT Key] in
theorem Before.mono {longer : List Item} (before : Before key agenda first second)
    (part : agenda.Sublist longer) : Before key longer first second :=
    before.imp_right fun ⟨same, listed⟩ => ⟨same, listed.trans part⟩

omit [DecidableLT Key] in
theorem Before.le (before : Before key agenda first second) : key first ≤ key second := by
  rcases before with less | ⟨same, -⟩
  · exact Std.le_of_lt less
  · exact Std.le_of_eq same

theorem place_ordered (ordered : queue.Pairwise (Before key agenda))
    (listed : ∀ other ∈ queue, other ∈ agenda) :
    (place key item queue).Pairwise (Before key (agenda ++ [item])) := by
  induction queue with
  | nil => simp [place]
  | cons head rest ih =>
      obtain ⟨above, ordered⟩ := List.pairwise_cons.mp ordered
      have longer : agenda.Sublist (agenda ++ [item]) := List.sublist_append_left agenda [item]
      rw [place, List.orderedInsert]
      split
      · rename_i less
        refine List.pairwise_cons.mpr
          ⟨fun other member => Or.inl ?_, List.pairwise_cons.mpr ⟨?_, ?_⟩⟩
        · rcases List.mem_cons.mp member with rfl | later
          · exact less
          · exact Std.lt_of_lt_of_le less (above other later).le
        · exact fun other member => (above other member).mono longer
        · exact ordered.imp fun before => before.mono longer
      · rename_i notLess
        refine List.pairwise_cons.mpr ⟨fun other member => ?_, ih ordered fun other member =>
          listed other (List.mem_cons_of_mem _ member)⟩
        rcases (List.mem_orderedInsert _).mp member with rfl | later
        · -- the new entry has no smaller key, and is the last one added
          by_cases less : key head < key other
          · exact Or.inl less
          · refine Or.inr ⟨Std.le_antisymm (Std.not_lt.mp notLess) (Std.not_lt.mp less), ?_⟩
            exact (List.singleton_sublist.mpr (listed head List.mem_cons_self)).append
              (List.Sublist.refl [other])
        · exact (above other later).mono longer

theorem Sorts.add (sorts : Sorts key agenda queue) (item : Item) :
    Sorts key (agenda ++ [item]) (place key item queue) where
  perm := (List.perm_orderedInsert _ item queue).trans
    ((sorts.perm.cons item).trans (List.perm_append_singleton item agenda).symm)
  ordered := place_ordered sorts.ordered fun _ member => sorts.perm.mem_iff.mp member

omit [LE Key] [DecidableLT Key] [Std.IsLinearOrder Key] [Std.LawfulOrderLT Key] in
theorem Sorts.filter (sorts : Sorts key agenda queue) (keep : Item → Bool) :
    Sorts key (agenda.filter keep) (queue.filter keep) where
  perm := sorts.perm.filter keep
  ordered := by
    refine (sorts.ordered.filter keep).imp_of_mem fun {a b} one two before =>
      before.imp_right fun ⟨same, listed⟩ => ⟨same, ?_⟩
    have kept := listed.filter keep
    rwa [List.filter_cons_of_pos (List.of_mem_filter one), List.filter_cons_of_pos
      (List.of_mem_filter two)] at kept

omit [LE Key] [DecidableLT Key] [Std.IsLinearOrder Key] [Std.LawfulOrderLT Key] in
theorem Sorts.front (sorts : Sorts key agenda (item :: rest)) :
    item ∈ agenda ∧ ∀ other ∈ agenda, other = item ∨ Before key agenda item other := by
  refine ⟨sorts.perm.mem_iff.mp List.mem_cons_self, fun other listed => ?_⟩
  rcases List.mem_cons.mp (sorts.perm.mem_iff.mpr listed) with same | later
  · exact Or.inl same
  · exact Or.inr (List.rel_of_pairwise_cons sorts.ordered later)

end StableQueue
