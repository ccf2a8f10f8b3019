import Mathlib.Data.Multiset.DershowitzManna
import Mathlib.Data.Set.Finite.Lattice
import Mathlib.Order.Interval.Finset.Nat

/-!
Systems that consume and produce tokens. A step that replaces a token by tokens of smaller rank
makes the multiset of ranks smaller in the Dershowitz–Manna order, so that however many tokens a
step produces, a run holds finitely many such steps.
-/

namespace Descent

variable {α : Type*}

theorem finite_falls {falls : α → α → Prop} (wellFounded : WellFounded falls) (sequence : ℕ → α)
    (steps : ∀ n, sequence (n + 1) = sequence n ∨ falls (sequence (n + 1)) (sequence n)) :
    {n | falls (sequence (n + 1)) (sequence n)}.Finite := by
  classical
  -- after its first fall the sequence goes on from a lower place
  have later : ∀ place, ∀ i, sequence i = place →
    {n | i ≤ n ∧ falls (sequence (n + 1)) (sequence n)}.Finite := by
    intro place
    induction place using wellFounded.induction with
    | _ place ih =>
        intro i reached
        by_cases some : ∃ n, i ≤ n ∧ falls (sequence (n + 1)) (sequence n)
        · obtain ⟨after, fell⟩ := Nat.find_spec some
          have level : ∀ n, i ≤ n → n ≤ Nat.find some → sequence n = place := by
            intro n begun
            induction n, begun using Nat.le_induction with
            | base => exact fun _ => reached
            | succ n begun ih =>
                intro early
                have stays : ¬falls (sequence (n + 1)) (sequence n) := fun fell =>
                  Nat.find_min some (Nat.lt_of_succ_le early) ⟨begun, fell⟩
                exact ((steps n).resolve_right stays).trans (ih (Nat.le_of_succ_le early))
          rw [level _ after (Nat.le_refl _)] at fell
          refine ((Set.finite_Iic (Nat.find some)).union (ih _ fell _ rfl)).subset ?_
          rintro n ⟨-, falls⟩
          rcases Nat.lt_or_ge (Nat.find some) n with beyond | within
          · exact Or.inr ⟨beyond, falls⟩
          · exact Or.inl within
        · refine Set.finite_empty.subset ?_
          exact fun n falls => some ⟨n, falls⟩
  exact (later (sequence 0) 0 rfl).subset fun n fell => ⟨Nat.zero_le n, fell⟩

variable {Token : Type*} [DecidableEq Token] {rank : Token → ℕ}
    {tokens : Multiset Token} {token : Token}

theorem replace_falls {produced : Multiset Token} (held : token ∈ tokens)
    (smaller : ∀ other ∈ produced, rank other < rank token) :
    Multiset.IsDershowitzMannaLT ((tokens.erase token + produced).map rank) (tokens.map rank) := by
  refine ⟨(tokens.erase token).map rank, produced.map rank, {rank token}, by simp, by simp, ?_, ?_⟩
  · rw [← Multiset.map_singleton, ← Multiset.map_add, add_comm, Multiset.singleton_add,
      Multiset.cons_erase held]
  · intro value member
    obtain ⟨other, listed, rfl⟩ := Multiset.mem_map.mp member
    exact ⟨rank token, Multiset.mem_singleton_self _, smaller other listed⟩

variable {p : Token → Prop} [DecidablePred p] {produced : Multiset Token}

theorem filter_replace_of_pos (held : token ∈ tokens) (chosen : p token) :
    (tokens.erase token + produced).filter p = (tokens.filter p).erase token +
    produced.filter p := by
  obtain ⟨rest, rfl⟩ := Multiset.exists_cons_of_mem held
  rw [Multiset.erase_cons_head, Multiset.filter_add, Multiset.filter_cons_of_pos _ chosen,
    Multiset.erase_cons_head]

theorem filter_replace_of_neg (held : token ∈ tokens) (other : ¬p token)
    (others : ∀ made ∈ produced, ¬p made) :
    (tokens.erase token + produced).filter p = tokens.filter p := by
  obtain ⟨rest, rfl⟩ := Multiset.exists_cons_of_mem held
  rw [Multiset.erase_cons_head, Multiset.filter_add, Multiset.filter_cons_of_neg _ other,
    Multiset.filter_eq_nil.mpr others, add_zero]

end Descent
