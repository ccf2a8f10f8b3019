import Mathlib.Data.List.Basic
import Mathlib.Data.List.Infix

/-!
Texts made of lines, each closed by a separator. A line is found again by the first separator after
its place. Lines that are not empty never show two separators in a row, so one more separator marks
the end of such a text and nothing shorter does.
-/

namespace Lines

variable {γ : Type} [DecidableEq γ] {c : γ} {s front rest line : List γ} {pos : Nat}

def find (c : γ) (s : List γ) (pos : Nat) : Option Nat :=
  ((s.drop pos).findIdx? (· = c)).map (pos + ·)

theorem find_of_drop (stands : s.drop pos = front ++ c :: rest) (apart : c ∉ front) :
    find c s pos = some (pos + front.length) := by
  have first : (front ++ c :: rest).findIdx? (· = c) = some front.length := by
    have before : front.findIdx? (· = c) = none := by
      rw [List.findIdx?_eq_none_iff]
      intro other member
      rw [decide_eq_false_iff_not]
      rintro rfl
      exact apart member
    simp [List.findIdx?_append, before, List.findIdx?_cons]
  rw [find, stands, first]
  rfl

theorem find_none (absent : c ∉ s.drop pos) : find c s pos = none := by
  rw [find, Option.map_eq_none_iff, List.findIdx?_eq_none_iff]
  intro other member
  rw [decide_eq_false_iff_not]
  rintro rfl
  exact absent member

def closed (c : γ) (lines : List (List γ)) : List γ := lines.flatMap fun line => line ++ [c]

omit [DecidableEq γ] in
@[simp] theorem closed_cons (lines : List (List γ)) :
    closed c (line :: lines) = line ++ c :: closed c lines := by
  simp [closed]

omit [DecidableEq γ] in
theorem length_le_closed (lines : List (List γ)) : lines.length ≤ (closed c lines).length := by
  induction lines with
  | nil => exact Nat.zero_le _
  | cons line lines ih =>
      rw [closed_cons, List.length_cons, List.length_append, List.length_cons]
      omega

def hasPair (c : γ) : List γ → Bool
  | [] => false
  | [_] => false
  | a :: b :: rest => (a = c && b = c) || hasPair c (b :: rest)

theorem hasPair_cons_of_ne {a : γ} (apart : a ≠ c) : hasPair c (a :: rest) = hasPair c rest := by
  cases rest with
  | nil => rfl
  | cons b rest => simp [hasPair, apart]

theorem hasPair_append_of_notMem (apart : c ∉ front) :
    hasPair c (front ++ rest) = hasPair c rest := by
  induction front with
  | nil => rfl
  | cons a front ih =>
      rw [List.mem_cons, not_or] at apart
      rw [List.cons_append, hasPair_cons_of_ne fun same => apart.1 same.symm, ih apart.2]

theorem hasPair_mono {part whole : List γ} (stands : part <+: whole)
    (pair : hasPair c part = true) : hasPair c whole = true := by
  induction part generalizing whole with
  | nil => cases pair
  | cons a part ih =>
      obtain ⟨after, rfl⟩ := stands
      cases part with
      | nil => cases pair
      | cons b part =>
          simp only [hasPair, Bool.or_eq_true, List.cons_append] at pair ⊢
          rcases pair with here | later
          · exact Or.inl here
          · exact Or.inr (ih ⟨after, rfl⟩ later)

variable {lines : List (List γ)}

def Proper (c : γ) (lines : List (List γ)) : Prop := ∀ line ∈ lines, line ≠ [] ∧ c ∉ line

theorem hasPair_closed (proper : Proper c lines) : hasPair c (closed c lines) = false := by
  induction lines with
  | nil => rfl
  | cons line lines ih =>
      have later : Proper c lines := fun other member =>
        proper other (List.mem_cons_of_mem _ member)
      rw [closed_cons, hasPair_append_of_notMem (proper line List.mem_cons_self).2]
      cases lines with
      | nil => rfl
      | cons next lines =>
          -- the next line does not begin with a separator
          obtain ⟨a, others, rfl⟩ := List.exists_cons_of_ne_nil (proper next (by simp)).1
          have apart : a ≠ c := fun same => (proper _ (List.mem_cons_of_mem _ List.mem_cons_self)).2
            (by simp [same])
          have tail := ih later
          rw [closed_cons, List.cons_append] at tail ⊢
          simp [hasPair, apart, tail]

theorem whole_of_pair {part : List γ} (proper : Proper c lines)
    (stands : part <+: closed c lines ++ [c]) (pair : hasPair c part = true) :
    part = closed c lines ++ [c] := by
  rcases List.prefix_concat_iff.mp stands with whole | shorter
  · exact whole
  · have none := hasPair_closed proper
    rw [hasPair_mono shorter pair] at none
    cases none

theorem hasPair_framed (more : lines ≠ []) : hasPair c (closed c lines ++ [c]) = true := by
  have ends : ∀ s : List γ, hasPair c (s ++ [c, c]) = true := by
    intro s
    induction s with
    | nil => simp [hasPair]
    | cons a s ih =>
        cases s with
        | nil => simp [hasPair]
        | cons b s => simpa [hasPair] using Or.inr ih
  obtain ⟨earlier, last, rfl⟩ := (List.eq_nil_or_concat lines).resolve_left more
  rw [List.concat_eq_append]
  have same : closed c (earlier ++ [last]) ++ [c] = (closed c earlier ++ last) ++ [c, c] := by
    simp [closed]
  rw [same]
  exact ends _

end Lines
