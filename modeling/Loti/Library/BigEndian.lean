import Mathlib.Data.Nat.Basic
import Mathlib.Tactic.Ring
import Mathlib.Tactic.NormNum

/-!
Fixed-width big-endian numerals over bytes: the digits of a number, the number
that digits stand for, and the two round trips between them.
-/

namespace BigEndian

def digits : Nat → Nat → List UInt8
  | 0, _ => []
  | width + 1, value => UInt8.ofNat (value / 256 ^ width) :: digits width value

def valueFrom (start : Nat) (bytes : List UInt8) : Nat :=
  bytes.foldl (fun total byte => total * 256 + byte.toNat) start

def value (bytes : List UInt8) : Nat := valueFrom 0 bytes

@[simp] theorem digits_length (width number : Nat) : (digits width number).length = width := by
  induction width with
  | zero => rfl
  | succ width ih => simp [digits, ih]

theorem valueFrom_eq (start : Nat) (bytes : List UInt8) :
    valueFrom start bytes = start * 256 ^ bytes.length + value bytes := by
  induction bytes generalizing start with
  | nil => simp [valueFrom, value]
  | cons byte rest ih =>
      have split := ih (start * 256 + byte.toNat)
      have tail := ih byte.toNat
      simp only [valueFrom, List.foldl_cons, value, List.length_cons, Nat.zero_mul,
        Nat.zero_add] at split tail ⊢
      rw [split, tail]
      ring

@[simp] theorem value_nil : value [] = 0 := rfl

theorem value_cons (byte : UInt8) (rest : List UInt8) :
    value (byte :: rest) = byte.toNat * 256 ^ rest.length + value rest := by
  have step : value (byte :: rest) = valueFrom byte.toNat rest := by
    simp [value, valueFrom]
  rw [step, valueFrom_eq]

theorem value_lt (bytes : List UInt8) : value bytes < 256 ^ bytes.length := by
  induction bytes with
  | nil => simp
  | cons byte rest ih =>
      rw [value_cons, List.length_cons, Nat.pow_succ]
      have bound : byte.toNat ≤ 255 := by
        have := byte.toNat_lt
        omega
      have scaled : byte.toNat * 256 ^ rest.length ≤ 255 * 256 ^ rest.length :=
        Nat.mul_le_mul_right _ bound
      omega

theorem digits_mod (width number : Nat) :
    digits width (number % 256 ^ width) = digits width number := by
  have general : ∀ inner, inner ≤ width →
      digits inner (number % 256 ^ width) = digits inner number := by
    intro inner
    induction inner with
    | zero => intro _; rfl
    | succ inner ih =>
        intro below
        have rest := ih (by omega)
        have powers : 256 ^ width = 256 ^ inner * 256 ^ (width - inner) := by
          rw [← Nat.pow_add]; congr 1; omega
        have factor : 256 ^ (width - inner) = 256 * 256 ^ (width - inner - 1) := by
          rw [← Nat.pow_succ']; congr 1; omega
        have head : UInt8.ofNat (number % 256 ^ width / 256 ^ inner) =
            UInt8.ofNat (number / 256 ^ inner) := by
          apply UInt8.toNat_inj.mp
          rw [UInt8.toNat_ofNat', UInt8.toNat_ofNat', powers, Nat.mod_mul_right_div_self, factor]
          exact Nat.mod_mul_right_mod _ _ _
        simp only [digits, head, rest]
  exact general width (Nat.le_refl _)

theorem value_digits (width number : Nat) :
    value (digits width number) = number % 256 ^ width := by
  induction width with
  | zero => simp [digits, Nat.mod_one]
  | succ width ih =>
      rw [digits, value_cons, digits_length, ih, UInt8.toNat_ofNat']
      have split : number % 256 ^ (width + 1) =
          number % 256 ^ width + 256 ^ width * (number / 256 ^ width % 256) := by
        rw [Nat.pow_succ]
        exact Nat.mod_mul
      rw [split, Nat.mul_comm (256 ^ width), Nat.add_comm]

theorem digits_value {width : Nat} {bytes : List UInt8} (size : bytes.length = width) :
    digits width (value bytes) = bytes := by
  induction bytes generalizing width with
  | nil => subst size; rfl
  | cons byte rest ih =>
      subst size
      have lower := value_lt rest
      have head :
        (byte.toNat * 256 ^ rest.length + value rest) / 256 ^ rest.length = byte.toNat := by
        rw [Nat.mul_comm, Nat.mul_add_div (by positivity), Nat.div_eq_of_lt lower, Nat.add_zero]
      have tail : digits rest.length (byte.toNat * 256 ^ rest.length + value rest) = rest := by
        rw [← digits_mod, Nat.mul_add_mod_self_right, Nat.mod_eq_of_lt lower]
        exact ih rfl
      simp only [List.length_cons, digits, value_cons, head, tail, UInt8.ofNat_toNat]

theorem digits_inj {width first second : Nat} (firstBound : first < 256 ^ width)
    (secondBound : second < 256 ^ width) (same : digits width first = digits width second) :
    first = second := by
  have values := congrArg value same
  rwa [value_digits, value_digits, Nat.mod_eq_of_lt firstBound, Nat.mod_eq_of_lt secondBound]
    at values

/-! Numerals of one width are ordered as their numbers are. -/

theorem compare_toNat (first second : UInt8) :
    compare first second = compare first.toNat second.toNat := by
  change compareOfLessAndEq first second = compareOfLessAndEq first.toNat second.toNat
  simp only [compareOfLessAndEq, UInt8.lt_iff_toNat_lt, UInt8.toNat_inj]

theorem compare_quotients {power first second : Nat} (positive : 0 < power) :
    (compare (first / power) (second / power)).then (compare (first % power) (second % power)) =
    compare first second := by
  have one := Nat.div_add_mod first power
  have two := Nat.div_add_mod second power
  have small := Nat.mod_lt first positive
  have little := Nat.mod_lt second positive
  rcases Nat.lt_trichotomy (first / power) (second / power) with below | same | above
  · have step : power * (first / power) + power ≤ power * (second / power) := by
      rw [← Nat.mul_succ]
      exact Nat.mul_le_mul_left _ below
    have less : first < second := by omega
    rw [Nat.compare_eq_lt.mpr below, Nat.compare_eq_lt.mpr less]
    rfl
  · rw [same, Nat.compare_eq_eq.mpr rfl]
    change compare (first % power) (second % power) = _
    rw [same] at one
    rcases Nat.lt_trichotomy (first % power) (second % power) with lower | equal | higher
    · rw [Nat.compare_eq_lt.mpr lower, Nat.compare_eq_lt.mpr (by omega)]
    · rw [Nat.compare_eq_eq.mpr equal, Nat.compare_eq_eq.mpr (by omega)]
    · rw [Nat.compare_eq_gt.mpr higher, Nat.compare_eq_gt.mpr (by omega)]
  · have step : power * (second / power) + power ≤ power * (first / power) := by
      rw [← Nat.mul_succ]
      exact Nat.mul_le_mul_left _ above
    have more : second < first := by omega
    rw [Nat.compare_eq_gt.mpr above, Nat.compare_eq_gt.mpr more]
    rfl

theorem compare_digits {width first second : Nat} (firstBound : first < 256 ^ width)
    (secondBound : second < 256 ^ width) :
    compare (digits width first) (digits width second) = compare first second := by
  induction width generalizing first second with
  | zero =>
      simp only [Nat.pow_zero, Nat.lt_one_iff] at firstBound secondBound
      subst firstBound secondBound
      rfl
  | succ width ih =>
      have positive : 0 < 256 ^ width := by positivity
      rw [Nat.pow_succ] at firstBound secondBound
      have one : first / 256 ^ width < 256 := Nat.div_lt_of_lt_mul firstBound
      have two : second / 256 ^ width < 256 := Nat.div_lt_of_lt_mul secondBound
      have tails := ih (Nat.mod_lt first positive) (Nat.mod_lt second positive)
      rw [digits_mod, digits_mod] at tails
      have lex : compare (digits (width + 1) first) (digits (width + 1) second) =
          (compare (UInt8.ofNat (first / 256 ^ width)) (UInt8.ofNat (second / 256 ^ width))).then
            (compare (digits width first) (digits width second)) := List.compareLex_cons_cons
      rw [lex, tails, compare_toNat, UInt8.toNat_ofNat_of_lt' one, UInt8.toNat_ofNat_of_lt' two,
        compare_quotients positive]

end BigEndian
