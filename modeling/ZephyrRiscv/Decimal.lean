import Mathlib.Algebra.Group.Int.Defs
import Mathlib.Algebra.Group.Nat.Defs
import Mathlib.Tactic.Common

set_option autoImplicit false

namespace Decimal

/-- The number of a run of digits after the number of those already read. -/
def readDigits : Nat → List Char → Option Nat
  | n, [] => some n
  | n, c :: rest => if c.isDigit then readDigits (10 * n + (c.toNat - 48)) rest else none

/-- A sign is read in front of digits only. -/
def read : List Char → Option Int
  | [] => none
  | c :: rest =>
      if c = '-' then (readDigits 0 rest).map fun n : Nat => -(n : Int)
      else (readDigits 0 (c :: rest)).map fun n : Nat => (n : Int)

/-- One or more digits, the first of them zero only when it is the whole number. -/
structure Unsigned (text : List Char) : Prop where
  nonempty : text ≠ []
  digits : ∀ c ∈ text, c.isDigit
  leading : text.head? = some '0' → text = ['0']

/-- An optional sign, then digits with no leading zero. Zero has no sign. -/
def Canonical (text : List Char) : Prop :=
  Unsigned text ∨ ∃ body, text = '-' :: body ∧ Unsigned body ∧ body ≠ ['0']

def digitChar (n : Nat) : Char := Char.ofNat (48 + n % 10)

/-- The digits of a number, the lowest first. -/
def digits (n : Nat) : List Char :=
  digitChar n :: if n < 10 then [] else digits (n / 10)

theorem digits_small {n : Nat} (small : n < 10) : digits n = [digitChar n] := by
  rw [digits, if_pos small]

theorem digits_large {n : Nat} (large : ¬ n < 10) : digits n = digitChar n :: digits (n / 10) := by
  rw [digits, if_neg large]

theorem digitChar_spec (n : Nat) :
    (digitChar n).isDigit = true ∧ (digitChar n).toNat - 48 = n % 10 ∧
      (digitChar n = '0' → n % 10 = 0) := by
  have table : ∀ d < 10, (Char.ofNat (48 + d)).isDigit = true ∧
      (Char.ofNat (48 + d)).toNat - 48 = d ∧ (Char.ofNat (48 + d) = '0' → d = 0) := by decide
  exact table (n % 10) (Nat.mod_lt n (by omega))

theorem readDigits_append (n : Nat) (front : List Char) (c : Char) :
    readDigits n (front ++ [c]) =
      (readDigits n front).bind fun high =>
        if c.isDigit then some (10 * high + (c.toNat - 48)) else none := by
  induction front generalizing n with
  | nil => rfl
  | cons first front ih =>
      rw [List.cons_append, readDigits, readDigits]
      split
      · exact ih _
      · rfl

theorem digits_read (n : Nat) : readDigits 0 (digits n).reverse = some n := by
  have spec := digitChar_spec n
  induction n using Nat.strongRecOn with
  | ind n ih =>
      by_cases small : n < 10
      · rw [digits_small small, List.reverse_singleton, readDigits, if_pos spec.1, readDigits,
          spec.2.1]
        exact congrArg some (by omega)
      · rw [digits_large small, List.reverse_cons, readDigits_append,
          ih (n / 10) (by omega) (digitChar_spec (n / 10)), Option.bind_some, if_pos spec.1,
          spec.2.1]
        exact congrArg some (by omega)

theorem digits_are (n : Nat) : ∀ c ∈ digits n, c.isDigit := by
  induction n using Nat.strongRecOn with
  | ind n ih =>
      intro c member
      rw [digits, List.mem_cons] at member
      obtain rfl | rest := member
      · exact (digitChar_spec n).1
      · split at rest
        · cases rest
        · exact ih (n / 10) (by omega) c rest

/-- The highest digit of a number that is not zero is not zero. -/
theorem digits_highest {n : Nat} (zero : (digits n).getLast? = some '0') : n = 0 := by
  induction n using Nat.strongRecOn with
  | ind n ih =>
      by_cases small : n < 10
      · rw [digits_small small, List.getLast?_singleton] at zero
        have low := (digitChar_spec n).2.2 (Option.some.inj zero)
        omega
      · have higher : digits (n / 10) ≠ [] := by
          rw [digits]
          exact List.cons_ne_nil _ _
        rw [digits_large small, List.getLast?_cons, List.getLast?_eq_some_getLast higher,
          Option.getD_some, ← List.getLast?_eq_some_getLast higher] at zero
        have quotient := ih (n / 10) (by omega) zero
        omega

theorem digits_zero : digits 0 = ['0'] := by
  rw [digits_small (by omega)]
  rfl

theorem digits_unsigned (n : Nat) : Unsigned (digits n).reverse := by
  constructor
  · rw [digits, List.reverse_cons]
    exact List.append_ne_nil_of_right_ne_nil _ (List.cons_ne_nil _ _)
  · intro c member
    exact digits_are n c (List.mem_reverse.mp member)
  · intro leading
    rw [List.head?_reverse] at leading
    rw [digits_highest leading, digits_zero, List.reverse_singleton]

/-- A number below a power of ten has no more digits than the exponent. -/
theorem digits_length {n k : Nat} (bound : n < 10 ^ (k + 1)) : (digits n).length ≤ k + 1 := by
  induction k generalizing n with
  | zero =>
      rw [digits_small (by omega)]
      exact Nat.le_refl 1
  | succ k ih =>
      rw [digits, List.length_cons]
      split
      · exact Nat.le_add_left _ _
      · rw [Nat.pow_succ] at bound
        have rest := ih (n := n / 10) (by omega)
        omega

/-- The digits of a number of either sign make its numeral. -/
theorem numeral_read (val : Int) :
    read ((if val < 0 then ['-'] else []) ++ (digits val.natAbs).reverse) = some val ∧
      Canonical ((if val < 0 then ['-'] else []) ++ (digits val.natAbs).reverse) := by
  have unsigned := digits_unsigned val.natAbs
  by_cases negative : val < 0
  · rw [if_pos negative, List.singleton_append]
    constructor
    · rw [read, if_pos rfl, digits_read, Option.map_some]
      exact congrArg some (by omega)
    · refine Or.inr ⟨_, rfl, unsigned, fun zero => ?_⟩
      have value := digits_read val.natAbs
      rw [zero] at value
      have absolute : (0 : Nat) = val.natAbs := Option.some.inj value
      omega
  · rw [if_neg negative, List.nil_append]
    constructor
    · cases split : (digits val.natAbs).reverse with
      | nil => exact absurd split unsigned.nonempty
      | cons first rest =>
          have digit := unsigned.digits first (by rw [split]; exact List.mem_cons_self)
          have unsignedFirst : first ≠ '-' := by
            rintro rfl
            exact absurd digit (by decide)
          rw [read, if_neg unsignedFirst, ← split, digits_read, Option.map_some]
          exact congrArg some (by omega)
    · exact Or.inl unsigned

end Decimal
