import ZephyrRiscv.Decimal
import ZephyrRiscv.Verdict

set_option autoImplicit false

namespace ZephyrRiscv.Verdict

/-- The characters that `uart_putc` was called with. -/
def sent (events : List Event) : List Char :=
  events.filterMap fun event =>
    match event with
    | .putc c => some c
    | .tohost _ | .finisher _ => none

/-- The value after the sign: `val = -val` on a two's-complement machine. -/
def magnitude (val : BitVec 32) : Int := if val.slt 0#32 then (-val).toInt else val.toInt

theorem tdiv_ten (val : Int) : 0 < val.tdiv 10 → val.tdiv 10 = val / 10 ∧ 10 ≤ val := by
  intro more
  rcases Int.lt_or_le val 0 with negative | nonnegative
  · have opposite : (-val).tdiv 10 = -(val.tdiv 10) := Int.neg_tdiv val 10
    have quotient := Int.tdiv_nonneg (a := -val) (b := 10) (by omega) (by omega)
    omega
  · have same := Int.tdiv_eq_ediv_of_nonneg (b := 10) nonnegative
    omega

/-- The do-while loop with a buffer of any size. -/
def digitLoop (val : Int) : List Char :=
  Char.ofNat (48 + val.tmod 10).toNat ::
    if 0 < val.tdiv 10 then digitLoop (val.tdiv 10) else []
termination_by val.toNat
decreasing_by
  rename_i more
  have quotient := tdiv_ten val more
  omega

/-- The buffer cuts the loop off and does nothing else. -/
theorem decDigits_take (cells : Nat) (val : Int) :
    decDigits cells val = (digitLoop val).take cells := by
  induction cells generalizing val with
  | zero => rfl
  | succ cells ih =>
      rw [decDigits, digitLoop, List.take_succ_cons]
      split
      · rw [ih]
      · rw [List.take_nil]

/-- On a number that is not negative the loop produces its digits. -/
theorem digitLoop_digits (n : Nat) : digitLoop n = Decimal.digits n := by
  induction n using Nat.strongRecOn with
  | ind n ih =>
      have quotient : (n : Int).tdiv 10 = ((n / 10 : Nat) : Int) := Int.ofNat_tdiv n 10
      have remainder : (48 + (n : Int).tmod 10).toNat = 48 + n % 10 := by
        have same : (n : Int).tmod 10 = ((n % 10 : Nat) : Int) := (Int.ofNat_tmod n 10).symm
        omega
      rw [digitLoop, Decimal.digits, quotient, remainder, Decimal.digitChar]
      by_cases small : n < 10
      · have last : ¬ 0 < ((n / 10 : Nat) : Int) := by omega
        rw [if_neg last, if_pos small]
      · have more : 0 < ((n / 10 : Nat) : Int) := by omega
        rw [if_pos more, if_neg small, ih (n / 10) (by omega)]

theorem sent_append (front rest : List Event) : sent (front ++ rest) = sent front ++ sent rest :=
  List.filterMap_append

theorem sent_putc (text : List Char) : sent (text.flatMap uartPutc) = text := by
  induction text with
  | nil => rfl
  | cons c text ih =>
      rw [List.flatMap_cons, sent_append, ih]
      rfl

theorem sent_putDec (val : BitVec 32) :
    sent (uartPutDec val) =
      (if val.toInt < 0 then ['-'] else []) ++ ((digitLoop (magnitude val)).take 20).reverse := by
  rw [uartPutDec, sent_append, sent_putc, decDigits_take, magnitude, BitVec.slt_zero_eq_msb]
  by_cases negative : val.toInt < 0
  · have sign : val.msb = true := BitVec.msb_eq_toInt.trans (decide_eq_true negative)
    rw [if_pos sign, if_pos negative]
    rfl
  · have sign : val.msb = false := BitVec.msb_eq_toInt.trans (decide_eq_false negative)
    rw [if_neg (by rw [sign]; exact Bool.false_ne_true), if_neg negative]
    rfl

theorem sent_testFail (sink : Sink) (code : BitVec 32) :
    sent (testFail sink code) = "[FAIL] code=".toList ++ sent (uartPutDec code) ++ ['\n'] := by
  have silent : sent (failVerdict sink code) = [] := by
    cases sink <;> rfl
  rw [testFail, sent_append, sent_append, sent_append, silent, List.append_nil]
  rfl

/-- The sign flip is exact for every `int` but the least. -/
theorem magnitude_natAbs {val : BitVec 32} (proper : val ≠ 0x80000000#32) :
    magnitude val = (val.toInt.natAbs : Int) := by
  rw [magnitude, BitVec.slt_zero_eq_msb, BitVec.msb_eq_toInt]
  by_cases negative : val.toInt < 0
  · rw [if_pos (decide_eq_true negative), BitVec.toInt_neg_of_ne_intMin proper]
    omega
  · rw [if_neg (by simpa using negative)]
    omega

/-- The numeral of a value on the console, from digits that the buffer holds. -/
structure PrintsFaithfully (val : BitVec 32) : Prop where
  canonical : Decimal.Canonical (sent (uartPutDec val))
  readBack : Decimal.read (sent (uartPutDec val)) = some val.toInt
  inBuffer : (digitLoop (magnitude val)).length ≤ 20
  failureCode : ∀ sink, ∃ text,
    sent (testFail sink val) = "[FAIL] code=".toList ++ text ++ ['\n'] ∧
      Decimal.Canonical text ∧ Decimal.read text = some val.toInt

/-- Every `int` but the least is printed as its decimal numeral. -/
theorem uart_put_dec_faithful_iff (val : BitVec 32) :
    PrintsFaithfully val ↔ val ≠ 0x80000000#32 := by
  constructor
  · rintro faithful rfl
    have misread : Decimal.read (sent (uartPutDec 0x80000000#32)) = none := by decide
    rw [faithful.readBack] at misread
    cases misread
  · intro proper
    have bound : val.toInt.natAbs < 10 ^ (19 + 1) := by
      have upper := BitVec.toInt_lt (x := val)
      have lower := BitVec.le_toInt (x := val)
      omega
    have loop := digitLoop_digits val.toInt.natAbs
    rw [← magnitude_natAbs proper] at loop
    have length := Decimal.digits_length bound
    rw [← loop] at length
    have text : sent (uartPutDec val) =
        (if val.toInt < 0 then ['-'] else []) ++ (Decimal.digits val.toInt.natAbs).reverse := by
      rw [sent_putDec, List.take_of_length_le length, loop]
    have numeral := Decimal.numeral_read val.toInt
    rw [← text] at numeral
    exact ⟨numeral.2, numeral.1, length, fun sink =>
      ⟨_, sent_testFail sink val, numeral.2, numeral.1⟩⟩

/-- The least `int` stays negative, and its one digit is the character eight below `0`. -/
theorem least_int_misprinted :
    (¬ ∀ val, PrintsFaithfully val) ∧ sent (uartPutDec 0x80000000#32) = ['-', '('] := by
  have text : sent (uartPutDec 0x80000000#32) = ['-', '('] := by decide
  refine ⟨fun always => ?_, text⟩
  have readBack := (always 0x80000000#32).readBack
  rw [text] at readBack
  exact absurd readBack (by decide)

example : sent (uartPutDec (BitVec.ofInt 32 (-207))) = "-207".toList := by decide

end ZephyrRiscv.Verdict
