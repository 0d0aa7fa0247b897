import Mathlib.Algebra.Group.Int.Defs
import Mathlib.Tactic.Common

set_option autoImplicit false

namespace ZephyrRiscv.Verdict

/-- A store the host sees: a console character, the HTIF `tohost` word, or the
word of the QEMU finisher. -/
inductive Event where
  | putc (c : Char)
  | tohost (word : BitVec 64)
  | finisher (word : BitVec 32)
deriving DecidableEq, Repr

/-- The two builds of the suite differ in the sink of the verdict only. -/
inductive Sink where
  | htif
  | qemu
deriving DecidableEq, Repr

def uartPutc (c : Char) : List Event := [.putc c]

/-- A `char` of a text is a byte of its UTF-8 form. -/
def chars (s : String) : List Char :=
  s.toList.flatMap fun c => (String.utf8EncodeChar c).map fun byte => Char.ofNat byte.toNat

def uartPuts (s : String) : List Event :=
  (chars s).flatMap fun c => if c = '\n' then uartPutc '\r' ++ uartPutc c else uartPutc c

def uartPutHex (val : BitVec 64) : List Event :=
  uartPuts "0x" ++ (List.range 16).flatMap fun i =>
    uartPutc ("0123456789abcdef".toList.getD ((val >>> (60 - 4 * i)).toNat % 16) '0')

/-- The loop that fills the digit buffer, lowest digit first, while cells are left. -/
def decDigits : Nat → Int → List Char
  | 0, _ => []
  | cells + 1, val =>
      Char.ofNat (48 + val.tmod 10).toNat ::
        if 0 < val.tdiv 10 then decDigits cells (val.tdiv 10) else []

/-- `val = -val` wraps for the least `int`. -/
def uartPutDec (val : BitVec 32) : List Event :=
  (if val.slt 0#32 then uartPutc '-' else []) ++
    (decDigits 20 (if val.slt 0#32 then (-val).toInt else val.toInt)).reverse.flatMap uartPutc

def htifWrite (val : BitVec 64) : List Event := [.tohost val]

def qemuTestExit (value : BitVec 32) : List Event := [.finisher value]

def testPass (sink : Sink) : List Event :=
  uartPuts "[PASS]\n" ++
    match sink with
    | .htif => htifWrite 1
    | .qemu => qemuTestExit 0x5555

/-- The word of a failure. `(code << 1) | 1` is an `int`, widened with its sign. -/
def failVerdict (sink : Sink) (code : BitVec 32) : List Event :=
  match sink with
  | .htif => htifWrite ((code <<< 1 ||| 1#32).signExtend 64)
  | .qemu => qemuTestExit (0x3333#32 ||| code <<< 16)

def testFail (sink : Sink) (code : BitVec 32) : List Event :=
  uartPuts "[FAIL] code=" ++ uartPutDec code ++ uartPutc '\n' ++ failVerdict sink code

/-- `s_mode_entry` around a `test_main` that returns. -/
def sModeEntry (sink : Sink) (output : List Event) (result : BitVec 32) : List Event :=
  uartPuts "\n=== S-mode entry, stvec set ===\n" ++ output ++
    if result = 0 then testPass sink else testFail sink result

/-- The exit status a host takes from an event: Spike the HTIF word shifted right once,
QEMU the upper half of the finisher word, of which a process keeps eight bits. -/
def hostStatus : Event → Option Nat
  | .putc _ => none
  | .tohost word => some ((word >>> 1).toNat % 256)
  | .finisher word => some ((word >>> 16).toNat % 256)

def exitStatus (events : List Event) : Option Nat := events.findSome? hostStatus

/-- `run-test` of the Makefile prints PASS. -/
def runTestPasses (events : List Event) : Bool := exitStatus events = some 0

theorem exitStatus_append (front rest : List Event)
    (console : ∀ event ∈ front, hostStatus event = none) :
    exitStatus (front ++ rest) = exitStatus rest := by
  rw [exitStatus, List.findSome?_append, List.findSome?_eq_none_iff.mpr console,
    Option.none_or]
  rfl

theorem uartPutc_console (c : Char) : ∀ event ∈ uartPutc c, hostStatus event = none := by
  intro event member
  rw [List.mem_singleton.mp member]
  rfl

theorem uartPuts_console (s : String) : ∀ event ∈ uartPuts s, hostStatus event = none := by
  intro event member
  rw [uartPuts, List.mem_flatMap] at member
  rcases member with ⟨c, -, member⟩
  split at member
  · rcases List.mem_append.mp member with first | second
    · exact uartPutc_console _ event first
    · exact uartPutc_console _ event second
  · exact uartPutc_console _ event member

theorem uartPutDec_console (val : BitVec 32) :
    ∀ event ∈ uartPutDec val, hostStatus event = none := by
  intro event member
  rcases List.mem_append.mp member with sign | digits
  · split at sign
    · exact uartPutc_console _ event sign
    · cases sign
  · rcases List.mem_flatMap.mp digits with ⟨c, -, member⟩
    exact uartPutc_console c event member

theorem failVerdict_status (sink : Sink) (code : BitVec 32) :
    exitStatus (failVerdict sink code) = some (code.toNat % 256) := by
  have low : ∀ {w : Nat} (word : BitVec w), word.setWidth 8 = code.setWidth 8 →
      word.toNat % 256 = code.toNat % 256 := by
    intro w word same
    have equal := congrArg BitVec.toNat same
    rwa [BitVec.toNat_setWidth, BitVec.toNat_setWidth] at equal
  cases sink with
  | htif =>
      apply congrArg some
      apply low
      apply BitVec.eq_of_getLsbD_eq
      intro i inside
      have one : (1#32).getLsbD (1 + i) = false :=
        (by decide : ∀ i < 8, (1#32).getLsbD (1 + i) = false) i inside
      have narrow : 1 + i < 32 := by omega
      have wide : 1 + i < 64 := by omega
      simp only [BitVec.getLsbD_setWidth, BitVec.getLsbD_ushiftRight, BitVec.getLsbD_signExtend,
        BitVec.getLsbD_or, BitVec.getLsbD_shiftLeft, one, narrow, wide, inside, ↓reduceIte]
      simp
  | qemu =>
      apply congrArg some
      apply low
      apply BitVec.eq_of_getLsbD_eq
      intro i inside
      have tag : (0x3333#32).getLsbD (16 + i) = false :=
        (by decide : ∀ i < 8, (0x3333#32).getLsbD (16 + i) = false) i inside
      have narrow : 16 + i < 32 := by omega
      simp only [BitVec.getLsbD_setWidth, BitVec.getLsbD_ushiftRight, BitVec.getLsbD_or,
        BitVec.getLsbD_shiftLeft, tag, narrow, inside]
      simp

theorem testFail_status (sink : Sink) (code : BitVec 32) :
    exitStatus (testFail sink code) = some (code.toNat % 256) := by
  have console : ∀ event ∈ uartPuts "[FAIL] code=" ++ uartPutDec code ++ uartPutc '\n',
      hostStatus event = none := by
    intro event member
    rcases List.mem_append.mp member with front | newline
    · rcases List.mem_append.mp front with text | digits
      · exact uartPuts_console _ event text
      · exact uartPutDec_console code event digits
    · exact uartPutc_console _ event newline
  rw [testFail, exitStatus_append _ _ console, failVerdict_status]

/-- A failure the host cannot take for a pass, whatever the sink. -/
def Reported (code : BitVec 32) : Prop :=
  code ≠ 0 → ∀ sink, ∃ status, exitStatus (testFail sink code) = some status ∧ status ≠ 0

theorem reported_iff (code : BitVec 32) : Reported code ↔ code = 0 ∨ code.toNat % 256 ≠ 0 := by
  constructor
  · intro reported
    by_cases zero : code = 0
    · exact Or.inl zero
    · rcases reported zero .htif with ⟨status, exits, nonzero⟩
      rw [testFail_status] at exits
      exact Or.inr (Option.some.inj exits ▸ nonzero)
  · intro visible nonzero sink
    rcases visible with zero | low
    · exact absurd zero nonzero
    · exact ⟨code.toNat % 256, testFail_status sink code, low⟩

/-- The code of the TLB thrash test for a wrong page in a pass. -/
def thrashCode (pass i : Nat) : BitVec 32 := BitVec.ofNat 32 (330 + pass * 130 + i)

/-- Of the 256 pages the thrash test reads, exactly one hides its failure. -/
theorem thrashCode_hidden {pass i : Nat} (passes : pass < 2) (pages : i < 128) :
    (thrashCode pass i).toNat % 256 = 0 ↔ pass = 1 ∧ i = 52 := by
  rw [thrashCode, BitVec.toNat_ofNat, Nat.mod_eq_of_lt (a := 330 + pass * 130 + i) (by omega)]
  constructor
  · intro multiple
    rcases (by omega : pass = 0 ∨ pass = 1) with rfl | rfl <;> omega
  · rintro ⟨rfl, rfl⟩
    rfl

theorem thrash_failure_passes :
    ¬ (∀ code, Reported code) ∧ ∀ sink, runTestPasses (testFail sink (thrashCode 1 52)) = true := by
  have hidden := (thrashCode_hidden (by omega) (by omega)).mpr ⟨rfl, rfl⟩
  constructor
  · intro always
    rcases always (thrashCode 1 52) (by decide) .htif with ⟨status, exits, nonzero⟩
    rw [testFail_status, hidden] at exits
    exact nonzero (Option.some.inj exits).symm
  · intro sink
    rw [runTestPasses, testFail_status, hidden]
    rfl

end ZephyrRiscv.Verdict
