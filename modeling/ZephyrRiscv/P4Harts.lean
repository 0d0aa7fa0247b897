import ZephyrRiscv.Interleaving
import Mathlib.Algebra.Group.Nat.Defs
import Mathlib.Tactic.Common

set_option autoImplicit false

/- The dual-core test P4: `g_p4`, the workers of hart 1 and `test_main`, statement by statement.
Memory is sequentially consistent, so the fences do nothing. -/
namespace ZephyrRiscv.P4

open Interleaving

/-- The fields of `p4_state_t`. -/
inductive Field where
  | core1_payload
  | core1_wrote_payload
  | fence_payload
  | fence_expected
  | fence_flag
  | fence_done
  | fence_ok
  | shared_counter
  | core1_atomic_done
  | lock
  | shared_var
  | core1_lock_done
  | count
  | turn
deriving DecidableEq, Repr

def Field.all : List Field :=
  [.core1_payload, .core1_wrote_payload, .fence_payload, .fence_expected, .fence_flag,
    .fence_done, .fence_ok, .shared_counter, .core1_atomic_done, .lock, .shared_var,
    .core1_lock_done, .count, .turn]

inductive HartId where
  | hart0
  | hart1
deriving DecidableEq, Repr

def HartId.other : HartId → HartId
  | .hart0 => .hart1
  | .hart1 => .hart0

inductive Worker where
  | magicWriter
  | fenceConsumer
  | fenceProducer
  | atomicIncrementer
  | spinlockWorker
  | ping
deriving DecidableEq, Repr

/-- The variables that a statement loads a field into before it uses it. -/
inductive Temp where
  | fst
  | snd
deriving DecidableEq, Repr

abbrev Vars := Temp → BitVec 64

/-- The statements, each with at most one access to `g_p4`. -/
inductive Stmt where
  | load (r : Temp) (f : Field)
  | put (f : Field) (v : BitVec 64)
  | putTemp (f : Field) (r : Temp)
  | putSucc (f : Field) (r : Temp)
  | putEq (f : Field) (r r' : Temp)
  | spinWait (f : Field) (v : BitVec 64)
  | spinZero (f : Field)
  | amoAdd (f : Field) (v : BitVec 64)
  | acquire (f : Field)
  | release (f : Field)
  | delay (n : Nat)
  | clear (f : Field)
  | wake (job : Worker)
  | park
  | assertEq (r : Temp) (v : BitVec 64) (code : Nat)
  | testFail (code : Nat)
  | testPass
deriving DecidableEq, Repr

def CORE1_MAGIC_NUMBER : BitVec 64 := 0xDEADBEEF

/-- The bounds of the loops of P4.2, P4.3 and P4.4. -/
structure LoopCounts where
  atomic : Nat
  spinlock : Nat
  pingPong : Nat

def loopCounts : LoopCounts where
  atomic := 100
  spinlock := 50
  pingPong := 100

/-- One round of the loop that both harts run in P4.3. -/
def spinlockRound : List Stmt :=
  [.acquire .lock, .load .fst .shared_var, .delay 10, .putSucc .shared_var .fst, .release .lock]

/-- One round of the loop that a hart runs in P4.4 when the turn has its value. -/
def turnRound (mine other : BitVec 64) : List Stmt :=
  [.spinWait .turn mine, .load .fst .count, .putSucc .count .fst, .put .turn other]

def magicWriter : List Stmt :=
  [.put .core1_payload CORE1_MAGIC_NUMBER, .put .core1_wrote_payload 1]

def fenceConsumer : List Stmt :=
  [.spinZero .fence_flag, .load .fst .fence_payload, .load .snd .fence_expected,
    .putEq .fence_ok .fst .snd, .put .fence_done 1]

def fenceProducer : List Stmt :=
  [.load .fst .fence_expected, .putTemp .fence_payload .fst, .put .fence_flag 1,
    .spinWait .fence_done 1]

def atomicIncrementer (n : Nat) : List Stmt :=
  forUpto n [.amoAdd .shared_counter 1] ++ [.put .core1_atomic_done 1]

def spinlockWorker (n : Nat) : List Stmt :=
  forUpto n spinlockRound ++ [.put .core1_lock_done 1]

def ping (n : Nat) : List Stmt :=
  forUpto n (turnRound 1 0)

/-- Hart 0's side of P4.4, after it woke hart 1 for `ping`. -/
def pingPongMain (n : Nat) : List Stmt :=
  forUpto n (turnRound 0 1) ++
    [.spinWait .turn 0, .load .fst .count, .assertEq .fst (BitVec.ofNat 64 (n * 2)) 790,
      .testPass]

/-- The phases of `test_main`, each after `g_p4 = (p4_state_t){0}`. -/
def phase0 : List Stmt :=
  [.wake .magicWriter, .spinWait .core1_wrote_payload 1, .load .fst .core1_payload,
    .assertEq .fst CORE1_MAGIC_NUMBER 760]

def phase1A : List Stmt :=
  [.put .fence_expected CORE1_MAGIC_NUMBER, .wake .fenceConsumer, .load .fst .fence_expected,
    .putTemp .fence_payload .fst, .put .fence_flag 1, .spinWait .fence_done 1,
    .load .fst .fence_ok, .assertEq .fst 1 761]

def phase1B : List Stmt :=
  [.put .fence_expected CORE1_MAGIC_NUMBER, .wake .fenceProducer, .spinZero .fence_flag,
    .load .fst .fence_payload, .load .snd .fence_expected, .putEq .fence_ok .fst .snd,
    .put .fence_done 1, .load .fst .fence_ok, .assertEq .fst 1 762]

def phase2 (n : Nat) : List Stmt :=
  [.put .shared_counter 0, .put .core1_atomic_done 0, .wake .atomicIncrementer] ++
    forUpto n [.amoAdd .shared_counter 1] ++
    [.spinWait .core1_atomic_done 1, .load .fst .shared_counter,
      .assertEq .fst (BitVec.ofNat 64 (n * 2)) 771]

def phase3 (n : Nat) : List Stmt :=
  [.put .lock 0, .put .shared_var 0, .put .core1_lock_done 0, .wake .spinlockWorker] ++
    forUpto n spinlockRound ++
    [.spinWait .core1_lock_done 1, .load .fst .shared_var,
      .assertEq .fst (BitVec.ofNat 64 (n * 2)) 781]

def phase4 (n : Nat) : List Stmt :=
  .wake .ping :: pingPongMain n

/-- The stores of `g_p4 = (p4_state_t){0}`, in the order of the compiler's choice. -/
structure ResetOrder where
  fields : List Field
  complete : ∀ f, f ∈ fields

def ResetOrder.code (order : ResetOrder) : List Stmt :=
  order.fields.map .clear

def phases (n : LoopCounts) : List (List Stmt) :=
  [phase0, phase1A, phase1B, phase2 n.atomic, phase3 n.spinlock, phase4 n.pingPong]

/-- `test_main`: a failed assertion and the end of the test stay at the verdict. -/
def testMain (order : ResetOrder) (n : LoopCounts) : List Stmt :=
  (phases n).flatMap fun phase => order.code ++ phase

def Worker.code (n : LoopCounts) : Worker → List Stmt
  | .magicWriter => P4.magicWriter
  | .fenceConsumer => P4.fenceConsumer
  | .fenceProducer => P4.fenceProducer
  | .atomicIncrementer => P4.atomicIncrementer n.atomic
  | .spinlockWorker => P4.spinlockWorker n.spinlock
  | .ping => P4.ping n.pingPong

/-- `g_p4`, the jobs that hart 1 was woken for and has not begun, and, as a record, the threads
that stored an incremented value, oldest first. -/
structure Shared (ι : Type) where
  mem : Field → BitVec 64
  posted : List Worker
  increments : List ι

def Shared.write {ι : Type} (m : Shared ι) (f : Field) (v : BitVec 64) : Shared ι :=
  { m with mem := Function.update m.mem f v }

/-- A wait whose condition does not hold stays at its statement. A wake-up is reliable: hart 1
runs every job it was woken for, in order, each from its park loop. -/
def exec {ι : Type} (n : LoopCounts) : Exec ι (Shared ι) Stmt Vars := fun i stmt rest vars m =>
  match stmt with
  | .load r f => (m, ⟨rest, Function.update vars r (m.mem f)⟩)
  | .put f v => (m.write f v, ⟨rest, vars⟩)
  | .putTemp f r => (m.write f (vars r), ⟨rest, vars⟩)
  | .putSucc f r =>
      ({ m.write f (vars r + 1) with increments := m.increments ++ [i] }, ⟨rest, vars⟩)
  | .putEq f r r' => (m.write f (if vars r = vars r' then 1 else 0), ⟨rest, vars⟩)
  | .spinWait f v => (m, ⟨if m.mem f = v then rest else stmt :: rest, vars⟩)
  | .spinZero f => (m, ⟨if m.mem f = 0 then stmt :: rest else rest, vars⟩)
  | .amoAdd f v => (m.write f (m.mem f + v), ⟨rest, vars⟩)
  | .acquire f => (m.write f 1, ⟨if m.mem f = 0 then rest else stmt :: rest, vars⟩)
  | .release f => (m.write f 0, ⟨rest, vars⟩)
  | .delay 0 => (m, ⟨rest, vars⟩)
  | .delay (j + 1) => (m, ⟨.delay j :: rest, vars⟩)
  | .clear f => (m.write f 0, ⟨rest, vars⟩)
  | .wake job => ({ m with posted := m.posted ++ [job] }, ⟨rest, vars⟩)
  | .park =>
      match m.posted with
      | [] => (m, ⟨stmt :: rest, vars⟩)
      | job :: jobs => ({ m with posted := jobs }, ⟨job.code n ++ stmt :: rest, vars⟩)
  | .assertEq r v code => (m, ⟨if vars r = v then rest else [.testFail code], vars⟩)
  | .testFail _ | .testPass => (m, ⟨stmt :: rest, vars⟩)

/-- A state of some threads that run this code. -/
abbrev State (ι : Type) := Conf ι (Shared ι) Stmt Vars

section Write

variable {ι : Type} (m : Shared ι) (f : Field) (v : BitVec 64)

@[simp] theorem write_mem : (m.write f v).mem = Function.update m.mem f v := rfl

@[simp] theorem write_posted : (m.write f v).posted = m.posted := rfl

@[simp] theorem write_increments : (m.write f v).increments = m.increments := rfl

end Write

end ZephyrRiscv.P4
