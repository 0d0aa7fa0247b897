import ZephyrRiscv.EcallReflection
import ZephyrRiscv.Preemption

set_option autoImplicit false

/- The trap vectors when traps nest: M-mode traps between any two instructions of S-mode
code, the S-mode vector and the compiled `s_trap_handler` included. The compiled C code
is a parameter that follows the calling convention. -/
namespace ZephyrRiscv

open Sv39 Verdict Preemption

/-- What unprivileged instructions read and write. -/
structure UserState where
  pc : BitVec 64
  regs : Reg → BitVec 64
  mem : Mem

def Hart.user (h : Hart) : UserState := ⟨h.pc, h.regs, h.mem⟩

def Hart.setUser (h : Hart) (k : UserState) : Hart :=
  { h with pc := k.pc, regs := k.regs, mem := k.mem }

/-- The same registers, and the same memory from the stack pointer on. -/
structure UserState.Agrees (k k' : UserState) : Prop where
  regs : k'.regs = k.regs
  mem : ∀ a : BitVec 64, (k.regs .sp).toNat ≤ a.toNat → k'.mem a = k.mem a

/-- What interrupted code relies on: nothing is lost but memory below its stack pointer. -/
structure UserState.Resumes (k k' : UserState) : Prop extends UserState.Agrees k k' where
  pc : k'.pc = k.pc

theorem UserState.Agrees.refl (k : UserState) : k.Agrees k := ⟨rfl, fun _ _ => rfl⟩

theorem UserState.Agrees.trans {k k' k'' : UserState} (first : k.Agrees k')
    (second : k'.Agrees k'') : k.Agrees k'' := by
  constructor
  · exact second.regs.trans first.regs
  · intro a above
    rw [second.mem a (by rw [first.regs]; exact above), first.mem a above]

/-- The compiled `s_trap_handler`: its first instruction and the addresses of all of them, the
instructions that only change the user state, and those that perform an effect. -/
structure SCode where
  entry : BitVec 64
  inside : BitVec 64 → Prop
  step : UserState → UserState → Prop
  effect : UserState → SEffect → UserState → Prop

/-- The effects so far and the user state at a point of a call, interrupted at will. -/
inductive SCode.Reaches (code : SCode) (start : UserState) : List SEffect → UserState → Prop
  | start : code.Reaches start [] start
  | step {done : List SEffect} {k k' : UserState} (before : code.Reaches start done k)
      (stepped : code.step k k') : code.Reaches start done k'
  | effect {done : List SEffect} {e : SEffect} {k k' : UserState}
      (before : code.Reaches start done k)
      (performed : code.effect k e k') : code.Reaches start (done ++ [e]) k'
  | interrupted {done : List SEffect} {k k' : UserState} (before : code.Reaches start done k)
      (resumed : k.Resumes k') : code.Reaches start done k'

/-- The doubleword that an effect stores to. -/
def SEffect.target (frame : BitVec 64) : SEffect → Option (BitVec 64)
  | .frameSepc _ => some (frameWord frame 30)
  | .storePte address _ => some address
  | _ => none

/-- The calling convention for `s_trap_handler` and its `ecall`: within `stack` bytes of
stack, a call from outside returns the callee-saved registers, and its caller's memory but for
the stores of the source. -/
structure SCode.Abi (code : SCode) (stack : Nat) : Prop where
  ecall : ∀ {k k' : UserState} {a7 a0 : BitVec 64}, code.effect k (.ecall a7 a0) k' →
    k.regs .a7 = a7 ∧ k.regs .a0 = a0 ∧ k' = { k with pc := k.pc + 4 }
  depth : ∀ {start k : UserState} {done : List SEffect}, start.pc = code.entry →
    stack ≤ (start.regs .sp).toNat → code.Reaches start done k →
    (start.regs .sp).toNat ≤ (k.regs .sp).toNat + stack
  saved : ∀ {start k : UserState} {done : List SEffect}, start.pc = code.entry →
    ¬ code.inside (start.regs .ra) → stack ≤ (start.regs .sp).toNat →
    code.Reaches start done k → k.pc = start.regs .ra →
    ∀ r, callerSaved r = false → k.regs r = start.regs r
  mem : ∀ {start k : UserState} {done : List SEffect}, start.pc = code.entry →
    ¬ code.inside (start.regs .ra) → stack ≤ (start.regs .sp).toNat →
    code.Reaches start done k → k.pc = start.regs .ra →
    ∀ a : BitVec 64, (start.regs .sp).toNat ≤ a.toNat →
      (∀ e ∈ done, e.target (start.regs .a3) ≠ some a) → k.mem a = start.mem a

/-- The compiled `m_trap_handler`: a call, what it returns, and the user state after it. -/
abbrev MCode := UserState → BitVec 64 → UserState → Prop

/-- The calling convention for `m_trap_handler`. -/
structure MCode.Abi (code : MCode) (stack : Nat) : Prop where
  result : ∀ {k k' : UserState} {value : BitVec 64}, code k value k' → k'.regs .a0 = value
  saved : ∀ {k k' : UserState} {value : BitVec 64}, code k value k' → stack ≤ (k.regs .sp).toNat →
    ∀ r, callerSaved r = false → k'.regs r = k.regs r
  mem : ∀ {k k' : UserState} {value : BitVec 64}, code k value k' → stack ≤ (k.regs .sp).toNat →
    ∀ a : BitVec 64, (k.regs .sp).toNat ≤ a.toNat → k'.mem a = k.mem a

/-- Both compiled handlers and the stack that each needs. -/
structure Compiled where
  s : SCode
  sStack : Nat
  sAbi : s.Abi sStack
  m : MCode
  mStack : Nat
  mAbi : m.Abi mStack

/-- The interrupts of the suite, and an `ecall` of the SBI. -/
inductive Trap where
  | mTimer
  | mSoft
  | sTimer
  | sSoft
  | ecall
deriving DecidableEq, Repr

def Trap.isMachine : Trap → Bool
  | .mTimer | .mSoft | .ecall => true
  | .sTimer | .sSoft => false

/-- The trap may be taken now. Whether an interrupt is pending is up to the devices. -/
def Trap.Taken (h : Hart) : Trap → Prop
  | .mTimer | .mSoft => h.mode ≠ .M ∨ h.csrs.mstatus.getLsbD MIE = true
  | .sTimer | .sSoft => h.mode = .U ∨ h.mode = .S ∧ h.csrs.mstatus.getLsbD SIE = true
  | .ecall => h.mode = .S ∧ IsSbi (h.regs .a7)

def Trap.cause : Trap → BitVec 64
  | .mTimer => interruptCause IRQ_M_TIMER
  | .mSoft => interruptCause IRQ_M_SOFT
  | .sTimer => interruptCause IRQ_S_TIMER
  | .sSoft => interruptCause IRQ_S_SOFT
  | .ecall => CAUSE_ECALL_SMODE

def Trap.enter (h : Hart) (t : Trap) : Hart :=
  if t.isMachine then h.trapToM t.cause 0 else h.trapToS t.cause 0

def Trap.vector (t : Trap) : List Instr := if t.isMachine then mTrapVector else sTrapVector

/-- Where the interrupted code goes on. -/
def Trap.resumeAt (pc : BitVec 64) : Trap → BitVec 64
  | .ecall => pc + 4
  | _ => pc

/-- A call of `s_trap_handler` with the effects still to come, up to its return. Traps are
taken between its instructions, and its `ecall` traps. -/
inductive HandlerRun (c : Compiled) (sink : Sink) (traps : Trap → Hart → Hart → Prop)
    (frame ra : BitVec 64) : List SEffect → Hart → Hart → Prop
  | returned {h : Hart} (back : h.pc = ra) : HandlerRun c sink traps frame ra [] h h
  | step {todo : List SEffect} {h h' : Hart} {k : UserState} (stepped : c.s.step h.user k)
      (rest : HandlerRun c sink traps frame ra todo (h.setUser k) h') :
      HandlerRun c sink traps frame ra todo h h'
  | effect {e : SEffect} {todo : List SEffect} {h h₁ h' : Hart} {k : UserState}
      (plain : ∀ a7 a0, e ≠ .ecall a7 a0) (performed : c.s.effect h.user e k)
      (applied : h.applyS sink frame e = some h₁)
      (rest : HandlerRun c sink traps frame ra todo (h₁.setUser k) h') :
      HandlerRun c sink traps frame ra (e :: todo) h h'
  | ecall {a7 a0 : BitVec 64} {todo : List SEffect} {h h₁ h' : Hart} {k : UserState}
      (performed : c.s.effect h.user (.ecall a7 a0) k) (taken : traps .ecall h h₁)
      (rest : HandlerRun c sink traps frame ra todo h₁ h') :
      HandlerRun c sink traps frame ra (.ecall a7 a0 :: todo) h h'
  | preempted {t : Trap} {todo : List SEffect} {h h₁ h' : Hart} (interrupt : t ≠ .ecall)
      (taken : traps t h h₁) (rest : HandlerRun c sink traps frame ra todo h₁ h') :
      HandlerRun c sink traps frame ra todo h h'

/-- An instruction of a vector that neither calls nor returns. -/
def Instr.plain : Instr → Bool
  | .callM | .callS | .mret | .sret => false
  | _ => true

/-- One instruction of a vector. The next one stands at some address, behind a call of
`s_trap_handler` outside its code. -/
inductive Executes (c : Compiled) (sink : Sink) (traps : Trap → Hart → Hart → Prop) :
    Instr → Hart → Hart → Prop
  | plain {i : Instr} {h h₁ : Hart} (env : Surroundings) (pc : BitVec 64)
      (simple : i.plain = true) (executed : exec sink env h i = some h₁) :
      Executes c sink traps i h { h₁ with pc }
  | callM {h : Hart} {effects : List MEffect} {result : BitVec 64} {k : UserState}
      (handled : mTrapHandler (h.mContext sink) (h.regs .a0) (h.regs .a1) (h.regs .a2)
        (fun i => h.mem (frameWord (h.regs .a3) i)) = (effects, some result))
      (called : c.m h.user result k) :
      Executes c sink traps .callM h ((effects.foldl Hart.applyM h).setUser k)
  | callS {h h' : Hart} (ra : BitVec 64) (outside : ¬ c.s.inside ra)
      (run : HandlerRun c sink traps (h.regs .a3) ra
        (sTrapHandler h.sContext (h.regs .a0) (h.regs .a1) (h.regs .a2))
        ({ h with pc := c.s.entry }.setReg .ra ra) h') :
      Executes c sink traps .callS h h'
  | mret (h : Hart) : Executes c sink traps .mret h h.mret
  | sret (h : Hart) : Executes c sink traps .sret h h.sret

/-- An interrupt at an instruction boundary. -/
def Interrupted (traps : Trap → Hart → Hart → Prop) (h h' : Hart) : Prop :=
  ∃ t ≠ Trap.ecall, traps t h h'

/-- A trap from its entry to its return, with the traps that interrupt it. -/
def TrapBody (c : Compiled) (sink : Sink) (traps : Trap → Hart → Hart → Prop) (t : Trap)
    (h h' : Hart) : Prop :=
  t.Taken h ∧ Runs (Interrupted traps) (Executes c sink traps) t.vector (t.enter h) h'

/-- A trap in which traps nest at most so deep. -/
def TrapRun (c : Compiled) (sink : Sink) : Nat → Trap → Hart → Hart → Prop :=
  Nested (TrapBody c sink)

/-- The stack below the interrupted program: the frames of the vectors that may be on it
at once, and what the handlers need. -/
def Trap.room (c : Compiled) (t : Trap) : Nat :=
  let machine := 128 + c.mStack
  if t.isMachine then machine else 256 + c.sStack + machine

end ZephyrRiscv
