import ZephyrRiscv.Sv39
import ZephyrRiscv.Verdict

set_option autoImplicit false

namespace ZephyrRiscv

open Sv39 Verdict

def CAUSE_ILLEGAL_INST : BitVec 64 := 2
def CAUSE_ECALL_SMODE : BitVec 64 := 9
def CAUSE_INST_PAGE_FAULT : BitVec 64 := 12
def CAUSE_LOAD_PAGE_FAULT : BitVec 64 := 13
def CAUSE_STORE_PAGE_FAULT : BitVec 64 := 15

def IRQ_S_SOFT : BitVec 64 := 1
def IRQ_M_SOFT : BitVec 64 := 3
def IRQ_S_TIMER : BitVec 64 := 5
def IRQ_M_TIMER : BitVec 64 := 7
def IRQ_S_EXT : BitVec 64 := 9

/-- The cause of an interrupt. -/
def interruptCause (irq : BitVec 64) : BitVec 64 := 0x8000000000000000 ||| irq

def MSTATUS_SPP : BitVec 64 := 0x100

def MIP_SSIP : BitVec 64 := 0x002
def MIP_STIP : BitVec 64 := 0x020
def MIP_MTIP : BitVec 64 := 0x080

def SBI_SET_TIMER : BitVec 64 := 0
def SBI_SEND_IPI : BitVec 64 := 1
def SBI_CLEAR_IPI : BitVec 64 := 2

def NUM_HARTS : BitVec 64 := 2

/-- An effect of `m_trap_handler`: a CSR write, a CLINT store, or a store to the host
or to the record of a panic. -/
inductive MEffect where
  | csrsMip (bits : BitVec 64)
  | csrcMip (bits : BitVec 64)
  | csrsMie (bits : BitVec 64)
  | csrcMie (bits : BitVec 64)
  | mtimecmp (hart value : BitVec 64)
  | msip (hart : BitVec 64) (value : BitVec 32)
  | csrwScause (value : BitVec 64)
  | csrwSepc (value : BitVec 64)
  | csrwStval (value : BitVec 64)
  | csrwMstatus (value : BitVec 64)
  | trapInfo (mcause mepc mtval : BitVec 64)
  | out (events : List Event)
deriving DecidableEq, Repr

/-- The CSRs that `m_trap_handler` reads besides its arguments. -/
structure MContext where
  sink : Sink
  mhartid : BitVec 64
  stvec : BitVec 64
  mstatus : BitVec 64

/-- The effects in order and the return value, which becomes `mepc`. A panic never returns. -/
def mTrapHandler (ctx : MContext) (mcause mepc mtval : BitVec 64) (frame : Nat → BitVec 64) :
    List MEffect × Option (BitVec 64) :=
  let causeCode := mcause &&& 0x7FFFFFFFFFFFFFFF
  let panic : List MEffect × Option (BitVec 64) :=
    ([.trapInfo mcause mepc mtval, .out (failVerdict ctx.sink (500#32 + causeCode.setWidth 32))],
      none)
  if mcause.getLsbD 63 then
    if causeCode = IRQ_M_TIMER then
      ([.csrcMie MIP_MTIP, .mtimecmp ctx.mhartid 0xFFFFFFFFFFFFFFFF, .csrsMip MIP_STIP], some mepc)
    else if causeCode = IRQ_M_SOFT then
      ([.msip ctx.mhartid 0, .csrsMip MIP_SSIP], some mepc)
    else panic
  else if causeCode = CAUSE_ECALL_SMODE then
    let sbiFunc := frame 11
    let sbiA0 := frame 4
    if sbiFunc = SBI_SET_TIMER then
      ([.mtimecmp ctx.mhartid sbiA0, .csrcMip MIP_STIP, .csrsMie MIP_MTIP], some (mepc + 4))
    else if sbiFunc = SBI_SEND_IPI then
      (if sbiA0 < NUM_HARTS then [.msip sbiA0 1] else [], some (mepc + 4))
    else if sbiFunc = SBI_CLEAR_IPI then
      ([.csrcMip MIP_SSIP], some (mepc + 4))
    else
      ([.csrwScause CAUSE_ECALL_SMODE, .csrwSepc mepc, .csrwStval 0,
        .csrwMstatus (ctx.mstatus ||| MSTATUS_SPP)], some (ctx.stvec &&& ~~~3))
  else panic

/-- `g_trap`. The counters are `int`s. -/
structure TrapState where
  scause : BitVec 64
  stval : BitVec 64
  sepc : BitVec 64
  faultCount : BitVec 32
  handlerAction : BitVec 32
  irqCount : BitVec 32
  timerIrqCount : BitVec 32
  softIrqCount : BitVec 32
  lastIrqCause : BitVec 64
deriving DecidableEq, Repr

/-- The counters of `g_trap`. -/
inductive Counter where
  | fault
  | irq
  | timerIrq
  | softIrq
deriving DecidableEq, Repr

/-- An effect of `s_trap_handler`. A failed test never returns from `test_fail`. -/
inductive SEffect where
  | trapRecord (scause stval sepc : BitVec 64)
  | count (counter : Counter)
  | lastIrqCause (value : BitVec 64)
  | ecall (a7 a0 : BitVec 64)
  | csrcSip (bits : BitVec 64)
  | out (events : List Event)
  | testFail (code : BitVec 32)
  | frameSepc (value : BitVec 64)
  | storePte (address value : BitVec 64)
  | fence
  | sfenceVma (address : BitVec 64)
deriving DecidableEq, Repr

/-- What `s_trap_handler` reads besides its arguments. -/
structure SContext where
  satp : BitVec 64
  mem : Mem
  handlerAction : BitVec 32

/-- The halfword at an even address. -/
def loadHalf (m : Mem) (address : BitVec 64) : BitVec 16 :=
  (m (address &&& ~~~7#64) >>> (8 * (address.toNat % 8))).setWidth 16

/-- `pt_walk`: the address of the entry it stops at, and its level. -/
def ptWalk (m : Mem) (root va : BitVec 64) : BitVec 64 × Nat :=
  let pte2 := slot root (vpn va 2)
  if m pte2 &&& PTE_V ≠ 0#64 ∧ m pte2 &&& (PTE_R ||| PTE_W ||| PTE_X) ≠ 0#64 then (pte2, 2)
  else if m pte2 &&& PTE_V = 0#64 then (pte2, 2)
  else
    let pte1 := slot (pteToPhys (m pte2)) (vpn va 1)
    if m pte1 &&& PTE_V ≠ 0#64 ∧ m pte1 &&& (PTE_R ||| PTE_W ||| PTE_X) ≠ 0#64 then (pte1, 1)
    else if m pte1 &&& PTE_V = 0#64 then (pte1, 1)
    else (slot (pteToPhys (m pte1)) (vpn va 0), 0)

/-- A page fault with `handler_action` 1: the faulting instruction is skipped. -/
def skipFault (ctx : SContext) (causeCode sepc : BitVec 64) : List SEffect :=
  if causeCode = CAUSE_INST_PAGE_FAULT then
    [.out (uartPuts "  [TRAP] ERROR: skip unsupported for ifetch faults\n"), .testFail 201]
  else
    let insnLen : BitVec 64 := if loadHalf ctx.mem sepc &&& 3 = 3 then 4 else 2
    [.frameSepc (sepc + insnLen)]

/-- A page fault otherwise: the entry of the faulting address is made to allow it. -/
def fixFault (ctx : SContext) (causeCode stval : BitVec 64) : List SEffect :=
  let root := (ctx.satp &&& 0x00000FFFFFFFFFFF) <<< 12
  let ptePtr := (ptWalk ctx.mem root stval).1
  if ptePtr = 0 then [.testFail 200]
  else
    let pte := ctx.mem ptePtr
    let fixed := pte ||| PTE_V ||| PTE_A ||| PTE_D |||
      (if causeCode = CAUSE_LOAD_PAGE_FAULT then PTE_R
      else if causeCode = CAUSE_STORE_PAGE_FAULT then PTE_R ||| PTE_W
      else PTE_R ||| PTE_X)
    [.out (uartPuts "  [TRAP] PTE before fix: " ++ uartPutHex pte ++ uartPutc '\n'),
      .storePte ptePtr fixed,
      .out (uartPuts "  [TRAP] PTE after fix:  " ++ uartPutHex fixed ++ uartPutc '\n'),
      .fence, .sfenceVma stval]

def sInterrupt (scause causeCode : BitVec 64) : List SEffect :=
  [.count .irq, .lastIrqCause scause] ++
    if causeCode = IRQ_S_TIMER then
      [.count .timerIrq, .ecall SBI_SET_TIMER 0xFFFFFFFFFFFFFFFF]
    else if causeCode = IRQ_S_SOFT then
      [.count .softIrq, .csrcSip MIP_SSIP]
    else if causeCode = IRQ_S_EXT then []
    else
      [.out (uartPuts "UNEXPECTED S-MODE INTERRUPT: cause=" ++ uartPutHex scause ++ uartPutc '\n'),
        .testFail (100#32 + causeCode.setWidth 32)]

def sException (ctx : SContext) (causeCode stval sepc : BitVec 64) : List SEffect :=
  if causeCode = CAUSE_INST_PAGE_FAULT ∨ causeCode = CAUSE_LOAD_PAGE_FAULT ∨
      causeCode = CAUSE_STORE_PAGE_FAULT then
    .out (uartPuts "  [TRAP] Page fault: cause=" ++ uartPutDec (causeCode.setWidth 32) ++
      uartPuts " stval=" ++ uartPutHex stval ++ uartPuts " sepc=" ++ uartPutHex sepc ++
      uartPutc '\n') ::
      if ctx.handlerAction = 1 then skipFault ctx causeCode sepc
      else fixFault ctx causeCode stval
  else if causeCode = CAUSE_ILLEGAL_INST then
    [.out (uartPuts "  [TRAP] Illegal instruction at sepc=" ++ uartPutHex sepc ++ uartPutc '\n'),
      .testFail 300]
  else if causeCode = CAUSE_ECALL_SMODE then
    [.out (uartPuts "  [TRAP] ecall from S-mode at sepc=" ++ uartPutHex sepc ++ uartPutc '\n'),
      .frameSepc (sepc + 4)]
  else
    [.out (uartPuts "  [TRAP] Unexpected exception: cause=" ++ uartPutDec (causeCode.setWidth 32) ++
      uartPuts " stval=" ++ uartPutHex stval ++ uartPutc '\n'),
      .testFail (400#32 + causeCode.setWidth 32)]

def sTrapHandler (ctx : SContext) (scause stval sepc : BitVec 64) : List SEffect :=
  let causeCode := scause &&& 0x7FFFFFFFFFFFFFFF
  [.trapRecord scause stval sepc, .count .fault] ++
    if scause.getLsbD 63 then sInterrupt scause causeCode
    else sException ctx causeCode stval sepc

end ZephyrRiscv
