import ZephyrRiscv.FixAndRetry
import ZephyrRiscv.InterruptAccounts
import ZephyrRiscv.TestRuns

set_option autoImplicit false

/- The interrupt test P2 (tests/p2_interrupts.c), statement by statement, on a hart whose clock
runs on its own and whose M-mode interrupts come at any time after they are pending. There are no
external interrupts. -/
namespace ZephyrRiscv.P2

open Verdict PageFaults Pt TestRuns

/-- The local variables of `test_main`, and `pt_pool_next_page`. -/
structure Vars where
  timeout : BitVec 32
  now : BitVec 64
  sip : BitVec 64
  val : BitVec 64
  root : BitVec 64
  ptPoolNextPage : Nat
deriving DecidableEq, Repr

structure State where
  core : Core
  mtime : BitVec 64
  vars : Vars

/-- The build and the hart that the test runs on. `wfi` may be implemented as a `nop`, and the A
and D bits may be left to software. -/
structure Platform where
  sink : Sink
  pool : Pool
  wfiNop : Bool
  svade : Bool

/-- The condition of a loop that waits for a counter. -/
inductive Wait where
  | zero (counter : Counter)
  | below (counter : Counter) (expected : BitVec 32)
deriving DecidableEq, Repr

def Wait.holds (g : TrapState) : Wait → Bool
  | .zero counter => g.value counter = 0
  | .below counter expected => (g.value counter).slt expected

/-- A statement, or a call that interrupts do not divide. -/
inductive Stmt where
  | setCount (counter : Counter) (value : BitVec 32)
  | setHandlerAction (value : BitVec 32)
  | csrsSie (bits : BitVec 64)
  | writeSie (bits : BitVec 64)
  | enableSInterrupts
  | disableSInterrupts
  | readMtime
  | sbiSetTimer (delta : BitVec 64)
  | sbiSendIpi (target : BitVec 64)
  | setTimeout (value : BitVec 32)
  | poll (wait : Wait)
  | delay (n : Nat)
  | wfi
  | readSip
  | ptReset
  | ptSetupIdentityKernel
  | mmuEnableSv39
  | ptMapPage (va pa perm : BitVec 64) (valid : Bool)
  | writeSatp (value : BitVec 64)
  | sfenceVma
  | load (va : BitVec 64)
  | store (va value : BitVec 64)
  | assertTimeout (code : Nat)
  | assertCount (counter : Counter) (value : BitVec 32) (code : Nat)
  | assertLastIrqCause (value : BitVec 64) (code : Nat)
  | assertSip (bits : BitVec 64) (code : Nat)
  | assertFault (code : Nat)
  | assertVal (value : BitVec 64) (code : Nat)
deriving DecidableEq, Repr

def SIP_SSIP : BitVec 64 := MIP_SSIP
def SIP_STIP : BitVec 64 := MIP_STIP

/-- `sie` shows the delegated bits of `mie`. -/
def csrsSie (h : Hart) (bits : BitVec 64) : Hart :=
  { h with csrs := { h.csrs with mie := h.csrs.mie ||| (bits &&& h.csrs.mideleg) } }

def writeSie (h : Hart) (bits : BitVec 64) : Hart :=
  { h with csrs := { h.csrs with
      mie := (h.csrs.mie &&& ~~~h.csrs.mideleg) ||| (bits &&& h.csrs.mideleg) } }

/-- `sip` shows the delegated bits of `mip`. -/
def readSip (h : Hart) : BitVec 64 := h.mip &&& h.csrs.mideleg

def setCount (g : TrapState) (counter : Counter) (value : BitVec 32) : TrapState :=
  match counter with
  | .fault => { g with faultCount := value }
  | .irq => { g with irqCount := value }
  | .timerIrq => { g with timerIrqCount := value }
  | .softIrq => { g with softIrqCount := value }

/-- The bits of `mstatus` that an access asks for. -/
def status (p : Platform) (h : Hart) : Status where
  sum := h.csrs.mstatus.getLsbD 18
  mxr := h.csrs.mstatus.getLsbD 19
  svade := p.svade

/-- The physical address of an access. Without Sv39 it is the address itself. -/
def translate (p : Platform) (h : Hart) (kind : AccessKind) (va : BitVec 64) : Option Nat :=
  if h.csrs.satp >>> 60 = SATP_MODE_SV39 then access h.mem h.csrs.satp (status p h) kind va
  else some va.toNat

/-- The doubleword at a physical address. -/
def doubleword (pa : Nat) : BitVec 64 := BitVec.ofNat 64 (pa / 8 * 8)

/-- A page fault is delegated to S-mode. -/
def pageFault (h : Hart) (kind : AccessKind) (va : BitVec 64) : Core :=
  let hart := h.trapToS kind.cause va
  { hart
    handler := some (sTrapHandler hart.sContext hart.csrs.scause hart.csrs.stval hart.csrs.sepc) }

/-- The M-mode timer interrupt is pending and enabled. -/
def timerPends (s : State) : Bool :=
  s.core.hart.lines.mtie && decide (s.core.hart.lines.mtimecmp ≤ s.mtime)

/-- So is the M-mode software interrupt. -/
def softPends (s : State) : Bool :=
  s.core.hart.lines.msie && s.core.hart.lines.msip.getLsbD 0

def State.withHart (s : State) (hart : Hart) : State :=
  { s with core := { s.core with hart } }

/-- An interrupt of S-mode is pending and enabled. -/
def wakes (h : Hart) (i : Nat) : Bool := h.mip.getLsbD i && h.csrs.mie.getLsbD i

/-- `wfi` waits for an interrupt that is pending and enabled, whatever SIE is. One of M-mode is
taken at once. -/
def wfi (p : Platform) (s : State) : Outcome State Nat :=
  if p.wfiNop then .next s
  else if softPends s then .next (s.withHart (s.core.hart.mInterrupt p.sink IRQ_M_SOFT))
  else if timerPends s then .next (s.withHart (s.core.hart.mInterrupt p.sink IRQ_M_TIMER))
  else if wakes s.core.hart SSI || wakes s.core.hart STI then .next s
  else .again s

/-- An access that faults is tried again after the handler. -/
def accessing (p : Platform) (s : State) (kind : AccessKind) (va : BitVec 64)
    (done : Nat → State) : Outcome State Nat :=
  match translate p s.core.hart kind va with
  | some pa => .next (done pa)
  | none => .again { s with core := pageFault s.core.hart kind va }

def check (s : State) (condition : Bool) (code : Nat) : Outcome State Nat :=
  if condition then .next s else .fail code

/-- What a statement does when no trap comes first. -/
def perform (p : Platform) (s : State) : Stmt → Outcome State Nat
  | .setCount counter value =>
      .next (s.withHart { s.core.hart with trap := setCount s.core.hart.trap counter value })
  | .setHandlerAction value =>
      .next (s.withHart { s.core.hart with
        trap := { s.core.hart.trap with handlerAction := value } })
  | .csrsSie bits => .next (s.withHart (csrsSie s.core.hart bits))
  | .writeSie bits => .next (s.withHart (writeSie s.core.hart bits))
  | .enableSInterrupts => .next (s.withHart (s.core.hart.writeSstatusSie true))
  | .disableSInterrupts => .next (s.withHart (s.core.hart.writeSstatusSie false))
  | .readMtime => .next { s with vars := { s.vars with now := s.mtime } }
  | .sbiSetTimer delta =>
      .next (s.withHart (s.core.hart.sbi p.sink SBI_SET_TIMER (s.vars.now + delta)))
  | .sbiSendIpi target => .next (s.withHart (s.core.hart.sbi p.sink SBI_SEND_IPI target))
  | .setTimeout value => .next { s with vars := { s.vars with timeout := value } }
  | .poll wait =>
      if wait.holds s.core.hart.trap then
        let timeout := s.vars.timeout - 1
        let s := { s with vars := { s.vars with timeout } }
        if 0 < timeout.toInt then .again s else .next s
      else .next s
  | .delay _ => .next s
  | .wfi => wfi p s
  | .readSip => .next { s with vars := { s.vars with sip := readSip s.core.hart } }
  | .ptReset => .next { s with vars := { s.vars with ptPoolNextPage := 0 } }
  | .ptSetupIdentityKernel =>
      let built := Pt.ptSetupIdentityKernel p.pool ⟨s.core.hart.mem, s.vars.ptPoolNextPage⟩
      .next { s.withHart { s.core.hart with mem := built.2.mem } with
        vars := { s.vars with root := built.1, ptPoolNextPage := built.2.ptPoolNextPage } }
  | .mmuEnableSv39 =>
      .next (s.withHart { s.core.hart with
        csrs := { s.core.hart.csrs with satp := Pt.mmuEnableSv39 s.vars.root } })
  | .ptMapPage va pa perm valid =>
      let mapped := Pt.ptMapPage p.pool s.vars.root va pa perm valid
        ⟨s.core.hart.mem, s.vars.ptPoolNextPage⟩
      .next { s.withHart { s.core.hart with mem := mapped.mem } with
        vars := { s.vars with ptPoolNextPage := mapped.ptPoolNextPage } }
  | .writeSatp value =>
      .next (s.withHart { s.core.hart with csrs := { s.core.hart.csrs with satp := value } })
  | .sfenceVma => .next s
  | .load va =>
      accessing p s .load va fun pa =>
        { s with vars := { s.vars with val := s.core.hart.mem (doubleword pa) } }
  | .store va value =>
      accessing p s .store va fun pa =>
        s.withHart { s.core.hart with mem := s.core.hart.mem.store (doubleword pa) value }
  | .assertTimeout code => check s (0 < s.vars.timeout.toInt) code
  | .assertCount counter value code => check s (s.core.hart.trap.value counter = value) code
  | .assertLastIrqCause value code => check s (s.core.hart.trap.lastIrqCause = value) code
  | .assertSip bits code => check s (s.vars.sip &&& bits ≠ 0) code
  | .assertFault code => check s (1 ≤ s.core.hart.trap.faultCount.toInt) code
  | .assertVal value code => check s (s.vars.val = value) code

/-- A trap of S-mode comes before the statement: the handler goes on, or an interrupt is taken.
The bits of `sip`, `sie` and SIE change by CSR writes only, and then the hart looks at once. -/
def trapStep (p : Platform) (s : State) : Option (Outcome State Nat) :=
  match s.core.handler with
  | some (.testFail code :: _) => some (.fail code.toNat)
  | some _ => (s.core.handlerStep p.sink).map fun core => .again { s with core }
  | none =>
      if s.core.hart.takesS SSI then
        (s.core.sInterrupt IRQ_S_SOFT).map fun core => .again { s with core }
      else if s.core.hart.takesS STI then
        (s.core.sInterrupt IRQ_S_TIMER).map fun core => .again { s with core }
      else none

def exec (p : Platform) (stmt : Stmt) (s : State) : Option (Outcome State Nat) :=
  (trapStep p s).or (some (perform p s stmt))

/-- The clock goes on, or a pending interrupt of M-mode is taken. -/
inductive Action where
  | advance (ticks : Nat)
  | mTimer
  | mSoft
deriving DecidableEq, Repr

def env (p : Platform) (s : State) : Action → Option State
  | .advance ticks =>
      if s.mtime.toNat + ticks < 2 ^ 64 - 1 then
        some { s with mtime := s.mtime + BitVec.ofNat 64 ticks }
      else none
  | .mTimer =>
      if timerPends s then some (s.withHart (s.core.hart.mInterrupt p.sink IRQ_M_TIMER)) else none
  | .mSoft =>
      if softPends s then some (s.withHart (s.core.hart.mInterrupt p.sink IRQ_M_SOFT)) else none

def machine (p : Platform) : Machine State Stmt Nat Action where
  exec := exec p
  env := env p

/-- P2.1: a timer interrupt by the SBI. -/
def timerInterrupt : List Stmt :=
  [.setCount .fault 0, .setCount .irq 0, .setCount .timerIrq 0, .csrsSie SIP_STIP,
    .enableSInterrupts, .readMtime, .sbiSetTimer 1000, .setTimeout 1000000,
    .poll (.zero .timerIrq), .disableSInterrupts, .assertTimeout 600,
    .assertCount .timerIrq 1 601, .assertLastIrqCause (interruptCause IRQ_S_TIMER) 602]

/-- P2.2: a software interrupt by an IPI to itself. -/
def softwareInterrupt : List Stmt :=
  [.setCount .irq 0, .setCount .softIrq 0, .csrsSie SIP_SSIP, .enableSInterrupts,
    .sbiSendIpi 0, .setTimeout 100000, .poll (.zero .softIrq), .disableSInterrupts,
    .assertTimeout 610, .assertCount .softIrq 1 611,
    .assertLastIrqCause (interruptCause IRQ_S_SOFT) 612]

/-- A round of the loop of P2.3. -/
def timerRound (i : Nat) : List Stmt :=
  [.readMtime, .sbiSetTimer 500, .setTimeout 500000,
    .poll (.below .timerIrq (BitVec.ofNat 32 (i + 1))), .assertTimeout (620 + i)]

/-- P2.3: one timer interrupt after another. -/
def timerInterrupts : List Stmt :=
  [.setCount .timerIrq 0, .csrsSie SIP_STIP, .enableSInterrupts] ++
    (List.range 3).flatMap timerRound ++ [.disableSInterrupts, .assertCount .timerIrq 3 625]

/-- The page of P2.4. -/
def faultVa : BitVec 64 := 0xD0400000
def faultPa : BitVec 64 := SRAM_BASE + 0x1E0000
def faultWord : BitVec 64 := 0xDEAD0004

/-- P2.4: a timer interrupt around the handling of a page fault. -/
def timerAndFault : List Stmt :=
  [.ptReset, .ptSetupIdentityKernel, .mmuEnableSv39, .setHandlerAction 0, .setCount .fault 0,
    .setCount .timerIrq 0, .store faultPa faultWord,
    .ptMapPage faultVa faultPa (Sv39.PTE_R ||| Sv39.PTE_W) false, .sfenceVma,
    .csrsSie SIP_STIP, .enableSInterrupts, .readMtime, .sbiSetTimer 200, .load faultVa,
    .delay 10000, .disableSInterrupts, .assertFault 630, .assertVal faultWord 631,
    .writeSatp 0, .sfenceVma]

/-- P2.5: SIE holds an interrupt back. -/
def sieMasks : List Stmt :=
  [.setCount .softIrq 0, .csrsSie SIP_SSIP, .disableSInterrupts, .sbiSendIpi 0, .delay 10000,
    .assertCount .softIrq 0 640, .enableSInterrupts, .delay 3, .setTimeout 100000,
    .poll (.zero .softIrq), .disableSInterrupts, .assertCount .softIrq 1 641]

/-- P2.6: STIE holds the timer back. -/
def stieMasks : List Stmt :=
  [.setCount .timerIrq 0, .writeSie SIP_SSIP, .enableSInterrupts, .readMtime, .sbiSetTimer 100,
    .delay 50000, .assertCount .timerIrq 0 650, .readSip, .assertSip SIP_STIP 651,
    .csrsSie SIP_STIP, .delay 2, .setTimeout 100000, .poll (.zero .timerIrq),
    .disableSInterrupts, .assertCount .timerIrq 1 652]

/-- P2.7: `wfi` ends with SIE clear. -/
def wfiWakes : List Stmt :=
  [.setCount .timerIrq 0, .csrsSie SIP_STIP, .disableSInterrupts, .readMtime, .sbiSetTimer 500,
    .wfi, .readSip, .assertSip SIP_STIP 660, .assertCount .timerIrq 0 661, .enableSInterrupts,
    .delay 1, .disableSInterrupts, .assertCount .timerIrq 1 662]

def testMain : List Stmt :=
  timerInterrupt ++ softwareInterrupt ++ timerInterrupts ++ timerAndFault ++ sieMasks ++
    stieMasks ++ wfiWakes

/-- Hart 0 where `test_main` begins, as the port boots it: MSIE is set and MTIE clear, and no
interrupt is pending. The suite's own boot.S sets MTIE too, so that a CLINT with `mtimecmp` at zero
forwards a timer interrupt that nobody asked for. -/
structure AtBoot (s : State) : Prop where
  handler : s.core.handler = none
  mhartid : s.core.hart.csrs.mhartid = 0
  softDelegated : s.core.hart.csrs.mideleg.getLsbD SSI = true
  timerDelegated : s.core.hart.csrs.mideleg.getLsbD STI = true
  machineOnly : ∀ i, i = MSI ∨ i = MTI → s.core.hart.csrs.mideleg.getLsbD i = false
  msie : s.core.hart.lines.msie = true
  mtie : s.core.hart.lines.mtie = false
  msip : s.core.hart.lines.msip = 0
  ssip : s.core.hart.lines.ssip = false
  stip : s.core.hart.lines.stip = false
  mtime : s.mtime.toNat < 2 ^ 64 - 1
  timerIrqCount : s.core.hart.trap.timerIrqCount = 0
  softIrqCount : s.core.hart.trap.softIrqCount = 0

end ZephyrRiscv.P2
