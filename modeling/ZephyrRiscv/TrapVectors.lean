import ZephyrRiscv.TrapHandlers

set_option autoImplicit false

/- A hart that takes traps, and the two assembly vectors around the C handlers
(common/baremetal_trap.S). A vector runs under an environment that changes pending
bits and memory outside the frame at every instruction boundary. -/
namespace ZephyrRiscv

open Sv39 Verdict

inductive Reg where
  | ra | sp | gp | tp
  | t0 | t1 | t2 | t3 | t4 | t5 | t6
  | s0 | s1 | s2 | s3 | s4 | s5 | s6 | s7 | s8 | s9 | s10 | s11
  | a0 | a1 | a2 | a3 | a4 | a5 | a6 | a7
deriving DecidableEq, Repr

inductive Mode where
  | U
  | S
  | M
deriving DecidableEq, Repr

structure Csrs where
  mstatus : BitVec 64
  mie : BitVec 64
  mideleg : BitVec 64
  mtvec : BitVec 64
  mhartid : BitVec 64
  mepc : BitVec 64
  mcause : BitVec 64
  mtval : BitVec 64
  stvec : BitVec 64
  sepc : BitVec 64
  scause : BitVec 64
  stval : BitVec 64
  satp : BitVec 64

/-- The CLINT registers, one of each a hart. -/
structure Clint where
  mtimecmp : BitVec 64 → BitVec 64
  msip : BitVec 64 → BitVec 32

structure Hart where
  mode : Mode
  pc : BitVec 64
  regs : Reg → BitVec 64
  csrs : Csrs
  mip : BitVec 64
  mem : Mem
  clint : Clint
  trap : TrapState
  trapInfo : List (BitVec 64)
  out : List Event

def setBit (w : BitVec 64) (i : Nat) (b : Bool) : BitVec 64 :=
  if b then w ||| BitVec.twoPow 64 i else w &&& ~~~BitVec.twoPow 64 i

theorem getLsbD_setBit (w : BitVec 64) {i : Nat} (b : Bool) (j : Nat) (inside : i < 64) :
    (setBit w i b).getLsbD j = if j = i then b else w.getLsbD j := by
  unfold setBit
  cases b <;> simp only [Bool.false_eq_true, ↓reduceIte, BitVec.getLsbD_or, BitVec.getLsbD_and,
    BitVec.getLsbD_not, BitVec.getLsbD_twoPow]
  all_goals
    by_cases same : j = i
    · subst same
      simp [inside]
    · have other : i ≠ j := fun equal => same equal.symm
      by_cases low : j < 64
      · simp [same, other, low]
      · simp [same, other, low, BitVec.getLsbD_of_ge _ _ (Nat.le_of_not_lt low)]

def SIE : Nat := 1
def MIE : Nat := 3
def SPIE : Nat := 5
def MPIE : Nat := 7
def SPP : Nat := 8
def MPP_LOW : Nat := 11
def MPP_HIGH : Nat := 12
def MPRV : Nat := 17

/-- SIE, SPIE, UBE, SPP, VS, FS, XS, SUM, MXR, UXL and SD. -/
def SSTATUS_MASK : BitVec 64 := 0x80000003000DE762

def Hart.sstatus (h : Hart) : BitVec 64 := h.csrs.mstatus &&& SSTATUS_MASK

/-- The base of a trap vector register in direct mode. -/
def vectorBase (tvec : BitVec 64) : BitVec 64 := tvec &&& ~~~3

def Hart.trapToM (h : Hart) (cause tval : BitVec 64) : Hart :=
  let status := setBit (setBit h.csrs.mstatus MPIE (h.csrs.mstatus.getLsbD MIE)) MIE false
  { h with
    mode := .M
    pc := vectorBase h.csrs.mtvec
    csrs := { h.csrs with
      mepc := h.pc
      mcause := cause
      mtval := tval
      mstatus := setBit (setBit status MPP_LOW (h.mode != .U)) MPP_HIGH (h.mode == .M) } }

def Hart.trapToS (h : Hart) (cause tval : BitVec 64) : Hart :=
  let status := setBit (setBit h.csrs.mstatus SPIE (h.csrs.mstatus.getLsbD SIE)) SIE false
  { h with
    mode := .S
    pc := vectorBase h.csrs.stvec
    csrs := { h.csrs with
      sepc := h.pc
      scause := cause
      stval := tval
      mstatus := setBit status SPP (h.mode == .S) } }

/-- The mode in MPP. -/
def mppMode (mstatus : BitVec 64) : Mode :=
  if mstatus.getLsbD MPP_HIGH then .M else if mstatus.getLsbD MPP_LOW then .S else .U

def Hart.mret (h : Hart) : Hart :=
  let mode := mppMode h.csrs.mstatus
  let status := setBit (setBit h.csrs.mstatus MIE (h.csrs.mstatus.getLsbD MPIE)) MPIE true
  let status := setBit (setBit status MPP_LOW false) MPP_HIGH false
  { h with
    mode
    pc := h.csrs.mepc
    csrs := { h.csrs with mstatus := if mode = .M then status else setBit status MPRV false } }

def Hart.sret (h : Hart) : Hart :=
  let status := setBit (setBit h.csrs.mstatus SIE (h.csrs.mstatus.getLsbD SPIE)) SPIE true
  { h with
    mode := if h.csrs.mstatus.getLsbD SPP then .S else .U
    pc := h.csrs.sepc
    csrs := { h.csrs with mstatus := setBit (setBit status SPP false) MPRV false } }

def Hart.applyM (h : Hart) : MEffect → Hart
  | .csrsMip bits => { h with mip := h.mip ||| bits }
  | .csrcMip bits => { h with mip := h.mip &&& ~~~bits }
  | .csrsMie bits => { h with csrs := { h.csrs with mie := h.csrs.mie ||| bits } }
  | .csrcMie bits => { h with csrs := { h.csrs with mie := h.csrs.mie &&& ~~~bits } }
  | .mtimecmp hart value => { h with clint := { h.clint with
      mtimecmp := fun i => if i = hart then value else h.clint.mtimecmp i } }
  | .msip hart value => { h with clint := { h.clint with
      msip := fun i => if i = hart then value else h.clint.msip i } }
  | .csrwScause value => { h with csrs := { h.csrs with scause := value } }
  | .csrwSepc value => { h with csrs := { h.csrs with sepc := value } }
  | .csrwStval value => { h with csrs := { h.csrs with stval := value } }
  | .csrwMstatus value => { h with csrs := { h.csrs with mstatus := value } }
  | .trapInfo mcause mepc mtval => { h with trapInfo := [mcause, mepc, mtval] }
  | .out events => { h with out := h.out ++ events }

def Hart.mContext (h : Hart) (sink : Sink) : MContext where
  sink
  mhartid := h.csrs.mhartid
  stvec := h.csrs.stvec
  mstatus := h.csrs.mstatus

def Hart.sContext (h : Hart) : SContext where
  satp := h.csrs.satp
  mem := h.mem
  handlerAction := h.trap.handlerAction

def TrapState.count (g : TrapState) : Counter → TrapState
  | .fault => { g with faultCount := g.faultCount + 1 }
  | .irq => { g with irqCount := g.irqCount + 1 }
  | .timerIrq => { g with timerIrqCount := g.timerIrqCount + 1 }
  | .softIrq => { g with softIrqCount := g.softIrqCount + 1 }

/-- The doubleword of a frame. -/
def frameWord (frame : BitVec 64) (i : Nat) : BitVec 64 := frame + BitVec.ofNat 64 (8 * i)

/-- The frame of `_m_trap_vector`, as far as the SBI reads it. -/
def sbiFrame (a7 a0 : BitVec 64) (i : Nat) : BitVec 64 :=
  if i = 11 then a7 else if i = 4 then a0 else 0

/-- An SBI call of a hart: M-mode cannot be interrupted, so the handler is one step. -/
def Hart.sbi (sink : Sink) (h : Hart) (a7 a0 : BitVec 64) : Hart :=
  (mTrapHandler (h.mContext sink) CAUSE_ECALL_SMODE h.pc 0 (sbiFrame a7 a0)).1.foldl Hart.applyM h

/-- An effect of `s_trap_handler` with its frame. -/
def Hart.applyS (sink : Sink) (frame : BitVec 64) (h : Hart) : SEffect → Option Hart
  | .trapRecord scause stval sepc => some { h with trap := { h.trap with scause, stval, sepc } }
  | .count counter => some { h with trap := h.trap.count counter }
  | .lastIrqCause value => some { h with trap := { h.trap with lastIrqCause := value } }
  | .ecall a7 a0 => some (h.sbi sink a7 a0)
  | .csrcSip bits => some { h with mip := h.mip &&& ~~~(bits &&& h.csrs.mideleg &&& MIP_SSIP) }
  | .out events => some { h with out := h.out ++ events }
  | .testFail _ => none
  | .frameSepc value => some { h with mem := h.mem.store (frameWord frame 30) value }
  | .storePte address value => some { h with mem := h.mem.store address value }
  | .fence => some h
  | .sfenceVma _ => some h

/-- The registers a C function may change. -/
def callerSaved : Reg → Bool
  | .ra | .t0 | .t1 | .t2 | .t3 | .t4 | .t5 | .t6 => true
  | .a0 | .a1 | .a2 | .a3 | .a4 | .a5 | .a6 | .a7 => true
  | _ => false

/-- What surrounds one instruction: the pending bits and the memory that others leave,
and the values a C function leaves in the registers it may change. -/
structure Surroundings where
  mip : BitVec 64
  mem : Mem
  unknown : Reg → BitVec 64

/-- Others leave the frame, 256 bytes from the stack pointer on, alone. -/
def Hart.disturb (h : Hart) (env : Surroundings) : Hart :=
  { h with
    mip := env.mip
    mem := fun a => if (a - h.regs .sp).toNat < 256 then h.mem a else env.mem a }

def Hart.setReg (h : Hart) (r : Reg) (value : BitVec 64) : Hart :=
  { h with regs := fun q => if q = r then value else h.regs q }

def Hart.clobber (h : Hart) (env : Surroundings) : Hart :=
  { h with regs := fun q => if callerSaved q then env.unknown q else h.regs q }

inductive Csr where
  | mcause
  | mepc
  | mtval
  | scause
  | stval
  | sepc
deriving DecidableEq, Repr

def Csrs.read (c : Csrs) : Csr → BitVec 64
  | .mcause => c.mcause
  | .mepc => c.mepc
  | .mtval => c.mtval
  | .scause => c.scause
  | .stval => c.stval
  | .sepc => c.sepc

def Csrs.write (c : Csrs) (value : BitVec 64) : Csr → Csrs
  | .mcause => { c with mcause := value }
  | .mepc => { c with mepc := value }
  | .mtval => { c with mtval := value }
  | .scause => { c with scause := value }
  | .stval => { c with stval := value }
  | .sepc => { c with sepc := value }

inductive Instr where
  | addiSp (imm : Int)
  | sd (r : Reg) (offset : Nat)
  | ld (r : Reg) (offset : Nat)
  | csrr (r : Reg) (csr : Csr)
  | csrw (csr : Csr) (r : Reg)
  | mv (rd rs : Reg)
  | callM
  | callS
  | mret
  | sret
deriving DecidableEq, Repr

def exec (sink : Sink) (env : Surroundings) (h : Hart) : Instr → Option Hart
  | .addiSp imm => some (h.setReg .sp (h.regs .sp + BitVec.ofInt 64 imm))
  | .sd r offset =>
      some { h with mem := h.mem.store (h.regs .sp + BitVec.ofNat 64 offset) (h.regs r) }
  | .ld r offset => some (h.setReg r (h.mem (h.regs .sp + BitVec.ofNat 64 offset)))
  | .csrr r csr => some (h.setReg r (h.csrs.read csr))
  | .csrw csr r => some { h with csrs := h.csrs.write (h.regs r) csr }
  | .mv rd rs => some (h.setReg rd (h.regs rs))
  | .callM =>
      let call := mTrapHandler (h.mContext sink) (h.regs .a0) (h.regs .a1) (h.regs .a2) fun i =>
        h.mem (frameWord (h.regs .a3) i)
      call.2.map fun result => ((call.1.foldl Hart.applyM h).clobber env).setReg .a0 result
  | .callS =>
      let effects := sTrapHandler h.sContext (h.regs .a0) (h.regs .a1) (h.regs .a2)
      (effects.foldlM (Hart.applyS sink (h.regs .a3)) h).map fun h => h.clobber env
  | .mret => some h.mret
  | .sret => some h.sret

/-- An interrupt that S-mode would take now. -/
def Hart.interrupted (h : Hart) : Bool :=
  h.mode == .S && h.csrs.mstatus.getLsbD SIE && (h.mip &&& h.csrs.mie &&& h.csrs.mideleg != 0)

/-- A vector from its first instruction to its return, unless an S-mode interrupt
takes its place at some boundary. -/
def runVector (sink : Sink) (env : Nat → Surroundings) : Nat → List Instr → Hart → Option Hart
  | _, [], h => some h
  | n, i :: rest, h =>
      if (h.disturb (env n)).interrupted then none
      else (exec sink (env n) (h.disturb (env n)) i).bind (runVector sink env (n + 1) rest)

def mSaves : List (Reg × Nat) :=
  [(.ra, 0), (.t0, 8), (.t1, 16), (.t2, 24), (.a0, 32), (.a1, 40), (.a2, 48), (.a3, 56),
    (.a4, 64), (.a5, 72), (.a6, 80), (.a7, 88), (.t3, 96), (.t4, 104), (.t5, 112), (.t6, 120)]

def sSaves : List (Reg × Nat) :=
  [(.ra, 0), (.gp, 8), (.tp, 16), (.t0, 24), (.t1, 32), (.t2, 40), (.s0, 48), (.s1, 56),
    (.a0, 64), (.a1, 72), (.a2, 80), (.a3, 88), (.a4, 96), (.a5, 104), (.a6, 112), (.a7, 120),
    (.s2, 128), (.s3, 136), (.s4, 144), (.s5, 152), (.s6, 160), (.s7, 168), (.s8, 176),
    (.s9, 184), (.s10, 192), (.s11, 200), (.t3, 208), (.t4, 216), (.t5, 224), (.t6, 232)]

def stores (saves : List (Reg × Nat)) : List Instr := saves.map fun s => .sd s.1 s.2
def loads (saves : List (Reg × Nat)) : List Instr := saves.map fun s => .ld s.1 s.2

def mCall : List Instr :=
  [.csrr .a0 .mcause, .csrr .a1 .mepc, .csrr .a2 .mtval, .mv .a3 .sp, .callM, .csrw .mepc .a0]

def sCall : List Instr :=
  [.csrr .t0 .sepc, .sd .t0 240, .csrr .a0 .scause, .csrr .a1 .stval, .csrr .a2 .sepc,
    .mv .a3 .sp, .callS, .ld .t0 240, .csrw .sepc .t0]

/-- `_m_trap_vector`. -/
def mTrapVector : List Instr :=
  [.addiSp (-128)] ++ stores mSaves ++ mCall ++ loads mSaves ++ [.addiSp 128, .mret]

/-- `_s_trap_vector`. -/
def sTrapVector : List Instr :=
  [.addiSp (-256)] ++ stores sSaves ++ sCall ++ loads sSaves ++ [.addiSp 256, .sret]

/-- A hart in S-mode at the `ecall` of P0.3, with some `mstatus` and `mie`. -/
def sModeHart (mhartid mstatus mie : BitVec 64) : Hart where
  mode := .S
  pc := 0x80003000
  regs r := if r = .a7 then 0xFF else if r = .sp then 0x80010000 else 0
  csrs := {
    mstatus, mie, mideleg := 0x222, mtvec := 0x80000100, mhartid, mepc := 0,
    mcause := 0, mtval := 0, stvec := 0x80000200, sepc := 0, scause := 0, stval := 0, satp := 0 }
  mip := 0
  mem _ := 0
  clint := { mtimecmp := fun _ => 0, msip := fun _ => 0 }
  trap := ⟨0, 0, 0, 0, 0, 0, 0, 0, 0⟩
  trapInfo := []
  out := []

theorem Hart.setReg_same (h : Hart) (r : Reg) (value : BitVec 64) :
    (h.setReg r value).regs r = value := by
  simp only [Hart.setReg, ↓reduceIte]

theorem Hart.setReg_other (h : Hart) (r q : Reg) (value : BitVec 64) (other : q ≠ r) :
    (h.setReg r value).regs q = h.regs q := by
  simp only [Hart.setReg, other, ↓reduceIte]

/-- S-mode interrupts are off. -/
def Hart.Masked (h : Hart) : Prop := h.mode ≠ .S ∨ h.csrs.mstatus.getLsbD SIE = false

theorem Hart.Masked.not_interrupted {h : Hart} (masked : h.Masked) (env : Surroundings) :
    (h.disturb env).interrupted = false := by
  unfold Hart.interrupted Hart.disturb
  rcases masked with mode | off
  · cases mode' : h.mode with
    | S => exact absurd mode' mode
    | U => rfl
    | M => rfl
  · simp only [off, Bool.and_false, Bool.false_and]

theorem Hart.masked_of_machine {h : Hart} (mode : h.mode = .M) : h.Masked :=
  Or.inl (by rw [mode]; decide)

theorem runVector_cons {sink : Sink} {env : Nat → Surroundings} {n : Nat} {i : Instr}
    {rest : List Instr} {h : Hart} (masked : h.Masked) :
    runVector sink env n (i :: rest) h =
      (exec sink (env n) (h.disturb (env n)) i).bind (runVector sink env (n + 1) rest) := by
  rw [runVector, masked.not_interrupted]
  rfl

theorem runVector_single {sink : Sink} {env : Nat → Surroundings} {n : Nat} {i : Instr}
    {h : Hart} (masked : h.Masked) :
    runVector sink env n [i] h = exec sink (env n) (h.disturb (env n)) i := by
  rw [runVector_cons masked]
  exact Option.bind_fun_some _

theorem runVector_append (sink : Sink) (env : Nat → Surroundings) (first second : List Instr)
    (n : Nat) (h : Hart) :
    runVector sink env n (first ++ second) h =
      (runVector sink env n first h).bind (runVector sink env (n + first.length) second) := by
  induction first generalizing n h with
  | nil => rfl
  | cons i first ih =>
      simp only [List.cons_append, runVector]
      split
      · rfl
      · rw [Option.bind_assoc]
        congr 1
        funext h'
        rw [ih, List.length_cons, Nat.add_right_comm, Nat.add_assoc]

theorem offset_injective (sp : BitVec 64) {offset offset' : Nat} (inside : offset < 256)
    (inside' : offset' < 256)
    (same : sp + BitVec.ofNat 64 offset = sp + BitVec.ofNat 64 offset') : offset = offset' := by
  have equal := congrArg BitVec.toNat same
  rw [BitVec.toNat_add, BitVec.toNat_add, BitVec.toNat_ofNat, BitVec.toNat_ofNat] at equal
  omega

/-- What a stretch of a vector leaves: some registers, pending bits and memory. -/
def Hart.with (h : Hart) (regs : Reg → BitVec 64) (mip : BitVec 64) (mem : Mem) : Hart :=
  { h with regs, mip, mem }

theorem Hart.Masked.with {h : Hart} (masked : h.Masked) (regs : Reg → BitVec 64)
    (mip : BitVec 64) (mem : Mem) : (h.with regs mip mem).Masked :=
  masked

@[simp] theorem Hart.with_mode (h : Hart) (regs : Reg → BitVec 64) (mip : BitVec 64) (mem : Mem) :
    (h.with regs mip mem).mode = h.mode := rfl
@[simp] theorem Hart.with_csrs (h : Hart) (regs : Reg → BitVec 64) (mip : BitVec 64) (mem : Mem) :
    (h.with regs mip mem).csrs = h.csrs := rfl
@[simp] theorem Hart.with_regs (h : Hart) (regs : Reg → BitVec 64) (mip : BitVec 64) (mem : Mem) :
    (h.with regs mip mem).regs = regs := rfl
@[simp] theorem Hart.with_mem (h : Hart) (regs : Reg → BitVec 64) (mip : BitVec 64) (mem : Mem) :
    (h.with regs mip mem).mem = mem := rfl
@[simp] theorem Hart.with_with (h : Hart) (regs regs' : Reg → BitVec 64) (mip mip' : BitVec 64)
    (mem mem' : Mem) : (h.with regs mip mem).with regs' mip' mem' = h.with regs' mip' mem' := rfl

/-- The memory that others leave around a frame. -/
def Surroundings.around (env : Surroundings) (sp : BitVec 64) (mem : Mem) : Mem :=
  fun a => if (a - sp).toNat < 256 then mem a else env.mem a

/-- Two memories with the same frame. -/
def SameFrame (sp : BitVec 64) (m m' : Mem) : Prop :=
  ∀ offset, offset < 256 → m' (sp + BitVec.ofNat 64 offset) = m (sp + BitVec.ofNat 64 offset)

theorem SameFrame.trans {sp : BitVec 64} {m m' m'' : Mem} (first : SameFrame sp m m')
    (second : SameFrame sp m' m'') : SameFrame sp m m'' :=
  fun offset inside => (second offset inside).trans (first offset inside)

theorem Surroundings.around_sameFrame (env : Surroundings) (sp : BitVec 64) (mem : Mem) :
    SameFrame sp mem (env.around sp mem) := by
  intro offset inside
  have distance : (sp + BitVec.ofNat 64 offset - sp).toNat = offset := by
    rw [BitVec.toNat_sub, BitVec.toNat_add, BitVec.toNat_ofNat]
    omega
  simp only [Surroundings.around, distance, inside, ↓reduceIte]

theorem Hart.disturb_with (h : Hart) (env : Surroundings) (regs : Reg → BitVec 64)
    (mip : BitVec 64) (mem : Mem) :
    (h.with regs mip mem).disturb env = h.with regs env.mip (env.around (regs .sp) mem) := rfl

theorem Hart.clobber_with (h : Hart) (env : Surroundings) (regs : Reg → BitVec 64)
    (mip : BitVec 64) (mem : Mem) :
    (h.with regs mip mem).clobber env =
      h.with (fun q => if callerSaved q then env.unknown q else regs q) mip mem := rfl

theorem Hart.setReg_with (h : Hart) (r : Reg) (value : BitVec 64) (regs : Reg → BitVec 64)
    (mip : BitVec 64) (mem : Mem) :
    (h.with regs mip mem).setReg r value =
      h.with (fun q => if q = r then value else regs q) mip mem := rfl

/-- `m_trap_handler` touches no register, memory word or mode. -/
theorem foldl_applyM_with (effects : List MEffect) (h : Hart) (regs : Reg → BitVec 64)
    (mip : BitVec 64) (mem : Mem) :
    ∃ mip', effects.foldl Hart.applyM (h.with regs mip mem) =
      (effects.foldl Hart.applyM h).with regs mip' mem := by
  induction effects generalizing h mip with
  | nil => exact ⟨mip, rfl⟩
  | cons effect effects ih =>
      have one : ∃ mip', (h.with regs mip mem).applyM effect =
          (h.applyM effect).with regs mip' mem := by
        cases effect <;> exact ⟨_, rfl⟩
      rcases one with ⟨mip', same⟩
      rw [List.foldl_cons, List.foldl_cons, same]
      exact ih (h.applyM effect) mip'

theorem foldl_applyM_mode (effects : List MEffect) (h : Hart) :
    (effects.foldl Hart.applyM h).mode = h.mode := by
  induction effects generalizing h with
  | nil => rfl
  | cons effect effects ih =>
      rw [List.foldl_cons, ih]
      cases effect <;> rfl

theorem run_stores (sink : Sink) (env : Nat → Surroundings) (saves : List (Reg × Nat)) (n : Nat)
    (h : Hart) (masked : h.Masked) (inside : ∀ s ∈ saves, s.2 < 256)
    (apart : (saves.map Prod.snd).Nodup) :
    ∃ mip mem, runVector sink env n (stores saves) h = some (h.with h.regs mip mem) ∧
      (∀ s ∈ saves, mem (h.regs .sp + BitVec.ofNat 64 s.2) = h.regs s.1) ∧
      ∀ offset, offset < 256 → offset ∉ saves.map Prod.snd →
        mem (h.regs .sp + BitVec.ofNat 64 offset) =
          h.mem (h.regs .sp + BitVec.ofNat 64 offset) := by
  induction saves generalizing n h with
  | nil => exact ⟨h.mip, h.mem, rfl, by simp, fun _ _ _ => rfl⟩
  | cons s saves ih =>
      simp only [List.map_cons, List.nodup_cons] at apart
      let stored : Hart := h.with h.regs (env n).mip
        ((h.disturb (env n)).mem.store (h.regs .sp + BitVec.ofNat 64 s.2) (h.regs s.1))
      have rest := ih (n + 1) stored masked
        (fun s' member => inside s' (List.mem_cons_of_mem s member)) apart.2
      rcases rest with ⟨mip, mem, ran, saved, kept⟩
      have here := inside s List.mem_cons_self
      have own : mem (h.regs .sp + BitVec.ofNat 64 s.2) = h.regs s.1 :=
        (kept s.2 here apart.1).trans (Mem.store_same ..)
      refine ⟨mip, mem, ?_, ?_, ?_⟩
      · change runVector sink env n (.sd s.1 s.2 :: stores saves) h = _
        rw [runVector_cons masked]
        exact ran
      · intro s' member
        rcases List.mem_cons.mp member with rfl | later
        · exact own
        · exact saved s' later
      · intro offset small absent
        simp only [List.map_cons, List.mem_cons, not_or] at absent
        have other : h.regs .sp + BitVec.ofNat 64 offset ≠ h.regs .sp + BitVec.ofNat 64 s.2 :=
          fun same => absent.1 (offset_injective _ small here same)
        exact (kept offset small absent.2).trans
          ((Mem.store_other _ _ _ _ other).trans ((env n).around_sameFrame _ h.mem _ small))

theorem run_loads (sink : Sink) (env : Nat → Surroundings) (saves : List (Reg × Nat)) (n : Nat)
    (h : Hart) (masked : h.Masked) (inside : ∀ s ∈ saves, s.2 < 256)
    (apart : (saves.map Prod.fst).Nodup) (stack : Reg.sp ∉ saves.map Prod.fst) :
    ∃ regs mip mem, runVector sink env n (loads saves) h = some (h.with regs mip mem) ∧
      SameFrame (h.regs .sp) h.mem mem ∧
      (∀ s ∈ saves, regs s.1 = h.mem (h.regs .sp + BitVec.ofNat 64 s.2)) ∧
      ∀ r, r ∉ saves.map Prod.fst → regs r = h.regs r := by
  induction saves generalizing n h with
  | nil => exact ⟨h.regs, h.mip, h.mem, rfl, fun _ _ => rfl, by simp, fun _ _ => rfl⟩
  | cons s saves ih =>
      simp only [List.map_cons, List.nodup_cons] at apart
      simp only [List.map_cons, List.mem_cons, not_or] at stack
      let loaded : Hart := (h.disturb (env n)).setReg s.1
        ((h.disturb (env n)).mem (h.regs .sp + BitVec.ofNat 64 s.2))
      have sp : loaded.regs .sp = h.regs .sp := Hart.setReg_other _ _ _ _ stack.1
      have rest := ih (n + 1) loaded masked
        (fun s' member => inside s' (List.mem_cons_of_mem s member)) apart.2 stack.2
      rcases rest with ⟨regs, mip, mem, ran, same, restored, kept⟩
      rw [sp] at restored same
      refine ⟨regs, mip, mem, ?_, ((env n).around_sameFrame _ h.mem).trans same, ?_, ?_⟩
      · change runVector sink env n (.ld s.1 s.2 :: loads saves) h = _
        rw [runVector_cons masked]
        exact ran
      · intro s' member
        rcases List.mem_cons.mp member with rfl | later
        · have own : regs s'.1 = loaded.regs s'.1 := kept s'.1 apart.1
          rw [own]
          exact (Hart.setReg_same ..).trans
            ((env n).around_sameFrame _ h.mem _ (inside s' List.mem_cons_self))
        · rw [restored s' later]
          exact (env n).around_sameFrame _ h.mem _ (inside s' (List.mem_cons_of_mem s later))
      · intro r absent
        simp only [List.map_cons, List.mem_cons, not_or] at absent
        exact (kept r absent.2).trans (Hart.setReg_other _ _ _ _ absent.1)

/-- The registers after a move into a register other than the stack pointer. -/
def moveReg (c : Csrs) (regs : Reg → BitVec 64) : Instr → Reg → BitVec 64
  | .csrr r csr => fun q => if q = r then c.read csr else regs q
  | .mv rd rs => fun q => if q = rd then regs rs else regs q
  | _ => regs

def isMove : Instr → Bool
  | .csrr r _ => r != .sp
  | .mv rd _ => rd != .sp
  | _ => false

theorem run_moves (sink : Sink) (env : Nat → Surroundings) (moves : List Instr) (n : Nat)
    (h : Hart) (masked : h.Masked) (all : ∀ i ∈ moves, isMove i = true) :
    ∃ mip mem, runVector sink env n moves h =
        some (h.with (moves.foldl (moveReg h.csrs) h.regs) mip mem) ∧
      SameFrame (h.regs .sp) h.mem mem := by
  induction moves generalizing n h with
  | nil => exact ⟨h.mip, h.mem, rfl, fun _ _ => rfl⟩
  | cons i moves ih =>
      have move := all i List.mem_cons_self
      let moved : Hart := h.with (moveReg h.csrs h.regs i) (env n).mip (h.disturb (env n)).mem
      have executed : exec sink (env n) (h.disturb (env n)) i = some moved := by
        cases i with
        | csrr r csr => rfl
        | mv rd rs => rfl
        | _ => cases move
      have sp : moved.regs .sp = h.regs .sp := by
        cases i with
        | csrr r csr => exact if_neg fun same => by rw [← same] at move; cases move
        | mv rd rs => exact if_neg fun same => by rw [← same] at move; cases move
        | _ => cases move
      rcases ih (n + 1) moved masked fun j member => all j (List.mem_cons_of_mem i member) with
        ⟨mip, mem, ran, same⟩
      rw [sp] at same
      refine ⟨mip, mem, ?_, ((env n).around_sameFrame _ h.mem).trans same⟩
      rw [runVector_cons masked, executed]
      exact ran

/-- A list of saved registers fits the frame and restores what it saved. -/
structure SaveList (saves : List (Reg × Nat)) : Prop where
  inside : ∀ s ∈ saves, s.2 < 256
  offsets : (saves.map Prod.snd).Nodup
  registers : (saves.map Prod.fst).Nodup
  stack : Reg.sp ∉ saves.map Prod.fst

/-- The middle of a vector leaves a hart in `base` but for the pending bits, the memory
outside the saved words and the saved registers. -/
def Calls (sink : Sink) (env : Nat → Surroundings) (saves : List (Reg × Nat))
    (middle : List Instr) (h base : Hart) : Prop :=
  ∀ (n : Nat) (regs : Reg → BitVec 64) (mip : BitVec 64) (mem : Mem),
    (∀ s ∈ saves, mem (regs .sp + BitVec.ofNat 64 s.2) = h.regs s.1) →
    ∃ regs' mip' mem', runVector sink env n middle (h.with regs mip mem) =
        some (base.with regs' mip' mem') ∧ regs' .sp = regs .sp ∧
      (∀ s ∈ saves, mem' (regs .sp + BitVec.ofNat 64 s.2) =
        mem (regs .sp + BitVec.ofNat 64 s.2)) ∧
      ∀ r, r ≠ .sp → r ∉ saves.map Prod.fst → regs' r = regs r

/-- A vector around a call: registers saved, the call, registers restored. -/
theorem run_frame {sink : Sink} {env : Nat → Surroundings} {saves : List (Reg × Nat)}
    (size : Int) {middle : List Instr} (last : Instr) {h base : Hart} (n : Nat)
    (saveList : SaveList saves) (masked : h.Masked) (masked' : base.Masked)
    (calls : Calls sink env saves middle h base) :
    ∃ n' mip mem, runVector sink env n
        ([.addiSp (-size)] ++ stores saves ++ middle ++ loads saves ++ [.addiSp size, last]) h =
      exec sink (env n') (base.with h.regs mip mem) last := by
  rcases saveList with ⟨inside, offsets, registers, stack⟩
  let entered : Hart := (h.disturb (env n)).setReg .sp (h.regs .sp + BitVec.ofInt 64 (-size))
  have others : ∀ r, r ≠ .sp → entered.regs r = h.regs r :=
    fun r apart => Hart.setReg_other _ _ _ _ apart
  let enter : List Instr := [.addiSp (-size)]
  have ranEnter : runVector sink env n enter h = some entered := by
    change runVector sink env n [.addiSp (-size)] h = some entered
    rw [runVector_cons masked]
    rfl
  rcases run_stores sink env saves (n + enter.length) entered masked inside offsets with
    ⟨mip₁, mem₁, stored, saved, -⟩
  have slots : ∀ s ∈ saves, mem₁ (entered.regs .sp + BitVec.ofNat 64 s.2) = h.regs s.1 := by
    intro s member
    rw [saved s member]
    apply others
    intro same
    exact stack (same ▸ List.mem_map_of_mem member)
  rcases calls (n + (enter ++ stores saves).length) entered.regs mip₁ mem₁ slots with
    ⟨regs₂, mip₂, mem₂, ranMiddle, sp₂, kept, untouched⟩
  rcases run_loads sink env saves (n + (enter ++ stores saves ++ middle).length)
      (base.with regs₂ mip₂ mem₂) masked' inside registers stack with
    ⟨regs₃, mip₃, mem₃, loaded, -, restored, unloaded⟩
  change ∀ s ∈ saves, regs₃ s.1 = mem₂ (regs₂ .sp + BitVec.ofNat 64 s.2) at restored
  change ∀ r, r ∉ saves.map Prod.fst → regs₃ r = regs₂ r at unloaded
  let left : Hart := ((base.with regs₃ mip₃ mem₃).disturb
    (env (n + (enter ++ stores saves ++ middle ++ loads saves).length))).setReg .sp
      (regs₃ .sp + BitVec.ofInt 64 size)
  have back : left.regs = h.regs := by
    funext r
    by_cases isStack : r = .sp
    · have lowered : regs₃ .sp = h.regs .sp + BitVec.ofInt 64 (-size) :=
        (unloaded .sp stack).trans sp₂
      have raised : left.regs .sp = regs₃ .sp + BitVec.ofInt 64 size := Hart.setReg_same ..
      rw [isStack, raised, lowered, BitVec.add_assoc, ← BitVec.ofInt_add, Int.add_left_neg]
      simp
    · have kept₃ : left.regs r = regs₃ r := Hart.setReg_other _ _ _ _ isStack
      rw [kept₃]
      by_cases isSaved : r ∈ saves.map Prod.fst
      · rcases List.mem_map.mp isSaved with ⟨s, member, rfl⟩
        rw [restored s member, sp₂, kept s member, slots s member]
      · rw [unloaded r isSaved, untouched r isStack isSaved, others r isStack]
  let n₄ := n + (enter ++ stores saves ++ middle ++ loads saves).length
  refine ⟨n₄ + 1, (env (n₄ + 1)).mip, (left.disturb (env (n₄ + 1))).mem, ?_⟩
  have final : left.disturb (env (n₄ + 1)) =
      base.with h.regs (env (n₄ + 1)).mip (left.disturb (env (n₄ + 1))).mem := by
    rw [← back]
    rfl
  have ranLeave : runVector sink env n₄ [.addiSp size, last] (base.with regs₃ mip₃ mem₃) =
      exec sink (env (n₄ + 1)) (left.disturb (env (n₄ + 1))) last := by
    have maskedLoaded : (base.with regs₃ mip₃ mem₃).Masked := masked'
    have maskedLeft : left.Masked := masked'
    rw [runVector_cons maskedLoaded]
    change runVector sink env (n₄ + 1) [last] left = _
    exact runVector_single maskedLeft
  rw [← final, ← ranLeave]
  change runVector sink env n
    (enter ++ stores saves ++ middle ++ loads saves ++ [.addiSp size, last]) h = _
  rw [runVector_append, runVector_append, runVector_append, runVector_append, ranEnter,
    Option.bind_some, stored, Option.bind_some]
  change (((runVector sink env _ middle (h.with entered.regs mip₁ mem₁)).bind _).bind _) = _
  rw [ranMiddle, Option.bind_some, loaded, Option.bind_some]
  rfl

end ZephyrRiscv
