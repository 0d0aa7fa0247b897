import ZephyrRiscv.FixAndRetry
import ZephyrRiscv.Interrupts

set_option autoImplicit false

namespace ZephyrRiscv

open Sv39 PageFaults

/-- The traps that the suite delivers to `s_trap_handler`. -/
inductive TrapKind where
  | timer
  | soft
  | external
  | instFault
  | loadFault
  | storeFault
  | ecall
deriving DecidableEq, Repr

namespace TrapKind

def cause : TrapKind → BitVec 64
  | timer => interruptCause IRQ_S_TIMER
  | soft => interruptCause IRQ_S_SOFT
  | external => interruptCause IRQ_S_EXT
  | instFault => CAUSE_INST_PAGE_FAULT
  | loadFault => CAUSE_LOAD_PAGE_FAULT
  | storeFault => CAUSE_STORE_PAGE_FAULT
  | ecall => CAUSE_ECALL_SMODE

def interrupt : TrapKind → Bool
  | timer | soft | external => true
  | instFault | loadFault | storeFault | ecall => false

def pageFault : TrapKind → Bool
  | instFault | loadFault | storeFault => true
  | timer | soft | external | ecall => false

/-- What the handler counts a trap in. The fault counter takes all of them. -/
def countedIn : TrapKind → Counter → Bool
  | _, .fault => true
  | kind, .irq => kind.interrupt
  | timer, .timerIrq => true
  | _, .timerIrq => false
  | soft, .softIrq => true
  | _, .softIrq => false

theorem pageFault_of_exception {kind : TrapKind} (exception : kind.interrupt = false)
    (other : kind ≠ ecall) : kind.pageFault = true := by
  cases kind with
  | timer | soft | external => cases exception
  | instFault | loadFault | storeFault => rfl
  | ecall => exact absurd rfl other

theorem cause_interrupt (kind : TrapKind) : kind.cause.getLsbD 63 = kind.interrupt := by
  cases kind <;> rfl

theorem countedIn_timerIrq (kind : TrapKind) :
    kind.countedIn .timerIrq = decide (kind = timer) := by
  cases kind <;> simp [countedIn]

theorem countedIn_softIrq (kind : TrapKind) : kind.countedIn .softIrq = decide (kind = soft) := by
  cases kind <;> simp [countedIn]

end TrapKind

/-- A trap with the CSRs, the memory and the `handler_action` that the handler finds. -/
structure Delivery where
  kind : TrapKind
  stval : BitVec 64
  sepc : BitVec 64
  satp : BitVec 64
  mem : Mem
  handlerAction : BitVec 32

def Delivery.context (d : Delivery) : SContext where
  satp := d.satp
  mem := d.mem
  handlerAction := d.handlerAction

/-- `g_trap` after a trap. -/
def serve (g : TrapState) (d : Delivery) : TrapState :=
  (sTrapHandler d.context d.kind.cause d.stval d.sepc).foldl recordEffect
    { g with handlerAction := d.handlerAction }

def serveAll (g : TrapState) (traps : List Delivery) : TrapState := traps.foldl serve g

/-- `s_trap_handler` on an external interrupt. -/
theorem sTrapHandler_external (ctx : SContext) (stval sepc : BitVec 64) :
    sTrapHandler ctx (interruptCause IRQ_S_EXT) stval sepc =
      [.trapRecord (interruptCause IRQ_S_EXT) stval sepc, .count .fault, .count .irq,
        .lastIrqCause (interruptCause IRQ_S_EXT)] := rfl

/-- An exception leaves `g_trap` to what the handler did on entry. -/
theorem sException_record (ctx : SContext) (causeCode stval sepc : BitVec 64) (g : TrapState) :
    (sException ctx causeCode stval sepc).foldl recordEffect g = g := by
  simp only [sException, skipFault, fixFault]
  split_ifs <;> rfl

/-- `g_trap` as every trap leaves it. -/
def entered (g : TrapState) (d : Delivery) : TrapState :=
  { g with
    scause := d.kind.cause, stval := d.stval, sepc := d.sepc, faultCount := g.faultCount + 1
    handlerAction := d.handlerAction }

/-- What an interrupt adds to the common counts. -/
def interrupted (g : TrapState) (d : Delivery) : TrapState :=
  { entered g d with
    irqCount := g.irqCount + 1
    timerIrqCount := if d.kind.countedIn .timerIrq then g.timerIrqCount + 1 else g.timerIrqCount
    softIrqCount := if d.kind.countedIn .softIrq then g.softIrqCount + 1 else g.softIrqCount
    lastIrqCause := d.kind.cause }

theorem serve_exception (g : TrapState) {d : Delivery} (exception : d.kind.interrupt = false) :
    serve g d = entered g d := by
  have clear := d.kind.cause_interrupt.trans exception
  rw [serve, sTrapHandler, if_neg (by rw [clear]; exact Bool.false_ne_true), List.foldl_append]
  exact sException_record _ _ _ _ _

/-- The fault count is taken before the handler looks at the kind of the trap. -/
theorem serve_eq (g : TrapState) (d : Delivery) :
    serve g d = if d.kind.interrupt then interrupted g d else entered g d := by
  obtain ⟨kind, stval, sepc, satp, mem, handlerAction⟩ := d
  cases kind with
  | timer => exact congrArg (List.foldl recordEffect _) (sTrapHandler_timer _ _ _)
  | soft => exact congrArg (List.foldl recordEffect _) (sTrapHandler_soft _ _ _)
  | external => exact congrArg (List.foldl recordEffect _) (sTrapHandler_external _ _ _)
  | instFault | loadFault | storeFault | ecall => exact serve_exception g rfl

theorem serve_value (g : TrapState) (d : Delivery) (counter : Counter) :
    (serve g d).value counter =
      g.value counter + if d.kind.countedIn counter then 1#32 else 0#32 := by
  rw [serve_eq]
  obtain ⟨kind, stval, sepc, satp, mem, handlerAction⟩ := d
  cases kind <;> cases counter <;>
    simp [interrupted, entered, TrapState.value, TrapKind.interrupt, TrapKind.countedIn]

theorem serveAll_value (g : TrapState) (traps : List Delivery) (counter : Counter) :
    (serveAll g traps).value counter =
      g.value counter + BitVec.ofNat 32 (traps.countP fun d => d.kind.countedIn counter) := by
  induction traps generalizing g with
  | nil => exact (BitVec.add_zero _).symm
  | cons d traps ih =>
      have rest := ih (serve g d)
      rw [serve_value, BitVec.add_assoc] at rest
      refine rest.trans (congrArg (g.value counter + ·) ?_)
      rw [List.countP_cons, BitVec.ofNat_add, BitVec.add_comm]
      split <;> rfl

/-- The cause of the last interrupt, or what was there before when there is none. -/
def lastCause (before : BitVec 64) (traps : List Delivery) : BitVec 64 :=
  (traps.filter fun d => d.kind.interrupt).getLast?.elim before fun d => d.kind.cause

theorem serveAll_lastIrqCause (g : TrapState) (traps : List Delivery) :
    (serveAll g traps).lastIrqCause = lastCause g.lastIrqCause traps := by
  induction traps using List.reverseRecOn with
  | nil => rfl
  | append_singleton traps d ih =>
      have last : serveAll g (traps ++ [d]) = serve (serveAll g traps) d := List.foldl_concat ..
      rw [last, serve_eq, lastCause, List.filter_append]
      cases kind : d.kind.interrupt with
      | true =>
          rw [List.filter_singleton, kind, cond_true, List.getLast?_concat]
          rfl
      | false =>
          rw [List.filter_singleton, kind, cond_false, List.append_nil]
          exact ih

/-- The check of P2.4, `fault_count >= 1` on an `int`. -/
def faultSeen (g : TrapState) : Bool := 1 ≤ g.faultCount.toInt

/-- Each counter grows by the number of its traps, and the check of P2.4 passes for a
page fault only. -/
structure Partitions (g : TrapState) (traps : List Delivery) : Prop where
  faults : (serveAll g traps).faultCount =
    g.faultCount + BitVec.ofNat 32 (traps.countP fun d => !d.kind.interrupt)
  irqs : (serveAll g traps).irqCount =
    g.irqCount + BitVec.ofNat 32 (traps.countP fun d => d.kind.interrupt)
  timers : (serveAll g traps).timerIrqCount =
    g.timerIrqCount + BitVec.ofNat 32 (traps.countP fun d => d.kind = .timer)
  softs : (serveAll g traps).softIrqCount =
    g.softIrqCount + BitVec.ofNat 32 (traps.countP fun d => d.kind = .soft)
  lastIrq : (serveAll g traps).lastIrqCause = lastCause g.lastIrqCause traps
  pageFault : g.faultCount = 0 → (∀ d ∈ traps, d.kind ≠ .ecall) →
    faultSeen (serveAll g traps) → ∃ d ∈ traps, d.kind.pageFault

/-- `fault_count` grows by the number of all traps. -/
theorem serveAll_faultCount (g : TrapState) (traps : List Delivery) :
    (serveAll g traps).faultCount = g.faultCount + BitVec.ofNat 32 traps.length := by
  have counted := serveAll_value g traps .fault
  have all : traps.countP (fun d => d.kind.countedIn .fault) = traps.length :=
    List.countP_eq_length.mpr fun _ _ => rfl
  rwa [all] at counted

/-- The counters partition the traps exactly when an `int` cannot tell the number of
interrupts from none, since the fault count takes the interrupts too. -/
theorem trap_counters_partition_iff (g : TrapState) (traps : List Delivery) :
    Partitions g traps ↔ 2 ^ 32 ∣ traps.countP fun d => d.kind.interrupt := by
  have total : traps.length = (traps.countP fun d => d.kind.interrupt) +
      traps.countP fun d => !d.kind.interrupt := by
    rw [List.length_eq_countP_add_countP fun d : Delivery => d.kind.interrupt]
    simp only [decide_not, Bool.decide_eq_true]
  have faults := serveAll_faultCount g traps
  rw [total, BitVec.ofNat_add, BitVec.add_comm (BitVec.ofNat 32 _), ← BitVec.add_assoc] at faults
  constructor
  · intro partitions
    have none := partitions.faults
    rw [faults] at none
    have zero := congrArg BitVec.toNat (BitVec.add_right_eq_self.mp none)
    exact Nat.dvd_of_mod_eq_zero zero
  · intro multiple
    have zero : BitVec.ofNat 32 (traps.countP fun d => d.kind.interrupt) = 0#32 :=
      BitVec.eq_of_toNat_eq (Nat.mod_eq_zero_of_dvd multiple)
    rw [zero, BitVec.add_zero] at faults
    have timers := serveAll_value g traps .timerIrq
    have softs := serveAll_value g traps .softIrq
    simp only [TrapKind.countedIn_timerIrq, TrapKind.countedIn_softIrq] at timers softs
    refine ⟨faults, serveAll_value g traps .irq, timers, softs, serveAll_lastIrqCause g traps, ?_⟩
    intro start noEcall seen
    by_contra noFault
    have noException : (traps.countP fun d => !d.kind.interrupt) = 0 := by
      rw [List.countP_eq_zero]
      intro d member exception
      exact noFault ⟨d, member, TrapKind.pageFault_of_exception
        ((Bool.not_eq_true' _).mp exception) (noEcall d member)⟩
    rw [faultSeen, faults, start, noException] at seen
    exact absurd seen (by decide)

/-- The record that P2.4 starts from. -/
def resetTrap : TrapState := ⟨0, 0, 0, 0, 0, 0, 0, 0, 0⟩

/-- A timer interrupt, wherever it comes. -/
def timerTrap : Delivery := ⟨.timer, 0, 0x80002000, 0, fun _ => 0, 0⟩

/-- One timer interrupt and no page fault pass the check of P2.4. -/
theorem timer_passes_fault_check :
    (¬ ∀ g traps, Partitions g traps) ∧ faultSeen (serveAll resetTrap [timerTrap]) = true ∧
      ¬ ∃ d ∈ [timerTrap], d.kind.pageFault := by
  have seen : faultSeen (serveAll resetTrap [timerTrap]) = true := by decide
  have noFault : ¬ ∃ d ∈ [timerTrap], d.kind.pageFault = true := by
    rintro ⟨d, member, fault⟩
    rw [List.mem_singleton.mp member] at fault
    cases fault
  refine ⟨fun always => ?_, seen, noFault⟩
  have noEcall : ∀ d ∈ [timerTrap], d.kind ≠ .ecall := by
    intro d member
    rw [List.mem_singleton.mp member]
    decide
  exact noFault ((always resetTrap [timerTrap]).pageFault rfl noEcall seen)

end ZephyrRiscv
