import ZephyrRiscv.InterruptAccounts
import ZephyrRiscv.PageFaults

set_option autoImplicit false

namespace ZephyrRiscv

open Sv39 Mmu Verdict PageFaults

/-- What the accesses of a hart and the repairs of its handler depend on. -/
structure Space where
  mem : Mem
  satp : BitVec 64
  handlerAction : BitVec 32

/-- The space of a hart, with the stores that its handler will still do. -/
def Core.space (c : Core) : Space where
  mem := memAfter c.hart.mem (c.handler.getD [])
  satp := c.hart.csrs.satp
  handlerAction := c.hart.trap.handlerAction

theorem space_idle {c : Core} (idle : c.handler = none) :
    c.space = ⟨c.hart.mem, c.hart.csrs.satp, c.hart.trap.handlerAction⟩ := by
  rw [Core.space, idle]
  rfl

theorem foldl_applyM_memory (effects : List MEffect) (h : Hart) :
    (effects.foldl Hart.applyM h).mem = h.mem ∧
      (effects.foldl Hart.applyM h).csrs.satp = h.csrs.satp := by
  induction effects generalizing h with
  | nil => exact ⟨rfl, rfl⟩
  | cons effect effects ih =>
    have one : (h.applyM effect).mem = h.mem ∧ (h.applyM effect).csrs.satp = h.csrs.satp := by
      cases effect <;> exact ⟨rfl, rfl⟩
    obtain ⟨mem, satp⟩ := ih (h.applyM effect)
    exact ⟨mem.trans one.1, satp.trans one.2⟩

/-- The handler of an interrupt or of a repair leaves the frame's `sepc` alone. -/
theorem Shape.keeps_sepc {e : SEffect} {rest : List SEffect} (shape : Shape (some (e :: rest))) :
    movesSepc e = false := by
  generalize whole : some (e :: rest) = handler at shape
  cases shape with
  | idle => cases whole
  | irq irq stval sepc n =>
    have here := (Irq.drop_cases (Option.some.inj whole).symm).2
    rcases here with ⟨-, rfl⟩ | ⟨-, rfl⟩ | ⟨-, rfl⟩ | ⟨-, rfl⟩ | ⟨-, rfl⟩ | ⟨-, rfl⟩
    · rfl
    · rfl
    · rfl
    · rfl
    · rfl
    · cases irq <;> rfl
  | fault mild =>
    cases whole
    have kind := mild e List.mem_cons_self
    cases e with
    | frameSepc => cases kind
    | _ => rfl

/-- An effect stores what was promised, and nothing else. -/
theorem applyS_space {sink : Sink} {frame : BitVec 64} {h hart : Hart} {e : SEffect}
    (keeps : movesSepc e = false) (applied : h.applyS sink frame e = some hart) :
    hart.mem = memAfter h.mem [e] ∧ hart.csrs.satp = h.csrs.satp ∧
      hart.trap.handlerAction = h.trap.handlerAction := by
  cases e with
  | count counter =>
    cases applied
    cases counter <;> exact ⟨rfl, rfl, rfl⟩
  | ecall a7 a0 =>
    cases applied
    have memory := foldl_applyM_memory (mTrapHandler (h.mContext sink) CAUSE_ECALL_SMODE h.pc 0
      (sbiFrame a7 a0)).1 h
    have configured := foldl_applyM_configured (mTrapHandler (h.mContext sink) CAUSE_ECALL_SMODE
      h.pc 0 (sbiFrame a7 a0)).1 h
    exact ⟨memory.1, memory.2, congrArg TrapState.handlerAction configured.2⟩
  | testFail => cases applied
  | frameSepc => cases keeps
  | _ =>
    cases applied
    exact ⟨rfl, rfl, rfl⟩

theorem Account.space_moves {sink : Sink} {k : Irq → Nat} {c c' : Core} (account : Account k c)
    (moves : c.Moves sink c') : c'.space = c.space := by
  have keep : ∀ hart : Hart, c.hart.Below hart → Core.space { c with hart } = c.space := by
    intro hart below
    simp only [Core.space, below.mem, below.satp, below.trap]
  cases moves with
  | mTimer => exact keep _ (below_mTimer sink c.hart)
  | mSoft => exact keep _ (below_mSoft sink c.hart)
  | sInterrupt irq taken =>
    obtain ⟨idle, -, sepc, handler, -, trap, -, mem, satp, -⟩ := Core.sInterrupt_irq taken
    have same : memAfter c.hart.mem (irq.effects 0 sepc) = c.hart.mem := by
      cases irq <;> rfl
    rw [space_idle idle]
    simp only [Core.space, handler, Option.getD_some, mem, same, satp, trap]
  | handler stepped =>
    rcases handlerStep_cases stepped with
      ⟨finished, rfl⟩ | ⟨effect, rest, hart, running, applied, rfl⟩
    · simp only [Core.space, finished]
      rfl
    · have shape := account.shape
      rw [running] at shape
      obtain ⟨mem, satp, action⟩ := applyS_space shape.keeps_sepc applied
      simp only [Core.space, running, Option.getD_some, mem, satp, action]
      rfl

/-- The count when the handler is done. -/
def Core.total (c : Core) (counter : Counter) : Nat :=
  (c.hart.trap.value counter).toNat + uncounted counter c.handler

/-- Between two traps the totals are the counts. -/
theorem total_idle {c : Core} (idle : c.handler = none) (counter : Counter) :
    c.total counter = (c.hart.trap.value counter).toNat := by
  rw [Core.total, idle]
  rfl

theorem total_handlerStep {sink : Sink} {c c' : Core} {counter : Counter}
    (small : c.total counter < 2 ^ 32) (stepped : c.handlerStep sink = some c') :
    c'.total counter = c.total counter := by
  rcases handlerStep_cases stepped with
    ⟨finished, rfl⟩ | ⟨effect, rest, hart, running, applied, rfl⟩
  · rw [Core.total, Core.total, finished]
    rfl
  · have now := applyS_value counter applied
    rw [Core.total, running, uncounted_cons] at small
    rw [Core.total, Core.total, running, uncounted_cons, now]
    split
    · rename_i counts
      rw [if_pos counts] at small
      rw [BitVec.toNat_add, show (1#32).toNat = 1 from rfl]
      simp only
      omega
    · rw [BitVec.add_zero]
      rfl

/-- `fault_count` and the timer's count differ by what is known. -/
def Lag (a b : Nat) (c : Core) : Prop := c.total .fault + a = c.total .timerIrq + b

theorem Account.total_bound {k : Irq → Nat} {c : Core} (account : Account k c) (irq : Irq) :
    c.total irq.counter ≤ k irq := by
  have bound := account.bound irq
  have same : c.total irq.counter = c.counted irq + uncounted irq.counter c.handler := rfl
  simp only [Core.owed] at bound
  omega

theorem Account.timers_le {k : Irq → Nat} {c : Core} (account : Account k c) :
    c.total .timerIrq ≤ k .timer :=
  account.total_bound .timer

/-- Every timer interrupt counts as a fault too. -/
theorem Lag.moves {sink : Sink} {k : Irq → Nat} {a b : Nat} {c c' : Core} (lag : Lag a b c)
    (account : Account k c) (noSoft : k .soft ≤ c.counted .soft) (few : b < 2 ^ 31)
    (moves : c.Moves sink c') : Lag a b c' := by
  have keep : ∀ hart : Hart, hart.trap = c.hart.trap → Lag a b { c with hart } := by
    intro hart trap
    simp only [Lag, Core.total, trap]
    exact lag
  cases moves with
  | mTimer => exact keep _ (below_mTimer sink c.hart).trap
  | mSoft => exact keep _ (below_mSoft sink c.hart).trap
  | sInterrupt irq taken =>
    obtain ⟨idle, possible, sepc, handler, -, trap, -⟩ := Core.sInterrupt_irq taken
    cases irq with
    | timer =>
      have faults : uncounted .fault c'.handler = 1 := by
        rw [handler]
        rfl
      have timers : uncounted .timerIrq c'.handler = 1 := by
        rw [handler]
        rfl
      have none : ∀ counter, uncounted counter c.handler = 0 := fun _ => by rw [idle]; rfl
      simp only [Lag, Core.total, none] at lag
      simp only [Lag, Core.total, trap, faults, timers]
      omega
    | soft =>
      rw [account.saturated idle noSoft] at possible
      cases possible
  | handler stepped =>
    have timers := account.timers_le
    have small := account.small .timer
    have both : c.total .fault + a = c.total .timerIrq + b := lag
    rw [Lag, total_handlerStep (by omega) stepped, total_handlerStep (by omega) stepped]
    exact lag

/-- A page fault adds one to `fault_count` and nothing to the timer's. -/
theorem Lag.repairing {a b : Nat} {c : Core} (lag : Lag a b c) (idle : c.handler = none)
    {hart : Hart} {effects : List SEffect} (trap : hart.trap = c.hart.trap)
    (one : uncounted .fault (some effects) = 1) (none : uncounted .timerIrq (some effects) = 0) :
    Lag a (b + 1) ⟨hart, some effects⟩ := by
  have before : ∀ counter, uncounted counter c.handler = 0 := fun _ => by rw [idle]; rfl
  simp only [Lag, Core.total, before] at lag
  simp only [Lag, Core.total, trap, one, none]
  omega

theorem SEffect.mild_ne {e : SEffect} (mild : e.mild = true) (irq : Irq) :
    e ≠ irq.ack ∧ e ≠ .count irq.counter :=
  SEffect.neutral_ne (SEffect.mild_neutral mild) irq

theorem uncounted_mild {effects : List SEffect} (mild : ∀ e ∈ effects, e.mild = true) (irq : Irq) :
    uncounted irq.counter (some effects) = 0 := by
  rw [uncounted, List.count_eq_zero]
  exact fun member => (SEffect.mild_ne (mild _ member) irq).2 rfl

/-- A handler that starts a repair leaves the accounts alone. -/
theorem Account.repairing {k : Irq → Nat} {c : Core} (account : Account k c)
    (idle : c.handler = none) {hart : Hart} {effects : List SEffect}
    (mild : ∀ e ∈ effects, e.mild = true) (lines : hart.lines = c.hart.lines)
    (configured : c.hart.Configured hart) (trap : hart.trap = c.hart.trap) :
    Account k ⟨hart, some effects⟩ := by
  have acks : ∀ irq, Core.acks ⟨hart, some effects⟩ irq = false := by
    intro irq
    simp only [Core.acks, Option.any_some, List.contains_eq_mem, decide_eq_false_iff_not]
    exact fun member => (SEffect.mild_ne (mild _ member) irq).1 rfl
  have none := uncounted_mild mild
  refine ⟨account.small, configured.1.trans account.mhartid, ?_, ?_, ?_, ?_, ?_, .fault mild, ?_⟩
  · intro irq
    exact (congrArg (BitVec.getLsbD · irq.bit) configured.2).trans (account.delegated irq)
  · intro i one
    exact (congrArg (BitVec.getLsbD · i) configured.2).trans (account.machineOnly i one)
  · rw [lines]
    exact account.msie
  · rw [lines]
    exact account.pendingOff
  · rw [acks]
    exact fun set => by cases set
  · intro irq
    have bound := account.idle_bound idle irq
    simp only [Core.counted] at bound
    simp only [Core.owed, Core.counted, acks, none, trap, lines, Bool.not_false, Bool.and_true]
    omega

/-- `s_trap_handler` in fix mode, on a page fault with an entry. -/
theorem repair_mild {ctx : SContext} (fixMode : ctx.handlerAction ≠ 1) (kind : AccessKind)
    {stval : BitVec 64} (sepc : BitVec 64)
    (entry : (Tables.endOf ctx.mem stval 2 (satpRoot ctx.satp)).1 ≠ 0) :
    (∀ e ∈ sTrapHandler ctx kind.cause stval sepc, e.mild = true) ∧
      uncounted .fault (some (sTrapHandler ctx kind.cause stval sepc)) = 1 := by
  rw [sTrapHandler_eq fixMode, fixFault_eq]
  simp only [if_neg entry]
  refine ⟨?_, rfl⟩
  intro e member
  simp only [List.mem_cons, List.not_mem_nil, or_false] at member
  rcases member with rfl | rfl | rfl | rfl | rfl | rfl | rfl | rfl <;> rfl

end ZephyrRiscv
