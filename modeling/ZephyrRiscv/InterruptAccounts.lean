import ZephyrRiscv.Interrupts

set_option autoImplicit false

namespace ZephyrRiscv

open Verdict

inductive Irq where
  | timer
  | soft
deriving DecidableEq, Repr

namespace Irq

def other : Irq → Irq
  | timer => soft
  | soft => timer

def bit : Irq → Nat
  | timer => STI
  | soft => SSI

def number : Irq → BitVec 64
  | timer => IRQ_S_TIMER
  | soft => IRQ_S_SOFT

def cause (irq : Irq) : BitVec 64 := interruptCause irq.number

def counter : Irq → Counter
  | timer => .timerIrq
  | soft => .softIrq

/-- How the handler acknowledges the interrupt. -/
def ack : Irq → SEffect
  | timer => .ecall SBI_SET_TIMER 0xFFFFFFFFFFFFFFFF
  | soft => .csrcSip MIP_SSIP

/-- `s_trap_handler` on the interrupt. -/
def effects (irq : Irq) (stval sepc : BitVec 64) : List SEffect :=
  [.trapRecord irq.cause stval sepc, .count .fault, .count .irq, .lastIrqCause irq.cause,
    .count irq.counter, irq.ack]

end Irq

namespace Lines

/-- The S-mode bit. -/
def pending (l : Lines) : Irq → Bool
  | .timer => l.stip
  | .soft => l.ssip

/-- What M-mode will turn into the S-mode bit. -/
def raised (l : Lines) : Irq → Bool
  | .timer => l.mtie && l.mtimecmp != 0xFFFFFFFFFFFFFFFF
  | .soft => l.msip.getLsbD 0

end Lines

/-- The handler has still to acknowledge the interrupt. -/
def Core.acks (c : Core) (irq : Irq) : Bool := c.handler.any fun rest => rest.contains irq.ack

/-- The deliveries that are still to be counted, in the handler or before it. -/
def Core.owed (c : Core) (irq : Irq) : Nat :=
  (c.hart.lines.pending irq && !c.acks irq).toNat + (c.hart.lines.raised irq).toNat +
    uncounted irq.counter c.handler

def Core.counted (c : Core) (irq : Irq) : Nat := (c.hart.trap.value irq.counter).toNat

/-- An effect of `s_trap_handler` on a page fault that it repairs. -/
def SEffect.mild : SEffect → Bool
  | .trapRecord _ _ _ | .count .fault | .out _ | .storePte _ _ | .fence | .sfenceVma _ => true
  | _ => false

/-- The handler is idle, or has done the first effects for an interrupt, or repairs an entry. -/
inductive Shape : Option (List SEffect) → Prop
  | idle : Shape none
  | irq (irq : Irq) (stval sepc : BitVec 64) (n : Nat) :
      Shape (some ((irq.effects stval sepc).drop n))
  | fault {rest : List SEffect} (mild : ∀ e ∈ rest, e.mild = true) : Shape (some rest)

/-- An effect that leaves the lines and both counts alone. -/
def SEffect.neutral : SEffect → Bool
  | .count .timerIrq | .count .softIrq | .ecall _ _ | .csrcSip _ | .testFail _ => false
  | _ => true

theorem SEffect.mild_neutral {e : SEffect} (mild : e.mild = true) : e.neutral = true := by
  cases e with
  | count counter => cases counter <;> first | rfl | cases mild
  | ecall => cases mild
  | csrcSip => cases mild
  | testFail => cases mild
  | _ => rfl

theorem SEffect.neutral_quiet {e : SEffect} (neutral : e.neutral = true) : e.quiet = true := by
  cases e with
  | ecall => cases neutral
  | csrcSip => cases neutral
  | _ => rfl

theorem SEffect.neutral_ne {e : SEffect} (neutral : e.neutral = true) (irq : Irq) :
    e ≠ irq.ack ∧ e ≠ .count irq.counter := by
  constructor
  · rintro rfl
    cases irq <;> cases neutral
  · rintro rfl
    cases irq <;> cases neutral

theorem Irq.drop_cases {irq : Irq} {stval sepc : BitVec 64} {n : Nat} {e : SEffect}
    {rest : List SEffect} (left : (irq.effects stval sepc).drop n = e :: rest) :
    rest = (irq.effects stval sepc).drop (n + 1) ∧
      ((n = 0 ∧ e = .trapRecord irq.cause stval sepc) ∨ (n = 1 ∧ e = .count .fault) ∨
        (n = 2 ∧ e = .count .irq) ∨ (n = 3 ∧ e = .lastIrqCause irq.cause) ∨
        (n = 4 ∧ e = .count irq.counter) ∨ (n = 5 ∧ e = irq.ack)) := by
  have bound : n < 6 := by
    by_contra beyond
    rw [List.drop_eq_nil_of_le (by simpa [Irq.effects] using beyond)] at left
    cases left
  have tail : rest = (irq.effects stval sepc).drop (n + 1) := by
    rw [← List.tail_drop, left]
    rfl
  refine ⟨tail, ?_⟩
  have head : (irq.effects stval sepc)[n]? = some e := by
    rw [← List.head?_drop, left]
    rfl
  match n, bound, head with
  | 0, _, head => exact .inl ⟨rfl, (Option.some.inj head).symm⟩
  | 1, _, head => exact .inr (.inl ⟨rfl, (Option.some.inj head).symm⟩)
  | 2, _, head => exact .inr (.inr (.inl ⟨rfl, (Option.some.inj head).symm⟩))
  | 3, _, head => exact .inr (.inr (.inr (.inl ⟨rfl, (Option.some.inj head).symm⟩)))
  | 4, _, head => exact .inr (.inr (.inr (.inr (.inl ⟨rfl, (Option.some.inj head).symm⟩))))
  | 5, _, head => exact .inr (.inr (.inr (.inr (.inr ⟨rfl, (Option.some.inj head).symm⟩))))

theorem Irq.uncounted_drop (irq : Irq) (stval sepc : BitVec 64) {n : Nat} (early : n ≤ 4) :
    uncounted irq.counter (some ((irq.effects stval sepc).drop n)) = 1 := by
  match n, early with
  | 0, _ | 1, _ | 2, _ | 3, _ | 4, _ => cases irq <;> rfl

/-- The next effect of the handler. -/
theorem Shape.cons_cases {e : SEffect} {rest : List SEffect} (shape : Shape (some (e :: rest))) :
    Shape (some rest) ∧
      (e.neutral = true ∨ (∃ irq : Irq, e = .count irq.counter ∧ rest = [irq.ack]) ∨
        ∃ irq : Irq, e = irq.ack ∧ rest = []) := by
  generalize whole : some (e :: rest) = handler at shape
  cases shape with
  | idle => cases whole
  | irq irq stval sepc n =>
    obtain ⟨rfl, here⟩ := Irq.drop_cases (Option.some.inj whole).symm
    refine ⟨.irq irq stval sepc (n + 1), ?_⟩
    rcases here with ⟨-, rfl⟩ | ⟨-, rfl⟩ | ⟨-, rfl⟩ | ⟨-, rfl⟩ | ⟨rfl, rfl⟩ | ⟨rfl, rfl⟩
    · exact .inl rfl
    · exact .inl rfl
    · exact .inl rfl
    · exact .inl rfl
    · exact .inr (.inl ⟨irq, rfl, rfl⟩)
    · exact .inr (.inr ⟨irq, rfl, rfl⟩)
  | fault mild =>
    cases whole
    exact ⟨.fault fun e' member => mild e' (List.mem_cons_of_mem e member),
      .inl (SEffect.mild_neutral (mild e List.mem_cons_self))⟩

/-- An interrupt of M-mode, or a step of the S-mode handler. -/
inductive Core.Moves (sink : Sink) (c : Core) : Core → Prop
  | mTimer (on : c.hart.lines.mtie = true) (real : c.hart.lines.mtimecmp ≠ 0xFFFFFFFFFFFFFFFF) :
      c.Moves sink { c with hart := c.hart.mInterrupt sink IRQ_M_TIMER }
  | mSoft (raised : c.hart.lines.msip.getLsbD 0 = true) :
      c.Moves sink { c with hart := c.hart.mInterrupt sink IRQ_M_SOFT }
  | sInterrupt (irq : Irq) {c' : Core} (taken : c.sInterrupt irq.number = some c') :
      c.Moves sink c'
  | handler {c' : Core} (stepped : c.handlerStep sink = some c') : c.Moves sink c'

/-- What an interrupt of M-mode leaves alone. -/
structure Hart.Below (h h' : Hart) : Prop where
  configured : h.Configured h'
  trap : h'.trap = h.trap
  mem : h'.mem = h.mem
  satp : h'.csrs.satp = h.csrs.satp
  mstatus : h'.csrs.mstatus = h.csrs.mstatus
  mie : ∀ i ≠ MTI, h'.csrs.mie.getLsbD i = h.csrs.mie.getLsbD i
  mip : ∀ irq : Irq, h.mip.getLsbD irq.bit = true → h'.mip.getLsbD irq.bit = true

theorem below_mTimer (sink : Sink) (h : Hart) : h.Below (h.mInterrupt sink IRQ_M_TIMER) := by
  have effects : ∀ ctx, (mTrapHandler ctx (interruptCause IRQ_M_TIMER) h.pc 0 fun _ => 0).1 =
      [.csrcMie MIP_MTIP, .mtimecmp ctx.mhartid 0xFFFFFFFFFFFFFFFF, .csrsMip MIP_STIP] :=
    fun _ => rfl
  have result : h.mInterrupt sink IRQ_M_TIMER = _ := congrArg (List.foldl Hart.applyM h) (effects _)
  rw [result]
  refine ⟨⟨rfl, rfl⟩, rfl, rfl, rfl, rfl, ?_, ?_⟩
  · intro i other
    have clear : MIP_MTIP.getLsbD i = false := by
      rw [show MIP_MTIP = BitVec.twoPow 64 MTI by decide, BitVec.getLsbD_twoPow]
      simp [Ne.symm other]
    simp only [List.foldl, Hart.applyM, BitVec.getLsbD_and, BitVec.getLsbD_not, clear]
    by_cases low : i < 64
    · simp [low]
    · simp [low, BitVec.getLsbD_of_ge _ _ (Nat.le_of_not_lt low)]
  · intro irq set
    simp only [List.foldl, Hart.applyM, BitVec.getLsbD_or, set, Bool.true_or]

theorem below_mSoft (sink : Sink) (h : Hart) : h.Below (h.mInterrupt sink IRQ_M_SOFT) := by
  have effects : ∀ ctx, (mTrapHandler ctx (interruptCause IRQ_M_SOFT) h.pc 0 fun _ => 0).1 =
      [.msip ctx.mhartid 0, .csrsMip MIP_SSIP] := fun _ => rfl
  have result : h.mInterrupt sink IRQ_M_SOFT = _ := congrArg (List.foldl Hart.applyM h) (effects _)
  rw [result]
  refine ⟨⟨rfl, rfl⟩, rfl, rfl, rfl, rfl, fun _ _ => rfl, ?_⟩
  intro irq set
  simp only [List.foldl, Hart.applyM, BitVec.getLsbD_or, set, Bool.true_or]

theorem sTrapHandler_irq (irq : Irq) (ctx : SContext) (stval sepc : BitVec 64) :
    sTrapHandler ctx irq.cause stval sepc = irq.effects stval sepc := by
  cases irq with
  | timer => exact sTrapHandler_timer ctx stval sepc
  | soft => exact sTrapHandler_soft ctx stval sepc

theorem Irq.number_toNat (irq : Irq) : irq.number.toNat = irq.bit := by
  cases irq <;> rfl

/-- An interrupt of S-mode that is taken: the handler starts, and the lines stay. -/
theorem Core.sInterrupt_irq {c c' : Core} {irq : Irq} (taken : c.sInterrupt irq.number = some c') :
    c.handler = none ∧ c.hart.takesS irq.bit = true ∧
      ∃ sepc, c'.handler = some (irq.effects 0 sepc) ∧ c'.hart.lines = c.hart.lines ∧
        c'.hart.trap = c.hart.trap ∧ c.hart.Configured c'.hart ∧ c'.hart.mem = c.hart.mem ∧
        c'.hart.csrs.satp = c.hart.csrs.satp ∧ c'.hart.csrs.mie = c.hart.csrs.mie := by
  unfold Core.sInterrupt at taken
  split at taken
  case isFalse => cases taken
  case isTrue possible =>
    cases Option.some.inj taken
    rw [irq.number_toNat] at possible
    exact ⟨Option.isNone_iff_eq_none.mp possible.1, possible.2, _,
      congrArg some (sTrapHandler_irq irq _ _ _), rfl, rfl, ⟨rfl, rfl⟩, rfl, rfl, rfl⟩

/-- The accounts of a hart: exactly so many deliveries of each interrupt are counted or owed at
most, and the timer is not armed while its interrupt is pending or about to be acknowledged. -/
structure Account (k : Irq → Nat) (c : Core) : Prop where
  small : ∀ irq, k irq < 2 ^ 31
  mhartid : c.hart.csrs.mhartid = 0
  delegated : ∀ irq : Irq, c.hart.csrs.mideleg.getLsbD irq.bit = true
  machineOnly : ∀ i, i = MSI ∨ i = MTI → c.hart.csrs.mideleg.getLsbD i = false
  msie : c.hart.lines.msie = true
  pendingOff : c.hart.lines.stip = true → c.hart.lines.mtie = false
  acksOff : c.acks .timer = true → c.hart.lines.mtie = false
  shape : Shape c.handler
  bound : ∀ irq, c.counted irq + c.owed irq ≤ k irq

theorem acks_none {c : Core} (idle : c.handler = none) (irq : Irq) : c.acks irq = false := by
  rw [Core.acks, idle]
  rfl

theorem Irq.counter_other (irq : Irq) : irq.other.counter ≠ irq.counter := by
  cases irq <;> decide

theorem Irq.eq_or_other (irq irq' : Irq) : irq' = irq ∨ irq' = irq.other := by
  cases irq <;> cases irq' <;> decide

theorem takesS_mip {h : Hart} {irq : Irq} (taken : h.takesS irq.bit = true) :
    h.lines.pending irq = true := by
  have set := takesS_pending taken
  cases irq <;> exact set

theorem acks_cons {c : Core} {e : SEffect} {rest : List SEffect}
    (running : c.handler = some (e :: rest)) (hart : Hart) {irq : Irq} (other : e ≠ irq.ack) :
    c.acks irq = Core.acks ⟨hart, some rest⟩ irq := by
  have apart : (irq.ack == e) = false := by
    rw [beq_eq_false_iff_ne]
    exact other.symm
  simp only [Core.acks, running, Option.any_some, List.contains_cons, apart, Bool.false_or]

/-- The counts that are taken go up by the effect that takes them. -/
theorem counted_applyS {sink : Sink} {frame : BitVec 64} {h h' : Hart} {effect : SEffect}
    (irq : Irq) (applied : h.applyS sink frame effect = some h')
    (small : (h.trap.value irq.counter).toNat < 2 ^ 32 - 1) :
    (h'.trap.value irq.counter).toNat =
      (h.trap.value irq.counter).toNat + if effect = .count irq.counter then 1 else 0 := by
  rw [applyS_value irq.counter applied]
  split
  · rw [BitVec.toNat_add, show (1#32).toNat = 1 from rfl]
    omega
  · rw [BitVec.add_zero]
    rfl

theorem Account.effect {sink : Sink} {k : Irq → Nat} {c : Core} {e : SEffect}
    {rest : List SEffect} {hart : Hart} {frame : BitVec 64} (account : Account k c)
    (running : c.handler = some (e :: rest)) (applied : c.hart.applyS sink frame e = some hart) :
    Account k ⟨hart, some rest⟩ := by
  have shape := account.shape
  rw [running] at shape
  obtain ⟨shape', kinds⟩ := shape.cons_cases
  have configured := applyS_configured applied
  have mhartid := configured.1.trans account.mhartid
  have delegated : ∀ irq : Irq, hart.csrs.mideleg.getLsbD irq.bit = true := fun irq =>
    (congrArg (BitVec.getLsbD · irq.bit) configured.2).trans (account.delegated irq)
  have machineOnly : ∀ i, i = MSI ∨ i = MTI → hart.csrs.mideleg.getLsbD i = false := fun i one =>
    (congrArg (BitVec.getLsbD · i) configured.2).trans (account.machineOnly i one)
  have counts : ∀ irq : Irq, Core.counted ⟨hart, some rest⟩ irq +
      uncounted irq.counter (some rest) = c.counted irq + uncounted irq.counter c.handler := by
    intro irq
    have bound := account.bound irq
    have small := account.small irq
    rw [Core.owed] at bound
    have now := counted_applyS irq applied (by
      show c.counted irq < _
      omega)
    rw [running, uncounted_cons]
    simp only [Core.counted] at now ⊢
    omega
  rcases kinds with neutral | ⟨irq', rfl, rfl⟩ | ⟨irq', rfl, rfl⟩
  · have lines := lines_quiet (SEffect.neutral_quiet neutral) applied
    have acks : ∀ irq : Irq, c.acks irq = Core.acks ⟨hart, some rest⟩ irq := fun irq =>
      acks_cons running hart (SEffect.neutral_ne neutral irq).1
    refine ⟨account.small, mhartid, delegated, machineOnly, ?_, ?_, ?_, shape', ?_⟩
    · simp only [lines]
      exact account.msie
    · simp only [lines]
      exact account.pendingOff
    · rw [← acks, lines]
      exact account.acksOff
    · intro irq
      have bound := account.bound irq
      have count := counts irq
      simp only [Core.owed, ← acks, lines] at bound ⊢
      omega
  · have lines : hart.lines = c.hart.lines := lines_quiet rfl applied
    have acks : ∀ irq : Irq, c.acks irq = Core.acks ⟨hart, some [irq'.ack]⟩ irq := fun irq =>
      acks_cons running hart (by cases irq <;> exact fun same => by cases same)
    refine ⟨account.small, mhartid, delegated, machineOnly, ?_, ?_, ?_, shape', ?_⟩
    · simp only [lines]
      exact account.msie
    · simp only [lines]
      exact account.pendingOff
    · rw [← acks, lines]
      exact account.acksOff
    · intro irq
      have bound := account.bound irq
      have count := counts irq
      simp only [Core.owed, ← acks, lines] at bound ⊢
      omega
  · have before : c.acks irq' = true := by
      simp [Core.acks, running]
    cases irq' with
    | timer =>
      have lines : hart.lines = _ := Option.some.inj applied ▸ lines_setTimer sink c.hart _
      refine ⟨account.small, mhartid, delegated, machineOnly, ?_, ?_, ?_, shape', ?_⟩
      · rw [lines]
        exact account.msie
      · rw [lines]
        exact fun stip => by cases stip
      · exact fun acks => by cases acks
      · intro irq
        have bound := account.bound irq
        have count := counts irq
        cases irq with
        | timer =>
          simp only [Core.owed, lines, Lines.pending, Lines.raised, bne_self_eq_false,
            Bool.and_false, Bool.false_and, Bool.toNat_false] at bound ⊢
          omega
        | soft =>
          simp only [Core.owed, lines, Lines.pending, Lines.raised] at bound ⊢
          rw [acks_cons running hart (by decide)] at bound
          omega
    | soft =>
      have lines : hart.lines = _ := lines_csrcSip (account.delegated .soft) applied
      refine ⟨account.small, mhartid, delegated, machineOnly, ?_, ?_, ?_, shape', ?_⟩
      · rw [lines]
        exact account.msie
      · rw [lines]
        exact account.pendingOff
      · exact fun acks => by cases acks
      · intro irq
        have bound := account.bound irq
        have count := counts irq
        cases irq with
        | timer =>
          simp only [Core.owed, lines, Lines.pending, Lines.raised] at bound ⊢
          rw [acks_cons running hart (by decide)] at bound
          omega
        | soft =>
          simp only [Core.owed, lines, Lines.pending, Lines.raised, Bool.false_and,
            Bool.toNat_false] at bound ⊢
          omega

/-- Nothing that a hart does by itself raises what is counted or owed. -/
theorem Account.moves {sink : Sink} {k : Irq → Nat} {c c' : Core} (account : Account k c)
    (moves : c.Moves sink c') : Account k c' := by
  cases moves with
  | mTimer on real =>
    have lines := lines_mTimer sink c.hart
    have below := below_mTimer sink c.hart
    -- the timer is on, so its interrupt is neither pending nor being acknowledged
    have stip : c.hart.lines.stip = false := by
      by_contra set
      rw [account.pendingOff (by simpa using set)] at on
      cases on
    have idle : c.acks .timer = false := by
      by_contra set
      rw [account.acksOff (by simpa using set)] at on
      cases on
    have acks : ∀ irq, Core.acks { c with hart := c.hart.mInterrupt sink IRQ_M_TIMER } irq =
        c.acks irq := fun _ => rfl
    refine ⟨account.small, below.configured.1.trans account.mhartid, ?_, ?_, ?_, ?_, ?_,
      account.shape, ?_⟩
    · intro irq
      exact (congrArg (BitVec.getLsbD · irq.bit) below.configured.2).trans (account.delegated irq)
    · intro i one
      exact (congrArg (BitVec.getLsbD · i) below.configured.2).trans (account.machineOnly i one)
    · rw [lines]
      exact account.msie
    · rw [lines]
      exact fun _ => rfl
    · rw [lines]
      exact fun _ => rfl
    · intro irq
      have bound := account.bound irq
      simp only [Core.owed, Core.counted, acks, lines, below.trap] at bound ⊢
      cases irq with
      | timer =>
        simp only [Lines.pending, Lines.raised, stip, idle, on, bne_iff_ne.mpr real, Bool.false_and,
          Bool.true_and, Bool.not_false, Bool.toNat_true, Bool.toNat_false] at bound ⊢
        omega
      | soft =>
        simp only [Lines.pending, Lines.raised] at bound ⊢
        exact bound
  | mSoft raised =>
    have lines := lines_mSoft sink c.hart
    have below := below_mSoft sink c.hart
    have acks : ∀ irq, Core.acks { c with hart := c.hart.mInterrupt sink IRQ_M_SOFT } irq =
        c.acks irq := fun _ => rfl
    refine ⟨account.small, below.configured.1.trans account.mhartid, ?_, ?_, ?_, ?_, ?_,
      account.shape, ?_⟩
    · intro irq
      exact (congrArg (BitVec.getLsbD · irq.bit) below.configured.2).trans (account.delegated irq)
    · intro i one
      exact (congrArg (BitVec.getLsbD · i) below.configured.2).trans (account.machineOnly i one)
    · rw [lines]
      exact account.msie
    · rw [lines]
      exact account.pendingOff
    · rw [lines, acks]
      exact account.acksOff
    · intro irq
      have bound := account.bound irq
      simp only [Core.owed, Core.counted, acks, lines, below.trap] at bound ⊢
      cases irq with
      | timer =>
        simp only [Lines.pending, Lines.raised] at bound ⊢
        exact bound
      | soft =>
        have cleared : (0 : BitVec 32).getLsbD 0 = false := rfl
        have one := Bool.toNat_le (true && !c.acks .soft)
        simp only [Lines.pending, Lines.raised, raised, cleared, Bool.toNat_true,
          Bool.toNat_false] at bound ⊢
        omega
  | sInterrupt irq taken =>
    obtain ⟨idle, possible, sepc, handler, lines, trap, configured, -⟩ := Core.sInterrupt_irq taken
    have pending := takesS_mip possible
    refine ⟨account.small, configured.1.trans account.mhartid, ?_, ?_, ?_, ?_, ?_, ?_, ?_⟩
    · intro irq'
      exact (congrArg (BitVec.getLsbD · irq'.bit) configured.2).trans (account.delegated irq')
    · intro i one
      exact (congrArg (BitVec.getLsbD · i) configured.2).trans (account.machineOnly i one)
    · rw [lines]
      exact account.msie
    · rw [lines]
      exact account.pendingOff
    · intro acks
      rw [lines]
      have same : irq = .timer := by
        cases irq with
        | timer => rfl
        | soft =>
          rw [Core.acks, handler] at acks
          cases acks
      rw [same] at pending
      exact account.pendingOff pending
    · rw [handler]
      exact .irq irq 0 sepc 0
    · intro irq'
      have bound := account.bound irq'
      have own : Core.acks c' irq = true := by
        rw [Core.acks, handler]
        cases irq <;> rfl
      simp only [Core.owed, Core.counted, lines, trap, handler, idle, acks_none idle] at bound ⊢
      rcases irq.eq_or_other irq' with rfl | rfl
      · have one := irq'.uncounted_drop 0 sepc (Nat.zero_le 4)
        rw [List.drop_zero] at one
        have zero : uncounted irq'.counter none = 0 := rfl
        simp only [own, pending, one, zero, Bool.not_true, Bool.not_false, Bool.and_false,
          Bool.and_true, Bool.toNat_true, Bool.toNat_false] at bound ⊢
        omega
      · have none : uncounted irq.other.counter (some (irq.effects 0 sepc)) = 0 := by
          cases irq <;> rfl
        have idle' : Core.acks c' irq.other = false := by
          rw [Core.acks, handler]
          cases irq <;> rfl
        simp only [idle', none] at bound ⊢
        exact bound
  | handler stepped =>
    rcases handlerStep_cases stepped with
      ⟨finished, rfl⟩ | ⟨effect, rest, hart, running, applied, rfl⟩
    · have acks : ∀ irq, c.acks irq = false := by
        intro irq
        rw [Core.acks, finished]
        rfl
      refine ⟨account.small, account.mhartid, account.delegated, account.machineOnly,
        account.msie, account.pendingOff, (fun acks => by cases acks), .idle, ?_⟩
      intro irq
      have bound := account.bound irq
      simp only [Core.owed, Core.counted, acks, finished, uncounted] at bound ⊢
      exact bound
    · exact account.effect running applied

/-- The accounts between two traps, when a test has changed the hart. -/
theorem Account.idle {k : Irq → Nat} {c : Core} {hart : Hart} {k' : Irq → Nat}
    (account : Account k c) (small : ∀ irq, k' irq < 2 ^ 31) (idle : c.handler = none)
    (configured : c.hart.Configured hart) (msie : hart.lines.msie = true)
    (pendingOff : hart.lines.stip = true → hart.lines.mtie = false)
    (bound : ∀ irq : Irq, (hart.trap.value irq.counter).toNat + (hart.lines.pending irq).toNat +
      (hart.lines.raised irq).toNat ≤ k' irq) : Account k' { c with hart } := by
  have acks : ∀ irq, Core.acks { c with hart } irq = false := fun irq => acks_none idle irq
  refine ⟨small, configured.1.trans account.mhartid, ?_, ?_, msie, pendingOff, ?_, account.shape,
    ?_⟩
  · intro irq
    exact (congrArg (BitVec.getLsbD · irq.bit) configured.2).trans (account.delegated irq)
  · intro i one
    exact (congrArg (BitVec.getLsbD · i) configured.2).trans (account.machineOnly i one)
  · rw [acks]
    exact fun set => by cases set
  · intro irq
    have total := bound irq
    have zero : uncounted irq.counter none = 0 := rfl
    simp only [Core.owed, Core.counted, acks, Bool.not_false, Bool.and_true]
    rw [idle, zero]
    omega

/-- What is counted, pending and raised between two traps. -/
theorem Account.idle_bound {k : Irq → Nat} {c : Core} (account : Account k c)
    (idle : c.handler = none) (irq : Irq) :
    c.counted irq + (c.hart.lines.pending irq).toNat + (c.hart.lines.raised irq).toNat ≤ k irq := by
  have bound := account.bound irq
  simp only [Core.owed, acks_none idle, Bool.not_false, Bool.and_true] at bound
  omega

/-- A count goes up only. -/
theorem Account.counted_le {sink : Sink} {k : Irq → Nat} {c c' : Core} (account : Account k c)
    (moves : c.Moves sink c') (irq : Irq) : c.counted irq ≤ c'.counted irq := by
  have same : ∀ hart : Hart, hart.trap = c.hart.trap →
      c.counted irq = (hart.trap.value irq.counter).toNat := by
    intro hart trap
    rw [trap]
    rfl
  cases moves with
  | mTimer => exact Nat.le_of_eq (same _ (below_mTimer sink c.hart).trap)
  | mSoft => exact Nat.le_of_eq (same _ (below_mSoft sink c.hart).trap)
  | sInterrupt irq' taken =>
    obtain ⟨-, -, sepc, -, -, trap, -⟩ := Core.sInterrupt_irq taken
    exact Nat.le_of_eq (same _ trap)
  | handler stepped =>
    rcases handlerStep_cases stepped with ⟨-, rfl⟩ | ⟨effect, rest, hart, running, applied, rfl⟩
    · exact Nat.le_refl _
    · have small := account.small irq
      have bound := account.bound irq
      have now := counted_applyS irq applied (by
        show c.counted irq < _
        omega)
      simp only [Core.counted]
      omega

/-- When all deliveries of an interrupt are counted, none is taken. -/
theorem Account.saturated {k : Irq → Nat} {c : Core} {irq : Irq} (account : Account k c)
    (idle : c.handler = none) (all : k irq ≤ c.counted irq) : c.hart.takesS irq.bit = false := by
  by_contra taken
  have pending := takesS_mip (by simpa using taken)
  have bound := account.bound irq
  simp only [Core.owed, pending, acks_none idle, Bool.not_false, Bool.and_true,
    Bool.toNat_true] at bound
  omega

/-- No handler runs, and the enables of S-mode are known. -/
structure Shut (sie stie : Bool) (c : Core) : Prop where
  idle : c.handler = none
  sie : c.hart.csrs.mstatus.getLsbD SIE = sie
  stie : c.hart.csrs.mie.getLsbD STI = stie

/-- No interrupt can be taken: SIE is clear, or each of them is masked or owes nothing. -/
def Blocks (k : Irq → Nat) (sie stie : Bool) (c : Core) : Prop :=
  sie = false ∨ (stie = false ∨ k .timer ≤ c.counted .timer) ∧ k .soft ≤ c.counted .soft

/-- Where no interrupt can be taken, M-mode's leave everything to the test. -/
theorem Shut.moves {sink : Sink} {k : Irq → Nat} {sie stie : Bool} {c c' : Core}
    (shut : Shut sie stie c) (account : Account k c) (blocks : Blocks k sie stie c)
    (moves : c.Moves sink c') :
    Shut sie stie c' ∧ c'.hart.trap = c.hart.trap ∧
      (c.hart.lines.stip = true → c'.hart.lines.stip = true) := by
  have keep : ∀ hart : Hart, c.hart.Below hart →
      Shut sie stie { c with hart } ∧ hart.trap = c.hart.trap ∧
        (c.hart.lines.stip = true → hart.lines.stip = true) := by
    intro hart below
    refine ⟨⟨shut.idle, ?_, ?_⟩, below.trap, below.mip .timer⟩
    · exact (congrArg (BitVec.getLsbD · SIE) below.mstatus).trans shut.sie
    · exact (below.mie STI (by decide)).trans shut.stie
  cases moves with
  | mTimer => exact keep _ (below_mTimer sink c.hart)
  | mSoft => exact keep _ (below_mSoft sink c.hart)
  | sInterrupt irq taken =>
    obtain ⟨-, possible, -⟩ := Core.sInterrupt_irq taken
    have enabled := possible
    simp only [Hart.takesS, Bool.and_eq_true] at enabled
    obtain ⟨⟨⟨on, -⟩, enable⟩, -⟩ := enabled
    rcases blocks with off | ⟨noTimer, noSoft⟩
    · rw [shut.sie, off] at on
      cases on
    · cases irq with
      | timer =>
        rcases noTimer with off | all
        · rw [show Irq.bit .timer = STI from rfl, shut.stie, off] at enable
          cases enable
        · rw [account.saturated shut.idle all] at possible
          cases possible
      | soft =>
        rw [account.saturated shut.idle noSoft] at possible
        cases possible
  | handler stepped =>
    rw [Core.handlerStep, shut.idle] at stepped
    cases stepped

/-- The one delivery of the timer interrupt is about to be taken, or the handler counts it, or it
is counted. -/
def Delivers (c : Core) : Prop :=
  (c.handler = none ∧ c.hart.takesS STI = true) ∨
    c.counted .timer + uncounted .timerIrq c.handler = 1

theorem takesS_below {h h' : Hart} {i : Nat} (below : h.Below h') (other : i ≠ MTI)
    (kept : h.mip.getLsbD i = true → h'.mip.getLsbD i = true) (taken : h.takesS i = true) :
    h'.takesS i = true := by
  simp only [Hart.takesS, Bool.and_eq_true] at taken ⊢
  obtain ⟨⟨⟨on, pending⟩, enable⟩, delegated⟩ := taken
  refine ⟨⟨⟨?_, kept pending⟩, ?_⟩, ?_⟩
  · rw [below.mstatus]
    exact on
  · rw [below.mie i other]
    exact enable
  · rw [below.configured.2]
    exact delegated

theorem Delivers.moves {sink : Sink} {k : Irq → Nat} {c c' : Core} (delivers : Delivers c)
    (account : Account k c) (one : k .timer = 1) (noSoft : k .soft ≤ c.counted .soft)
    (moves : c.Moves sink c') : Delivers c' := by
  have keep : ∀ hart : Hart, c.hart.Below hart → Delivers { c with hart } := by
    intro hart below
    rcases delivers with ⟨idle, taken⟩ | total
    · exact .inl ⟨idle, takesS_below below (by decide) (below.mip .timer) taken⟩
    · right
      rw [← total, Core.counted, Core.counted, below.trap]
  cases moves with
  | mTimer => exact keep _ (below_mTimer sink c.hart)
  | mSoft => exact keep _ (below_mSoft sink c.hart)
  | sInterrupt irq taken =>
    obtain ⟨idle, possible, sepc, handler, -, trap, -⟩ := Core.sInterrupt_irq taken
    have pending := takesS_mip possible
    cases irq with
    | timer =>
      have bound := account.bound .timer
      simp only [Core.owed, pending, acks_none idle, Bool.not_false, Bool.and_true,
        Bool.toNat_true, one] at bound
      have same : c'.counted .timer = c.counted .timer := by rw [Core.counted, Core.counted, trap]
      have now : uncounted .timerIrq c'.handler = 1 := by
        rw [handler]
        rfl
      right
      rw [same, now]
      omega
    | soft =>
      rw [account.saturated idle noSoft] at possible
      cases possible
  | handler stepped =>
    have total : c.counted .timer + uncounted .timerIrq c.handler = 1 := by
      rcases delivers with ⟨idle, -⟩ | total
      · rw [Core.handlerStep, idle] at stepped
        cases stepped
      · exact total
    right
    rcases handlerStep_cases stepped with
      ⟨finished, rfl⟩ | ⟨effect, rest, hart, running, applied, rfl⟩
    · rw [finished] at total
      exact total
    · have small : (c.hart.trap.value (Irq.counter .timer)).toNat < 2 ^ 32 - 1 := by
        show c.counted .timer < _
        omega
      have now : (hart.trap.value .timerIrq).toNat = (c.hart.trap.value .timerIrq).toNat +
          if effect = .count .timerIrq then 1 else 0 := counted_applyS .timer applied small
      rw [running, uncounted_cons] at total
      simp only [Core.counted, Irq.counter] at total ⊢
      omega

/-- What a test sees when no trap comes first and the timer's delivery was due. -/
theorem Delivers.ready {c : Core} (delivers : Delivers c) (idle : c.handler = none)
    (quiet : c.hart.takesS STI = false) : c.counted .timer = 1 := by
  rcases delivers with ⟨-, taken⟩ | total
  · rw [quiet] at taken
    cases taken
  · rw [idle] at total
    exact total

/-- Once an interrupt has been counted, `last_irq_cause` names it. -/
structure LastIs (irq : Irq) (c : Core) : Prop where
  counted : c.counted irq ≠ 0 → c.hart.trap.lastIrqCause = irq.cause
  counting : ∀ rest, c.handler = some (.count irq.counter :: rest) →
    c.hart.trap.lastIrqCause = irq.cause

theorem applyS_last {sink : Sink} {frame : BitVec 64} {h h' : Hart} {effect : SEffect}
    (other : ∀ value, effect ≠ .lastIrqCause value)
    (applied : h.applyS sink frame effect = some h') :
    h'.trap.lastIrqCause = h.trap.lastIrqCause := by
  cases effect with
  | lastIrqCause value => exact absurd rfl (other value)
  | count counter =>
    cases applied
    cases counter <;> rfl
  | ecall a7 a0 =>
    cases applied
    exact congrArg TrapState.lastIrqCause (foldl_applyM_configured _ h).2
  | testFail => cases applied
  | _ =>
    cases applied
    rfl

theorem LastIs.effect {sink : Sink} {k : Irq → Nat} {irq : Irq} {c : Core} {e : SEffect}
    {rest : List SEffect} {hart : Hart} {frame : BitVec 64} (last : LastIs irq c)
    (account : Account k c) (noOther : k irq.other ≤ c.counted irq.other)
    (running : c.handler = some (e :: rest)) (applied : c.hart.applyS sink frame e = some hart) :
    LastIs irq ⟨hart, some rest⟩ := by
  have shape := account.shape
  have bound := account.bound irq
  have boundOther := account.bound irq.other
  have small := account.small irq
  rw [Core.owed] at bound boundOther
  rw [running] at shape boundOther
  have now := counted_applyS irq applied (by
    show c.counted irq < _
    omega)
  -- an effect that neither counts the interrupt nor comes right before that
  have plain : (∀ value, e ≠ .lastIrqCause value) → e ≠ .count irq.counter →
      (∀ more, rest ≠ .count irq.counter :: more) → LastIs irq ⟨hart, some rest⟩ := by
    intro notLast notCount notNext
    have same := applyS_last notLast applied
    rw [if_neg notCount] at now
    constructor
    · intro some
      have before : c.counted irq ≠ 0 := by
        intro zero
        exact some (now.trans zero)
      exact same.trans (last.counted before)
    · intro more next
      exact absurd (Option.some.inj next) (notNext more)
  generalize whole : some (e :: rest) = handler at shape
  cases shape with
  | idle => cases whole
  | irq irq' stval sepc n =>
    obtain ⟨rfl, here⟩ := Irq.drop_cases (Option.some.inj whole).symm
    rcases irq.eq_or_other irq' with rfl | rfl
    · rcases here with ⟨rfl, rfl⟩ | ⟨rfl, rfl⟩ | ⟨rfl, rfl⟩ | ⟨rfl, rfl⟩ | ⟨rfl, rfl⟩ | ⟨rfl, rfl⟩
      · exact plain (fun _ same => by cases same) (fun same => by cases same)
          (by cases irq' <;> exact fun _ same => by cases same)
      · exact plain (fun _ same => by cases same) (by cases irq' <;> decide)
          (by cases irq' <;> exact fun _ same => by cases same)
      · exact plain (fun _ same => by cases same) (by cases irq' <;> decide)
          (by cases irq' <;> exact fun _ same => by cases same)
      · cases applied
        exact ⟨fun _ => rfl, fun _ _ => rfl⟩
      · have cause := (applyS_last (fun _ same => by cases same) applied).trans
          (last.counting _ running)
        exact ⟨fun _ => cause, fun _ _ => cause⟩
      · exact plain (by cases irq' <;> exact fun _ same => by cases same)
          (by cases irq' <;> exact fun same => by cases same) (fun _ same => by cases same)
    · -- the other handler has counted its interrupt
      have late : 5 ≤ n := by
        by_contra early
        have owed : 1 ≤ uncounted irq.other.counter (some (e :: (irq.other.effects stval sepc).drop
            (n + 1))) := by
          rw [whole]
          exact Nat.le_of_eq (Irq.uncounted_drop irq.other stval sepc (by omega)).symm
        omega
      rcases here with ⟨rfl, -⟩ | ⟨rfl, -⟩ | ⟨rfl, -⟩ | ⟨rfl, -⟩ | ⟨rfl, -⟩ | ⟨rfl, rfl⟩
      · omega
      · omega
      · omega
      · omega
      · omega
      · exact plain (by cases irq <;> exact fun _ same => by cases same)
          (by cases irq <;> exact fun same => by cases same) (fun _ same => by cases same)
  | fault mild =>
    cases whole
    have mildE := mild e List.mem_cons_self
    refine plain ?_ (SEffect.neutral_ne (SEffect.mild_neutral mildE) irq).2 ?_
    · rintro value rfl
      cases mildE
    · rintro more rfl
      have next := mild _ (List.mem_cons_of_mem e List.mem_cons_self)
      cases irq <;> cases next

theorem LastIs.moves {sink : Sink} {k : Irq → Nat} {irq : Irq} {c c' : Core} (last : LastIs irq c)
    (account : Account k c) (noOther : k irq.other ≤ c.counted irq.other)
    (moves : c.Moves sink c') : LastIs irq c' := by
  have keep : ∀ hart : Hart, hart.trap = c.hart.trap → LastIs irq { c with hart } := by
    intro hart trap
    constructor
    · simp only [Core.counted, trap]
      exact last.counted
    · simp only [trap]
      exact last.counting
  cases moves with
  | mTimer => exact keep _ (below_mTimer sink c.hart).trap
  | mSoft => exact keep _ (below_mSoft sink c.hart).trap
  | sInterrupt irq' taken =>
    obtain ⟨idle, possible, sepc, handler, -, trap, -⟩ := Core.sInterrupt_irq taken
    constructor
    · simp only [Core.counted, trap]
      exact last.counted
    · intro rest running
      rw [handler] at running
      cases running
  | handler stepped =>
    rcases handlerStep_cases stepped with
      ⟨finished, rfl⟩ | ⟨effect, rest, hart, running, applied, rfl⟩
    · exact ⟨last.counted, fun _ running => by cases running⟩
    · exact last.effect account noOther running applied

end ZephyrRiscv
